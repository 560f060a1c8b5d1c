/-
# What the loops of futex_wake and futex_requeue do

Both scans take the first so many waiters of a kind out of a chain (`Intewell.Lib.Select`), the
first to wake their tasks, the second to put them behind a chain, which may be the one that is
scanned.  A bound that is not positive is none (`budget`).
-/

import Intewell.Futex.Basic

namespace Intewell.Futex

open Waiter List Nat
open Function (update)
open Sched Select

/-- How many waiters a loop may take out of a chain of length `n`. -/
def budget (number : ℤ) (n : ℕ) : ℕ := if 0 < number then number.toNat else n

/-- `k` waiters may still be taken out of a chain of length `n` when `c` have been. -/
structure Room (number : ℤ) (c n k : ℕ) : Prop where
  bounded : 0 < number → 0 < k ∧ (k : ℤ) = number - c
  unbounded : number ≤ 0 → n ≤ k

theorem room_budget (number : ℤ) (n : ℕ) : Room number 0 n (budget number n) := by
  constructor
  · intro h
    rw [budget, if_pos h]
    omega
  · intro h
    rw [budget, if_neg (by omega)]

variable {number : ℤ} {c n k : ℕ}

theorem Room.shrink (h : Room number c (n + 1) k) : Room number c n k :=
  ⟨h.bounded, fun hn => by have := h.unbounded hn; omega⟩

theorem Room.last (h : Room number c n k) (hb : number > 0 ∧ (c + 1 : ℤ) ≥ number) : k = 1 := by
  have := h.bounded hb.1
  omega

theorem Room.take (h : Room number c (n + 1) k) (hb : ¬(number > 0 ∧ (c + 1 : ℤ) ≥ number)) :
    ∃ k', k = k' + 1 ∧ Room number (c + 1) n k' := by
  have h1 := h.bounded
  have h2 := h.unbounded
  refine ⟨k - 1, by omega, fun hn => ?_, fun hn => ?_⟩ <;> omega

variable {τ : Type*}

theorem wakeLoop_eq [DecidableEq τ] {p : Waiter τ → Prop} [DecidablePred p] {l : List (Waiter τ)}
    {m : Manager τ} (h : Room number c l.length k) : wakeLoop p number l c m =
      (left p k l, c + (picked p k l).length, ((picked p k l).map task).foldl wakeTask m) := by
  induction l generalizing c k m with
  | nil => simp [wakeLoop]
  | cons q l ih =>
    by_cases hq : p q
    · by_cases hb : number > 0 ∧ (c + 1 : ℤ) ≥ number
      · obtain rfl := h.last hb
        simp [wakeLoop, hq, hb, left_cons_of_pos hq, picked_cons_of_pos hq]
      · obtain ⟨k', rfl, hr⟩ := h.take hb
        rw [wakeLoop, if_pos hq, if_neg hb, ih hr, left_cons_of_pos hq, picked_cons_of_pos hq]
        simp only [length_cons, map_cons, foldl_cons, add_assoc, add_comm 1]
    · rw [wakeLoop, if_neg hq, ih h.shrink, left_cons_of_neg hq, picked_cons_of_neg hq]

/-- A waiter as it is moved. -/
def Waiter.rekey (key : Key) (q : Waiter τ) : Waiter τ := { q with key := key }

section

variable {key1 key2 : Key} {hne : key1 ≠ key2} {kept l l' moved : List (Waiter τ)}

theorem moveLoop_pass {same : Bool} (hl : ∀ q ∈ l, ¬q.On key1) :
    moveLoop hne same number kept l moved c = (kept ++ l, moved, c) := by
  induction l generalizing kept with
  | nil => simp [moveLoop]
  | cons q l ih =>
    obtain ⟨hq, hl⟩ := forall_mem_cons.1 hl
    rw [moveLoop, if_neg hq, ih hl, append_assoc, singleton_append]

theorem moveLoop_apart (h : Room number c l.length k) : moveLoop hne false number kept l moved c =
      (kept ++ left (Waiter.On key1) k l, moved ++ (picked (Waiter.On key1) k l).map (rekey key2),
        c + (picked (Waiter.On key1) k l).length) := by
  induction l generalizing kept moved c k with
  | nil => simp [moveLoop]
  | cons q l ih =>
    by_cases hq : q.On key1
    · by_cases hb : number > 0 ∧ (c + 1 : ℤ) ≥ number
      · obtain rfl := h.last hb
        rw [moveLoop, if_pos hq, if_pos hb, left_cons_of_pos hq, picked_cons_of_pos hq]
        simp [rekey]
      · obtain ⟨k', rfl, hr⟩ := h.take hb
        rw [moveLoop, if_pos hq, if_neg hb, if_neg Bool.false_ne_true, ih hr, left_cons_of_pos hq,
          picked_cons_of_pos hq]
        simp [rekey, add_assoc, add_comm 1]
    · rw [moveLoop, if_neg hq, ih h.shrink, left_cons_of_neg hq, picked_cons_of_neg hq]
      simp

/-- In one chain: `l` is what has not been seen, and `l'` what has been moved behind it. -/
theorem moveLoop_same (h : Room number c l.length k) (hl' : ∀ q ∈ l', ¬q.On key1) :
    moveLoop hne true number kept (l ++ l') moved c = (kept ++ (left (Waiter.On key1) k l ++
          (l' ++ (picked (Waiter.On key1) k l).map (rekey key2))),
        moved, c + (picked (Waiter.On key1) k l).length) := by
  induction l generalizing kept l' c k with
  | nil => simp [moveLoop_pass hl']
  | cons q l ih =>
    by_cases hq : q.On key1
    · have hl'' : ∀ r ∈ l' ++ [q.rekey key2], ¬r.On key1 := by
        intro r hr
        rcases mem_append.1 hr with hr | hr
        · exact hl' r hr
        · rw [mem_singleton.1 hr]
          exact hne.symm
      by_cases hb : number > 0 ∧ (c + 1 : ℤ) ≥ number
      · obtain rfl := h.last hb
        rw [cons_append, moveLoop, if_pos hq, if_pos hb, left_cons_of_pos hq, picked_cons_of_pos hq]
        simp [rekey]
      · obtain ⟨k', rfl, hr⟩ := h.take hb
        rw [cons_append, moveLoop, if_pos hq, if_neg hb, if_pos rfl, left_cons_of_pos hq,
          picked_cons_of_pos hq]
        -- whether the cursor has reached the head of the list
        cases hll : l ++ l' with
        | nil =>
          obtain ⟨rfl, rfl⟩ := append_eq_nil_iff.1 hll
          simp [rekey]
        | cons r l2 =>
          have hstep : moveLoop hne true number kept (l ++ (l' ++ [q.rekey key2])) moved (c + 1) =
            _ :=
            ih hr hl''
          rw [← append_assoc, hll] at hstep
          refine Eq.trans hstep ?_
          simp [add_assoc, add_comm 1]
    · rw [cons_append, moveLoop, if_neg hq, ih h.shrink hl', left_cons_of_neg hq,
        picked_cons_of_neg hq]
      simp

end

/-! ## The tasks -/

/-- The task waits for nothing, and is ready unless something else keeps it from running. -/
structure Rested (c : Tcb) : Prop where
  waits : c.state &&& TTOS_TASK_WAITING = 0
  ready : c.state &&& TTOS_TASK_NONRUNNING_STATE = 0 → c.state &&& TTOS_TASK_READY ≠ 0

variable [DecidableEq τ] {m : Manager τ} {s : Tasks τ} {t u : τ}

theorem unlinkNode_tcb : (unlinkNode t m).tcb = m.tcb := by
  unfold unlinkNode ttosExactWaitedTask
  split_ifs <;> rfl

theorem ttosClearTaskWaiting_state : let x := (s.tcb t).state &&& ~~~TTOS_TASK_WAITING
    ((ttosClearTaskWaiting t s).tcb t).state = x ∧
        (x &&& TTOS_TASK_NONRUNNING_STATE = 0 → x &&& (TTOS_TASK_READY ||| TTOS_TASK_SUSPEND) ≠ 0) ∨
      ((ttosClearTaskWaiting t s).tcb t).state = x ||| TTOS_TASK_READY := by
  by_cases h1 : (s.tcb t).state &&& ~~~TTOS_TASK_WAITING &&& TTOS_TASK_NONRUNNING_STATE = 0
  · by_cases h2 : (s.tcb t).state &&& ~~~TTOS_TASK_WAITING &&&
        (TTOS_TASK_READY ||| TTOS_TASK_SUSPEND) ≠ 0
    · exact .inl ⟨by simp_all [ttosClearTaskWaiting, ttosSetTaskReady], fun _ => h2⟩
    · exact .inr (by simp_all [ttosClearTaskWaiting, ttosSetTaskReady])
  · exact .inl ⟨by simp_all [ttosClearTaskWaiting], fun h => absurd h h1⟩

theorem clearWaiting_and (x : TaskState) :
    x &&& ~~~TTOS_TASK_WAITING &&& TTOS_TASK_WAITING = 0 := by
  rw [BitVec.and_assoc, show ~~~TTOS_TASK_WAITING &&& TTOS_TASK_WAITING = 0 by decide]
  exact BitVec.and_zero

/-- Among the states that keep a task from running is its suspension. -/
theorem and_suspend_eq_zero {x : TaskState} (h : x &&& TTOS_TASK_NONRUNNING_STATE = 0) :
    x &&& TTOS_TASK_SUSPEND = 0 := by
  rw [show TTOS_TASK_SUSPEND = TTOS_TASK_NONRUNNING_STATE &&& TTOS_TASK_SUSPEND by decide,
    ← BitVec.and_assoc, h]
  exact BitVec.zero_and

theorem rested_ttosClearTaskWaiting : Rested ((ttosClearTaskWaiting t s).tcb t) := by
  have hw := clearWaiting_and (s.tcb t).state
  rcases ttosClearTaskWaiting_state (t := t) with ⟨hx, hr⟩ | hx
  · constructor
    · rw [hx, hw]
    · intro h
      rw [hx] at h ⊢
      have hrs := hr h
      rw [BitVec.and_or_distrib_left, and_suspend_eq_zero h] at hrs
      simpa using hrs
  · constructor
    · rw [hx, BitVec.and_or_distrib_right, hw]
      decide
    · intro _ h
      rw [hx] at h
      have := congrArg (BitVec.getLsbD · 1) h
      simp [TTOS_TASK_READY] at this

theorem wakeTask_tcb_of_ne (h : u ≠ t) : (wakeTask m t).tcb u = m.tcb u := by
  simp only [wakeTask]
  rw [ttosClearTaskWaiting_tcb_of_ne h, unlinkNode_tcb]
  exact Function.update_of_ne h ..

theorem wakeAll_tcb_of_notMem {ts : List τ} (h : t ∉ ts) :
    (ts.foldl wakeTask m).tcb t = m.tcb t := by
  induction ts generalizing m with
  | nil => rfl
  | cons u ts ih =>
    obtain ⟨hu, ht⟩ := ne_and_not_mem_of_not_mem_cons h
    rw [foldl_cons, ih ht, wakeTask_tcb_of_ne hu]

theorem rested_wakeAll {ts : List τ} (h : t ∈ ts) : Rested ((ts.foldl wakeTask m).tcb t) := by
  induction ts generalizing m with
  | nil => cases h
  | cons u ts ih =>
    by_cases ht : t ∈ ts
    · exact ih ht
    · obtain rfl := (mem_cons.1 h).resolve_right ht
      rw [foldl_cons, wakeAll_tcb_of_notMem ht]
      exact rested_ttosClearTaskWaiting

end Intewell.Futex
