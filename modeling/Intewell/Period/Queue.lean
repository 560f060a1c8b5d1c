/-
# The queues of the periodic tasks as difference-coded queues

The first difference of a queue counts from the instant at which its counters were set.
Read from now it is what is left of the counter (`Queue.rest`), and then inserting and
taking out are those of a difference-coded queue (`Queue.rest_insert`, `Queue.rest_exact`):
the counters never show.  Deleting a node without more ado is one only for the last task
of a queue, and for one that is not the first and waits no longer than the task before it
(`Queue.rest_unlink`).
-/

import Intewell.Period.Basic

namespace Intewell.Period.Queue

open List Prod
open DeltaQueue (times delay remove stops_lt)

variable {τ : Type*} {q : Queue τ} {t : τ} {b w : ℕ}

/-- The queue with its first difference counted from now. -/
def rest (q : Queue τ) : List (τ × ℕ) := q.chain.modifyHead fun x => (x.1, q.curentTicks)

/-- The counters are those of the first task. -/
def Ok (q : Queue τ) : Prop :=
  ∀ x ∈ q.chain.head?, q.ticks = x.2 ∧ q.curentTicks ≤ x.2 ∧ (q.curentTicks = 0 → x.2 = 0)

/-- No task of the queue is due at `b`. -/
def Future (l : List (τ × ℕ)) (b : ℕ) : Prop := ∀ x ∈ times b l, b < x.2

theorem map_fst_rest (q : Queue τ) : q.rest.map fst = q.chain.map fst := by
  rcases hq : q.chain with _ | ⟨x, l⟩ <;> simp [rest, hq]

variable {l : List (τ × ℕ)}

theorem ok_cons {h : τ} {d ticks curentTicks : ℕ} : Ok ⟨(h, d) :: l, ticks, curentTicks⟩ ↔
      ticks = d ∧ curentTicks ≤ d ∧ (curentTicks = 0 → d = 0) := by
  simp [Ok]

theorem ok_of_chain_nil (h : q.chain = []) : Ok q := by simp [Ok, h]

theorem Future.pos (hf : Future q.rest b) (hne : q.chain ≠ []) : 0 < q.curentTicks := by
  rcases hq : q.chain with _ | ⟨x, l⟩
  · exact absurd hq hne
  · have := hf (x.1, b + q.curentTicks) (by simp [rest, hq])
    simpa using this

theorem future_cons {x : τ} (hw : 0 < w) : Future ((x, w) :: l) b :=
  fun _ hy => DeltaQueue.lt_of_mem_times_cons hw hy

theorem future_nil : Future ([] : List (τ × ℕ)) b := fun _ hy => absurd hy not_mem_nil

theorem future_insert (hf : Future l b) (hw : w ≠ 0) :
    Future (DeltaQueue.insert (· < ·) t w l) b := by
  intro x hx
  rcases (DeltaQueue.mem_times_insert stops_lt).1 hx with rfl | hx
  · exact Nat.lt_add_of_pos_right (Nat.pos_of_ne_zero hw)
  · exact hf x hx

theorem setTick_spec {x : τ × ℕ} (hq : q.chain = x :: l) (hx : x.2 ≠ 0) :
    (q.setTick x.2).rest = q.chain ∧ Ok (q.setTick x.2) := by
  simp [setTick, rest, Ok, hx, hq]

variable [DecidableEq τ]

theorem insertWaited_zero (t : τ) (w : ℕ) (l : List (τ × ℕ)) :
    (ttosInsertWaitedPeriodTask t w l 0).2 = DeltaQueue.insert (· < ·) t w l := by
  have hl : (l.modifyHead fun x => (x.1, x.2 - 0)) = l := by cases l <;> rfl
  simp only [ttosInsertWaitedPeriodTask, hl]
  rcases DeltaQueue.insert (· < ·) t w l with _ | ⟨⟨h, d⟩, l'⟩
  · rfl
  · dsimp only
    split_ifs <;> rfl

/-- **A task is inserted among the instants of the others.** -/
theorem rest_insert (hq : Ok q) (hw : w ≠ 0) (ht : ¬q.has t) :
    (q.insert t w).rest = DeltaQueue.insert (· < ·) t w q.rest ∧ Ok (q.insert t w) := by
  obtain ⟨chain, ticks, curentTicks⟩ := q
  rcases chain with _ | ⟨⟨h, d⟩, l⟩
  · simp [insert, ttosInsertWaitedPeriodTask, DeltaQueue.insert, setTick, hw, rest, Ok]
  · obtain ⟨rfl, hc, h0⟩ := ok_cons.1 hq
    have hne : h ≠ t := fun h => ht (by simp [has, h])
    have hcur : ticks - (ticks - curentTicks) = curentTicks := by omega
    by_cases hlt : w < curentTicks
    · simp [insert, ttosInsertWaitedPeriodTask, DeltaQueue.insert, setTick, rest, Ok, hcur, hlt, hw]
    · have hback : curentTicks + (ticks - curentTicks) = ticks := by omega
      simp only [insert, ttosInsertWaitedPeriodTask, modifyHead_cons, hcur, DeltaQueue.insert,
        hlt, if_false, hne, setTick, ne_eq, not_true_eq_false, hback, rest, true_and]
      exact ok_cons.2 ⟨rfl, hc, h0⟩

/-- Nothing has been waited for the first task of the queue. -/
def Fresh (q : Queue τ) : Prop := q.chain ≠ [] → q.curentTicks = q.ticks

omit [DecidableEq τ] in
theorem restart_of_fresh (hq : Ok q) (hf : Fresh q) : q.restart = q := by
  obtain ⟨chain, ticks, curentTicks⟩ := q
  rcases chain with _ | ⟨⟨h, d⟩, l⟩
  · rfl
  · obtain ⟨rfl, -⟩ := ok_cons.1 hq
    obtain rfl : curentTicks = ticks := hf (by simp)
    rfl

theorem restart_insertWaited (hq : Ok q) (hf : Fresh q) (hw : w ≠ 0) (ht : ¬q.has t) :
    restart { q with chain := (ttosInsertWaitedPeriodTask t w q.chain 0).2 } = q.insert t w := by
  obtain ⟨chain, ticks, curentTicks⟩ := q
  rcases chain with _ | ⟨⟨h, d⟩, l⟩
  · simp [restart, insert, ttosInsertWaitedPeriodTask, DeltaQueue.insert, setTick, hw]
  · obtain ⟨rfl, -⟩ := ok_cons.1 hq
    obtain rfl : curentTicks = ticks := hf (by simp)
    have hne : h ≠ t := fun h => ht (by simp [has, h])
    by_cases hlt : w < curentTicks
    · simp [restart, insert, ttosInsertWaitedPeriodTask, DeltaQueue.insert, setTick, hlt, hw]
    · simp [restart, insert, ttosInsertWaitedPeriodTask, DeltaQueue.insert, setTick, hlt, hne]

/-- **A task is taken out of the instants of the others.** -/
theorem rest_exact (hq : Ok q) (hf : Future q.rest b) :
    (q.exact t).rest = remove t q.rest ∧ Ok (q.exact t) := by
  obtain ⟨chain, ticks, curentTicks⟩ := q
  rcases chain with _ | ⟨⟨h, d⟩, l⟩
  · simp [exact, ttosExactWaitedPeriodTask, setTick, rest, Ok, remove]
  · obtain ⟨rfl, hc, h0⟩ := ok_cons.1 hq
    have hpos : 0 < curentTicks := hf.pos (by simp)
    by_cases hht : h = t
    · rcases l with _ | ⟨⟨x, e⟩, l⟩
      · simp [exact, ttosExactWaitedPeriodTask, setTick, rest, Ok, remove, delay, hht]
      · have hnew : e + ticks - (ticks - curentTicks) = e + curentTicks := by omega
        have hne : e + curentTicks ≠ 0 := by omega
        simp only [exact, ttosExactWaitedPeriodTask, hht, if_true, hnew, setTick, ne_eq, hne,
          not_false_eq_true, rest, modifyHead_cons, remove, delay, true_and]
        exact ok_cons.2 ⟨rfl, le_rfl, id⟩
    · simp only [exact, ttosExactWaitedPeriodTask, hht, if_false, setTick, ne_eq,
        not_true_eq_false, rest, modifyHead_cons, remove, true_and]
      exact ok_cons.2 ⟨rfl, hc, h0⟩

/-- The task is the last of the queue, or it is not the first and waits no longer than the
task before it. -/
def Harmless (t : τ) (q : Queue τ) : Prop :=
  (∃ l d, q.chain = l ++ [(t, d)]) ∨ ∃ x l₁ l₂, q.chain = x :: l₁ ++ (t, 0) :: l₂

theorem eraseP_eq_remove {d : ℕ} {l l' : List (τ × ℕ)} (hl : t ∉ l.map fst)
    (hd : l' = [] ∨ d = 0) : (l ++ (t, d) :: l').eraseP (fun x => decide (x.1 = t)) =
      remove t (l ++ (t, d) :: l') := by
  induction l with
  | nil =>
    rcases hd with rfl | rfl
    · simp [remove, delay]
    · cases l' <;> simp [remove, delay]
  | cons x l ih =>
    rw [map_cons, mem_cons, not_or] at hl
    have hx : x.1 ≠ t := fun h => hl.1 h.symm
    rw [cons_append, eraseP_cons_of_neg (by simpa using hx), remove,
      if_neg hx, ih hl.2]

/-- **A deletion that is harmless** takes the task out of the instants of the others. -/
theorem rest_unlink (hq : Ok q) (hn : (q.chain.map fst).Nodup) (hh : Harmless t q) :
    (q.unlink t).rest = remove t q.rest ∧ Ok (q.unlink t) := by
  obtain ⟨chain, ticks, curentTicks⟩ := q
  -- behind the first task, which stays
  have behind {h : τ} {e : ℕ} {l l' : List (τ × ℕ)} {d : ℕ}
      (hc : chain = (h, e) :: (l ++ (t, d) :: l')) (hd : l' = [] ∨ d = 0) :
      (unlink t ⟨chain, ticks, curentTicks⟩).rest = remove t (rest ⟨chain, ticks, curentTicks⟩) ∧
      Ok (unlink t ⟨chain, ticks, curentTicks⟩) := by
    subst hc
    have hkeys : t ∉ ((h, e) :: l).map fst := by
      rw [← cons_append, map_append] at hn
      exact fun h => (nodup_append.1 hn).2.2 t h t (by simp) rfl
    rw [map_cons, mem_cons, not_or] at hkeys
    have hne : h ≠ t := fun h => hkeys.1 h.symm
    simp only [unlink, eraseP_cons, hne, decide_false, cond_false,
      eraseP_eq_remove hkeys.2 hd, rest, modifyHead_cons, remove, if_false, true_and]
    exact ok_cons.2 (ok_cons.1 hq)
  rcases hh with ⟨_ | ⟨⟨h, e⟩, l⟩, d, hc⟩ | ⟨⟨h, e⟩, l1, l2, hc⟩
  · obtain rfl : chain = [(t, d)] := hc
    simp [unlink, rest, Ok, remove, delay]
  · exact behind hc (.inl rfl)
  · exact behind hc (.inr rfl)

theorem unlink_of_not_has (ht : ¬q.has t) : q.unlink t = q := by
  have h : ∀ x ∈ q.chain, ¬decide (x.1 = t) = true := by
    intro x hx
    simpa using ne_of_mem_of_not_mem (mem_map_of_mem hx) ht
  rw [unlink, eraseP_of_forall_not h]

/-! ## A tick -/

section

omit [DecidableEq τ]

theorem countedDown_nil (hq : q.chain = []) : (countedDown q).chain = [] := by
  simp only [countedDown, countDown, modify]
  split_ifs <;> simp [hq]

/-- **A tick moves no instant**: what was left of the first wait is one less, a tick
later. -/
theorem countedDown_spec (hq : Ok q) (hf : Future q.rest b) :
    Ok (countedDown q) ∧ times (b + 1) (countedDown q).rest = times b q.rest := by
  obtain ⟨chain, ticks, curentTicks⟩ := q
  rcases chain with _ | ⟨⟨h, d⟩, l⟩
  · have hnil := countedDown_nil (q := ⟨([] : List (τ × ℕ)), ticks, curentTicks⟩) rfl
    exact ⟨ok_of_chain_nil hnil, by simp [rest, hnil]⟩
  · obtain ⟨rfl, hc, -⟩ := ok_cons.1 hq
    have hpos : 0 < curentTicks := hf.pos (by simp)
    by_cases h1 : 1 < curentTicks
    · have : b + 1 + (curentTicks - 1) = b + curentTicks := by omega
      simp only [countedDown, countDown, ne_eq, hpos.ne', not_false_eq_true, if_true, gt_iff_lt, h1,
        Bool.false_eq_true, if_false, rest, modifyHead_cons, DeltaQueue.times_cons, this, and_true]
      exact ok_cons.2 ⟨rfl, by omega, by omega⟩
    · obtain rfl : curentTicks = 1 := by omega
      simp [countedDown, countDown, modify, rest, Ok]

/-- What `ttosPeriodQueueMerge` finds: whether the first task is due. -/
theorem merge_spec (hq : Ok q) : q.merge.2 = q ∧ (q.merge.1 = false → Future q.rest b) ∧
      (q.merge.1 = true → ∃ t l, q.chain = (t, 0) :: l ∧ q.rest = q.chain) := by
  obtain ⟨chain, ticks, curentTicks⟩ := q
  rcases chain with _ | ⟨⟨h, d⟩, l⟩
  · simp [merge, rest, future_nil]
  · obtain ⟨rfl, hc, h0⟩ := ok_cons.1 hq
    by_cases hd : ticks = 0
    · obtain rfl : curentTicks = 0 := by omega
      simp [merge, hd, rest]
    · have hpos : 0 < curentTicks := Nat.pos_of_ne_zero fun h => hd (h0 h)
      simp only [merge, hd, if_false, rest, modifyHead_cons, Bool.false_eq_true, true_and,
        false_implies, and_true]
      exact fun _ => future_cons hpos

theorem chain_eq_rest (hq : Ok q) (hr : q.rest = (t, 0) :: l) : q.chain = q.rest := by
  obtain ⟨chain, ticks, curentTicks⟩ := q
  rcases chain with _ | ⟨⟨h, d⟩, l'⟩
  · rfl
  · obtain ⟨-, -, h0⟩ := ok_cons.1 hq
    simp only [rest, modifyHead_cons, List.cons.injEq, Prod.mk.injEq] at hr
    simp [rest, h0 hr.1.2, hr.1.2]

theorem future_of_countDown (hq : Ok q) (hf : Future q.rest b) (hc : q.countDown.1 = false) :
    Future (countedDown q).rest (b + 1) := by
  obtain ⟨chain, ticks, curentTicks⟩ := q
  rcases chain with _ | ⟨⟨h, d⟩, l⟩
  · rw [rest, countedDown_nil rfl]
    exact future_nil
  · have hpos : 0 < curentTicks := hf.pos (by simp)
    by_cases h1 : 1 < curentTicks
    · simp only [countedDown, countDown, ne_eq, hpos.ne', not_false_eq_true, if_true, gt_iff_lt, h1,
        Bool.false_eq_true, if_false, rest, modifyHead_cons]
      exact future_cons (by omega)
    · simp [countDown, hpos.ne', h1] at hc

end

end Intewell.Period.Queue
