/-
# Completions

ttos_WaitCompletion, TTOS_ReleaseCompletion, and what ends a wait besides: the tick that it
expires at (ttosTickNotify.c) and a signal (signal_send.c).  The kernel lock is held throughout a
call, so that it is one step, or two if it waits.

As long as nothing but a release ends a wait, the waits that return TTOS_OK are matched with
releases (`completion_matched`).  A wait that ends otherwise returns TTOS_OK as well: nobody looks
at how the task has left the queue (`completion_breaks`).
-/

import Intewell.Lib.Exec
import Intewell.Lib.Matching

namespace Intewell.Completion

open Relation List
open Function (update)

def TTOS_WAIT_FOREVER : ℕ := 0xFFFFFFFF

/-- `TTOS_COMPLETION_WAIT` and `TTOS_COMPLETION_DONE`. -/
inductive Flag where
  | wait | done
deriving DecidableEq, Repr

inductive ReturnCode where
  | TTOS_OK | TTOS_TIMEOUT | TTOS_SIGNAL_INTR | TTOS_RESOURCE_IN_USE | TTOS_INVALID_ID
  | TTOS_CALLED_FROM_ISR | TTOS_INVALID_USER
deriving DecidableEq, Repr

open ReturnCode

/-- Of `T_TTOS_TaskControlBlock`: `timed` if the task is in the tick queue, `interruptible` if
its state has `TTOS_TASK_INTERRUPTIBLE_BY_SIGNAL`; `returnCode` is `wait.returnCode`. -/
structure Tcb where
  isIdle : Bool
  timed : Bool
  interruptible : Bool
  returnCode : ReturnCode

/-- How a task has left the wait queue. -/
inductive End where
  | released | expired | interrupted
deriving DecidableEq, Repr

/-- `T_TTOS_CompletionControl` and the tasks; `resuming` has those that have left the queue and
have not run since. -/
structure State (τ : Type*) where
  flag : Flag
  waitQueue : List τ
  tcb : τ → Tcb
  resuming : List (τ × End)

variable {τ : Type*} [DecidableEq τ]

/-- A task leaves the queue, to run again. -/
def leave (t : τ) (how : End) (s : State τ) : State τ :=
  { s with
    waitQueue := s.waitQueue.erase t
    resuming := (t, how) :: s.resuming }

def ttosEnqueueTaskq (t : τ) (ticks : ℕ) (is_interruptible : Bool) (s : State τ) : State τ :=
  { s with
    waitQueue := s.waitQueue ++ [t]
    tcb := update s.tcb t
      { s.tcb t with
        timed := ticks ≠ TTOS_WAIT_FOREVER
        interruptible := is_interruptible } }

/-- The code of a call that is refused.  `comp` is false for NULL. -/
def waitRefused (comp isISR isIdle : Bool) : Option ReturnCode :=
  if comp = false then some TTOS_INVALID_ID
  else if isISR then some TTOS_CALLED_FROM_ISR
  else if isIdle then some TTOS_INVALID_USER
  else none

/-- Up to where the call returns a code, or the task waits. -/
def ttos_WaitCompletion (comp isISR : Bool) (task : τ) (ticks : ℕ) (is_interruptible : Bool)
    (s : State τ) : Option ReturnCode × State τ :=
  match waitRefused comp isISR (s.tcb task).isIdle with
  | some code => (some code, s)
  | none =>
    match s.flag with
    | .done => (some TTOS_OK, { s with flag := .wait })
    | .wait =>
      if s.waitQueue ≠ [] then (some TTOS_RESOURCE_IN_USE, s)
      else if ticks = 0 then (some TTOS_TIMEOUT, s)
      else (none, { ttosEnqueueTaskq task ticks is_interruptible s with flag := .wait })

/-- What follows the wait in `ttos_WaitCompletion`. -/
def resume (t : τ) (how : End) (s : State τ) : ReturnCode × State τ :=
  (TTOS_OK, { s with resuming := s.resuming.erase (t, how) })

def TTOS_ReleaseCompletion (comp : Bool) (s : State τ) : State τ :=
  if comp = false then s
  else
    match s.flag with
    | .done => s
    | .wait =>
      match s.waitQueue with
      | t :: _ => leave t .released s
      | [] => { s with flag := .done }

/-- A tick or a signal ends a wait. -/
def interrupt (code : ReturnCode) (how : End) (t : τ) (s : State τ) : State τ :=
  leave t how { s with tcb := update s.tcb t { s.tcb t with returnCode := code } }

/-! ## Runs -/

inductive Op (τ : Type*) where
  | wait (comp isISR : Bool) (t : τ) (ticks : ℕ) (is_interruptible : Bool)
  | release (comp : Bool)
  | expire (t : τ)
  | signal (t : τ) (kill : Bool)
  | resume (t : τ) (how : End)

/-- What may happen: calls are made by tasks that run; only a wait that is timed expires; a
signal other than SIGKILL and SIGSTOP ends only a wait that is interruptible. -/
def Op.Possible (s : State τ) : Op τ → Prop
  | wait _ isISR t _ _ => isISR = true ∨ t ∉ s.waitQueue ∧ ∀ r ∈ s.resuming, r.1 ≠ t
  | release _ => True
  | expire t => t ∈ s.waitQueue ∧ (s.tcb t).timed = true
  | signal t kill => t ∈ s.waitQueue ∧ (kill = true ∨ (s.tcb t).interruptible = true)
  | resume t how => (t, how) ∈ s.resuming

/-- The code that is returned, if a wait ends with the step. -/
def Op.run (s : State τ) : Op τ → Option ReturnCode × State τ
  | wait comp isISR t ticks is_interruptible =>
    ttos_WaitCompletion comp isISR t ticks is_interruptible s
  | release comp => (none, TTOS_ReleaseCompletion comp s)
  | expire t => (none, interrupt TTOS_TIMEOUT .expired t s)
  | signal t _ => (none, interrupt TTOS_SIGNAL_INTR .interrupted t s)
  | resume t how => (some (Completion.resume t how s).1, (Completion.resume t how s).2)

/-- What the history has: a release, `kept` if it has woken a task or is remembered; and the
code of a wait, with how it ended if the task had to wait. -/
inductive Event (τ : Type*) where
  | release (kept : Bool)
  | returned (t : τ) (how : Option End) (code : ReturnCode)
deriving DecidableEq

def Event.isKept : Event τ → Bool
  | release kept => kept
  | returned _ _ _ => false

def Event.isOk : Event τ → Bool
  | release _ => false
  | returned _ _ code => code = TTOS_OK

/-- The state and the history; `spare` if there was a release that found no task, and no wait
since. -/
structure World (τ : Type*) where
  st : State τ
  log : List (Event τ)
  spare : Bool

/-- The world after a step. -/
def Op.after (w : World τ) (s' : State τ) : Op τ → Option ReturnCode → World τ
  | wait comp isISR t _ _, code =>
    { st := s'
      log := w.log ++ (code.map (Event.returned t none)).toList
      spare :=
        if waitRefused comp isISR (w.st.tcb t).isIdle = none then false else w.spare }
  | release comp, _ =>
    { st := s'
      log := w.log ++ [.release (comp && w.st.flag = .wait)]
      spare := w.spare || (comp && w.st.waitQueue = []) }
  | resume t how, code =>
    { w with
      st := s'
      log := w.log ++ (code.map (Event.returned t (some how))).toList }
  | _, _ => { w with st := s' }

/-- Nothing but a release ends a wait. -/
def Op.Calm : Op τ → Prop
  | expire _ => False
  | signal _ _ => False
  | _ => True

/-- A step, with a condition on it. -/
inductive Step (ok : Op τ → Prop) : World τ → World τ → Prop
  | op (w : World τ) (op : Op τ) (hp : op.Possible w.st) (hok : ok op) :
    Step ok w (op.after w (op.run w.st).2 (op.run w.st).1)

open Matching (Covered At)

/-- **What a completion is for.**  Each wait that returned `TTOS_OK` has a release of its own
before it, in order; a wait whose time ran out returned `TTOS_TIMEOUT`; and a release that found
no task is remembered, so that the next wait returns at once. -/
structure Matched (w : World τ) : Prop where
  matching : ∃ f : ℕ → ℕ, (∀ i, At Event.isOk w.log i → At Event.isKept w.log (f i) ∧ f i < i) ∧
    ∀ i j, At Event.isOk w.log i → At Event.isOk w.log j → i < j → f i < f j
  expired : ∀ t code, Event.returned t (some .expired) code ∈ w.log → code = TTOS_TIMEOUT
  remembered : w.spare = true → ∀ t ticks is_interruptible,
    waitRefused true false (w.st.tcb t).isIdle = none →
      (ttos_WaitCompletion true false t ticks is_interruptible w.st).1 = some TTOS_OK

variable {w w₀ : World τ} {s : State τ}

/-- The releases that are remembered. -/
def Flag.held : Flag → ℕ
  | wait => 0
  | done => 1

/-- What holds of a run: the kept releases are those of the waits that returned `TTOS_OK`, of
the tasks that are on their way back, and the one that is remembered. -/
structure Sound (w : World τ) : Prop where
  alone : w.st.flag = .done → w.st.waitQueue = []
  spare : w.spare = true ↔ w.st.flag = .done
  released : ∀ r ∈ w.st.resuming, r.2 = .released
  balance : w.log.countP Event.isKept =
    w.log.countP Event.isOk + w.st.resuming.length + w.st.flag.held
  covered : Covered Event.isKept Event.isOk w.log
  expired : ∀ t code, Event.returned t (some .expired) code ∉ w.log

namespace Sound

section
variable (h : Sound w)
include h

open Event

section

omit [DecidableEq τ]

theorem concat {s' : State τ} {e : Event τ} {b : Bool} (ha : s'.flag = .done → s'.waitQueue = [])
    (hs : b = true ↔ s'.flag = .done) (hr : ∀ r ∈ s'.resuming, r.2 = .released)
    (hb : (w.log ++ [e]).countP isKept =
      (w.log ++ [e]).countP isOk + s'.resuming.length + s'.flag.held)
    (he : ∀ t code, e ≠ .returned t (some .expired) code) : Sound ⟨s', w.log ++ [e], b⟩ where
  alone := ha
  spare := hs
  released := hr
  balance := hb
  covered := h.covered.concat (by omega)
  expired t code hm := by
    rcases mem_append.1 hm with hm | hm
    · exact h.expired t code hm
    · exact he t code (mem_singleton.1 hm).symm

/-- A wait that is refused, or ends without the completion. -/
theorem failed {t : τ} {code : ReturnCode} (hc : code ≠ TTOS_OK) :
    Sound ⟨w.st, w.log ++ [.returned t none code], w.spare⟩ := by
  refine h.concat h.alone h.spare h.released ?_ fun t' code' => by simp
  simpa [isKept, isOk, hc] using h.balance

end

theorem wait (comp isISR : Bool) (t : τ) (ticks : ℕ) (is_interruptible : Bool) :
    Sound ((Op.wait comp isISR t ticks is_interruptible).after w
      ((Op.wait comp isISR t ticks is_interruptible).run w.st).2
      ((Op.wait comp isISR t ticks is_interruptible).run w.st).1) := by
  have hbal := h.balance
  simp only [Op.run, Op.after, ttos_WaitCompletion]
  cases hR : waitRefused comp isISR (w.st.tcb t).isIdle with
  | some code =>
    have hc : code ≠ TTOS_OK := by
      rintro rfl
      unfold waitRefused at hR
      split_ifs at hR <;> cases hR
    exact h.failed hc
  | none =>
    cases hf : w.st.flag with
    | done =>
      refine h.concat (fun hd => by cases hd) (by simp) h.released ?_ fun t' code' => by simp
      simp only [hf, Flag.held] at hbal
      simp [isKept, isOk, Flag.held]
      omega
    | wait =>
      have hs : w.spare = false := by simpa [hf] using not_congr h.spare
      by_cases hq : w.st.waitQueue = []
      · by_cases ht : ticks = 0
        · simpa [hq, ht, hs] using h.failed (show TTOS_TIMEOUT ≠ TTOS_OK by decide)
        · simp only [hq, ht, ne_eq, not_true_eq_false, if_false, if_true, Option.map_none,
            Option.toList_none, append_nil]
          refine ⟨by simp, by simp, h.released, ?_, h.covered, h.expired⟩
          simpa [ttosEnqueueTaskq, hf] using hbal
      · simpa [hq, hs] using h.failed (show TTOS_RESOURCE_IN_USE ≠ TTOS_OK by decide)

theorem release (comp : Bool) : Sound ((Op.release comp).after w ((Op.release comp).run w.st).2
      ((Op.release comp).run w.st).1) := by
  have hbal := h.balance
  simp only [Op.run, Op.after, TTOS_ReleaseCompletion]
  cases comp with
  | false =>
    refine h.concat h.alone (by simpa using h.spare) h.released ?_ fun t' code' => by simp
    simpa [isKept, isOk] using hbal
  | true =>
    cases hf : w.st.flag with
    | done =>
      refine h.concat h.alone ?_ h.released ?_ fun t' code' => by simp
      · simp [h.spare.2 hf, hf]
      · simpa [isKept, isOk, hf] using hbal
    | wait =>
      have hs : w.spare = false := by simpa [hf] using not_congr h.spare
      simp only [hf, Flag.held] at hbal
      cases hq : w.st.waitQueue with
      | nil =>
        refine h.concat (by simp) (by simp) h.released ?_ fun t' code' => by simp
        simp [isKept, isOk, Flag.held]
        omega
      | cons t ts =>
        refine h.concat ?_ ?_ ?_ ?_ fun t' code' => by simp
        · simp [leave, hf]
        · simp [leave, hf, hs]
        · intro r hr
          rcases mem_cons.1 hr with rfl | hr
          · rfl
          · exact h.released r hr
        · simp [leave, hf, isKept, isOk, Flag.held]
          omega

theorem resume {t : τ} {how : End} (hp : (t, how) ∈ w.st.resuming) :
    Sound ((Op.resume t how).after w ((Op.resume t how).run w.st).2
      ((Op.resume t how).run w.st).1) := by
  have hbal := h.balance
  have hlen := length_erase_of_mem hp
  have hpos := length_pos_of_mem hp
  obtain rfl : how = .released := h.released _ hp
  refine h.concat h.alone h.spare (fun r hr => h.released r (mem_of_mem_erase hr)) ?_
    fun t' code' => by simp
  simp only [countP_append, countP_singleton, isKept, isOk, Op.run, Completion.resume, hlen]
  simp
  omega

theorem step {op : Op τ} (hp : op.Possible w.st) (hc : op.Calm) :
    Sound (op.after w (op.run w.st).2 (op.run w.st).1) := by
  cases op with
  | wait => exact h.wait ..
  | release => exact h.release _
  | expire => exact hc.elim
  | signal => exact hc.elim
  | resume => exact h.resume hp

end

end Sound

theorem Sound.matched (h : Sound w) : Matched w where
  matching := h.covered.exists_matching fun e he => by
    cases e with
    | release kept => cases he
    | returned => rfl
  expired t code hm := absurd hm (h.expired t code)
  remembered hs t ticks is_interruptible hr := by
    simp [ttos_WaitCompletion, hr, h.spare.1 hs]

/-- **Waits that return `TTOS_OK` are matched with releases**, in every run in which nothing but
a release ends a wait. -/
theorem completion_matched (hf : w₀.st.flag = .wait) (hq : w₀.st.resuming = []) (hl : w₀.log = [])
    (hs : w₀.spare = false) (h : ReflTransGen (Step Op.Calm) w₀ w) : Matched w := by
  have hsound : Sound w := by
    induction h with
    | refl =>
      refine ⟨fun hd => ?_, by simp [hf, hs], by simp [hq], by simp [hl, hq, hf, Flag.held],
        ?_, by simp [hl]⟩
      · rw [hf] at hd
        cases hd
      · rw [hl]
        exact Matching.covered_nil
    | tail _ hstep ih =>
      obtain ⟨op, hp, hok⟩ := hstep
      exact ih.step hp hok
  exact hsound.matched

/-! ## Runs on fixed inputs -/

instance (s : State τ) : (op : Op τ) → Decidable (op.Possible s)
  | .wait .. => inferInstanceAs (Decidable (_ ∨ _ ∧ _))
  | .release _ => inferInstanceAs (Decidable True)
  | .expire _ => inferInstanceAs (Decidable (_ ∧ _))
  | .signal .. => inferInstanceAs (Decidable (_ ∧ (_ ∨ _)))
  | .resume t how => inferInstanceAs (Decidable ((t, how) ∈ s.resuming))

instance : DecidablePred (Op.Calm (τ := τ))
  | .wait .. | .release _ | .resume .. => inferInstanceAs (Decidable True)
  | .expire _ | .signal .. => inferInstanceAs (Decidable False)

/-- The step of an operation, if it is possible and meets a condition. -/
def next (ok : Op τ → Prop) [DecidablePred ok] (w : World τ) (op : Op τ) : Option (World τ) :=
  if op.Possible w.st ∧ ok op then some (op.after w (op.run w.st).2 (op.run w.st).1) else none

theorem step_of_next {ok : Op τ → Prop} [DecidablePred ok] (w : World τ) (op : Op τ)
    (w' : World τ) (h : next ok w op = some w') : Step ok w w' := by
  unfold next at h
  split_ifs at h with hp
  exact Option.some.inj h ▸ .op w op hp.1 hp.2

/-- A completion as `TTOS_InitCompletion` leaves it, and two tasks. -/
def twoTasks : World (Fin 2) where
  st :=
    { flag := .wait
      waitQueue := []
      tcb := fun _ =>
        { isIdle := false
          timed := false
          interruptible := false
          returnCode := TTOS_OK }
      resuming := [] }
  log := []
  spare := false

/-- A release that is remembered, and one that is waited for. -/
theorem completion_matched_two : ∃ w, ReflTransGen (Step Op.Calm) twoTasks w ∧ Matched w ∧
      w.log = [.release true, .returned 0 none TTOS_OK, .release true,
        .returned 1 (some .released) TTOS_OK] := by
  obtain ⟨w, hw, hl⟩ : ∃ w, ReflTransGen (Step Op.Calm) twoTasks w ∧
      w.log = [.release true, .returned 0 none TTOS_OK, .release true,
        .returned 1 (some .released) TTOS_OK] :=
    exists_exec step_of_next [.release true, .wait true false 0 5 true, .wait true false 1 5 true,
      .release true, .resume 1 .released] (by decide +kernel)
  exact ⟨w, hw, completion_matched rfl rfl rfl rfl hw, hl⟩

/-- **A wait that has run out of time returns `TTOS_OK`,** and so does one that a signal has
ended: without any release. -/
theorem completion_breaks : (∃ w, ReflTransGen (Step fun _ => True) twoTasks w ∧
      w.log = [.returned 0 (some .expired) TTOS_OK] ∧ ¬Matched w) ∧
    ∃ w, ReflTransGen (Step fun _ => True) twoTasks w ∧
      w.log = [.returned 0 (some .interrupted) TTOS_OK] ∧ ¬Matched w := by
  have hbad (how : End) (w : World (Fin 2)) (h : w.log = [.returned 0 (some how) TTOS_OK]) :
      ¬Matched w := by
    rintro ⟨⟨f, hf, -⟩, -, -⟩
    exact Nat.not_lt_zero _ (hf 0 (by rw [h]; rfl)).2
  constructor
  · obtain ⟨w, hw, hl⟩ : ∃ w, ReflTransGen (Step fun _ => True) twoTasks w ∧
        w.log = [.returned 0 (some .expired) TTOS_OK] :=
      exists_exec step_of_next [.wait true false 0 5 true, .expire 0, .resume 0 .expired]
        (by decide +kernel)
    exact ⟨w, hw, hl, hbad .expired w hl⟩
  · obtain ⟨w, hw, hl⟩ : ∃ w, ReflTransGen (Step fun _ => True) twoTasks w ∧
        w.log = [.returned 0 (some .interrupted) TTOS_OK] :=
      exists_exec step_of_next
        [.wait true false 0 5 true, .signal 0 false, .resume 0 .interrupted] (by decide +kernel)
    exact ⟨w, hw, hl, hbad .interrupted w hl⟩

end Intewell.Completion
