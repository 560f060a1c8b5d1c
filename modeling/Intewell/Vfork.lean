/-
# vfork

do_fork with CLONE_VFORK (fork.c) from where it has activated the child, and the child until it has
executed execve (execve.c) or exited (exit.c) and its control block is released.  The completion is
on the stack of the parent; the child finds it by `vfork_done`.

If the child does not look at `vfork_done` before the parent has initialised the completion, the
parent waits exactly until then (`vfork_resumes`).  But the child runs earlier: the parent then
waits for ever, or writes to a control block that is released (`vfork_left_waiting`).
-/

import Intewell.Completion

namespace Intewell.Vfork

open Completion Option

/-- What the parent does next; it has returned from do_fork in the end. -/
inductive Parent where
  | publish | init | wait | waiting | returned
deriving DecidableEq

inductive End where
  | execve | exit
deriving DecidableEq

/-- `execed` once the child has executed execve; `releasing` when it has taken `vfork_done`. -/
inductive Child where
  | running (execed : Bool) | releasing (e : End) | exited
deriving DecidableEq

/-- `freed` once the control block of the child is released; `releases` counts the calls of
`TTOS_ReleaseCompletion`. -/
structure World where
  parent : Parent
  child : Child
  vfork_done : Bool
  vfork : State Unit
  freed : Bool
  releases : ℕ

def End.past : End → Child
  | execve => .running true
  | exit => .exited

inductive Op where
  | publish | init | wait | resume | look (e : End) | release | reap

/-- A step of the parent, or of the child: `complete_vfork_done` is a look at `vfork_done`, which
takes it, and the release. -/
def Op.run (w : World) : Op → Option World
  | publish => if w.parent = .publish then
      some { w with vfork_done := true, parent := .init } else none
  | init => if w.parent = .init then
      some { w with vfork := { w.vfork with flag := .wait, waitQueue := [] }, parent := .wait }
    else none
  | wait => if w.parent = .wait then
      let r := ttos_WaitCompletion true false () TTOS_WAIT_FOREVER false w.vfork
      some { w with vfork := r.2, parent := if r.1 = none then .waiting else .returned }
    else none
  | resume => if w.parent = .waiting ∧ ((), .released) ∈ w.vfork.resuming then
      some { w with vfork := (Completion.resume () .released w.vfork).2, parent := .returned }
    else none
  | look e => match w.child with
    | .running _ =>
      if w.vfork_done then some { w with vfork_done := false, child := .releasing e }
      else some { w with child := e.past }
    | _ => none
  | release => match w.child with
    | .releasing e => some { w with
        vfork := TTOS_ReleaseCompletion true w.vfork
        child := e.past
        releases := w.releases + 1 }
    | _ => none
  | reap => if w.child = .exited then some { w with freed := true } else none

/-- The child looks only when the completion is initialised. -/
def Ready (w : World) : Op → Prop
  | .look _ => w.parent ≠ .publish ∧ w.parent ≠ .init
  | _ => True

/-- The parent, which is not the idle task, has activated the child; the completion is whatever
was on the stack. -/
structure Activated (w : World) : Prop where
  parent : w.parent = .publish
  child : w.child = .running false
  vfork_done : w.vfork_done = false
  running : w.vfork.resuming = [] ∧ (w.vfork.tcb ()).isIdle = false
  fresh : w.freed = false ∧ w.releases = 0

/-- The child has executed execve or exited, and has woken its parent. -/
def Child.Past (c : Child) : Prop := c = .running true ∨ c = .exited

structure Right (w : World) : Prop where
  resumed : w.child.Past → () ∉ w.vfork.waitQueue
  not_before : w.parent = .returned → w.child.Past
  once : w.releases ≤ 1
  alive : ∀ e, w.child = .releasing e → w.parent = .wait ∨ w.parent = .waiting
  allocated : w.parent = .publish → w.freed = false

/-- The child has not released the completion yet. -/
def Pending (w : World) (queue : List Unit) : Prop :=
  w.vfork.flag = .wait ∧ w.vfork.waitQueue = queue ∧ w.vfork.resuming = [] ∧ w.releases = 0 ∧
    (w.child = .running false ∧ w.vfork_done = true ∨
      (∃ e, w.child = .releasing e) ∧ w.vfork_done = false)

/-- The child has released it. -/
def Woken (w : World) : Prop :=
  w.child.Past ∧ w.vfork_done = false ∧ w.vfork.waitQueue = [] ∧ w.releases = 1

/-- What holds at each place of the parent. -/
def Inv (w : World) : Prop :=
  (w.vfork.tcb ()).isIdle = false ∧ match w.parent with
  | .publish | .init => w.child = .running false ∧ w.vfork_done = (w.parent = .init) ∧
      w.vfork.resuming = [] ∧ w.freed = false ∧ w.releases = 0
  | .wait => Pending w [] ∨ Woken w ∧ w.vfork.flag = .done
  | .waiting => Pending w [()] ∨ Woken w ∧ w.vfork.resuming = [((), .released)]
  | .returned => Woken w

theorem Pending.not_past {w : World} {queue : List Unit} (h : Pending w queue) : ¬w.child.Past := by
  obtain ⟨-, -, -, -, ⟨hc, -⟩ | ⟨⟨e, hc⟩, -⟩⟩ := h <;> simp [Child.Past, hc]

theorem Woken.not_releasing {w : World} (h : Woken w) (e : End) : w.child ≠ .releasing e := by
  intro he
  simpa [Child.Past, he] using h.1

/-- The parent is in `wait`: the child has not released the completion, or has. -/
theorem right_of_wait {w : World} {queue : List Unit} (hp : w.parent = .wait ∨ w.parent = .waiting)
    (h : Pending w queue ∨ Woken w) : Right w where
  resumed hc := by
    obtain h | h := h
    · exact absurd hc h.not_past
    · simp [h.2.2.1]
  not_before hr := by simp [hr] at hp
  once := h.elim (fun h => by simp [h.2.2.2.1]) fun h => h.2.2.2.le
  alive _ _ := hp
  allocated hr := by simp [hr] at hp

theorem Inv.right {w : World} (h : Inv w) : Right w := by
  obtain ⟨-, h⟩ := h
  cases hp : w.parent with
  | publish | init =>
    simp only [hp] at h
    obtain ⟨hc, -, -, hf, hr⟩ := h
    exact ⟨by simp [hc, Child.Past], by simp [hp], by simp [hr], by simp [hc], fun _ => hf⟩
  | wait =>
    simp only [hp] at h
    exact right_of_wait (.inl hp) (h.imp_right And.left)
  | waiting =>
    simp only [hp] at h
    exact right_of_wait (.inr hp) (h.imp_right And.left)
  | returned =>
    simp only [hp] at h
    exact ⟨fun _ => by simp [h.2.2.1], fun _ => h.1, h.2.2.2.le,
      fun e he => absurd he (h.not_releasing e), by simp [hp]⟩

theorem Inv.step {w w' : World} (op : Op) (h : Inv w) (hok : Ready w op) (hr : op.run w = some w') :
    Inv w' := by
  cases op with
  | publish =>
    obtain ⟨hp, hw⟩ := ite_none_right_eq_some.1 hr
    cases hw
    simp_all [Inv]
  | init =>
    obtain ⟨hp, hw⟩ := ite_none_right_eq_some.1 hr
    cases hw
    simp_all [Inv, Pending]
  | wait =>
    obtain ⟨hp, hw⟩ := ite_none_right_eq_some.1 hr
    cases hw
    simp only [Inv, hp] at h
    obtain ⟨hidle, h | ⟨h, hf⟩⟩ := h
    · simp_all [Inv, Pending, ttos_WaitCompletion, waitRefused, ttosEnqueueTaskq, TTOS_WAIT_FOREVER]
    · simp_all [Inv, Woken, ttos_WaitCompletion, waitRefused]
  | resume =>
    obtain ⟨⟨hp, hmem⟩, hw⟩ := ite_none_right_eq_some.1 hr
    cases hw
    simp only [Inv, hp] at h
    obtain ⟨hidle, h | ⟨h, hf⟩⟩ := h
    · simp_all [Pending]
    · simp_all [Inv, Woken, resume]
  | look e =>
    simp only [Op.run] at hr
    split at hr
    · split at hr <;> cases hr <;> cases e <;> cases hp : w.parent <;>
        simp_all [Inv, Pending, Woken, Child.Past, End.past, Ready]
    · cases hr
  | release =>
    simp only [Op.run] at hr
    split at hr
    · cases hr
      cases hp : w.parent <;> cases ‹End› <;>
        simp_all [Inv, Pending, Woken, Child.Past, End.past, TTOS_ReleaseCompletion, leave]
    · cases hr
  | reap =>
    obtain ⟨hp, hw⟩ := ite_none_right_eq_some.1 hr
    cases hw
    cases hp : w.parent <;> simp_all [Inv, Pending, Woken, Child.Past]

/-- The parent waits until the child has executed execve or exited. -/
theorem vfork_resumes {w₀ w : World} (h₀ : Activated w₀) (h : Reaches Op.run Ready w₀ w) :
    Right w := by
  obtain ⟨hp, hc, hd, hr, hf⟩ := h₀
  exact (h.invariant (I := Inv) (by simp_all [Inv]) fun _ op _ hi => hi.step op).right

def start : World :=
  ⟨.publish, .running false, false, ⟨.wait, [], fun _ => ⟨false, false, false, .TTOS_OK⟩, []⟩,
    false, 0⟩

instance (w : World) (op : Op) : Decidable (Ready w op) := by
  unfold Ready
  split <;> infer_instance

theorem vfork_resumes_after_exit :
    ∃ w, Reaches Op.run Ready start w ∧ w.parent = .returned ∧ Right w := by
  have h : ∃ w, Reaches Op.run Ready start w ∧ w.parent = .returned :=
    exists_reach [.publish, .init, .wait, .look .exit, .release, .resume] (by decide)
  obtain ⟨w, hw, hp⟩ := h
  exact ⟨w, hw, hp, vfork_resumes ⟨rfl, rfl, rfl, ⟨rfl, rfl⟩, rfl, rfl⟩ hw⟩

/-- The child executes execve before the parent publishes the completion; or it exits, and its
control block is released. -/
theorem vfork_left_waiting :
    (∃ w, Reaches Op.run (fun _ _ => True) start w ∧ w.child = .running true ∧
      () ∈ w.vfork.waitQueue) ∧
    ∃ w, Reaches Op.run (fun _ _ => True) start w ∧ w.parent = .publish ∧ w.freed = true :=
  ⟨exists_reach [.look .execve, .publish, .init, .wait] (by decide),
    exists_reach [.look .exit, .reap] (by decide)⟩

end Intewell.Vfork
