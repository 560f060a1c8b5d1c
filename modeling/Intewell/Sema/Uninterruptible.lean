/-
# Waits that no signal cuts short

A task that waits without TTOS_TASK_INTERRUPTIBLE_BY_SIGNAL is to leave its queue only when the
object is released to it or its time is over.  `task_is_interruptible` lets SIGKILL and SIGSTOP
wake it all the same (signal_send.c): it returns TTOS_SIGNAL_INTR, and the mutex that it has waited
for is another task's.  `uninterruptible_waits` says what holds as long as neither comes to such a
task: of a task in any wait queue, and of the calls for a semaphore or a mutex.  The signals that
reach the wait queue of a semaphore are those that `signal_send` wakes its tasks for (`Mirrors`).
-/

import Intewell.Sema.Mutex
import Intewell.Signal.JobControl

namespace Intewell.Sema.Uninterruptible

open Signal.JobControl State Signal Function
open Relation (ReflTransGen)
open ReturnCode

/-! ## Signals -/

section

variable {θ ι : Type*} [DecidableEq θ] {g g' : Group θ ι} {v : θ}

/-- A task that is in a wait queue and is not interruptible. -/
def Waits (c : Signal.Task) : Prop := c.waiting = true ∧ c.interruptible = false

/-- The thread that is told of a signal. -/
def receiver (flag : Target) (u : θ) (signo : ℤ) (info : ι) (g : Group θ ι) : Option θ :=
  (signal_queue flag u ⟨signo.toNat, info⟩ (signal_send_prepare u signo g).2).1

/-- A signal is sent to a thread or to its process; while `v` waits uninterruptibly, SIGKILL and
SIGSTOP come to other threads only. -/
inductive Sends (v : θ) : Group θ ι → Group θ ι → Prop
  | send {g : Group θ ι} (malloced : Bool) (u : θ) (signo : ℤ) (info : ι) (flag : Target)
    (hk : Waits (g.thread v).task → signo = Signal.SIGKILL ∨ signo = Signal.SIGSTOP →
      receiver flag u signo info g ≠ some v) :
    Sends v g (Signal.signal_send malloced u signo info flag g).2

theorem Waits.resume {c : Signal.Task} (h : Waits c) : Waits c.TTOS_SignalResumeTask := by
  unfold Signal.Task.TTOS_SignalResumeTask Signal.Task.TTOS_ResumeTask Signal.Task.ttosSetTaskReady
  dsimp only
  split_ifs <;> exact h

theorem Waits.prepare (h : Waits (g.thread v).task) (u : θ) (signo : ℤ) :
    Waits ((signal_send_prepare u signo g).2.thread v).task := by
  have hcontinue : Waits ((signal_prepare_continue g).thread v).task := by
    by_cases hv : v ∈ g.thread_group
    · rw [task_prepare_continue hv]
      exact h.resume
    · simpa [signal_prepare_continue, signal_resume_thread_group, Group.modifyAll,
        sigqueue_remove_private, sigqueue_remove_shared, hv] using h
  have hstop : Waits ((signal_prepare_stop g).thread v).task :=
    (task_remove (g := g)).symm ▸ h
  unfold signal_send_prepare signal_prepare_send
  dsimp only
  split_ifs <;> assumption

/-- A signal changes the task of its receiver only. -/
theorem task_deliver_of_ne {flag : Target} {u : θ} {e : Entry ι}
    (hne : (signal_queue flag u e g).1 ≠ some v) :
    ((signal_deliver flag u e g).thread v).task = (g.thread v).task := by
  unfold signal_deliver
  dsimp only
  split
  · rename_i r hr
    have hv : v ≠ r := fun he => hne (hr.trans (congrArg some he.symm))
    have hq : ((signal_queue flag u e g).2.thread v).task = (g.thread v).task := task_queue
    simpa [signal_notify_target, Group.modify, hv] using hq
  · exact task_queue

theorem Waits.sends (h : Waits (g.thread v).task) (hs : Sends v g g') :
    Waits (g'.thread v).task := by
  obtain ⟨malloced, u, signo, info, flag, hk⟩ := hs
  replace hk := hk h
  have hp := h.prepare u signo
  have hvalid := valid_of_send_prepare u signo g
  unfold receiver at hk
  unfold signal_send
  generalize signal_send_prepare u signo g = r at hp hvalid hk ⊢
  obtain ⟨_ | ret, g1⟩ := r
  · dsimp only at hp hk ⊢
    split_ifs
    · by_cases hkill : signo = Signal.SIGKILL ∨ signo = Signal.SIGSTOP
      · rw [task_deliver_of_ne (hk hkill)]
        exact hp
      have hq : Signal.JobControl.Queued signo.toNat g1
          (signal_deliver flag u ⟨signo.toNat, info⟩ g1) :=
        queued_deliver (e := ⟨signo.toNat, info⟩) (hvalid rfl)
      rcases hq.task v with he | ⟨-, hi⟩
      · exact he.symm ▸ hp
      · simp only [Signal.Task.task_is_interruptible, hp.2, Signal.SIGKILL, Signal.SIGSTOP,
          Bool.or_false, Bool.or_eq_true, beq_iff_eq] at hi hkill
        omega
    · exact hp
  · exact hp

end

/-! ## Calls -/

variable {σ τ : Type*} [DecidableEq σ] [DecidableEq τ] {s s' : State σ τ} {t u : τ} {m : σ}
  {w w₀ : World σ τ} {op : Op σ τ} {code : Option ReturnCode}

/-- How a task waits. -/
def Tcb.flags (c : Tcb) : ReturnCode × Bool × Bool := (c.returnCode, c.timed, c.interruptible)

def flags (s : State σ τ) (t : τ) : ReturnCode × Bool × Bool := Tcb.flags (s.tcb t)

/-- No function touches that but where a wait begins or ends. -/
theorem flags_edits (h : Edits m s s') : flags s' = flags s := by
  have hset {s : State σ τ} (u : τ) {c : Tcb} (hc : Tcb.flags c = flags s u) :
      flags (s.setTcb u c) = flags s := funext (update_proj Tcb.flags hc)
  induction h with
  | refl => rfl
  | @tail s1 _ _ h ih =>
    rw [← ih]
    cases h with
    | sema | leave => rfl
    | tcb t n => exact hset t rfl
    | prio t p => exact hset t rfl

theorem wait_tcb (t : τ) (m : σ) (ticks : ℕ) (i p : Bool) (s : State σ τ) :
    ((wait t m ticks i p s).tcb t).returnCode = TTOS_OK ∧
      ∀ u ≠ t, (wait t m ticks i p s).tcb u = s.tcb u := by
  simp only [wait]
  split_ifs
  · exact ⟨by simp [setTcb], fun u hu => by simp [setTcb, hu]⟩
  · refine ⟨?_, fun u hu => ?_⟩
    · simp [ttosEnqueueTaskq, setTcb, setSema]
    · simp [ttosEnqueueTaskq, setTcb, setSema, hu]

/-! ## Runs -/

/-- **The condition on a run**: that on calls for mutexes, and that a signal ends only a wait that
is interruptible. -/
def Spared (s : State σ τ) (op : Op σ τ) : Prop :=
  op.Orderly s ∧ ∀ t m kill, op = .signal t m kill → (s.tcb t).interruptible = true

/-- Why a call may end. -/
def Reason (c : Tcb) : Prop :=
  c.returnCode = TTOS_OK ∨ c.returnCode = TTOS_TIMEOUT ∧ c.timed = true ∨
    c.returnCode = TTOS_SIGNAL_INTR ∧ c.interruptible = true

/-- Those inside have reasons, and those who were inside wait as before. -/
def Reasoned (s s' : State σ τ) : Prop :=
  (∀ m, ∀ t ∈ s'.inside m, Reason (s'.tcb t)) ∧ ∀ m, ∀ t ∈ s.inside m,
  (flags s' t).2 = (flags s t).2

/-- **Each step keeps the reasons**, and how those wait who are inside. -/
theorem Reason.run (hr : ∀ m, ∀ t ∈ s.inside m, Reason (s.tcb t)) (hp : op.Possible s)
    (hok : Spared s op) (h : op.run s = some (code, s')) : Reasoned s s' := by
  -- nobody inside has another code now, or comes in with one
  have quiet (hf : ∀ m, ∀ t ∈ s.inside m, flags s' t = flags s t)
      (hin : ∀ m, ∀ t ∈ s'.inside m, t ∈ s.inside m ∨ (s'.tcb t).returnCode = TTOS_OK) :
      Reasoned s s' := by
    refine ⟨fun m t ht => (hin m t ht).elim (fun h => ?_) .inl, fun m t ht => by rw [hf m t ht]⟩
    have he := hf m t h
    simp only [flags, Tcb.flags, Prod.mk.injEq] at he
    unfold Reason
    rw [he.1, he.2.1, he.2.2]
    exact hr m t h
  have ended {u : τ} {k : σ} {c : ReturnCode} (hu : u ∈ (s.sema k).waitQueue)
      (hc : Reason { s.tcb u with returnCode := c }) (hs : s' = interrupt c u k s) :
      Reasoned s s' := by
    subst hs
    have htcb : (interrupt c u k s).tcb = update s.tcb u { s.tcb u with returnCode := c } := rfl
    have hin : SameInside s (interrupt c u k s) := (inside_setTcb _).trans (inside_leave hu)
    refine ⟨fun m t ht => ?_, fun m t _ => ?_⟩ <;> by_cases hne : t = u
    · rw [htcb, hne, update_self]
      exact hc
    · rw [htcb, update_of_ne hne]
      exact hr m t (hin.mem_iff.1 ht)
    · simp [flags, Tcb.flags, htcb, hne]
    · simp [flags, htcb, hne]
  cases op with
  | obtain isISR u semaID ticks i p =>
    rcases Op.edits_obtain hp h with rfl | ⟨k, rfl, hu, he | ⟨s1, he, rfl⟩⟩
    · exact quiet (fun _ _ _ => rfl) fun _ _ => .inl
    · exact quiet (fun _ t _ => congrFun (flags_edits he) t) fun _ _ ht =>
        .inl (he.inside.mem_iff.1 ht)
    · obtain ⟨hc, hother⟩ := wait_tcb u k ticks i p s1
      obtain ⟨hk, ho⟩ := inside_wait u k ticks i p s1
      refine quiet (fun m t ht => ?_) fun m t ht => ?_
      · rw [← flags_edits he, flags, hother t fun e => hu m (e ▸ ht)]
        rfl
      · by_cases hm : m = k
        · subst hm
          rcases List.mem_cons.1 (hk.mem_iff.1 ht) with rfl | ht
          · exact .inr hc
          · exact .inl (he.inside.mem_iff.1 ht)
        · exact .inl (he.inside.mem_iff.1 ((ho m hm).mem_iff.1 ht))
  | release isISR e semaID =>
    cases h
    rcases semaID with _ | k
    · rcases e with _ | u <;> exact quiet (fun _ _ _ => rfl) fun _ _ => .inl
    · have he := edits_release isISR e k s
      exact quiet (fun _ t _ => congrFun (flags_edits he) t) fun _ _ ht =>
        .inl (he.inside.mem_iff.1 ht)
  | expire u k =>
    cases h
    exact ended hp.1 (.inr (.inl ⟨rfl, hp.2⟩)) rfl
  | signal u k kill =>
    cases h
    exact ended hp.1 (.inr (.inr ⟨rfl, hok.2 u k kill rfl⟩)) rfl
  | resume u k =>
    cases h
    obtain ⟨hm, ho⟩ := inside_resume hp
    refine quiet (fun m t _ => ?_) fun m t ht => .inl ?_
    · simp only [resume]
      split_ifs <;> rfl
    · by_cases hk : m = k
      · subst hk
        exact hm.mem_iff.1 (.tail _ ht)
      · exact (ho m hk).mem_iff.1 ht

/-- The tasks in the wait queues of semaphores, as `signal_send` sees them. -/
structure Mirrors {ι : Type*} (s : State σ τ) (g : Group τ ι) : Prop where
  waiting : ∀ m, ∀ t ∈ (s.sema m).waitQueue, (g.thread t).task.waiting = true
  interruptible : ∀ m, ∀ t ∈ (s.sema m).waitQueue,
    (g.thread t).task.interruptible = (s.tcb t).interruptible

omit [DecidableEq σ] in
/-- **A task that a signal wakes** leaves the wait queue by a step that meets the condition. -/
theorem Mirrors.spared {ι : Type*} {g g' : Group τ ι} (h : Mirrors s g)
    (ht : t ∈ (s.sema m).waitQueue) (hs : Sends t g g')
    (hwoken : (g'.thread t).task.waiting = false)
    (kill : Bool) : (Op.signal t m kill).Possible s ∧ Spared s (.signal t m kill) := by
  have hi : (s.tcb t).interruptible = true := by
    rw [← h.interruptible m t ht]
    by_contra hno
    have hstill := Waits.sends ⟨h.waiting m t ht, by simpa using hno⟩ hs
    rw [hstill.1] at hwoken
    cases hwoken
  refine ⟨⟨ht, .inr hi⟩, trivial, fun t' m' kill' he => ?_⟩
  cases he
  exact hi

/-- What holds of waits between two steps. -/
structure Lasting (w : World σ τ) : Prop where
  /-- A call ends because it has got the semaphore, its time is over, or it is interruptible. -/
  ends : ∀ m, ∀ t ∈ w.st.resuming m, Reason (w.st.tcb t)
  /-- Whether it is timed and interruptible does not change before. -/
  same : ∀ op code s', op.Possible w.st → Spared w.st op → op.run w.st = some (code, s') →
    ∀ m, ∀ t ∈ w.st.inside m, (flags s' t).2 = (flags w.st t).2
  /-- A task that comes back from a wait for a mutex that is neither holds it. -/
  holds : ∀ m, (w.st.sema m).isMutex = true → ∀ t ∈ w.st.resuming m,
    (flags w.st t).2 = (false, false) → (resume t m w.st).1 = TTOS_OK ∧
      ((resume t m w.st).2.sema m).semHolder = some t
  /-- A call that is neither has the mutex at once, or waits so. -/
  call : ∀ m t p, (w.st.sema m).isMutex = true → w.st.Running t → (w.st.tcb t).isIdle = false →
    ¬((w.st.sema m).isPriorityCeiling = true ∧ (w.st.sema m).priorityCeiling > w.st.prio t) →
    (Op.obtain false t (some m) TTOS_WAIT_FOREVER false p).Orderly w.st → ∀ code s',
    TTOS_ObtainSemaWithInterruptFlags false t (some m) TTOS_WAIT_FOREVER false p w.st =
      some (code, s') →
    code = some TTOS_OK ∧ (s'.sema m).semHolder = some t ∨
      code = none ∧ t ∈ (s'.sema m).waitQueue ∧ (flags s' t).2 = (false, false)

theorem lasting (hw : Sound w) (hr : ∀ m, ∀ t ∈ w.st.inside m, Reason (w.st.tcb t)) :
    Lasting w where
  ends m t ht := hr m t (List.mem_append_right _ ht)
  same op code s' hp hok h := (Reason.run hr hp hok h).2
  holds m hm t ht hf := by
    obtain ⟨ht', hi⟩ := Prod.mk.inj hf
    have hok : (w.st.tcb t).returnCode = TTOS_OK := by
      rcases hr m t (List.mem_append_right _ ht) with h | ⟨-, h⟩ | ⟨-, h⟩
      · exact h
      · rw [h] at ht'
        cases ht'
      · rw [h] at hi
        cases hi
    simp only [resume, hok, if_true, true_and]
    exact (Sema.Held.granted (hw.held m hm) t ⟨ht, hok⟩).1
  call m t p hm ht hidle hceil hok code s' h := by
    simp only [TTOS_ObtainSemaWithInterruptFlags, hidle, Bool.false_eq_true, if_false] at h
    cases obtain_cases (hw.held m hm) hm (hok rfl hidle m rfl hm) h with
    | refused =>
      simp only [obtainSema, hceil, if_false, obtainLate] at h
      split_ifs at h with hv hn hz
      · cases h
      · cases h
      · cases hz
      · obtain ⟨_, -, h⟩ := Option.map_eq_some_iff.1 h
        cases h
    | first hl hh =>
      have hq : NotQueued (countDown m w.st) t := notQueued_setSema rfl ht.notQueued
      simp [(own_spec hq m).1]
    | nested hl hh => simp [countDown, setSema, hh]
    | waits hl g hh hne hmay s1 h1 =>
      obtain ⟨⟨q, hq, he⟩, -⟩ := wait_spec t m TTOS_WAIT_FOREVER s1 hmay.2.1
      refine .inr ⟨rfl, ?_, ?_⟩
      · rw [he]
        exact hq.mem_iff.2 (.head _)
      · simp [wait, flags, Tcb.flags, ttosEnqueueTaskq, setTcb, setSema]

/-- **No wait is cut short**, in every run that meets the condition, and in every wait queue by
whatever signals, as long as SIGKILL and SIGSTOP do not come to the task; and a signal that wakes a
task out of the queue of a semaphore is a step that meets the condition. -/
theorem uninterruptible_waits {θ ι : Type*} [DecidableEq θ] {g g' : Group θ ι} {v : θ}
    (hv : Waits (g.thread v).task) (sent : ReflTransGen (Sends v) g g') (h₀ : Created w₀)
    (hin : ∀ m, w₀.st.inside m = []) (run : ReflTransGen (Step Spared) w₀ w) :
    Waits (g'.thread v).task ∧ Lasting w ∧
      ∀ k k' : Group τ ι, Mirrors w.st k → ∀ m, ∀ t ∈ (w.st.sema m).waitQueue, Sends t k k' →
        (k'.thread t).task.waiting = false →
        ∀ kill, (Op.signal t m kill).Possible w.st ∧ Spared w.st (.signal t m kill) := by
  refine ⟨?_, ?_, fun k k' hk m t ht hs hwoken kill => hk.spared ht hs hwoken kill⟩
  · induction sent with
    | refl => exact hv
    | tail _ hs ih => exact ih.sends hs
  · have h : Sound w ∧ ∀ m, ∀ t ∈ w.st.inside m, Reason (w.st.tcb t) := by
      induction run with
      | refl => exact ⟨h₀.sound, fun m t ht => by simp [hin] at ht⟩
      | tail _ hs ih =>
        obtain ⟨op, code, s', hp, hok, hrun⟩ := hs
        refine ⟨ih.1.step (.op _ op code s' hp hok.1 hrun), ?_⟩
        rw [Op.after_st]
        exact (Reason.run ih.2 hp hok hrun).1
    exact lasting h.1 h.2

/-- A thread that waits, alone in its process. -/
def waitsAlone : Group Unit Unit where
  thread_group := [()]
  thread _ := { Signal.Thread.idle with task := ⟨false, true, false, false, false, false, 10⟩ }
  shared := Signal.Queue.init
  sig_action _ := .SIG_DFL
  jobctl := ⟨false, false, 0⟩
  jobctl_stopped := false
  exiting := false

/-- Two threads that wait. -/
def twoWait : Group Bool Unit :=
  { thread_group := [false, true]
    thread := fun _ => waitsAlone.thread ()
    shared := waitsAlone.shared
    sig_action := waitsAlone.sig_action
    jobctl := waitsAlone.jobctl
    jobctl_stopped := false
    exiting := false }

/-- A signal 10 comes to the first thread, and SIGKILL to the second; task 1 waits for a mutex until
task 0 releases it. -/
theorem uninterruptible_waits_released :
    Waits ((Signal.signal_send true true Signal.SIGKILL () .TO_THREAD
      (Signal.signal_send true false 10 () .TO_THREAD twoWait).2).2.thread false).task ∧
      ∃ w, ReflTransGen (Step Spared) (threeTasks .fifo) w ∧ 1 ∈ w.st.resuming true ∧
        Lasting w := by
  have h0 : ReflTransGen (Step Spared) (threeTasks .fifo) _ := .refl
  have h1 := h0.tail (.op _ (.obtain false 0 (some true) TTOS_WAIT_FOREVER false false) _ _
    (.inr fun m => by cases m <;> decide)
    ⟨fun _ _ m hm _ _ => by
      cases hm
      exact ⟨by decide, fun _ => rfl, fun h hh => by cases hh⟩, fun _ _ _ h => by cases h⟩ rfl)
  have h2 := h1.tail (.op _ (.obtain false 1 (some true) TTOS_WAIT_FOREVER false false) _ _
    (.inr fun m => by cases m <;> decide)
    ⟨fun _ _ m hm _ _ => by
      cases hm
      exact ⟨by decide, fun hh => (by cases hh), fun h _ _ =>
        ⟨by decide, rfl, fun hi => by cases hi⟩⟩,
      fun _ _ _ h => by cases h⟩ rfl)
  have h3 := h2.tail (.op _ (.release false (some 0) (some true)) _ _
    (.inr fun t ht m => by cases ht; cases m <;> decide)
    ⟨fun _ m hm _ hh => by
      cases hm
      exact (nomatch hh), fun _ _ _ h => by cases h⟩ rfl)
  have hsent : ReflTransGen (Sends false) twoWait _ :=
    (ReflTransGen.single (.send true false 10 () .TO_THREAD fun _ h => absurd h (by decide))).tail
      (.send true true Signal.SIGKILL () .TO_THREAD fun _ _ => by decide +kernel)
  have h := uninterruptible_waits (v := false) ⟨rfl, rfl⟩ hsent
    (threeTasks_created .fifo) (fun _ => rfl) h3
  exact ⟨h.1, _, h3, by decide, h.2.1⟩

/-- **SIGKILL cuts the wait short**, and the task that returns does not hold the mutex. -/
theorem uninterruptible_wait_killed : Waits (waitsAlone.thread ()).task ∧
      ¬Waits ((Signal.signal_send true () Signal.SIGKILL () .TO_THREAD
        waitsAlone).2.thread ()).task ∧
      ∃ w, ReflTransGen (Step fun _ _ => True) (threeTasks .fifo) w ∧ 1 ∈ w.st.resuming true ∧
        (flags w.st 1).2 = (false, false) ∧ (resume 1 true w.st).1 = TTOS_SIGNAL_INTR ∧
        ((resume 1 true w.st).2.sema true).semHolder = some 0 := by
  refine ⟨⟨rfl, rfl⟩, by unfold Waits; decide +kernel, exists_run
    [.obtain false 0 (some true) TTOS_WAIT_FOREVER false false,
      .obtain false 1 (some true) TTOS_WAIT_FOREVER false false, .signal 1 true true]
    (by decide +kernel)⟩

end Intewell.Sema.Uninterruptible
