/-
# Job control

Stop signals, SIGCONT and the delivery steps of the threads of a group that leaves all signals to
their default.  What is expected of them is `Orderly`: a SIGCONT and a stop signal are never pending
at a time, nor are the two control events; each stop and each continue is reported once; a stopped
group has all its threads suspended, and another group none.

`signal_send` and `stop_process` keep to this only if nothing comes between their parts, and only a
thread that is alone in its group: `stop_process` has the other threads stop by a SIGSTOP of their
own, which each of them reports in its turn (`job_control_orderly`, `job_control_breaks`).
-/

import Intewell.Lib.Exec
import Intewell.Signal.Deliver

namespace Intewell.Signal.JobControl

open List
open Bool (false_ne_true not_eq_false)
open Relation (ReflTransGen)
open Function

variable {θ ι : Type*}

/-- A signal is pending with a thread of the group or shared. -/
def Somewhere (g : Group θ ι) (n : ℕ) : Prop :=
  Has g.shared.sigset_pending n ∨ ∃ t ∈ g.thread_group, Has (g.thread t).sig_queue.sigset_pending n

def suspended (g : Group θ ι) (t : θ) : Bool := (g.thread t).task.suspended

def Report.isStopped : Report × Bool → Bool
  | (.stopped _, _) => true
  | (.continued, _) => false

def Report.isContinued (r : Report × Bool) : Bool := !isStopped r

/-- A world, and how often its group went from running to stopped and back. -/
structure Tally (θ ι : Type*) where
  w : World θ ι
  stops : ℕ
  continues : ℕ

variable [DecidableEq θ]

def Tally.next (r : Tally θ ι) (op : Op θ ι) : Tally θ ι where
  w := op.run r.w
  stops := r.stops + (!r.w.g.jobctl_stopped && (op.run r.w).g.jobctl_stopped).toNat
  continues := r.continues + (r.w.g.jobctl_stopped && !(op.run r.w).g.jobctl_stopped).toNat

inductive TStep (ok : World θ ι → Op θ ι → Prop) : Tally θ ι → Tally θ ι → Prop where
  | step {r} (op : Op θ ι) (hp : op.Possible r.w) (hok : ok r.w op) : TStep ok r (r.next op)

/-- How many threads stand at a point. -/
def standing (w : World θ ι) (p : Pc → Bool) : ℕ := w.g.thread_group.countP fun t => p (w.pc t)

/-- **What is expected of job control.**  A stop is reported right before it is made, and a continue
is owed by the control event or by the thread that took it. -/
structure Orderly (r : Tally θ ι) : Prop where
  signals : ∀ n, is_stop_set n = true → Somewhere r.w.g n → ¬Somewhere r.w.g SIGCONT
  events : ¬(r.w.g.jobctl.stopPending = true ∧ r.w.g.jobctl.continuePending = true)
  stops : r.w.reports.countP Report.isStopped = r.stops + standing r.w (· = .halting)
  continues : r.w.reports.countP Report.isContinued + standing r.w (· = .reporting) +
    r.w.g.jobctl.continuePending.toNat = r.continues
  stopped : r.w.g.jobctl_stopped = true →
    ∀ t ∈ r.w.g.thread_group, suspended r.w.g t = true ∨ r.w.pc t = .suspending
  running : r.w.g.jobctl_stopped = false → ∀ t ∈ r.w.g.thread_group, suspended r.w.g t = false

/-! ## Tasks -/

/-- A task is ready, suspended, or waits. -/
structure TaskOk (c : Task) : Prop where
  suspended : c.suspended = true → c.ready = false ∧ c.isWaiting = false
  ready : c.ready = true → c.isWaiting = false
  sleep : c.ktimerSleep = true → c.waiting = false

namespace TaskOk

variable {c : Task}

section
variable (h : TaskOk c)
include h

theorem clearWaiting :
    TaskOk c.ttosClearTaskWaiting ∧ c.ttosClearTaskWaiting.suspended = c.suspended := by
  obtain ⟨h1, h2, h3⟩ := h
  unfold Task.ttosClearTaskWaiting Task.ttosSetTaskReady
  refine ⟨⟨?_, ?_, ?_⟩, ?_⟩ <;> dsimp only <;> split_ifs <;> simp_all [Task.isWaiting]

theorem resume : TaskOk c.TTOS_SignalResumeTask ∧ c.TTOS_SignalResumeTask.suspended = false := by
  obtain ⟨h1, h2, h3⟩ := h
  unfold Task.TTOS_SignalResumeTask Task.TTOS_ResumeTask Task.ttosSetTaskReady
  refine ⟨⟨?_, ?_, ?_⟩, ?_⟩ <;> dsimp only <;> split_ifs <;> simp_all [Task.isWaiting]

theorem wakeup (hs : c.suspended = false) :
    TaskOk c.signal_wakeup_task ∧ c.signal_wakeup_task.suspended = false := by
  unfold Task.signal_wakeup_task
  split_ifs with hk
  · obtain ⟨h1, h2, h3⟩ := h
    unfold Task.ttosSetTaskReady
    refine ⟨⟨?_, ?_, ?_⟩, ?_⟩ <;> dsimp only <;> split_ifs <;> simp_all [Task.isWaiting]
  · have h' : TaskOk (if c.stopped then c.TTOS_SignalResumeTask else c) ∧
        (if c.stopped then c.TTOS_SignalResumeTask else c).suspended = false := by
      split_ifs
      · exact h.resume
      · exact ⟨h, hs⟩
    simp only [hs, Bool.false_and, Bool.false_eq_true, if_false]
    obtain ⟨h1, h2⟩ := h'.1.clearWaiting
    exact ⟨h1, h2.trans h'.2⟩

theorem suspend (hr : c.ready = true) :
    TaskOk c.TTOS_SignalSuspendTask ∧ c.TTOS_SignalSuspendTask.suspended = true := by
  obtain ⟨h1, h2, h3⟩ := h
  unfold Task.TTOS_SignalSuspendTask Task.TTOS_SuspendTask
  refine ⟨⟨?_, ?_, ?_⟩, ?_⟩ <;> dsimp only <;> split_ifs <;> simp_all [Task.isWaiting]

theorem sleep_of_ready (hr : c.ready = true) : TaskOk c.sleep ∧ c.sleep.suspended = false := by
  obtain ⟨h1, h2, h3⟩ := h
  unfold Task.sleep
  refine ⟨⟨?_, ?_, ?_⟩, ?_⟩ <;> simp_all [Task.isWaiting]

end

theorem wait_of_ready {interruptible : Bool} (h : TaskOk c) (hr : c.ready = true) :
    TaskOk { c with ready := false, waiting := true, interruptible := interruptible } ∧
      c.suspended = false := by
  obtain ⟨h1, h2, h3⟩ := h
  refine ⟨⟨?_, ?_, ?_⟩, ?_⟩ <;> simp_all [Task.isWaiting]

end TaskOk

/-! ## Steps that job control does not see -/

/-- Where a thread is about to stop its group. -/
def stopping : Pc → Bool
  | .stopping _ | .halting | .suspending => true
  | _ => false

/-- Where a thread stands that has nothing to do with job control. -/
def neutral (pc : Pc) : Bool := !stopping pc && pc ≠ .reporting

/-- Nothing becomes pending, and no task changes. -/
structure Still (g g' : Group θ ι) : Prop where
  group : g'.thread_group = g.thread_group
  sig_action : g'.sig_action = g.sig_action
  jobctl : g'.jobctl = g.jobctl
  jobctl_stopped : g'.jobctl_stopped = g.jobctl_stopped
  pending : ∀ n, Somewhere g' n → Somewhere g n
  task : ∀ u, (g'.thread u).task = (g.thread u).task

variable {g g' g'' : Group θ ι} {t u : θ} {n : ℕ}

variable {f : Thread ι → Thread ι}

theorem Somewhere.of_modify
    (hq : ∀ n, Has (f (g.thread u)).sig_queue.sigset_pending n →
      Has (g.thread u).sig_queue.sigset_pending n)
    (hn : Somewhere (g.modify u f) n) : Somewhere g n := by
  rcases hn with hn | ⟨v, hv, hn⟩
  · exact .inl hn
  · refine .inr ⟨v, hv, ?_⟩
    by_cases h : v = u
    · subst h
      exact hq n (by simpa [Group.modify] using hn)
    · simpa [Group.modify, h] using hn

theorem task_modify (hc : (f (g.thread u)).task = (g.thread u).task) :
    ((g.modify u f).thread t).task = (g.thread t).task := update_proj Thread.task hc t

namespace Still

section

omit [DecidableEq θ]

theorem refl (g : Group θ ι) : Still g g := ⟨rfl, rfl, rfl, rfl, fun _ h => h, fun _ => rfl⟩

theorem trans (h : Still g g') (h' : Still g' g'') : Still g g'' where
  group := h'.group.trans h.group
  sig_action := h'.sig_action.trans h.sig_action
  jobctl := h'.jobctl.trans h.jobctl
  jobctl_stopped := h'.jobctl_stopped.trans h.jobctl_stopped
  pending n hn := h.pending n (h'.pending n hn)
  task u := (h'.task u).trans (h.task u)

end

theorem modify
    (hq : ∀ n, Has (f (g.thread u)).sig_queue.sigset_pending n →
      Has (g.thread u).sig_queue.sigset_pending n)
    (hc : (f (g.thread u)).task = (g.thread u).task) : Still g (g.modify u f) :=
  ⟨rfl, rfl, rfl, rfl, fun _ => .of_modify hq, fun _ => task_modify hc⟩

theorem setPending {b : Bool} : Still g (g.setPending u b) := modify (fun _ h => h) rfl

omit [DecidableEq θ] in
theorem shared {q : Queue ι} (hq : ∀ n, Has q.sigset_pending n → Has g.shared.sigset_pending n) :
    Still g { g with shared := q } :=
  ⟨rfl, rfl, rfl, rfl, fun n hn => hn.imp_left (hq n), fun _ => rfl⟩

theorem dequeueOwn {m : ℕ} : Still g (g.modify t fun c =>
    { c with sig_queue := (sigqueue_dequeue_single (g.thread t).sig_queue m).2 }) :=
  modify (fun _ h => has_of_dequeue h) rfl

theorem dequeue (t : θ) (mask : Sigset) (g : Group θ ι) :
    Still g (signal_dequeue t mask g).2.2 := by
  unfold signal_dequeue
  dsimp only
  split_ifs
  · exact dequeueOwn
  · exact shared fun _ h => has_of_dequeue h
  · exact refl g

theorem collect (t : θ) (g : Group θ ι) : Still g (signal_collect_next_pending t g).2.2 := by
  unfold signal_collect_next_pending
  dsimp only
  split_ifs
  · exact refl g
  · exact dequeueOwn
  · exact shared fun _ h => has_of_dequeue h

theorem redirectLoop (l : List θ) (set : Sigset) (g : Group θ ι) :
    Still g (redirectLoop t l set g) := by
  induction l generalizing set g with
  | nil => exact refl g
  | cons u l ih =>
    unfold Signal.redirectLoop
    dsimp only
    split_ifs
    · exact ih set g
    · exact setPending
    · exact setPending.trans (ih _ _)
    · exact ih set g

end Still

/-- A step of a thread that job control does not see, and that leaves it at a neutral point.  The
thread may put itself to sleep. -/
structure Calmly (t : θ) (w w' : World θ ι) : Prop where
  group : w'.g.thread_group = w.g.thread_group
  sig_action : w'.g.sig_action = w.g.sig_action
  jobctl : w'.g.jobctl = w.g.jobctl
  jobctl_stopped : w'.g.jobctl_stopped = w.g.jobctl_stopped
  pending : ∀ n, Somewhere w'.g n → Somewhere w.g n
  task : ∀ u ≠ t, (w'.g.thread u).task = (w.g.thread u).task
  own : TaskOk (w.g.thread t).task → (w.g.thread t).task.ready = true →
    TaskOk (w'.g.thread t).task ∧ (w'.g.thread t).task.suspended = false
  sending : w'.sending = w.sending
  parent : w'.parent = w.parent
  reports : w'.reports = w.reports
  pc : ∀ u ≠ t, w'.pc u = w.pc u
  neutral : neutral (w'.pc t) = true

variable {w w' : World θ ι}

namespace Calmly

omit [DecidableEq θ] in
theorem of_still (h : Still w.g g) (h' : Calmly t { w with g := g } w') : Calmly t w w' where
  group := h'.group.trans h.group
  sig_action := h'.sig_action.trans h.sig_action
  jobctl := h'.jobctl.trans h.jobctl
  jobctl_stopped := h'.jobctl_stopped.trans h.jobctl_stopped
  pending n hn := h.pending n (h'.pending n hn)
  task u hu := (h'.task u hu).trans (h.task u)
  own := by simpa only [h.task] using h'.own
  sending := h'.sending
  parent := h'.parent
  reports := h'.reports
  pc := h'.pc
  neutral := h'.neutral

theorem ofTask {f : Task → Task}
    (hf : ∀ c, TaskOk c → c.ready = true → TaskOk (f c) ∧ (f c).suspended = false)
    (hpc : JobControl.neutral (w.pc t) = true) :
    Calmly t w { w with g := w.g.modify t fun c => { c with task := f c.task } } := by
  refine ⟨rfl, rfl, rfl, rfl, fun n => .of_modify fun _ h => h, fun u hu => ?_, fun h hr => ?_, rfl,
    rfl, rfl, fun _ _ => rfl, hpc⟩
  · simp [Group.modify, hu]
  · simpa [Group.modify] using hf _ h hr

omit [DecidableEq θ] in
theorem refl (hpc : JobControl.neutral (w.pc t) = true) : Calmly t w w := by
  refine ⟨rfl, rfl, rfl, rfl, fun _ h => h, fun _ _ => rfl, fun h hr => ⟨h, ?_⟩, rfl, rfl, rfl,
    fun _ _ => rfl, hpc⟩
  by_contra hs
  rw [not_eq_false] at hs
  rw [(h.suspended hs).1] at hr
  cases hr

variable {pc : Pc}

theorem goto (h : Calmly t w w') (hpc : JobControl.neutral pc = true) :
    Calmly t w (w'.goto t pc) := by
  refine ⟨h.group, h.sig_action, h.jobctl, h.jobctl_stopped, h.pending, h.task, h.own, h.sending,
    h.parent, h.reports, fun u hu => ?_, ?_⟩
  · simpa [World.goto, hu] using h.pc u hu
  · simpa [World.goto] using hpc

omit [DecidableEq θ] in
theorem stay (h : Still w.g g) (hpc : JobControl.neutral (w.pc t) = true) :
    Calmly t w { w with g := g } := of_still h (refl hpc)

theorem suspendLoop (hpc : JobControl.neutral (w.pc t) = true) : Calmly t w (suspendLoop t w) := by
  unfold Signal.suspendLoop
  split_ifs
  · exact (stay (.modify (fun _ h => h) rfl) hpc).goto rfl
  · exact (ofTask (fun _ => TaskOk.sleep_of_ready) hpc).goto rfl

theorem finishMask (after : After) (hpc : JobControl.neutral (w.pc t) = true) :
    Calmly t w (finishMask t after w) := by
  cases after with
  | user => exact (refl hpc).goto rfl
  | suspend => exact suspendLoop hpc
  | timedwait => exact (stay (.modify (fun _ h => h) rfl) hpc).goto rfl

theorem apply {newset : Sigset} {after : After} (hpc : JobControl.neutral (w.pc t) = true) :
    Calmly t w (signal_mask_apply_current t newset after w) := by
  unfold signal_mask_apply_current
  dsimp only
  split_ifs
  · exact finishMask after hpc
  all_goals exact (refl hpc).goto rfl

theorem dispatch {signo : ℕ} (hpc : JobControl.neutral (w.pc t) = true)
    (hd : w.g.sig_action signo = .SIG_DFL) (hs : is_stop_set signo = false) :
    Calmly t w (dispatch t signo w) := by
  unfold Signal.dispatch
  simp only [hd, hs, Bool.false_eq_true, if_false]
  split_ifs
  · exact refl hpc
  · exact (refl hpc).goto rfl

end Calmly

/-- The steps of a thread that job control does not see. -/
theorem calmly_run {op : Op θ ι} (ht : op.thread = some t) (hat : op.At w)
    (hpc : neutral (w.pc t) = true) (hround : op ≠ .round t) : Calmly t w (op.run w) := by
  cases op with
  | prepare | queue | awake => cases ht
  | round => exact absurd (congrArg Op.round (Option.some.inj ht)) hround
  | notify | halt | suspend | report =>
    cases ht
    rw [hat] at hpc
    cases hpc
  | fetch =>
    cases ht
    refine (Calmly.refl hpc).goto ?_
    split_ifs <;> rfl
  | restore =>
    cases ht
    refine (Calmly.stay (.modify ?_ ?_) hpc).goto rfl
    · intro n h
      split_ifs at h <;> exact h
    · split_ifs <;> rfl
  | delivered | sigsuspend =>
    cases ht
    exact .of_still (.modify (fun _ h => h) rfl) (.apply hpc)
  | redirect =>
    cases ht
    exact (Calmly.stay (.redirectLoop _ _ _) hpc).goto rfl
  | write _ _ after =>
    cases ht
    exact .of_still (.modify (fun _ h => h) rfl) (.finishMask after hpc)
  | sigprocmask | sigreturn =>
    cases ht
    exact .apply hpc
  | wake =>
    cases ht
    exact .suspendLoop hpc
  | sigtimedwait =>
    cases ht
    simp only [Op.run, kernel_sigtimedwait]
    split_ifs
    · exact (Calmly.stay (.dequeue _ _ _) hpc).goto rfl
    · exact .stay (.dequeue _ _ _) hpc
  | lower =>
    cases ht
    exact (Calmly.stay (.modify (fun _ h => h) rfl) hpc).goto rfl
  | sleep =>
    cases ht
    refine Calmly.goto (.of_still .setPending (.ofTask ?_ hpc)) rfl
    exact fun _ => TaskOk.sleep_of_ready
  | sigtimedwaitEnd =>
    cases ht
    exact .of_still (.dequeue _ _ _) (.apply hpc)
  | settle =>
    cases ht
    exact (Calmly.stay .setPending hpc).goto rfl
  | block =>
    cases ht
    exact .ofTask
      (fun _ => TaskOk.wait_of_ready) hpc

/-! ## The invariant -/

/-- A signal that is being sent: what it excludes was removed before. -/
def Flight (g : Group θ ι) (n : ℕ) : Prop :=
  is_stop_set n = true ∧ ¬Somewhere g SIGCONT ∧ (n = SIGSTOP → g.jobctl_stopped = false) ∨
    n = SIGCONT ∧ (∀ m, is_stop_set m = true → ¬Somewhere g m) ∧ g.jobctl_stopped = false

/-- A thread that stops its group is alone in it; the group is not stopped before `stop_process`,
and is so after it. -/
def AtPoint (g : Group θ ι) (t : θ) : Pc → Prop
  | .stopping _ | .halting =>
    (∀ u ∈ g.thread_group, u = t) ∧ g.jobctl_stopped = false ∧ g.jobctl.continuePending = false
  | .suspending => (∀ u ∈ g.thread_group, u = t) ∧ g.jobctl_stopped = true
  | _ => True

structure Inv (r : Tally θ ι) : Prop extends Orderly r where
  nodup : r.w.g.thread_group.Nodup
  dfl : ∀ n, r.w.g.sig_action n = .SIG_DFL
  parent : r.w.parent ≠ none
  settled : r.w.g.jobctl_stopped = true → r.w.g.jobctl.continuePending = false
  points : ∀ t ∈ r.w.g.thread_group, AtPoint r.w.g t (r.w.pc t)
  task : ∀ t ∈ r.w.g.thread_group, TaskOk (r.w.g.thread t).task
  one : r.w.sending.length ≤ 1
  flight : ∀ x ∈ r.w.sending, Flight r.w.g x.2.2.signo

/-- Stop signals and SIGCONT. -/
def JobSignal : Op θ ι → Prop
  | .prepare _ _ signo _ _ => is_stop_set signo.toNat = true ∨ signo = SIGCONT
  | _ => True

/-- The steps that keep to it: no other step comes between the parts of a send, nor between a
thread's taking a stop and its suspension; a thread takes a stop only if it is alone in its group;
no stop signal is sent while a continue is to be reported, and no SIGSTOP to a stopped group. -/
def Careful (w : World θ ι) (op : Op θ ι) : Prop :=
  JobSignal op ∧
    (∀ t ∈ w.g.thread_group, stopping (w.pc t) = true → op.thread = some t) ∧
    match op with
    | .queue .. => True
    | .prepare _ _ signo _ _ =>
      w.sending = [] ∧ (is_stop_set signo.toNat = true → w.g.jobctl.continuePending = false ∧
          (signo = SIGSTOP → w.g.jobctl_stopped = false))
    | .round t => w.sending = [] ∧ (w.g.jobctl.stopPending = true → ∀ u ∈ w.g.thread_group, u = t)
    | _ => w.sending = []

variable {r : Tally θ ι} {op : Op θ ι}

omit [DecidableEq θ] in
theorem standing_congr {p : Pc → Bool} (hg : w'.g.thread_group = w.g.thread_group)
    (h : ∀ u ∈ w.g.thread_group, p (w'.pc u) = p (w.pc u)) : standing w' p = standing w p := by
  unfold standing
  rw [hg]
  exact countP_congr fun u hu => by rw [h u hu]

theorem standing_goto (p : Pc → Bool) (pc : Pc) (hd : w.g.thread_group.Nodup)
    (ht : t ∈ w.g.thread_group) :
    standing (w.goto t pc) p + (p (w.pc t)).toNat = standing w p + (p pc).toNat := by
  unfold standing World.goto
  dsimp only
  generalize w.g.thread_group = l at hd ht
  induction l with
  | nil => cases ht
  | cons u l ih =>
    obtain ⟨hu, hd⟩ := nodup_cons.1 hd
    rw [countP_cons, countP_cons]
    by_cases h : u = t
    · subst h
      have : l.countP (fun t => p (update w.pc u pc t)) = l.countP fun t => p (w.pc t) :=
        countP_congr fun v hv => by
          have hne : v ≠ u := fun h => hu (h ▸ hv)
          rw [update_of_ne hne]
      rw [this, update_self]
      cases p pc <;> cases p (w.pc u) <;> simp
    · have := ih hd ((mem_cons.1 ht).resolve_left (Ne.symm h))
      rw [update_of_ne h]
      omega

theorem of_neutral (h : neutral pc = true) : decide (pc = .halting) = false ∧
    decide (pc = .reporting) = false ∧ stopping pc = false := by
  cases pc <;> first | exact ⟨rfl, rfl, rfl⟩ | cases h

section

omit [DecidableEq θ]

theorem AtPoint.of_not_stopping (h : stopping pc = false) : AtPoint g t pc := by
  cases pc <;> trivial

theorem AtPoint.of_ne (h : AtPoint g u pc) (ht : t ∈ g.thread_group) (hut : u ≠ t) :
    AtPoint g' u pc := by
  cases pc with
  | stopping | halting | suspending => exact absurd (h.1 t ht).symm hut
  | _ => trivial

theorem Flight.mono (h : Flight g n) (hp : ∀ n, Somewhere g' n → Somewhere g n)
    (hs : g'.jobctl_stopped = g.jobctl_stopped) : Flight g' n := by
  unfold Flight at h ⊢
  rw [hs]
  exact h.imp (fun h => ⟨h.1, fun hc => h.2.1 (hp _ hc), h.2.2⟩)
    fun h => ⟨h.1, fun m hm hc => h.2.1 m hm (hp m hc), h.2.2⟩

theorem Inv.not_stopped (hi : Inv r) (ht : t ∈ r.w.g.thread_group)
    (hr : (r.w.g.thread t).task.ready = true) (hpc : r.w.pc t ≠ .suspending) :
    r.w.g.jobctl_stopped = false := by
  by_contra hj
  rw [not_eq_false] at hj
  rcases hi.stopped hj t ht with hs | hs
  · rw [((hi.task t ht).suspended hs).1] at hr
    cases hr
  · exact hpc hs

end

/-- A step of one thread, from one neutral point to another. -/
theorem Inv.calmly (hi : Inv r) (hr : (r.w.g.thread t).task.ready = true)
    (ht : t ∈ r.w.g.thread_group) (hpc : neutral (r.w.pc t) = true) (h : Calmly t r.w w) :
    Inv ⟨w, r.stops, r.continues⟩ := by
  have hown := h.own (hi.task t ht) hr
  -- the other threads stand where they stood, and this one at a neutral point
  have hpoint : ∀ p : Pc → Bool, (∀ pc, neutral pc = true → p pc = false) →
      ∀ u, p (w.pc u) = p (r.w.pc u) := by
    intro p hp u
    by_cases hu : u = t
    · subst hu
      rw [hp _ hpc, hp _ h.neutral]
    · rw [h.pc u hu]
  constructor
  · constructor
    · exact fun n hn hs hc => hi.signals n hn (h.pending n hs) (h.pending _ hc)
    · rw [h.jobctl]
      exact hi.events
    · rw [h.reports, standing_congr h.group fun u _ => hpoint _ (fun _ h => (of_neutral h).1) u]
      exact hi.stops
    · rw [h.reports, h.jobctl,
        standing_congr h.group fun u _ => hpoint _ (fun _ h => (of_neutral h).2.1) u]
      exact hi.continues
    · have hne : r.w.pc t ≠ .suspending := fun hs => by
        rw [hs] at hpc
        cases hpc
      rw [h.jobctl_stopped, hi.not_stopped ht hr hne]
      exact fun hj => absurd hj false_ne_true
    · intro hj u hu
      rw [h.jobctl_stopped] at hj
      rw [h.group] at hu
      by_cases hut : u = t
      · subst hut
        exact hown.2
      · rw [suspended, h.task u hut]
        exact hi.running hj u hu
  all_goals dsimp only
  · exact h.group ▸ hi.nodup
  · exact h.sig_action ▸ hi.dfl
  · exact h.parent ▸ hi.parent
  · rw [h.jobctl, h.jobctl_stopped]
    exact hi.settled
  · intro u hu
    rw [h.group] at hu
    by_cases hut : u = t
    · subst hut
      exact .of_not_stopping (of_neutral h.neutral).2.2
    · rw [h.pc u hut]
      exact (hi.points u hu).of_ne ht hut
  · intro u hu
    rw [h.group] at hu
    by_cases hut : u = t
    · subst hut
      exact hown.1
    · rw [h.task u hut]
      exact hi.task u hu
  · rw [h.sending]
    exact hi.one
  · rw [h.sending]
    exact fun x hx => (hi.flight x hx).mono h.pending h.jobctl_stopped

theorem pc_goto_of_ne (h : u ≠ t) : (w.goto t pc).pc u = w.pc u := by simp [World.goto, h]

theorem pc_goto_self : (w.goto t pc).pc t = pc := by simp [World.goto]

theorem Inv.points_goto (hi : Inv r) (ht : t ∈ r.w.g.thread_group) (h : AtPoint g t pc) :
    ∀ u ∈ r.w.g.thread_group, AtPoint g u ((r.w.goto t pc).pc u) := by
  intro u hu
  by_cases hut : u = t
  · subst hut
    rwa [pc_goto_self]
  · rw [pc_goto_of_ne hut]
    exact (hi.points u hu).of_ne ht hut

omit [DecidableEq θ] in
/-- No task is suspended or resumed, and where threads stand does not change. -/
theorem Inv.update {sending : List (Target × θ × Entry ι)} (hi : Inv r)
    (hg : g.thread_group = r.w.g.thread_group) (ha : g.sig_action = r.w.g.sig_action)
    (hj : g.jobctl = r.w.g.jobctl) (hs : g.jobctl_stopped = r.w.g.jobctl_stopped)
    (htask : ∀ u ∈ r.w.g.thread_group, TaskOk (g.thread u).task ∧ suspended g u = suspended r.w.g u)
    (hsig : ∀ n, is_stop_set n = true → Somewhere g n → ¬Somewhere g SIGCONT)
    (hone : sending.length ≤ 1) (hflight : ∀ x ∈ sending, Flight g x.2.2.signo) :
    Inv ⟨{ r.w with g := g, sending := sending }, r.stops, r.continues⟩ := by
  have hst : ∀ p, standing { r.w with g := g, sending := sending } p = standing r.w p := fun p =>
    standing_congr hg fun _ _ => rfl
  constructor
  · constructor
    · exact hsig
    · rw [hj]
      exact hi.events
    · exact hi.stops.trans (congrArg (r.stops + ·) (hst _).symm)
    · rw [hj]
      exact Eq.trans (congrArg (_ + · + _) (hst _)) hi.continues
    · intro h u hu
      rw [hg] at hu
      rw [(htask u hu).2]
      exact hi.stopped (hs ▸ h) u hu
    · intro h u hu
      rw [hg] at hu
      rw [(htask u hu).2]
      exact hi.running (hs ▸ h) u hu
  all_goals dsimp only
  · exact hg ▸ hi.nodup
  · exact ha ▸ hi.dfl
  · exact hi.parent
  · rw [hj, hs]
    exact hi.settled
  · intro u hu
    rw [hg] at hu
    have := hi.points u hu
    unfold AtPoint at this ⊢
    rwa [hg, hs, hj]
  · exact fun u hu => (htask u (hg ▸ hu)).1
  · exact hone
  · exact hflight

/-! ## Stops and continues -/

theorem Inv.mark (hi : Inv r) (hc : r.w.g.jobctl.continuePending = false)
    (ht : t ∈ r.w.g.thread_group) (hpc : r.w.pc t = .fetching) (signo : ℕ) :
    Inv ⟨{ r.w with g := signal_mark_jobctl_stop signo r.w.g }, r.stops, r.continues⟩ := by
  have hcont := hi.continues
  rw [hc] at hcont
  refine { hi with
    events := fun h => false_ne_true h.2
    continues := hcont
    settled := fun _ => rfl
    points := fun u hu => ?_ }
  by_cases hut : u = t
  · subst hut
    rw [hpc]
    trivial
  · exact (hi.points u hu).of_ne ht hut

/-- Who halts the group and who reports, when a thread goes elsewhere. -/
theorem Inv.standing_goto (hi : Inv r) (ht : t ∈ r.w.g.thread_group) (hpc : r.w.pc t = pc)
    (pc' : Pc) : standing (r.w.goto t pc') (· = .halting) + (decide (pc = .halting)).toNat =
        standing r.w (· = .halting) + (decide (pc' = .halting)).toNat ∧
      standing (r.w.goto t pc') (· = .reporting) + (decide (pc = .reporting)).toNat =
        standing r.w (· = .reporting) + (decide (pc' = .reporting)).toNat := by
  subst hpc
  exact ⟨JobControl.standing_goto _ pc' hi.nodup ht, JobControl.standing_goto _ pc' hi.nodup ht⟩

section
variable (hi : Inv r) (ht : t ∈ r.w.g.thread_group) (hr : (r.w.g.thread t).task.ready = true)
  (hpc : r.w.pc t = .fetching)
include hi ht hr hpc

theorem Inv.takeStop
    (hj : r.w.g.jobctl.stopPending = true) (ha : ∀ u ∈ r.w.g.thread_group, u = t) (signo : ℕ) :
    Inv ⟨{ r.w with
      g := { r.w.g with jobctl := { r.w.g.jobctl with stopPending := false, stopSigno :=
        0 } } }.goto
      t (.stopping signo), r.stops, r.continues⟩ := by
  have hns := hi.not_stopped ht hr (by rw [hpc]; exact Pc.noConfusion)
  have hc : r.w.g.jobctl.continuePending = false := by
    by_contra h
    rw [not_eq_false] at h
    exact hi.events ⟨hj, h⟩
  obtain ⟨hh, hrep⟩ := hi.standing_goto ht hpc (.stopping signo)
  exact { hi with
    events := fun h => false_ne_true h.1
    stops := hi.stops.trans (congrArg _ hh.symm)
    continues := Eq.trans (congrArg (_ + · + _) hrep) hi.continues
    stopped := fun h => absurd (hns.symm.trans h) false_ne_true
    points := hi.points_goto ht ⟨ha, hns, hc⟩ }

/-- The continue is taken by a thread, which has to report it. -/
theorem Inv.takeContinue (hj : r.w.g.jobctl.continuePending = true) :
    Inv ⟨{ r.w with
      g := { r.w.g with jobctl := { r.w.g.jobctl with continuePending := false } } }.goto
      t .reporting, r.stops, r.continues⟩ := by
  have hns := hi.not_stopped ht hr (by rw [hpc]; exact Pc.noConfusion)
  obtain ⟨hh, hrep⟩ := hi.standing_goto ht hpc .reporting
  have hcont := hi.continues
  rw [hj] at hcont
  exact { hi with
    events := fun h => false_ne_true h.2
    stops := hi.stops.trans (congrArg _ hh.symm)
    continues := Eq.trans (congrArg (_ + · + _) hrep) hcont
    settled := fun _ => rfl
    stopped := fun h => absurd (hns.symm.trans h) false_ne_true
    points := hi.points_goto ht trivial }

end

omit [DecidableEq θ] in
theorem notify_eq (hp : w.parent ≠ none) (x : Report) :
    ∃ b, signal_notify_parent_and_leader x w = { w with reports := w.reports ++ [(x, b)] } := by
  unfold signal_notify_parent_and_leader
  cases h : w.parent with
  | none => exact absurd h hp
  | some noCldStop => exact ⟨!noCldStop, by simp⟩

theorem countP_report (l : List (Report × Bool)) (x : Report) (b : Bool) :
    (l ++ [(x, b)]).countP Report.isStopped =
        l.countP Report.isStopped + (Report.isStopped (x, b)).toNat ∧
      (l ++ [(x, b)]).countP Report.isContinued =
        l.countP Report.isContinued + (Report.isContinued (x, b)).toNat := by
  rw [countP_append, countP_append, countP_singleton, countP_singleton]
  cases x <;> exact ⟨rfl, rfl⟩

theorem Inv.notify (hi : Inv r) (ht : t ∈ r.w.g.thread_group) {signo : ℕ}
    (hpc : r.w.pc t = .stopping signo) :
    Inv ⟨(signal_notify_parent_and_leader (.stopped signo) r.w).goto t .halting, r.stops,
      r.continues⟩ := by
  obtain ⟨b, hb⟩ := notify_eq hi.parent (.stopped signo)
  rw [hb]
  obtain ⟨hcs, hcc⟩ := countP_report r.w.reports (.stopped signo) b
  obtain ⟨hh, hrep⟩ := hi.standing_goto ht hpc .halting
  have hpt := hi.points t ht
  rw [hpc] at hpt
  exact { hi with
    stops := hcs.trans (Eq.trans (congrArg (· + 1) hi.stops) (congrArg (r.stops + ·) hh.symm))
    continues := Eq.trans (congrArg (_ + · + _) hrep)
      (Eq.trans (congrArg (· + _ + _) hcc) hi.continues)
    stopped := fun h => absurd (hpt.2.1.symm.trans h) false_ne_true
    points := hi.points_goto ht hpt }

theorem Inv.report (hi : Inv r) (ht : t ∈ r.w.g.thread_group)
    (hr : (r.w.g.thread t).task.ready = true) (hpc : r.w.pc t = .reporting) :
    Inv ⟨(signal_notify_parent_and_leader .continued r.w).goto t .fetching, r.stops,
      r.continues⟩ := by
  obtain ⟨b, hb⟩ := notify_eq hi.parent .continued
  rw [hb]
  obtain ⟨hcs, hcc⟩ := countP_report r.w.reports .continued b
  have hns := hi.not_stopped ht hr (by rw [hpc]; exact Pc.noConfusion)
  obtain ⟨hh, hrep⟩ := hi.standing_goto ht hpc .fetching
  have hcont : (r.w.reports ++ [(Report.continued, b)]).countP Report.isContinued +
      standing (r.w.goto t .fetching) (· = .reporting) + r.w.g.jobctl.continuePending.toNat =
        r.continues := by
    have hrep' : standing (r.w.goto t .fetching) (· = .reporting) + 1 =
      standing r.w (· = .reporting) :=
      hrep
    have hcc' : (r.w.reports ++ [(Report.continued, b)]).countP Report.isContinued =
      r.w.reports.countP Report.isContinued + 1 := hcc
    have := hi.continues
    omega
  exact { hi with
    stops := hcs.trans (hi.stops.trans (congrArg (r.stops + ·) hh.symm))
    continues := hcont
    stopped := fun h => absurd (hns.symm.trans h) false_ne_true
    points := hi.points_goto ht trivial }

variable {malloced : Bool} {info : ι}

theorem stop_process_alone (ha : ∀ u ∈ g.thread_group, u = t) : stop_process malloced info t g =
      { g with jobctl_stopped := true }.modify t
        fun c => { c with task := { c.task with stopped := true } } := by
  have key : ∀ l : List θ, (∀ u ∈ l, u = t) → l.foldl (forwardStop malloced info t) g = g := by
    intro l
    induction l with
    | nil => exact fun _ => rfl
    | cons u l ih =>
      intro hl
      have hu : forwardStop malloced info t g u = g := if_neg fun h => h.1 (hl u (.head _))
      rw [foldl_cons, hu]
      exact ih fun v hv => hl v (.tail _ hv)
  unfold stop_process
  rw [key g.thread_group ha]

/-- A task changes, and is neither suspended nor resumed. -/
theorem Inv.setTask (hi : Inv r) (t : θ) {f : Task → Task}
    (hf : ∀ c, TaskOk c → TaskOk (f c) ∧ (f c).suspended = c.suspended) :
    Inv ⟨{ r.w with g := r.w.g.modify t fun c => { c with task := f c.task } }, r.stops,
      r.continues⟩ := by
  have hp : ∀ n, Somewhere (r.w.g.modify t fun c => { c with task := f c.task }) n →
      Somewhere r.w.g n := fun n => .of_modify fun _ h => h
  refine hi.update rfl rfl rfl rfl (fun u hu => ?_)
    (fun n hn h h' => hi.signals n hn (hp n h) (hp _ h')) hi.one
    fun x hx => (hi.flight x hx).mono hp rfl
  by_cases hut : u = t
  · subst hut
    simpa [Group.modify, suspended] using hf _ (hi.task u hu)
  · simpa [Group.modify, suspended, hut] using hi.task u hu

theorem Inv.halt (hi : Inv r) (ht : t ∈ r.w.g.thread_group) (hpc : r.w.pc t = .halting)
    (hs : r.w.sending = []) :
    Inv ⟨{ r.w with g := stop_process malloced info t r.w.g }.goto t .suspending, r.stops + 1,
      r.continues⟩ := by
  have hpt := hi.points t ht
  obtain ⟨hh, hrep⟩ := hi.standing_goto ht hpc .suspending
  rw [hpc] at hpt
  obtain ⟨ha, hns, hc⟩ := hpt
  rw [stop_process_alone ha]
  have hstops : r.w.reports.countP Report.isStopped =
      r.stops + 1 + standing (r.w.goto t .suspending) (· = .halting) := by
    have hh' : standing (r.w.goto t .suspending) (· = .halting) + 1 = standing r.w (· = .halting) :=
      hh
    have := hi.stops
    omega
  have hall : ∀ u ∈ r.w.g.thread_group, (r.w.goto t .suspending).pc u = .suspending :=
    fun u hu => by
    rw [ha u hu]
    exact pc_goto_self
  have hi' : Inv ⟨{ r.w with g := { r.w.g with jobctl_stopped := true } }.goto t .suspending,
      r.stops + 1, r.continues⟩ :=
    { hi with
      stops := hstops
      continues := Eq.trans (congrArg (_ + · + _) hrep) hi.continues
      stopped := fun _ u hu => .inr (hall u hu)
      running := fun h => absurd h.symm false_ne_true
      settled := fun _ => hc
      points := hi.points_goto ht ⟨ha, rfl⟩
      flight := by simp [World.goto, hs] }
  exact hi'.setTask t (f := fun c => { c with stopped := true })
    fun c h => ⟨⟨h.suspended, h.ready, h.sleep⟩, rfl⟩

theorem Inv.suspend (hi : Inv r) (ht : t ∈ r.w.g.thread_group)
    (hr : (r.w.g.thread t).task.ready = true) (hpc : r.w.pc t = .suspending)
    (hs : r.w.sending = []) :
    Inv ⟨{ r.w with
      g := r.w.g.modify t fun c => { c with task := c.task.TTOS_SignalSuspendTask } }.goto t
      .fetching, r.stops, r.continues⟩ := by
  have hpt := hi.points t ht
  obtain ⟨hh, hrep⟩ := hi.standing_goto ht hpc .fetching
  rw [hpc] at hpt
  obtain ⟨ha, hst⟩ := hpt
  obtain ⟨hok, hsusp⟩ := (hi.task t ht).suspend hr
  refine { hi with
    signals := fun n hn h h' =>
      hi.signals n hn (.of_modify (fun _ h => h) h) (.of_modify (fun _ h => h) h')
    stops := hi.stops.trans (congrArg (r.stops + ·) hh.symm)
    continues := Eq.trans (congrArg (_ + · + _) hrep) hi.continues
    stopped := fun _ u hu => .inl ?_
    running := fun h => absurd (h.symm.trans hst) false_ne_true
    points := hi.points_goto ht trivial
    task := fun u hu => ?_
    flight := by simp [World.goto, hs] }
  · obtain rfl := ha u hu
    simpa [suspended, World.goto, Group.modify] using hsusp
  · obtain rfl := ha u hu
    simpa [World.goto, Group.modify] using hok

/-! ## Sends -/

theorem somewhere_remove {set : Sigset} :
    Somewhere (sigqueue_remove_private set (sigqueue_remove_shared set g)) n ↔
      Somewhere g n ∧ ¬Has set n := by
  unfold Somewhere sigqueue_remove_private sigqueue_remove_shared Group.modifyAll
  dsimp only
  rw [has_remove, or_and_right]
  refine or_congr_right ?_
  constructor
  · rintro ⟨u, hu, h⟩
    rw [if_pos hu, has_remove] at h
    exact ⟨⟨u, hu, h.1⟩, h.2⟩
  · rintro ⟨⟨u, hu, h⟩, hn⟩
    refine ⟨u, hu, ?_⟩
    rw [if_pos hu, has_remove]
    exact ⟨h, hn⟩

theorem thread_modifyAll (hu : u ∈ g.thread_group) :
    (g.modifyAll f).thread u = f (g.thread u) := if_pos hu

theorem somewhere_modifyAll (hf : ∀ c, (f c).sig_queue = c.sig_queue) :
    Somewhere (g.modifyAll f) n ↔ Somewhere g n := by
  refine or_congr_right (exists_congr fun u => and_congr_right fun hu => ?_)
  rw [thread_modifyAll (show u ∈ g.thread_group from hu), hf]

theorem task_remove {set : Sigset} :
    ((sigqueue_remove_private set (sigqueue_remove_shared set g)).thread u).task =
      (g.thread u).task := by
  unfold sigqueue_remove_private sigqueue_remove_shared Group.modifyAll
  dsimp only
  by_cases hu : u ∈ g.thread_group
  · rw [if_pos hu]
  · rw [if_neg hu]

/-- Without a continue to be reported, only SIGCONT is removed. -/
theorem still_prepare_stop (hc : g.jobctl.continuePending = false) :
    Still g (signal_prepare_stop g) ∧ ¬Somewhere (signal_prepare_stop g) SIGCONT := by
  have hs : ∀ n, Somewhere (signal_prepare_stop g) n ↔ Somewhere g n ∧ ¬Has (sigmask SIGCONT) n :=
    fun n => somewhere_remove
  have hj : ({ g.jobctl with continuePending := false } : Jobctl) = g.jobctl := by rw [← hc]
  refine ⟨⟨rfl, rfl, hj, rfl, fun n hn => ((hs n).1 hn).1, fun u => ?_⟩, fun h => ?_⟩
  · exact task_remove
  · exact ((hs _).1 h).2 (by decide)

theorem somewhere_prepare_continue :
    Somewhere (signal_prepare_continue g) n ↔ Somewhere g n ∧ ¬Has PROCESS_SIG_STOP_SET n := by
  refine (somewhere_modifyAll ?_).trans ?_
  · exact fun _ => rfl
  · rw [somewhere_remove]
    rfl

theorem task_prepare_continue (hu : u ∈ g.thread_group) :
    ((signal_prepare_continue g).thread u).task = (g.thread u).task.TTOS_SignalResumeTask := by
  unfold signal_prepare_continue signal_resume_thread_group
  refine (congrArg Thread.task (thread_modifyAll ?_)).trans ?_
  · exact hu
  · exact congrArg Task.TTOS_SignalResumeTask task_remove

/-- **A SIGCONT resumes the group.** -/
theorem Inv.prepare_continue (hi : Inv r)
    (hn : ∀ t ∈ r.w.g.thread_group, stopping (r.w.pc t) = false) (hs : r.w.sending = []) :
    Inv ⟨{ r.w with g := signal_prepare_continue r.w.g }, r.stops,
      r.continues + r.w.g.jobctl_stopped.toNat⟩ := by
  have hcont : r.w.reports.countP Report.isContinued + standing r.w (· = .reporting) +
      (r.w.g.jobctl.continuePending || r.w.g.jobctl_stopped).toNat =
        r.continues + r.w.g.jobctl_stopped.toNat := by
    have h1 := hi.continues
    have h2 := hi.settled
    cases h : r.w.g.jobctl_stopped with
    | true =>
      rw [h2 h] at h1 ⊢
      exact congrArg (· + 1) h1
    | false =>
      rw [Bool.or_false]
      exact h1
  have htask : ∀ u ∈ r.w.g.thread_group, TaskOk ((signal_prepare_continue r.w.g).thread u).task ∧
      suspended (signal_prepare_continue r.w.g) u = false := by
    intro u hu
    unfold suspended
    rw [task_prepare_continue hu]
    exact (hi.task u hu).resume
  exact { hi with
    signals := fun n hn h h' => hi.signals n hn (somewhere_prepare_continue.1 h).1
      (somewhere_prepare_continue.1 h').1
    events := fun h => false_ne_true h.1
    continues := hcont
    stopped := fun h => absurd h false_ne_true
    running := fun _ u hu => (htask u hu).2
    settled := fun h => absurd h false_ne_true
    points := fun u hu => .of_not_stopping (hn u hu)
    task := fun u hu => (htask u hu).1
    flight := by simp [hs] }

section

omit [DecidableEq θ]

theorem Inv.still (hi : Inv r) (h : Still r.w.g g) :
    Inv ⟨{ r.w with g := g }, r.stops, r.continues⟩ := by
  refine hi.update h.group h.sig_action h.jobctl h.jobctl_stopped (fun u hu => ?_)
    (fun n hn hs hc => hi.signals n hn (h.pending n hs) (h.pending _ hc)) hi.one
    fun x hx => (hi.flight x hx).mono h.pending h.jobctl_stopped
  unfold suspended
  rw [h.task]
  exact ⟨hi.task u hu, rfl⟩

theorem Inv.send (hi : Inv r) (hs : r.w.sending = []) (x : Target × θ × Entry ι)
    (hx : Flight r.w.g x.2.2.signo) :
    Inv ⟨{ r.w with sending := x :: r.w.sending }, r.stops, r.continues⟩ := by
  refine hi.update rfl rfl rfl rfl (fun u hu => ⟨hi.task u hu, rfl⟩) hi.signals ?_ fun y hy => ?_
  · simp [hs]
  · rw [hs] at hy
    rw [mem_singleton.1 hy]
    exact hx

end

variable {signo : ℤ}

/-- What precedes the queueing of a stop signal or of a SIGCONT, if the signal gets that far. -/
theorem send_prepare_cases (hj : is_stop_set signo.toNat = true ∨ signo = SIGCONT) :
    (signal_send_prepare t signo g).2 = g ∧ (signal_send_prepare t signo g).1 ≠ none ∨
      is_stop_set signo.toNat = true ∧ (signal_send_prepare t signo g).2 = signal_prepare_stop g ∨
      signo = SIGCONT ∧ (signal_send_prepare t signo g).2 = signal_prepare_continue g := by
  unfold signal_send_prepare
  split_ifs with h1 h2 h3
  · exact .inl ⟨rfl, by simp⟩
  · exact .inl ⟨rfl, by simp⟩
  · exact .inl ⟨rfl, by simp⟩
  · have hkill : signo ≠ SIGKILL := by
      rintro rfl
      rcases hj with hj | hj
      · exact absurd hj (by decide)
      · exact absurd hj (by decide)
    unfold signal_prepare_send
    by_cases he : g.exiting = true
    · rw [if_pos he]
      exact .inl ⟨rfl, by simp [hkill]⟩
    · rw [if_neg he]
      rcases hj with hj | rfl
      · exact .inr (.inl ⟨hj, if_pos hj⟩)
      · exact .inr (.inr ⟨rfl, rfl⟩)

theorem Tally.next_eq (h : (op.run r.w).g.jobctl_stopped = r.w.g.jobctl_stopped) :
    r.next op = ⟨op.run r.w, r.stops, r.continues⟩ := by
  unfold Tally.next
  rw [h]
  cases r.w.g.jobctl_stopped <;> rfl

omit [DecidableEq θ] in
theorem not_stopping (h : ∀ t ∈ w.g.thread_group, stopping (w.pc t) = true → op.thread = some t)
    (hn : op.thread = none) : ∀ t ∈ w.g.thread_group, stopping (w.pc t) = false := by
  intro t ht
  by_contra hs
  rw [not_eq_false] at hs
  have := (h t ht hs).symm.trans hn
  cases this

variable {flag : Target}

/-- After what precedes the queueing, the signal may be queued. -/
theorem Inv.prepare_run {a b : ℕ} (hs : w.sending = [])
    (hi : Inv ⟨{ w with g := (signal_send_prepare t signo w.g).2 }, a, b⟩)
    (hf : Flight (signal_send_prepare t signo w.g).2 signo.toNat) :
    Inv ⟨(Op.prepare malloced t signo info flag).run w, a, b⟩ := by
  unfold Op.run
  dsimp only
  split_ifs
  · exact hi.send hs (flag, t, ⟨signo.toNat, info⟩) hf
  · exact hi

theorem prepare_run_g :
    ((Op.prepare malloced t signo info flag).run w).g = (signal_send_prepare t signo w.g).2 := by
  unfold Op.run
  dsimp only
  split_ifs <;> rfl

theorem Inv.prepare (hi : Inv r) (hc : Careful r.w (.prepare malloced t signo info flag)) :
    Inv (r.next (.prepare malloced t signo info flag)) := by
  obtain ⟨hj, hn, hs, hstop⟩ := hc
  replace hn := not_stopping hn rfl
  rcases send_prepare_cases (g := r.w.g) (t := t) hj with ⟨hg, hne⟩ | ⟨hset, hg⟩ | ⟨hset, hg⟩
  · have hrun : (Op.prepare malloced t signo info flag).run r.w = r.w := by
      simp only [Op.run, hg, hne, false_and, if_false]
    rw [Tally.next_eq (by rw [hrun]), hrun]
    exact hi
  · obtain ⟨hcp, hss⟩ := hstop hset
    obtain ⟨hst, hno⟩ := still_prepare_stop hcp
    rw [Tally.next_eq (by rw [prepare_run_g, hg]; exact hst.jobctl_stopped)]
    refine Inv.prepare_run hs ?_ ?_
    · rw [hg]
      exact hi.still hst
    · rw [hg]
      refine .inl ⟨hset, hno, fun h => hst.jobctl_stopped.trans (hss ?_)⟩
      unfold SIGSTOP at h ⊢
      omega
  · have hnext : r.next (.prepare malloced t signo info flag) =
        ⟨(Op.prepare malloced t signo info flag).run r.w, r.stops,
          r.continues + r.w.g.jobctl_stopped.toNat⟩ := by
      unfold Tally.next
      rw [prepare_run_g, hg]
      cases r.w.g.jobctl_stopped <;> rfl
    rw [hnext]
    refine Inv.prepare_run hs ?_ ?_
    · rw [hg]
      exact hi.prepare_continue hn hs
    · rw [hg]
      refine .inr ⟨?_, fun m hm h => (somewhere_prepare_continue.1 h).2 hm, rfl⟩
      rw [hset]
      rfl

/-! ## Queueing -/

/-- A signal that is queued becomes pending; a task that is interruptible may be woken. -/
structure Queued (n : ℕ) (g g' : Group θ ι) : Prop where
  group : g'.thread_group = g.thread_group
  sig_action : g'.sig_action = g.sig_action
  jobctl : g'.jobctl = g.jobctl
  jobctl_stopped : g'.jobctl_stopped = g.jobctl_stopped
  pending : ∀ m, Somewhere g' m → m = n ∨ Somewhere g m
  task : ∀ u, (g'.thread u).task = (g.thread u).task ∨
    (g'.thread u).task = (g.thread u).task.signal_wakeup_task ∧
      (g.thread u).task.task_is_interruptible n = true

variable {e : Entry ι}

theorem somewhere_queue (he : Valid e.signo) (h : Somewhere (signal_queue flag t e g).2 n) :
    n = e.signo ∨ Somewhere g n := by
  cases flag with
  | TO_THREAD =>
    rcases h with h | ⟨u, hu, h⟩
    · exact .inr (.inl h)
    · by_cases hut : u = t
      · subst hut
        simp only [signal_queue, signal_queue_to_thread, Group.modify, update_self,
          sigqueue_enqueue, has_add he] at h
        exact h.imp_right fun h => .inr ⟨u, hu, h⟩
      · simp only [signal_queue, signal_queue_to_thread, Group.modify, ne_eq, hut,
          not_false_eq_true,
          update_of_ne] at h
        exact .inr (.inr ⟨u, hu, h⟩)
  | TO_PROCESS =>
    have hs : Somewhere { g with shared := sigqueue_enqueue g.shared e } n →
        n = e.signo ∨ Somewhere g n := by
      rintro (h | h)
      · exact ((has_add he).1 h).imp_right .inl
      · exact .inr (.inr h)
    unfold signal_queue signal_queue_to_process at h
    dsimp only at h
    split at h
    · exact hs (.of_modify (fun _ h => h) h)
    · exact hs h

theorem task_queue : ((signal_queue flag t e g).2.thread u).task = (g.thread u).task := by
  cases flag with
  | TO_THREAD =>
    unfold signal_queue signal_queue_to_thread
    dsimp only
    exact task_modify rfl
  | TO_PROCESS =>
    unfold signal_queue signal_queue_to_process
    dsimp only
    split
    · exact task_modify rfl
    · rfl

theorem frame_queue (flag : Target) (t : θ) (e : Entry ι) (g : Group θ ι) :
    (signal_queue flag t e g).2.thread_group = g.thread_group ∧
      (signal_queue flag t e g).2.sig_action = g.sig_action ∧
      (signal_queue flag t e g).2.jobctl = g.jobctl ∧
      (signal_queue flag t e g).2.jobctl_stopped = g.jobctl_stopped := by
  cases flag with
  | TO_THREAD => exact ⟨rfl, rfl, rfl, rfl⟩
  | TO_PROCESS =>
    unfold signal_queue signal_queue_to_process
    dsimp only
    split <;> exact ⟨rfl, rfl, rfl, rfl⟩

theorem queued_deliver (he : Valid e.signo) : Queued e.signo g (signal_deliver flag t e g) := by
  obtain ⟨h1, h2, h3, h4⟩ := frame_queue flag t e g
  have h5 : ∀ m, Somewhere (signal_queue flag t e g).2 m → m = e.signo ∨ Somewhere g m :=
    fun m => somewhere_queue he
  have h6 : ∀ u, ((signal_queue flag t e g).2.thread u).task = (g.thread u).task := fun u =>
    task_queue
  unfold signal_deliver
  dsimp only
  split
  · rename_i v _
    refine ⟨h1, h2, h3, h4, fun m h => h5 m ?_, fun u => ?_⟩
    · refine Somewhere.of_modify (fun n hn => ?_) h
      split_ifs at hn <;> exact hn
    · rw [← h6 u]
      by_cases hu : u = v
      · subst hu
        simp only [signal_notify_target, Group.modify, update_self]
        split_ifs with h1 h2 h3
        · exact .inl rfl
        · exact .inl rfl
        · exact .inr ⟨rfl, h3⟩
        · exact .inl rfl
      · simp [signal_notify_target, Group.modify, hu]
  · exact ⟨h1, h2, h3, h4, h5, fun u => .inl (h6 u)⟩

theorem deliver_jobctl_stopped : (signal_deliver flag t e g).jobctl_stopped = g.jobctl_stopped := by
  unfold signal_deliver
  dsimp only
  split <;> exact (frame_queue flag t e g).2.2.2

theorem Inv.queue (hi : Inv r) {sending : List (Target × θ × Entry ι)}
    (hat : r.w.sending.Perm ((flag, t, e) :: sending))
    (hn : ∀ t ∈ r.w.g.thread_group, stopping (r.w.pc t) = false) :
    Inv ⟨{ r.w with g := signal_deliver flag t e r.w.g, sending := sending }, r.stops,
      r.continues⟩ := by
  have hlen := hat.length_eq
  have hone := hi.one
  have hnil : sending = [] := by
    rw [length_cons] at hlen
    exact length_eq_zero_iff.1 (by omega)
  subst hnil
  have hf : Flight r.w.g e.signo := hi.flight (flag, t, e) (hat.mem_iff.2 (.head _))
  have hv : Valid e.signo := by
    rcases hf with hf | hf
    · exact Has.valid hf.1
    · rw [hf.1]
      decide
  have hq : Queued e.signo r.w.g (signal_deliver flag t e r.w.g) := queued_deliver hv
  have hkill : is_stop_set SIGKILL = false := by decide
  have hcont : is_stop_set SIGCONT = false := by decide
  refine hi.update hq.group hq.sig_action hq.jobctl hq.jobctl_stopped (fun u hu => ?_)
    (fun m hm hs hc => ?_) (Nat.zero_le 1) fun x hx => absurd hx not_mem_nil
  · have hok := hi.task u hu
    unfold suspended
    cases hst : r.w.g.jobctl_stopped with
    | true =>
      -- every thread is suspended, and the signal is one that does not wake it
      have hsusp : (r.w.g.thread u).task.suspended = true :=
        (hi.stopped hst u hu).resolve_right fun h => by
          have := hn u hu
          rw [h] at this
          cases this
      have hne : e.signo ≠ SIGKILL ∧ e.signo ≠ SIGSTOP := by
        rcases hf with hf | hf
        · refine ⟨fun h => ?_, fun h => ?_⟩
          · rw [h, hkill] at hf
            exact false_ne_true hf.1
          · exact false_ne_true ((hf.2.2 h).symm.trans hst)
        · exact absurd (hf.2.2.symm.trans hst) false_ne_true
      rcases hq.task u with h | ⟨-, h⟩
      · rw [h]
        exact ⟨hok, rfl⟩
      · -- suspended by job control, it is not interruptible
        have hwait := (hok.suspended hsusp).2
        simp only [Task.isWaiting, Bool.or_eq_false_iff] at hwait
        simp [Task.task_is_interruptible, hne.1, hne.2, hwait.1.2] at h
    | false =>
      have hsusp := hi.running hst u hu
      unfold suspended at hsusp
      rcases hq.task u with h | ⟨h, -⟩
      · rw [h]
        exact ⟨hok, rfl⟩
      · rw [h, hsusp]
        exact hok.wakeup hsusp
  · rcases hf with hf | hf
    · rcases hq.pending _ hc with h | h
      · rw [← h, hcont] at hf
        exact false_ne_true hf.1
      · exact hf.2.1 h
    · rcases hq.pending m hs with h | h
      · rw [h, hf.1, hcont] at hm
        exact false_ne_true hm
      · exact hf.2.1 m hm h

/-! ## Steps -/

theorem not_ignored_of_stop (h : is_stop_set n = true) : signal_default_ignored n = false := by
  by_contra hi
  rw [not_eq_false] at hi
  have hd : PROCESS_SIG_STOP_SET &&& PROCESS_SIG_IGNORE_SET = 0 := by decide
  exact eq_zero_iff_not_has.1 hd n (has_and.2 ⟨h, hi⟩)

section
variable (hi : Inv r) (ht : t ∈ r.w.g.thread_group) (hr : (r.w.g.thread t).task.ready = true)
  (hpc : r.w.pc t = .fetching)
include hi ht hr hpc

theorem Inv.dispatch (hc : r.w.g.jobctl.continuePending = false) (signo : ℕ) :
    Inv ⟨dispatch t signo r.w, r.stops, r.continues⟩ ∧
      (dispatch t signo r.w).g.jobctl_stopped = r.w.g.jobctl_stopped := by
  cases hs : is_stop_set signo with
  | true =>
    have he : Signal.dispatch t signo r.w =
        { r.w with g := signal_mark_jobctl_stop signo r.w.g } := by
      simp [Signal.dispatch, hi.dfl, hs, not_ignored_of_stop hs]
    rw [he]
    exact ⟨hi.mark hc ht hpc signo, rfl⟩
  | false =>
    have hn : neutral (r.w.pc t) = true := by rw [hpc]; rfl
    have h := Calmly.dispatch hn (hi.dfl signo) hs
    exact ⟨hi.calmly hr ht hn h, h.jobctl_stopped⟩

theorem Inv.round (ha : r.w.g.jobctl.stopPending = true → ∀ u ∈ r.w.g.thread_group, u = t) :
    Inv ⟨fetchRound t r.w, r.stops, r.continues⟩ ∧
      (fetchRound t r.w).g.jobctl_stopped = r.w.g.jobctl_stopped := by
  have hn : neutral (r.w.pc t) = true := by rw [hpc]; rfl
  unfold fetchRound
  dsimp only
  by_cases h1 : r.w.g.jobctl.stopPending = true
  · rw [if_pos h1]
    exact ⟨hi.takeStop ht hr hpc h1 (ha h1) _, rfl⟩
  rw [if_neg h1]
  by_cases h2 : r.w.g.jobctl.continuePending = true
  · rw [if_pos h2]
    exact ⟨hi.takeContinue ht hr hpc h2, rfl⟩
  rw [if_neg h2]
  rw [Bool.not_eq_true] at h2
  split_ifs
  · have h : Calmly t r.w ({ r.w with g := signal_pending_recalc_current_locked t r.w.g }.goto t
        .restoring) := (Calmly.stay .setPending hn).goto rfl
    exact ⟨hi.calmly hr ht hn h, h.jobctl_stopped⟩
  · have hst := Still.collect t r.w.g
    have hi' := hi.still hst
    split
    · exact ⟨hi', hst.jobctl_stopped⟩
    · obtain ⟨h3, h4⟩ := hi'.dispatch (hst.group ▸ ht) ((hst.task t).symm ▸ hr) hpc
        (hst.jobctl ▸ h2)
        (signal_collect_next_pending t r.w.g).1
      exact ⟨h3, h4.trans hst.jobctl_stopped⟩

end

omit [DecidableEq θ] in
theorem notify_jobctl_stopped {x : Report} :
    (signal_notify_parent_and_leader x w).g.jobctl_stopped = w.g.jobctl_stopped := by
  unfold signal_notify_parent_and_leader
  split <;> rfl

/-- A step that does not stop or continue the group. -/
theorem Inv.next (hs : (op.run r.w).g.jobctl_stopped = r.w.g.jobctl_stopped)
    (hi : Inv ⟨op.run r.w, r.stops, r.continues⟩) : Inv (r.next op) := by
  rw [Tally.next_eq hs]
  exact hi

theorem Inv.step (hi : Inv r) (hp : op.Possible r.w) (hc : Careful r.w op) : Inv (r.next op) := by
  obtain ⟨hat, hrun⟩ := hp
  -- a step of a thread that is at a neutral point
  have hcalm : ∀ t, op.thread = some t → neutral (r.w.pc t) = true → op ≠ .round t →
      Inv (r.next op) := by
    intro t ht hn hround
    obtain ⟨hmem, hready⟩ := hrun t ht
    have h := calmly_run ht hat hn hround
    exact .next h.jobctl_stopped (hi.calmly hready hmem hn h)
  cases op with
  | prepare malloced t signo info flag => exact hi.prepare hc
  | queue flag t e sending =>
    exact .next deliver_jobctl_stopped (hi.queue hat (not_stopping hc.2.1 rfl))
  | awake t => exact .next rfl (hi.setTask t fun _ => TaskOk.clearWaiting)
  | round t =>
    obtain ⟨hmem, hready⟩ := hrun t rfl
    obtain ⟨h, hs⟩ := hi.round hmem hready hat hc.2.2.2
    exact .next hs h
  | notify t signo => exact .next notify_jobctl_stopped (hi.notify (hrun t rfl).1 hat)
  | halt malloced info t =>
    have hmem := (hrun t rfl).1
    have hpt := hi.points t hmem
    rw [show r.w.pc t = .halting from hat] at hpt
    have hnext : r.next (.halt malloced info t) =
        ⟨(Op.halt malloced info t).run r.w, r.stops + 1, r.continues⟩ := by
      unfold Tally.next
      rw [hpt.2.1]
      rfl
    rw [hnext]
    exact hi.halt hmem hat hc.2.2
  | suspend t => exact .next rfl (hi.suspend (hrun t rfl).1 (hrun t rfl).2 hat hc.2.2)
  | report t =>
    exact .next notify_jobctl_stopped (hi.report (hrun t rfl).1 (hrun t rfl).2 hat)
  | fetch t | restore t | sigprocmask t | sigreturn t | sigsuspend t | wake t | sigtimedwait t
  | settle t | block t | delivered t | redirect t | write t | lower t | sleep t
  | sigtimedwaitEnd t =>
    refine hcalm t rfl ?_ nofun
    rw [hat]
    rfl

/-! ## Runs -/

/-- A group that has a parent and leaves all signals to their default, before anything happens. -/
structure Initial (r : Tally θ ι) : Prop where
  nodup : r.w.g.thread_group.Nodup
  dfl : ∀ n, r.w.g.sig_action n = .SIG_DFL
  parent : r.w.parent ≠ none
  pending : ∀ n, ¬Somewhere r.w.g n
  stopPending : r.w.g.jobctl.stopPending = false
  continuePending : r.w.g.jobctl.continuePending = false
  jobctl_stopped : r.w.g.jobctl_stopped = false
  user : ∀ t ∈ r.w.g.thread_group, r.w.pc t = .user
  task : ∀ t ∈ r.w.g.thread_group, TaskOk (r.w.g.thread t).task ∧ suspended r.w.g t = false
  sending : r.w.sending = []
  reports : r.w.reports = []
  stops : r.stops = 0
  continues : r.continues = 0

omit [DecidableEq θ] in
theorem Initial.inv (h : Initial r) : Inv r := by
  have hst : ∀ p : Pc → Bool, p .user = false → standing r.w p = 0 := by
    intro p hp
    refine countP_eq_zero.2 fun t ht => ?_
    rw [h.user t ht, hp]
    exact false_ne_true
  constructor
  · constructor
    · exact fun n _ hn => absurd hn (h.pending n)
    · rw [h.stopPending]
      exact fun hs => false_ne_true hs.1
    · rw [h.reports, h.stops, hst _ rfl]
      rfl
    · rw [h.reports, h.continues, hst _ rfl, h.continuePending]
      rfl
    · rw [h.jobctl_stopped]
      exact fun hs => absurd hs false_ne_true
    · exact fun _ t ht => (h.task t ht).2
  · exact h.nodup
  · exact h.dfl
  · exact h.parent
  · exact fun _ => h.continuePending
  · intro t ht
    rw [h.user t ht]
    trivial
  · exact fun t ht => (h.task t ht).1
  · simp [h.sending]
  · simp [h.sending]

/-- **Job control is orderly** in a run of careful steps. -/
theorem job_control_orderly {r₀ : Tally θ ι} (h₀ : Initial r₀)
    (h : ReflTransGen (TStep Careful) r₀ r) : Orderly r := by
  have hi : Inv r := by
    induction h with
    | refl => exact h₀.inv
    | tail _ hs ih =>
      cases hs with
      | step op hp hok => exact ih.step hp hok
  exact hi.toOrderly

instance : DecidablePred (JobSignal : Op θ ι → Prop)
  | .prepare .. => inferInstanceAs (Decidable (_ ∨ _))
  | .queue .. | .awake _ | .fetch _ | .round _ | .notify .. | .halt .. | .suspend _ | .report _
  | .restore _ | .delivered .. | .redirect .. | .write .. | .sigprocmask .. | .sigreturn ..
  | .sigsuspend .. | .wake _ | .sigtimedwait .. | .lower .. | .sleep .. | .sigtimedwaitEnd ..
  | .settle _ | .block .. => inferInstanceAs (Decidable True)

instance [DecidableEq ι] (w : World θ ι) : DecidablePred (Careful w)
  | .prepare .. => inferInstanceAs (Decidable (_ ∧ _ ∧ _ ∧ (_ → _ ∧ (_ → _))))
  | .queue .. => inferInstanceAs (Decidable (_ ∧ _ ∧ True))
  | .round _ => inferInstanceAs (Decidable (_ ∧ _ ∧ _ ∧ (_ → ∀ u ∈ _, _)))
  | .awake _ | .fetch _ | .notify .. | .halt .. | .suspend _ | .report _ | .restore _
  | .delivered .. | .redirect .. | .write .. | .sigprocmask .. | .sigreturn .. | .sigsuspend ..
  | .wake _ | .sigtimedwait .. | .lower .. | .sleep .. | .sigtimedwaitEnd .. | .settle _
  | .block .. => inferInstanceAs (Decidable (_ ∧ _ ∧ _))

instance (g : Group θ ι) (n : ℕ) : Decidable (Somewhere g n) :=
  inferInstanceAs (Decidable (_ ∨ ∃ t ∈ _, _))

/-- A step that is allowed. -/
def tnext [DecidableEq ι] (ok : World θ ι → Op θ ι → Prop) [∀ w op, Decidable (ok w op)]
    (r : Tally θ ι) (op : Op θ ι) : Option (Tally θ ι) :=
  if op.Possible r.w ∧ ok r.w op then some (r.next op) else none

theorem tstep_of_tnext [DecidableEq ι] {ok : World θ ι → Op θ ι → Prop}
    [∀ w op, Decidable (ok w op)] (r : Tally θ ι) (op : Op θ ι) (r' : Tally θ ι)
    (h : tnext ok r op = some r') : TStep ok r r' := by
  unfold tnext at h
  split_ifs at h with hok
  cases h
  exact .step op hok.1 hok.2

/-- Some threads that leave all signals to their default, with a parent that is told. -/
def start (l : List (Fin 2)) : Tally (Fin 2) Unit where
  w :=
    { g :=
        { thread_group := l
          thread := fun _ => .idle
          shared := Queue.init
          sig_action := fun _ => .SIG_DFL
          jobctl := ⟨false, false, 0⟩
          jobctl_stopped := false
          exiting := false }
      pc := fun _ => .user
      sending := []
      parent := some false
      reports := [] }
  stops := 0
  continues := 0

theorem start_initial {l : List (Fin 2)} (hl : l.Nodup) : Initial (start l) where
  nodup := hl
  dfl _ := rfl
  parent := nofun
  pending n := by
    rintro (h | ⟨t, -, h⟩)
    · exact not_has_zero h
    · exact not_has_zero h
  stopPending := rfl
  continuePending := rfl
  jobctl_stopped := rfl
  user _ _ := rfl
  task _ _ := ⟨⟨nofun, fun _ => rfl, nofun⟩, rfl⟩
  sending := rfl
  reports := rfl
  stops := rfl
  continues := rfl

/-- A thread takes a stop by SIGTSTP, up to where it stops the group. -/
def takesStop (t : Fin 2) : List (Op (Fin 2) Unit) :=
  [.prepare true t SIGTSTP () .TO_PROCESS, .queue .TO_PROCESS t ⟨SIGTSTP, ()⟩ [], .fetch t,
    .round t,
    .round t, .notify t SIGTSTP, .halt true () t]

/-- A process of one thread is stopped, continued, and reports both. -/
theorem job_control_orderly_one : ∃ r : Tally (Fin 2) Unit,
      r.w.reports.map Prod.fst = [.stopped SIGTSTP, .continued] ∧ Orderly r := by
  obtain ⟨r, hr, h⟩ : ∃ r, ReflTransGen (TStep Careful) (start [0]) r ∧
      r.w.reports.map Prod.fst = [.stopped SIGTSTP, .continued] :=
    exists_exec tstep_of_tnext
      (takesStop 0 ++ [.suspend 0, .prepare true 0 SIGCONT () .TO_PROCESS, .round 0, .report 0])
      (by decide +kernel)
  exact ⟨r, h, job_control_orderly (start_initial (by decide)) hr⟩

/-- A run of stop signals, SIGCONT and any steps of the threads. -/
def Reaches (l : List (Fin 2)) (r : Tally (Fin 2) Unit) : Prop :=
  ReflTransGen (TStep fun _ => JobSignal) (start l) r

/-- **Job control is not orderly.**  With two threads, the second one reports the stop again.  With
one thread: a SIGCONT that comes between `stop_process` and the suspension leaves the thread
suspended; a stop signal takes back a continue that was not reported yet; a SIGSTOP to a stopped
group wakes its thread; and when a SIGCONT that the thread blocks and a stop signal are sent at a
time, both become pending. -/
theorem job_control_breaks :
    (∃ r, Reaches [0, 1] r ∧ r.stops = 1 ∧ standing r.w (· = .halting) = 0 ∧
      r.w.reports = [(.stopped SIGTSTP, true), (.stopped SIGSTOP, true)] ∧ ¬Orderly r) ∧
    (∃ r, Reaches [0] r ∧ r.w.g.jobctl_stopped = false ∧ suspended r.w.g 0 = true ∧ ¬Orderly r) ∧
    (∃ r, Reaches [0] r ∧ r.continues = 1 ∧ r.w.reports.countP Report.isContinued = 0 ∧
      standing r.w (· = .reporting) = 0 ∧ r.w.g.jobctl.continuePending = false ∧ ¬Orderly r) ∧
    (∃ r, Reaches [0] r ∧ r.w.g.jobctl_stopped = true ∧ suspended r.w.g 0 = false ∧
      r.w.pc 0 = .fetching ∧ ¬Orderly r) ∧
    ∃ r, Reaches [0] r ∧ Somewhere r.w.g SIGCONT ∧ Somewhere r.w.g SIGTSTP ∧ ¬Orderly r := by
  refine ⟨?_, ?_, ?_, ?_, ?_⟩
  · obtain ⟨r, hr, h1, h2, h3⟩ : ∃ r, Reaches [0, 1] r ∧ r.stops = 1 ∧
        standing r.w (· = .halting) = 0 ∧
        r.w.reports = [(.stopped SIGTSTP, true), (.stopped SIGSTOP, true)] :=
      exists_exec tstep_of_tnext
        (takesStop 0 ++ [.suspend 0, .fetch 1, .round 1, .round 1, .notify 1 SIGSTOP,
          .halt true () 1])
        (by decide +kernel)
    refine ⟨r, hr, h1, h2, h3, fun ho => ?_⟩
    have := ho.stops
    rw [h1, h2, h3] at this
    exact absurd this (by decide)
  · obtain ⟨r, hr, h1, h2, h3⟩ : ∃ r, Reaches [0] r ∧ r.w.g.jobctl_stopped = false ∧
        suspended r.w.g 0 = true ∧ 0 ∈ r.w.g.thread_group :=
      exists_exec tstep_of_tnext
        (takesStop 0 ++ [.prepare true 0 SIGCONT () .TO_PROCESS, .suspend 0]) (by decide +kernel)
    refine ⟨r, hr, h1, h2, fun ho => ?_⟩
    exact false_ne_true ((ho.running h1 0 h3).symm.trans h2)
  · obtain ⟨r, hr, h1, h2, h3, h4⟩ : ∃ r, Reaches [0] r ∧ r.continues = 1 ∧
        r.w.reports.countP Report.isContinued = 0 ∧ standing r.w (· = .reporting) = 0 ∧
        r.w.g.jobctl.continuePending = false :=
      exists_exec tstep_of_tnext
        (takesStop 0 ++ [.suspend 0, .prepare true 0 SIGCONT () .TO_PROCESS,
          .prepare true 0 SIGTSTP () .TO_PROCESS])
        (by decide +kernel)
    refine ⟨r, hr, h1, h2, h3, h4, fun ho => ?_⟩
    have := ho.continues
    rw [h1, h2, h3, h4] at this
    exact absurd this (by decide)
  · obtain ⟨r, hr, h1, h2, h3, h4⟩ : ∃ r, Reaches [0] r ∧ r.w.g.jobctl_stopped = true ∧
        suspended r.w.g 0 = false ∧ r.w.pc 0 = .fetching ∧ 0 ∈ r.w.g.thread_group :=
      exists_exec tstep_of_tnext (takesStop 0 ++ [.suspend 0, .prepare true 0 SIGSTOP () .TO_THREAD,
          .queue .TO_THREAD 0 ⟨SIGSTOP, ()⟩ []])
        (by decide +kernel)
    refine ⟨r, hr, h1, h2, h3, fun ho => ?_⟩
    rcases ho.stopped h1 0 h4 with h | h
    · exact false_ne_true (h2.symm.trans h)
    · rw [h3] at h
      cases h
  · obtain ⟨r, hr, h1, h2⟩ : ∃ r, Reaches [0] r ∧ Somewhere r.w.g SIGCONT ∧
        Somewhere r.w.g SIGTSTP :=
      exists_exec tstep_of_tnext
        [.sigprocmask 0 .SIG_BLOCK (sigmask SIGCONT), .write 0 (sigmask SIGCONT) .user,
          .prepare true 0 SIGCONT () .TO_PROCESS, .prepare true 0 SIGTSTP () .TO_PROCESS,
          .queue .TO_PROCESS 0 ⟨SIGCONT, ()⟩ [(.TO_PROCESS, 0, ⟨SIGTSTP, ()⟩)],
          .queue .TO_PROCESS 0 ⟨SIGTSTP, ()⟩ []]
        (by decide +kernel)
    exact ⟨r, hr, h1, h2, fun ho => ho.signals SIGTSTP (by decide) h2 h1⟩

end Intewell.Signal.JobControl
