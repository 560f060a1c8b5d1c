/-
# The signals of a thread group

The threads of a process, each with its own queue of pending signals, its masks and the state of
its task, the queue that they share, and the job control word of the leader (ttosProcess.h,
process_signal.h).  `signal_send` (signal_send.c) with what it does before it queues a signal
(signal_query.c) and to the task of the receiver after it.

The flags of a task's state are kept apart; `waiting` stands for those of `TTOS_TASK_WAITING` other
than the two that have a name here.
-/

import Intewell.Lib.Update
import Intewell.Signal.Queue
import Mathlib.Data.Int.Notation

namespace Intewell.Signal

open Function (update)

def SIGKILL : ℕ := 9
def SIGCHLD : ℕ := 17
def SIGCONT : ℕ := 18
def SIGSTOP : ℕ := 19
def SIGTSTP : ℕ := 20
def SIGTTIN : ℕ := 21
def SIGTTOU : ℕ := 22
def SIGURG : ℕ := 23
def SIGWINCH : ℕ := 28

def ESRCH : ℤ := 3
def ENOMEM : ℤ := 12
def EINVAL : ℤ := 22

def PROCESS_SIG_STOP_SET : Sigset :=
  sigmask SIGSTOP ||| sigmask SIGTSTP ||| sigmask SIGTTIN ||| sigmask SIGTTOU

def PROCESS_SIG_IGNORE_SET : Sigset :=
  sigmask SIGCONT ||| sigmask SIGCHLD ||| sigmask SIGWINCH ||| sigmask SIGURG

def is_stop_set (signo : ℕ) : Bool := signal_set_contains PROCESS_SIG_STOP_SET signo

def signal_default_ignored (signo : ℕ) : Bool := signal_set_contains PROCESS_SIG_IGNORE_SET signo

def signal_num_valid (sig : ℤ) : Bool := 1 ≤ sig ∧ sig ≤ SIGNAL_MAX

/-- `SIGKILL` and `SIGSTOP` cannot be blocked. -/
def signal_set_del_immutable (set : Sigset) : Sigset :=
  signal_set_del (signal_set_del set SIGKILL) SIGSTOP

/-- `struct k_sigaction`: the default action, none, or a handler of the process. -/
inductive Action where
  | SIG_DFL
  | SIG_IGN
  | handler (mask : Sigset) (SA_NODEFER SA_ONESHOT : Bool)
deriving DecidableEq, Repr

/-! ## Tasks -/

/-- The state and the priority of a task; `stopped` is `TTOS_TASK_STOPPED_BY_SIGNAL`. -/
structure Task where
  ready : Bool
  waiting : Bool
  interruptible : Bool
  ktimerSleep : Bool
  suspended : Bool
  stopped : Bool
  taskCurPriority : ℕ
deriving DecidableEq, Repr

namespace Task

/-- One of the flags of `TTOS_TASK_WAITING`. -/
def isWaiting (c : Task) : Bool := c.waiting || c.interruptible || c.ktimerSleep

def ttosSetTaskReady (c : Task) : Task :=
  if c.ready || c.suspended then c else { c with ready := true }

def ttosClearTaskWaiting (c : Task) : Task :=
  let c := { c with waiting := false, interruptible := false, ktimerSleep := false }
  if c.suspended then c else ttosSetTaskReady c

def TTOS_ResumeTask (c : Task) : Task :=
  if c.suspended then
    let c := { c with suspended := false }
    if c.isWaiting then c else ttosSetTaskReady c
  else c

def TTOS_SignalResumeTask (c : Task) : Task := TTOS_ResumeTask { c with stopped := false }

def TTOS_SuspendTask (c : Task) : Task :=
  if c.suspended then c else { c with suspended := true, ready := false }

def TTOS_SignalSuspendTask (c : Task) : Task := TTOS_SuspendTask { c with stopped := true }

def signal_wakeup_task (c : Task) : Task :=
  if c.ktimerSleep then ttosSetTaskReady { c with ktimerSleep := false, interruptible := false }
  else
    let stat := c
    let c := if stat.stopped then TTOS_SignalResumeTask c else c
    -- the state was TTOS_TASK_SUSPEND and nothing else
    let c :=
      if stat.suspended && !stat.ready && !stat.isWaiting && !stat.stopped then TTOS_ResumeTask c
      else c
    ttosClearTaskWaiting c

def task_is_interruptible (c : Task) (sig : ℕ) : Bool :=
  sig == SIGKILL || sig == SIGSTOP || c.interruptible

end Task

/-! ## Threads and groups -/

/-- Of `struct T_TTOS_ProcessControlBlock`; `sigpending` is the flag `SIGPENDING`. -/
structure Thread (ι : Type*) where
  sig_queue : Queue ι
  blocked : Sigset
  real_blocked : Sigset
  saved_sigmask : Sigset
  need_restore_blocked : Bool
  sigpending : Bool
  zombie : Bool
  task : Task
deriving DecidableEq, Repr

/-- A thread that has no signal and blocks none, and whose task runs. -/
def Thread.idle {ι : Type*} : Thread ι where
  sig_queue := Queue.init
  blocked := 0
  real_blocked := 0
  saved_sigmask := 0
  need_restore_blocked := false
  sigpending := false
  zombie := false
  task :=
    { ready := true
      waiting := false
      interruptible := false
      ktimerSleep := false
      suspended := false
      stopped := false
      taskCurPriority := 10 }

/-- The word `jobctl`: `SIGNAL_CTRL_GROUP_STOP_PENDING`, `SIGNAL_CTRL_CONTINUE_REPORT_PENDING`, and
the signal of a stop. -/
structure Jobctl where
  stopPending : Bool
  continuePending : Bool
  stopSigno : ℕ
deriving DecidableEq, Repr

/-- A thread group: its threads in the order of the list `thread_group`, what they share, and of
its leader the job control.  `exiting` if `group_exit_status` says so. -/
structure Group (θ ι : Type*) where
  thread_group : List θ
  thread : θ → Thread ι
  shared : Queue ι
  sig_action : ℕ → Action
  jobctl : Jobctl
  jobctl_stopped : Bool
  exiting : Bool

variable {θ ι : Type*} [DecidableEq θ]

/-- Of one thread. -/
def Group.modify (g : Group θ ι) (t : θ) (f : Thread ι → Thread ι) : Group θ ι :=
  { g with thread := update g.thread t (f (g.thread t)) }

/-- Of every thread of the group, `for_each_thread_in_tgroup`. -/
def Group.modifyAll (g : Group θ ι) (f : Thread ι → Thread ι) : Group θ ι :=
  { g with thread := fun t => if t ∈ g.thread_group then f (g.thread t) else g.thread t }

def sigqueue_remove_shared (set : Sigset) (g : Group θ ι) : Group θ ι :=
  { g with shared := sigqueue_remove set g.shared }

def sigqueue_remove_private (set : Sigset) (g : Group θ ι) : Group θ ι :=
  g.modifyAll fun c => { c with sig_queue := sigqueue_remove set c.sig_queue }

/-! ## Before a signal is queued -/

def signal_prepare_stop (g : Group θ ι) : Group θ ι :=
  let g := sigqueue_remove_private (sigmask SIGCONT) (sigqueue_remove_shared (sigmask SIGCONT) g)
  { g with jobctl := { g.jobctl with continuePending := false } }

def signal_resume_thread_group (g : Group θ ι) : Group θ ι :=
  g.modifyAll fun c => { c with task := c.task.TTOS_SignalResumeTask }

def signal_prepare_continue (g : Group θ ι) : Group θ ι :=
  let was_group_stopped := g.jobctl_stopped
  let g :=
    { g with
      jobctl_stopped := false
      jobctl :=
        { stopPending := false
          continuePending := g.jobctl.continuePending || was_group_stopped
          stopSigno := 0 } }
  signal_resume_thread_group
    (sigqueue_remove_private PROCESS_SIG_STOP_SET (sigqueue_remove_shared PROCESS_SIG_STOP_SET g))

def signal_send_ignored (g : Group θ ι) (t : θ) (signo : ℕ) : Bool :=
  if signal_set_contains (g.thread t).blocked signo ||
      signal_set_contains (g.thread t).real_blocked signo then false
  else
    match g.sig_action signo with
    | .SIG_IGN => true
    | .SIG_DFL => signal_default_ignored signo
    | .handler .. => false

/-- Whether the signal is to be queued. -/
def signal_prepare_send (sig : ℕ) (t : θ) (force : Bool) (g : Group θ ι) : Bool × Group θ ι :=
  if g.exiting then (force, g)
  else
    let g :=
      if is_stop_set sig then signal_prepare_stop g
      else if sig = SIGCONT then signal_prepare_continue g
      else g
    (force || !signal_send_ignored g t sig, g)

/-! ## Sending -/

/-- The thread of the lowest priority number that does not block the signal, the first of them. -/
def tgroup_find_signal_thread_locked (g : Group θ ι) (signo : ℕ) : Option θ :=
  g.thread_group.foldl
    (fun catcher t =>
      if signal_set_contains (g.thread t).blocked signo then catcher
      else
        match catcher with
        | none => some t
        | some c =>
          if (g.thread t).task.taskCurPriority < (g.thread c).task.taskCurPriority then some t
          else catcher)
    none

def signal_notify_target (t : θ) (sig : ℕ) (g : Group θ ι) : Group θ ι :=
  g.modify t fun c =>
    if c.task.ready then c
    else if signal_set_contains c.blocked sig then c
    else if c.task.task_is_interruptible sig then { c with task := c.task.signal_wakeup_task }
    else c

/-- The receiver, and the group with the signal queued. -/
def signal_queue_to_process (e : Entry ι) (g : Group θ ι) : Option θ × Group θ ι :=
  let receiver := tgroup_find_signal_thread_locked g e.signo
  let g := { g with shared := sigqueue_enqueue g.shared e }
  (receiver,
    match receiver with
    | some t => g.modify t fun c => { c with sigpending := true }
    | none => g)

def signal_queue_to_thread (t : θ) (e : Entry ι) (g : Group θ ι) : Option θ × Group θ ι :=
  (some t,
    g.modify t fun c => { c with sig_queue := sigqueue_enqueue c.sig_queue e, sigpending := true })

inductive Target where
  | TO_THREAD | TO_PROCESS
deriving DecidableEq, Repr

def signal_queue (flag : Target) (t : θ) (e : Entry ι) (g : Group θ ι) : Option θ × Group θ ι :=
  match flag with
  | .TO_PROCESS => signal_queue_to_process e g
  | .TO_THREAD => signal_queue_to_thread t e g

/-- `signal_send_prepare`: an error or 0 to be returned, or none if the signal is to be queued. -/
def signal_send_prepare (t : θ) (signo : ℤ) (g : Group θ ι) : Option ℤ × Group θ ι :=
  if (g.thread t).zombie then (some (-ESRCH), g)
  else if signo = 0 then (some 0, g)
  else if !signal_num_valid signo then (some (-EINVAL), g)
  else
    let r := signal_prepare_send signo.toNat t (signo = SIGKILL) g
    (if r.1 then none else some 0, r.2)

/-- Only the number of a signal is queued. -/
theorem valid_of_send_prepare (t : θ) (signo : ℤ) (g : Group θ ι)
    (h : (signal_send_prepare t signo g).1 = none) : Valid signo.toNat := by
  unfold signal_send_prepare at h
  split_ifs at h with h1 h2 h3
  rw [Bool.not_eq_true', Bool.not_eq_false] at h3
  obtain ⟨h4, h5⟩ := of_decide_eq_true h3
  unfold Valid
  omega

/-- The signal is queued, and the task of the receiver told of it. -/
def signal_deliver (flag : Target) (t : θ) (e : Entry ι) (g : Group θ ι) : Group θ ι :=
  let r := signal_queue flag t e g
  match r.1 with
  | some receiver => signal_notify_target receiver e.signo r.2
  | none => r.2

/-- `malloced` is false if there is no memory for the entry. -/
def signal_send (malloced : Bool) (t : θ) (signo : ℤ) (info : ι) (flag : Target) (g : Group θ ι) :
    ℤ × Group θ ι :=
  match signal_send_prepare t signo g with
  | (some ret, g) => (ret, g)
  | (none, g) =>
    if malloced then (0, signal_deliver flag t ⟨signo.toNat, info⟩ g) else (-ENOMEM, g)

/-! ## Dequeueing -/

/-- `signal_dequeue`, where no signal is of a timer: the lowest signal that `mask` does not have,
of the thread's queue or else of the shared one. -/
def signal_dequeue (t : θ) (mask : Sigset) (g : Group θ ι) : ℕ × Option (Entry ι) × Group θ ι :=
  let q := (g.thread t).sig_queue
  let signo := signal_find_next_pending q.sigset_pending mask
  if signo ≠ 0 then
    let r := sigqueue_dequeue_single q signo
    (signo, r.1, g.modify t fun c => { c with sig_queue := r.2 })
  else
    let signo := signal_find_next_pending g.shared.sigset_pending mask
    if signo ≠ 0 then
      let r := sigqueue_dequeue_single g.shared signo
      (signo, r.1, { g with shared := r.2 })
    else (0, none, g)

/-- Where `signal_fetch_deliverable` finds its next signal: true for the thread's own queue. -/
def peek_signal (t : θ) (g : Group θ ι) : ℕ × Bool :=
  let own := (g.thread t).sig_queue
  let mask := (g.thread t).blocked
  let signo := if sigqueue_isempty own then 0 else sigqueue_peek own mask
  if signo = 0 ∧ !sigqueue_isempty g.shared then (sigqueue_peek g.shared mask, false)
  else (signo, true)

def signal_collect_next_pending (t : θ) (g : Group θ ι) : ℕ × Option (Entry ι) × Group θ ι :=
  let signo := (peek_signal t g).1
  if signo = 0 then (0, none, g)
  else if (peek_signal t g).2 then
    let r := sigqueue_dequeue_single (g.thread t).sig_queue signo
    (signo, r.1, g.modify t fun c => { c with sig_queue := r.2 })
  else
    let r := sigqueue_dequeue_single g.shared signo
    (signo, r.1, { g with shared := r.2 })

end Intewell.Signal
