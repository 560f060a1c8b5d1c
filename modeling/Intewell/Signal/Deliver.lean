/-
# Delivering signals to the threads of a group

What happens in a thread between two returns to user space: `signal_fetch_deliverable` with the
stops and continues of job control (signal_handler.c), the changes of its mask (signal_mask.c) by
kernel_sigprocmask, by the entry to a handler and the return from it, and the waits
`kernel_signal_suspend` and `kernel_sigtimedwait`.

Each step is what a thread does under one hold of a lock, or without one (`Op.run`); `Pc` is where
it stands in between.  A signal is sent in two steps, what precedes its queueing and the queueing
itself.  A round of the loop of `signal_fetch_deliverable` is a step of its own, so that others may
also step between two rounds that the source makes under one hold.
-/

import Intewell.Signal.Group

namespace Intewell.Signal

open Function (update)

variable {θ ι : Type*} [DecidableEq θ]

/-! ## The flag SIGPENDING -/

def Group.setPending (g : Group θ ι) (t : θ) (b : Bool) : Group θ ι :=
  g.modify t fun c => { c with sigpending := b }

def signal_has_control_event (g : Group θ ι) : Bool :=
  g.jobctl.stopPending || g.jobctl.continuePending

/-- Whether a thread has a reason to look at its signals. -/
def signal_pending_recalc_locked (t : θ) (g : Group θ ι) : Bool :=
  signal_has_control_event g ||
    ((g.thread t).sig_queue.sigset_pending ||| g.shared.sigset_pending) &&&
      ~~~(g.thread t).blocked ≠ 0

def signal_pending_recalc_current_locked (t : θ) (g : Group θ ι) : Group θ ι :=
  g.setPending t (signal_pending_recalc_locked t g)

/-! ## Masks -/

/-- The loop over the threads: the first one that does not block a signal of `retarget` is told to
look. -/
def redirectLoop (t : θ) : List θ → Sigset → Group θ ι → Group θ ι
  | [], _, g => g
  | u :: l, retarget, g =>
    if u = t then redirectLoop t l retarget g
    else
      let can_handle := signal_set_and_not retarget (g.thread u).blocked
      if can_handle ≠ 0 then
        let g := g.setPending u true
        let retarget := signal_set_and_not retarget can_handle
        if retarget = 0 then g else redirectLoop t l retarget g
      else redirectLoop t l retarget g

/-- The shared signals that `signal_redirect_shared_pending` has to find a thread for, read under
another lock than that of the loop. -/
def retarget (newblocked : Sigset) (g : Group θ ι) :
    Sigset := g.shared.sigset_pending &&& newblocked

def thread_group_has_single_thread (g : Group θ ι) : Bool := g.thread_group.length ≤ 1

def Group.setBlocked (g : Group θ ι) (t : θ) (set : Sigset) : Group θ ι :=
  g.modify t fun c => { c with blocked := set }

def signal_mask_restore_saved (t : θ) (g : Group θ ι) : Group θ ι :=
  g.modify t fun c =>
    if c.need_restore_blocked then
      { c with blocked := c.saved_sigmask, need_restore_blocked := false, saved_sigmask := 0 }
    else c

inductive How where
  | SIG_BLOCK | SIG_UNBLOCK | SIG_SETMASK
deriving DecidableEq, Repr

/-- `sigmask_handlers`. -/
def How.apply (how : How) (blocked newset : Sigset) : Sigset :=
  match how with
  | SIG_BLOCK => blocked ||| newset
  | SIG_UNBLOCK => signal_set_and_not blocked newset
  | SIG_SETMASK => newset

/-! ## Job control -/

def signal_mark_jobctl_stop (signo : ℕ) (g : Group θ ι) : Group θ ι :=
  { g with jobctl := { stopPending := true, continuePending := false, stopSigno := signo } }

/-- A round of the loop of `stop_process`: another thread that has not been stopped gets a SIGSTOP
of its own. -/
def forwardStop (malloced : Bool) (info : ι) (t : θ) (g : Group θ ι) (u : θ) : Group θ ι :=
  if u ≠ t ∧ !(g.thread u).task.stopped then
    (signal_send malloced u SIGSTOP info .TO_THREAD
      (g.modify u fun c => { c with task := { c.task with stopped := true } })).2
  else g

def stop_process (malloced : Bool) (info : ι) (t : θ) (g : Group θ ι) : Group θ ι :=
  let g := g.thread_group.foldl (forwardStop malloced info t) g
  { g with jobctl_stopped := true }.modify t
    fun c => { c with task := { c.task with stopped := true } }

/-! ## Threads at work -/

/-- What follows `signal_mask_apply_current`. -/
inductive After where
  | user | suspend | timedwait
deriving DecidableEq, Repr

/-- Where a thread stands. -/
inductive Pc where
  | user
  | fetching
  | stopping (signo : ℕ)
  | halting
  | suspending
  | reporting
  | restoring
  | handling (signo : ℕ) (mask : Sigset) (SA_NODEFER : Bool)
  | redirecting (retarget newset : Sigset) (after : After)
  | masking (newset : Sigset) (after : After)
  | sigsuspend
  | dequeued (mask : Sigset)
  | lowered (mask : Sigset)
  | sigtimedwait (mask : Sigset)
  | settling
  | exiting (signo : ℕ)
deriving DecidableEq, Repr

/-- A change of the state that the parent can wait for. -/
inductive Report where
  | stopped (signo : ℕ)
  | continued
deriving DecidableEq, Repr

/-- The group, where its threads stand, the signals that are being sent, and what the parent was
told, with whether it got a SIGCHLD.  `parent` is none if there is no parent, and else says whether
it has SA_NOCLDSTOP. -/
structure World (θ ι : Type*) where
  g : Group θ ι
  pc : θ → Pc
  sending : List (Target × θ × Entry ι)
  parent : Option Bool
  reports : List (Report × Bool)

def World.goto (w : World θ ι) (t : θ) (pc : Pc) : World θ ι := { w with pc := update w.pc t pc }

def signal_notify_parent_and_leader (r : Report) (w : World θ ι) : World θ ι :=
  match w.parent with
  | some noCldStop => { w with reports := w.reports ++ [(r, !noCldStop)] }
  | none => w

/-- `ktimer_nanosleep`. -/
def Task.sleep (c : Task) : Task :=
  { c with ready := false, ktimerSleep := true, interruptible := true }

def World.sleep (w : World θ ι) (t : θ) : World θ ι :=
  { w with g := w.g.modify t fun c => { c with task := c.task.sleep } }

/-- The loop of `kernel_signal_suspend`. -/
def suspendLoop (t : θ) (w : World θ ι) : World θ ι :=
  if (w.g.thread t).sigpending then
    { w with g := w.g.modify t fun c => { c with need_restore_blocked := true } }.goto t .user
  else (w.sleep t).goto t .sigsuspend

def finishMask (t : θ) (after : After) (w : World θ ι) : World θ ι :=
  match after with
  | .user => w.goto t .user
  | .suspend => suspendLoop t w
  | .timedwait =>
    { w with g := w.g.modify t fun c => { c with real_blocked := 0 } }.goto t .settling

/-- `signal_mask_apply_current` up to where other threads are told of the shared signals that will
be blocked, or else up to where the mask is written. -/
def signal_mask_apply_current (t : θ) (newset : Sigset) (after : After) (w : World θ ι) :
    World θ ι :=
  if (w.g.thread t).blocked = newset then finishMask t after w
  else
    let newset := signal_set_del_immutable newset
    if (w.g.thread t).sigpending && !thread_group_has_single_thread w.g then
      let newblocked := signal_set_and_not newset (w.g.thread t).blocked
      if retarget newblocked w.g ≠ 0 then
        w.goto t (.redirecting (retarget newblocked w.g) newset after)
      else w.goto t (.masking newset after)
    else w.goto t (.masking newset after)

/-- What is done with a signal that was dequeued: it is for a handler, or there is another round. -/
def dispatch (t : θ) (signo : ℕ) (w : World θ ι) : World θ ι :=
  match w.g.sig_action signo with
  | .SIG_IGN => w
  | .handler mask SA_NODEFER SA_ONESHOT =>
    let g :=
      if SA_ONESHOT then { w.g with sig_action := update w.g.sig_action signo .SIG_DFL } else w.g
    { w with g := signal_pending_recalc_current_locked t g }.goto t
      (.handling signo mask SA_NODEFER)
  | .SIG_DFL =>
    if signal_default_ignored signo then w
    else if is_stop_set signo then { w with g := signal_mark_jobctl_stop signo w.g }
    else w.goto t (.exiting signo)

/-- A round of `signal_fetch_deliverable`. -/
def fetchRound (t : θ) (w : World θ ι) : World θ ι :=
  let j := w.g.jobctl
  if j.stopPending then
    { w with g := { w.g with jobctl := { j with stopPending := false, stopSigno := 0 } } }.goto t
      (.stopping (if j.stopSigno = 0 then SIGSTOP else j.stopSigno))
  else if j.continuePending then
    { w with g := { w.g with jobctl := { j with continuePending := false } } }.goto t .reporting
  else
    let r := signal_collect_next_pending t w.g
    if r.1 = 0 then
      { w with g := signal_pending_recalc_current_locked t w.g }.goto t .restoring
    else
      match r.2.1 with
      | none => { w with g := r.2.2 }
      | some _ => dispatch t r.1 { w with g := r.2.2 }

/-- `kernel_sigtimedwait` up to its first dequeue. -/
def kernel_sigtimedwait (t : θ) (sigset : Sigset) (timeout_ns : ℕ) (w : World θ ι) : World θ ι :=
  let mask := ~~~signal_set_del_immutable sigset
  let r := signal_dequeue t mask w.g
  if r.1 = 0 ∧ timeout_ns ≠ 0 then { w with g := r.2.2 }.goto t (.dequeued mask)
  else { w with g := r.2.2 }

/-- The mask is lowered for the time of the sleep. -/
def sigtimedwaitLower (t : θ) (mask : Sigset) (w : World θ ι) : World θ ι :=
  { w with
    g := w.g.modify t fun c =>
      { c with real_blocked := c.blocked, blocked := c.blocked &&& mask } }.goto t (.lowered mask)

def sigtimedwaitSleep (t : θ) (mask : Sigset) (w : World θ ι) : World θ ι :=
  ({ w with g := signal_pending_recalc_current_locked t w.g }.sleep t).goto t (.sigtimedwait mask)

/-- `kernel_sigtimedwait` after its sleep. -/
def sigtimedwaitEnd (t : θ) (mask : Sigset) (w : World θ ι) : World θ ι :=
  let r := signal_dequeue t mask w.g
  signal_mask_apply_current t (r.2.2.thread t).real_blocked .timedwait { w with g := r.2.2 }

def signal_delivered (t : θ) (signo : ℕ) (mask : Sigset) (SA_NODEFER : Bool) (w : World θ ι) :
    World θ ι :=
  let g := w.g.modify t fun c => { c with need_restore_blocked := false }
  let blocked := (g.thread t).blocked ||| mask
  let blocked := if SA_NODEFER then blocked else signal_set_add blocked signo
  signal_mask_apply_current t blocked .user { w with g := g }

inductive Op (θ ι : Type*) where
  | prepare (malloced : Bool) (t : θ) (signo : ℤ) (info : ι) (flag : Target)
  | queue (flag : Target) (t : θ) (e : Entry ι) (sending : List (Target × θ × Entry ι))
  | awake (t : θ)
  | fetch (t : θ)
  | round (t : θ)
  | notify (t : θ) (signo : ℕ)
  | halt (malloced : Bool) (info : ι) (t : θ)
  | suspend (t : θ)
  | report (t : θ)
  | restore (t : θ)
  | delivered (t : θ) (signo : ℕ) (mask : Sigset) (SA_NODEFER : Bool)
  | redirect (t : θ) (retarget newset : Sigset) (after : After)
  | write (t : θ) (newset : Sigset) (after : After)
  | sigprocmask (t : θ) (how : How) (newset : Sigset)
  | sigreturn (t : θ) (set : Sigset)
  | sigsuspend (t : θ) (set : Sigset)
  | wake (t : θ)
  | sigtimedwait (t : θ) (sigset : Sigset) (timeout_ns : ℕ)
  | lower (t : θ) (mask : Sigset)
  | sleep (t : θ) (mask : Sigset)
  | sigtimedwaitEnd (t : θ) (mask : Sigset)
  | settle (t : θ)
  | block (t : θ) (interruptible : Bool)

/-- The thread that takes a step, if it is one of the group. -/
def Op.thread : Op θ ι → Option θ
  | prepare .. | queue .. | awake _ => none
  | fetch t | round t | notify t _ | halt _ _ t | suspend t | report t | restore t
  | delivered t _ _ _ | redirect t _ _ _ | write t _ _ | sigprocmask t _ _ | sigreturn t _
  | sigsuspend t _ | wake t | sigtimedwait t _ _ | lower t _ | sleep t _ | sigtimedwaitEnd t _
  | settle t | block t _ => some t

/-- Where a thread has to stand for a step. -/
def Op.At (w : World θ ι) : Op θ ι → Prop
  | prepare _ t _ _ _ => t ∈ w.g.thread_group
  | queue flag t e sending => w.sending.Perm ((flag, t, e) :: sending)
  | awake t => t ∈ w.g.thread_group ∧ (w.g.thread t).task.isWaiting = true
  | fetch t => w.pc t = .user
  | round t => w.pc t = .fetching
  | notify t signo => w.pc t = .stopping signo
  | halt _ _ t => w.pc t = .halting
  | suspend t => w.pc t = .suspending
  | report t => w.pc t = .reporting
  | restore t => w.pc t = .restoring
  | delivered t signo mask SA_NODEFER => w.pc t = .handling signo mask SA_NODEFER
  | redirect t retarget newset after => w.pc t = .redirecting retarget newset after
  | write t newset after => w.pc t = .masking newset after
  | sigprocmask t _ _ => w.pc t = .user
  | sigreturn t _ => w.pc t = .user
  | sigsuspend t _ => w.pc t = .user
  | wake t => w.pc t = .sigsuspend
  | sigtimedwait t _ _ => w.pc t = .user
  | lower t mask => w.pc t = .dequeued mask
  | sleep t mask => w.pc t = .lowered mask
  | sigtimedwaitEnd t mask => w.pc t = .sigtimedwait mask
  | settle t => w.pc t = .settling
  | block t _ => w.pc t = .user

/-- A thread of the group takes a step when its task runs. -/
def Op.Possible (w : World θ ι) (op : Op θ ι) : Prop :=
  op.At w ∧ ∀ t, op.thread = some t → t ∈ w.g.thread_group ∧ (w.g.thread t).task.ready = true

def Op.run (w : World θ ι) : Op θ ι → World θ ι
  | prepare malloced t signo info flag =>
    let r := signal_send_prepare t signo w.g
    let w := { w with g := r.2 }
    if r.1 = none ∧ malloced then
      { w with sending := (flag, t, ⟨signo.toNat, info⟩) :: w.sending }
    else w
  | queue flag t e sending => { w with g := signal_deliver flag t e w.g, sending := sending }
  | awake t => { w with g := w.g.modify t fun c => { c with task := c.task.ttosClearTaskWaiting } }
  | fetch t => w.goto t (if (w.g.thread t).sigpending then .fetching else .restoring)
  | round t => fetchRound t w
  | notify t signo => (signal_notify_parent_and_leader (.stopped signo) w).goto t .halting
  | halt malloced info t =>
    { w with g := stop_process malloced info t w.g }.goto t .suspending
  | suspend t =>
    { w with g := w.g.modify t fun c => { c with task := c.task.TTOS_SignalSuspendTask } }.goto t
      .fetching
  | report t => (signal_notify_parent_and_leader .continued w).goto t .fetching
  | restore t => { w with g := signal_mask_restore_saved t w.g }.goto t .user
  | delivered t signo mask SA_NODEFER => signal_delivered t signo mask SA_NODEFER w
  | redirect t retarget newset after =>
    { w with g := redirectLoop t w.g.thread_group retarget w.g }.goto t (.masking newset after)
  | write t newset after => finishMask t after { w with g := w.g.setBlocked t newset }
  | sigprocmask t how newset =>
    signal_mask_apply_current t (how.apply (w.g.thread t).blocked newset) .user w
  | sigreturn t set => signal_mask_apply_current t set .user w
  | sigsuspend t set =>
    signal_mask_apply_current t set .suspend
      { w with g := w.g.modify t fun c => { c with saved_sigmask := c.blocked } }
  | wake t => suspendLoop t w
  | sigtimedwait t sigset timeout_ns => kernel_sigtimedwait t sigset timeout_ns w
  | lower t mask => sigtimedwaitLower t mask w
  | sleep t mask => sigtimedwaitSleep t mask w
  | sigtimedwaitEnd t mask => Signal.sigtimedwaitEnd t mask w
  | settle t => { w with g := signal_pending_recalc_current_locked t w.g }.goto t .user
  | block t interruptible =>
    { w with
      g := w.g.modify t fun c =>
        { c with
          task := { c.task with ready := false, waiting := true, interruptible :=
            interruptible } } }

inductive Step (ok : World θ ι → Op θ ι → Prop) : World θ ι → World θ ι → Prop where
  | step {w} (op : Op θ ι) (hp : op.Possible w) (hok : ok w op) : Step ok w (op.run w)

/-! ## Steps by evaluation -/

instance [DecidableEq ι] (w : World θ ι) : (op : Op θ ι) → Decidable (op.At w)
  | .prepare .. => inferInstanceAs (Decidable (_ ∈ _))
  | .queue flag t e sending =>
    inferInstanceAs (Decidable (w.sending.Perm ((flag, t, e) :: sending)))
  | .awake _ => inferInstanceAs (Decidable (_ ∧ _))
  | .fetch _ | .round _ | .notify .. | .halt .. | .suspend _ | .report _ | .restore _
  | .delivered .. | .redirect .. | .write .. | .sigprocmask .. | .sigreturn .. | .sigsuspend ..
  | .wake _ | .sigtimedwait .. | .lower .. | .sleep .. | .sigtimedwaitEnd .. | .settle _
  | .block .. => inferInstanceAs (Decidable (_ = _))

instance [DecidableEq ι] (w : World θ ι) (op : Op θ ι) : Decidable (op.Possible w) :=
  inferInstanceAs (Decidable (_ ∧ ∀ t ∈ op.thread, _))

/-- A step that is allowed. -/
def next [DecidableEq ι] (ok : World θ ι → Op θ ι → Prop) [∀ w op, Decidable (ok w op)]
    (w : World θ ι) (op : Op θ ι) : Option (World θ ι) :=
  if op.Possible w ∧ ok w op then some (op.run w) else none

theorem step_of_next [DecidableEq ι] {ok : World θ ι → Op θ ι → Prop} [∀ w op, Decidable (ok w op)]
    (w : World θ ι) (op : Op θ ι) (w' : World θ ι) (h : next ok w op = some w') : Step ok w w' := by
  unfold next at h
  split_ifs at h with hok
  cases h
  exact .step op hok.1 hok.2

end Intewell.Signal
