/-
# Semaphores

TTOS_ObtainSemaWithInterruptFlags, TTOS_ReleaseSemaReturnTask, and what ends a wait besides:
the tick that a wait expires at (ttosTickNotify.c) and a signal (signal_send.c).  Counting
semaphores and mutexes share the functions.

The kernel lock is held from `ttosGetObjectById` to `ttosEnableTaskDispatchWithLock`, so that
a call is one step, or two if it waits: a task that has been taken out of the wait queue, by
whatever, gives its unit back, if it has to, only when it runs again.  `resuming` has the
tasks between the two steps.

A wait queue is a list: by Intewell.Sched.TaskqRun the queue of a mutex behaves as one that is
ordered by priority, and that of a counting semaphore is a list anyway.  Times are left out: a
wait that is timed may expire at any moment.  Ready queues and the dispatcher are left out too.
-/

import Intewell.Lib.Update
import Intewell.Sched.TaskqOrder
import Mathlib.Data.List.Sort
import Mathlib.Tactic.Ring

namespace Intewell.Sema

open Function

def INT_MAX : ℤ := 2 ^ 31 - 1

/-- `TTOS_SEMA_WAIT_FOREVER`. -/
def TTOS_WAIT_FOREVER : ℕ := 2 ^ 32 - 1

/-- `TTOS_MUTEX_WAIT_PRIORITY_CEILING` and the others. -/
inductive MutexWait where
  | ceiling | priority | inherit | fifo
deriving DecidableEq, Repr

/-- `attributeSet`, for the values that `TTOS_CreateSema` accepts. -/
inductive Attribute where
  | counting
  | mutex (wait : MutexWait)
deriving DecidableEq, Repr

inductive ReturnCode where
  | TTOS_OK | TTOS_TIMEOUT | TTOS_SIGNAL_INTR | TTOS_UNSATISFIED | TTOS_NOT_OWNER_OF_RESOURCE
  | TTOS_CALLED_FROM_ISR | TTOS_INVALID_USER | TTOS_INVALID_ID
deriving DecidableEq, Repr

open ReturnCode

/-- Of `T_TTOS_SemaControlBlock`. -/
structure SemaControlBlock (τ : Type*) where
  attributeSet : Attribute
  priorityCeiling : ℕ
  semaControlValue : ℤ
  nestCount : ℕ
  semHolder : Option τ
  waitQueue : List τ

/-- Of `T_TTOS_TaskControlBlock`: `timed` if the task is in the tick queue, `interruptible` if
its state has `TTOS_TASK_INTERRUPTIBLE_BY_SIGNAL`. -/
structure Tcb where
  isIdle : Bool
  taskPriority : ℕ
  taskCurPriority : ℕ
  resourceCount : ℕ
  returnCode : ReturnCode
  timed : Bool
  interruptible : Bool

structure State (σ τ : Type*) where
  sema : σ → SemaControlBlock τ
  tcb : τ → Tcb
  resuming : σ → List τ

variable {σ τ : Type*} [DecidableEq σ] [DecidableEq τ]

def SemaControlBlock.isMutex (b : SemaControlBlock τ) : Bool :=
  match b.attributeSet with
  | .counting => false
  | .mutex _ => true

/-- Set by `TTOS_CreateSema`. -/
def SemaControlBlock.isPriorityCeiling (b : SemaControlBlock τ) : Bool :=
  b.attributeSet = .mutex .ceiling

def SemaControlBlock.isInherit (b : SemaControlBlock τ) : Bool := b.attributeSet = .mutex .inherit

def State.prio (s : State σ τ) (t : τ) : ℕ := (s.tcb t).taskCurPriority

def State.setSema (s : State σ τ) (m : σ) (b : SemaControlBlock τ) : State σ τ :=
  { s with sema := update s.sema m b }

def State.setTcb (s : State σ τ) (t : τ) (c : Tcb) : State σ τ := { s with tcb := update s.tcb t c }

/-- The tasks that are inside a call for the semaphore. -/
def State.inside (s : State σ τ) (m : σ) : List τ := (s.sema m).waitQueue ++ s.resuming m

/-- The task is in no call, and may begin one. -/
def State.Running (s : State σ τ) (t : τ) : Prop := ∀ m, t ∉ s.inside m

/-! ## Wait queues -/

def ttosEnqueuePriority (prio : τ → ℕ) (t : τ) (q : List τ) : List τ :=
  q.orderedInsert (fun t u => prio t < prio u) t

/-- The discipline of a queue is that of its semaphore. -/
def SemaControlBlock.enqueue (b : SemaControlBlock τ) (prio : τ → ℕ) (t : τ) : List τ :=
  if b.isMutex then ttosEnqueuePriority prio t b.waitQueue else b.waitQueue ++ [t]

/-- As far as wait queues go: a task that is in one that is ordered by priority is put into it
again. -/
def taskChangePriority (t : τ) (newPriority : ℕ) (s : State σ τ) : State σ τ :=
  let s := s.setTcb t { s.tcb t with taskCurPriority := newPriority }
  { s with sema := fun m =>
      if t ∈ (s.sema m).waitQueue ∧ (s.sema m).isMutex then
        { s.sema m with
          waitQueue := ttosEnqueuePriority s.prio t ((s.sema m).waitQueue.erase t) }
      else s.sema m }

/-! ## TTOS_ObtainSemaWithInterruptFlags -/

/-- A task becomes the owner of a mutex that was free. -/
def own (t : τ) (m : σ) (s : State σ τ) : State σ τ :=
  let s := s.setSema m { s.sema m with nestCount := 1, semHolder := some t }
  let s := s.setTcb t { s.tcb t with resourceCount := (s.tcb t).resourceCount + 1 }
  if (s.sema m).isPriorityCeiling ∧ (s.sema m).priorityCeiling < s.prio t then
    taskChangePriority t (s.sema m).priorityCeiling s
  else s

/-- There is a unit left.  `semHolder` is set for every semaphore. -/
def take (t : τ) (m : σ) (s : State σ τ) : State σ τ :=
  if (s.sema m).isMutex then own t m s
  else s.setSema m { s.sema m with semHolder := some t }

/-- The holder inherits the priority of the caller.  Without a holder the NULL pointer is
read. -/
def inheritPriority (t : τ) (m : σ) (s : State σ τ) : Option (State σ τ) :=
  if (s.sema m).isInherit then
    match (s.sema m).semHolder with
    | none => none
    | some h => some (if s.prio h > s.prio t then taskChangePriority h (s.prio t) s else s)
  else some s

def ttosEnqueueTaskq (t : τ) (m : σ) (ticks : ℕ) (is_interruptable : Bool) (s : State σ τ) :
    State σ τ :=
  let s := s.setTcb t
    { s.tcb t with
      timed := ticks ≠ TTOS_WAIT_FOREVER
      interruptible := is_interruptable }
  s.setSema m { s.sema m with waitQueue := (s.sema m).enqueue s.prio t }

/-- The task waits, unless it can be interrupted and a signal is pending. -/
def wait (t : τ) (m : σ) (ticks : ℕ) (is_interruptable pending : Bool) (s : State σ τ) :
    State σ τ :=
  let s := s.setTcb t { s.tcb t with returnCode := TTOS_OK }
  if is_interruptable && pending then
    { s with resuming := update s.resuming m (t :: s.resuming m) }
  else ttosEnqueueTaskq t m ticks is_interruptable s

/-- The value is counted down first, whatever comes of it. -/
def countDown (m : σ) (s : State σ τ) : State σ τ :=
  s.setSema m { s.sema m with semaControlValue := (s.sema m).semaControlValue - 1 }

/-- What follows when there was no unit. -/
def obtainLate (t : τ) (m : σ) (ticks : ℕ) (is_interruptable pending : Bool) (s : State σ τ) :
    Option (Option ReturnCode × State σ τ) :=
  if (s.sema m).isMutex ∧ (s.sema m).semHolder = some t then
    some (some TTOS_OK, s.setSema m { s.sema m with nestCount := (s.sema m).nestCount + 1 })
  else if ticks = 0 then some (some TTOS_UNSATISFIED, s)
  else
    (inheritPriority t m s).map fun s => (none, wait t m ticks is_interruptable pending s)

def obtainSema (t : τ) (m : σ) (ticks : ℕ) (is_interruptable pending : Bool) (s : State σ τ) :
    Option (Option ReturnCode × State σ τ) :=
  if (s.sema m).isPriorityCeiling ∧ (s.sema m).priorityCeiling > s.prio t then
    some (some TTOS_UNSATISFIED, s)
  else if (s.sema m).semaControlValue > 0 then some (some TTOS_OK, take t m (countDown m s))
  else obtainLate t m ticks is_interruptable pending (countDown m s)

/-- Up to where the call returns a code, or the task waits.  `none` for an id that is none of a
semaphore; `pending` for `pcb_signal_pending`. -/
def TTOS_ObtainSemaWithInterruptFlags (isISR : Bool) (executing : τ) (semaID : Option σ)
    (ticks : ℕ) (is_interruptable pending : Bool) (s : State σ τ) :
    Option (Option ReturnCode × State σ τ) :=
  if isISR then some (some TTOS_CALLED_FROM_ISR, s)
  else if (s.tcb executing).isIdle then some (some TTOS_INVALID_USER, s)
  else
    match semaID with
    | none => some (some TTOS_INVALID_ID, s)
    | some m => obtainSema executing m ticks is_interruptable pending s

/-- The end of a call that has waited. -/
def resume (t : τ) (m : σ) (s : State σ τ) : ReturnCode × State σ τ :=
  let code := (s.tcb t).returnCode
  let s := { s with resuming := update s.resuming m ((s.resuming m).erase t) }
  if code = TTOS_OK then (code, s)
  else
    (code, s.setSema m
      { s.sema m with semaControlValue := (s.sema m).semaControlValue + 1 })

/-! ## TTOS_ReleaseSemaReturnTask -/

/-- A task that leaves the queue, to run again. -/
def leave (t : τ) (m : σ) (s : State σ τ) : State σ τ :=
  { s.setSema m { s.sema m with waitQueue := (s.sema m).waitQueue.erase t } with
    resuming := update s.resuming m (t :: s.resuming m) }

/-- The first of a queue. -/
def ttosDequeueTaskq (m : σ) (s : State σ τ) : Option τ × State σ τ :=
  match (s.sema m).waitQueue with
  | [] => (none, s)
  | t :: _ => (some t, leave t m s)

/-- One more unit, which goes to the first task that waits. -/
def handOver (m : σ) (s : State σ τ) : Option τ × State σ τ :=
  let s :=
    if (s.sema m).semaControlValue < INT_MAX then
      s.setSema m { s.sema m with semaControlValue := (s.sema m).semaControlValue + 1 }
    else s
  match ttosDequeueTaskq m s with
  | (none, s) => (none, s)
  | (some t, s) => (some t, if (s.sema m).isMutex then own t m s else s)

/-- A mutex that nobody holds becomes the caller's. -/
def adopt (t : τ) (m : σ) (s : State σ τ) : State σ τ :=
  if (s.sema m).nestCount = 0 then
    let s := s.setSema m { s.sema m with nestCount := 1, semHolder := some t }
    s.setTcb t { s.tcb t with resourceCount := (s.tcb t).resourceCount + 1 }
  else s

/-- The caller gives the mutex up, and with its last one the priority it got through them. -/
def disown (t : τ) (m : σ) (s : State σ τ) : State σ τ :=
  let s := s.setSema m { s.sema m with nestCount := 0, semHolder := none }
  let s := s.setTcb t { s.tcb t with resourceCount := (s.tcb t).resourceCount - 1 }
  if (s.tcb t).resourceCount = 0 ∧ s.prio t ≠ (s.tcb t).taskPriority then
    taskChangePriority t (s.tcb t).taskPriority s
  else s

/-- What is done for a mutex first: a code if the call ends there. -/
def releaseMutex (t : τ) (m : σ) (s : State σ τ) : Option ReturnCode × State σ τ :=
  if (s.sema m).semaControlValue > 0 then (some TTOS_NOT_OWNER_OF_RESOURCE, s)
  else
    let s := adopt t m s
    if (s.sema m).semHolder ≠ some t then (some TTOS_NOT_OWNER_OF_RESOURCE, s)
    else if (s.sema m).nestCount - 1 ≠ 0 then
      (some TTOS_OK, s.setSema m
        { s.sema m with
          nestCount := (s.sema m).nestCount - 1
          semaControlValue := (s.sema m).semaControlValue + 1 })
    else (none, disown t m s)

/-- The code, the task that was woken up, and the state. -/
def TTOS_ReleaseSemaReturnTask (isISR : Bool) (executing : Option τ) (semaID : Option σ)
    (s : State σ τ) : ReturnCode × Option τ × State σ τ :=
  match executing, semaID with
  | none, _ => (TTOS_INVALID_ID, none, s)
  | _, none => (TTOS_INVALID_ID, none, s)
  | some t, some m =>
    if (s.sema m).isMutex then
      if isISR then (TTOS_CALLED_FROM_ISR, none, s)
      else
        match releaseMutex t m s with
        | (some code, s) => (code, none, s)
        | (none, s) => (TTOS_OK, handOver m s)
    else (TTOS_OK, handOver m s)

/-! ## The end of a wait -/

/-- By a tick (`TTOS_TIMEOUT`) or by a signal (`TTOS_SIGNAL_INTR`). -/
def interrupt (code : ReturnCode) (t : τ) (m : σ) (s : State σ τ) : State σ τ :=
  leave t m (s.setTcb t { s.tcb t with returnCode := code })

/-! ## Runs -/

inductive Op (σ τ : Type*) where
  | obtain (isISR : Bool) (t : τ) (semaID : Option σ) (ticks : ℕ) (is_interruptable pending : Bool)
  | release (isISR : Bool) (executing : Option τ) (semaID : Option σ)
  | expire (t : τ) (m : σ)
  | signal (t : τ) (m : σ) (kill : Bool)
  | resume (t : τ) (m : σ)

/-- What may happen: calls are made by tasks that run; only a wait that is timed expires; a
signal other than SIGKILL and SIGSTOP ends only a wait that is interruptible. -/
def Op.Possible (s : State σ τ) : Op σ τ → Prop
  | obtain isISR t _ _ _ _ => isISR = true ∨ s.Running t
  | release isISR executing _ => isISR = true ∨ ∀ t ∈ executing, s.Running t
  | expire t m => t ∈ (s.sema m).waitQueue ∧ (s.tcb t).timed = true
  | signal t m kill => t ∈ (s.sema m).waitQueue ∧ (kill = true ∨ (s.tcb t).interruptible = true)
  | resume t m => t ∈ s.resuming m

/-- The code that is returned, if a call ends with the step. -/
def Op.run (s : State σ τ) : Op σ τ → Option (Option ReturnCode × State σ τ)
  | obtain isISR t semaID ticks is_interruptable pending =>
    TTOS_ObtainSemaWithInterruptFlags isISR t semaID ticks is_interruptable pending s
  | release isISR executing semaID =>
    let r := TTOS_ReleaseSemaReturnTask isISR executing semaID s
    some (some r.1, r.2.2)
  | expire t m => some (none, interrupt TTOS_TIMEOUT t m s)
  | signal t m _ => some (none, interrupt TTOS_SIGNAL_INTR t m s)
  | resume t m => some (some (Sema.resume t m s).1, (Sema.resume t m s).2)

/-- The state, with the calls for each semaphore that have returned `TTOS_OK`: those that
obtained it and those that released it, in all and as a difference for each task. -/
structure World (σ τ : Type*) where
  st : State σ τ
  obtained : σ → ℕ
  released : σ → ℕ
  net : σ → τ → ℤ

def World.addNet (w : World σ τ) (m : σ) (t : τ) (d : ℤ) : σ → τ → ℤ :=
  update w.net m (update (w.net m) t (w.net m t + d))

def World.granted (w : World σ τ) (m : σ) (t : τ) (s' : State σ τ) : World σ τ :=
  { w with
    st := s'
    obtained := update w.obtained m (w.obtained m + 1)
    net := w.addNet m t 1 }

def World.returned (w : World σ τ) (m : σ) (t : τ) (s' : State σ τ) : World σ τ :=
  { w with
    st := s'
    released := update w.released m (w.released m + 1)
    net := w.addNet m t (-1) }

/-- The world after a step that has left the state `s'`. -/
def Op.after (w : World σ τ) (s' : State σ τ) : Op σ τ → Option ReturnCode → World σ τ
  | obtain _ t (some m) _ _ _, some TTOS_OK => w.granted m t s'
  | resume t m, some TTOS_OK => w.granted m t s'
  | release _ (some t) (some m), some TTOS_OK => w.returned m t s'
  | _, _ => { w with st := s' }

/-- A step, with a condition on it. -/
inductive Step (ok : State σ τ → Op σ τ → Prop) : World σ τ → World σ τ → Prop
  | op (w : World σ τ) (op : Op σ τ) (code : Option ReturnCode) (s' : State σ τ)
    (hp : op.Possible w.st) (hok : ok w.st op) (h : op.run w.st = some (code, s')) :
    Step ok w (op.after w s' code)

end Intewell.Sema
