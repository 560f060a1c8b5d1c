/-
# Periodic tasks

A periodic task is in one of two queues: `periodWaitedQueue`, until its period begins, or
`expireWaitedQueue`, until its deadline.  Both are coded by differences, and each has two
counters (tbspClockNotify.c): `ticks`, what the first task waited for when it became the
first, and `curentTicks`, what is left of it.  The first difference in a queue is not
counted down with them, so that `ticks - curentTicks` has been waited already.

`tbspClockNotify` notifies one tick.  A queue whose first task is due then has no ticks
left over, so `ttosPeriodWaitQueueModify` and `ttosPeriodExpireQueueModify` only clear the
first difference: their loops over the left ticks do not start, the temporary queues stay
empty, and `ttosPeriodQueueMerge` has nothing to merge.

`period_sched_group_exit` deletes the node of a task from its queue and does nothing else
to the queue.  Deleting a node that is in no queue is a fault (`none`).
-/

import Intewell.Lib.DeltaQueue
import Intewell.Lib.Update
import Intewell.Sched.Basic

namespace Intewell.Period

open Sched (TaskState TTOS_TASK_DORMANT TTOS_TASK_READY TTOS_TASK_SUSPEND TTOS_TASK_PWAITING
  TTOS_TASK_CWAITING TTOS_TASK_NONRUNNING_STATE)
open Function (update)

def TTOS_TASK_FIRSTRUN : TaskState := 0x00020
def TTOS_TASK_EXIT_DEAD : TaskState := 0x2000000
def TTOS_TASK_EXIT_ZOMBIE : TaskState := 0x4000000

/-! ## A queue -/

/-- A queue with its two counters. -/
structure Queue (τ : Type*) where
  chain : List (τ × ℕ)
  ticks : ℕ
  curentTicks : ℕ

variable {τ : Type*} [DecidableEq τ]

/-- A task goes behind those that wait as long as it.  The time to be notified after is
returned if the task is the first one now, and 0 otherwise. -/
def ttosInsertWaitedPeriodTask (t : τ) (waitedTime : ℕ) (chain : List (τ × ℕ)) (waited : ℕ) :
    ℕ × List (τ × ℕ) :=
  let chain' := DeltaQueue.insert (· < ·) t waitedTime
    (chain.modifyHead fun x => (x.1, x.2 - waited))
  match chain' with
  | [] => (0, [])
  | (h, d) :: q => if h = t then (d, (h, d) :: q) else (0, (h, d + waited) :: q)

/-- The time to be notified after is returned if the first task was taken out and there is
another, and 0 otherwise. -/
def ttosExactWaitedPeriodTask (t : τ) (chain : List (τ × ℕ)) (waited : ℕ) : ℕ × List (τ × ℕ) :=
  match chain with
  | [] => (0, [])
  | (h, d) :: q =>
    if h = t then
      match q with
      | [] => (0, [])
      | (x, e) :: q => (e + d - waited, (x, e + d - waited) :: q)
    else (0, (h, d) :: DeltaQueue.remove t q)

namespace Queue

/-- `tbspSetPWaitTick` and `tbspSetPExpireTick`, where the time is not 0. -/
def setTick (q : Queue τ) (time : ℕ) : Queue τ :=
  if time ≠ 0 then { q with ticks := time, curentTicks := time } else q

/-- A task enters the queue, for `waitedTime` from now. -/
def insert (t : τ) (waitedTime : ℕ) (q : Queue τ) : Queue τ :=
  let r := ttosInsertWaitedPeriodTask t waitedTime q.chain (q.ticks - q.curentTicks)
  setTick { q with chain := r.2 } r.1

def exact (t : τ) (q : Queue τ) : Queue τ :=
  let r := ttosExactWaitedPeriodTask t q.chain (q.ticks - q.curentTicks)
  setTick { q with chain := r.2 } r.1

/-- One tick for the counters; whether the queue is to be notified. -/
def countDown (q : Queue τ) : Bool × Queue τ :=
  if q.curentTicks ≠ 0 then
    if q.curentTicks > 1 then (false, { q with curentTicks := q.curentTicks - 1 })
    else (true, { q with curentTicks := 0, ticks := 0 })
  else (false, q)

/-- `ttosPeriodWaitQueueModify` and `ttosPeriodExpireQueueModify`, with no ticks left. -/
def modify (q : Queue τ) : Queue τ := { q with chain := q.chain.modifyHead fun x => (x.1, 0) }

/-- The part of `ttosPeriodQueueMerge` that is about one queue: whether its first task is
due, and the counters if they are not set. -/
def merge (q : Queue τ) : Bool × Queue τ :=
  match q.chain with
  | [] => (false, q)
  | (_, w) :: _ =>
    if w = 0 then (true, q) else (false, if q.ticks = 0 then q.setTick w else q)

end Queue

/-! ## The tasks -/

/-- Of `T_TTOS_PeriodTaskNode`. -/
structure Node where
  periodTime : ℕ
  durationTime : ℕ
  delayTime : ℕ
  replenishTime : ℕ
  jobCompleted : Bool

/-- The periodic tasks, the two queues, and the queue of ttosPeriodPrioReadyQueue.c, of
those that a tick makes ready. -/
structure State (τ : Type*) where
  created : τ → Bool
  node : τ → Node
  state : τ → TaskState
  wait : Queue τ
  expire : Queue τ
  ready : List τ

/-- What is seen of a task: its period begins, or `TTOS_ExpireTaskHook` is called for it. -/
inductive Event (τ : Type*) where
  | released (t : τ)
  | missed (t : τ)

/-- `TTOS_ExpireTaskHook` is called for a task whose work is not done. -/
def hook (t : τ) (jobCompleted : Bool) : List (Event τ) := if jobCompleted then [] else [.missed t]

/-- By the delay of the tasks. -/
def ttosPeriodPrioReadyQueueAdd (t : τ) (s : State τ) : State τ :=
  let before := s.ready.takeWhile fun u => (s.node u).delayTime ≤ (s.node t).delayTime
  { s with ready := before ++ t :: s.ready.drop before.length }

/-- A task that nothing else keeps from running is made ready. -/
def addIfRunnable (t : τ) (s : State τ) : State τ :=
  if s.state t &&& TTOS_TASK_NONRUNNING_STATE = 0 then ttosPeriodPrioReadyQueueAdd t s else s

def setReady (state : TaskState) : TaskState :=
  if state &&& (TTOS_TASK_READY ||| TTOS_TASK_SUSPEND) ≠ 0 then state else state ||| TTOS_TASK_READY

def ttosPeriodPrioReadyQueueSetReady (s : State τ) : State τ :=
  { s with state := fun t => if t ∈ s.ready then setReady (s.state t) else s.state t, ready := [] }

/-- The first task of the waiting queue, which has been taken out, begins its period. -/
def release (t : τ) (s : State τ) : State τ :=
  addIfRunnable t
    { s with
      expire := s.expire.insert t (s.node t).durationTime
      state := update s.state t (s.state t &&& ~~~TTOS_TASK_PWAITING) }

/-- The loop of `ttosPeriodWaitNotify`, on what is left of the queue. -/
def waitNotify : Bool → List (τ × ℕ) → State τ → List (Event τ) × State τ
  | _, [], s => ([], { s with wait := { s.wait with chain := [] } })
  | first, (t, w) :: q, s =>
    if first = false ∧ w ≠ 0 then
      ([], { s with wait := Queue.setTick { s.wait with chain := (t, w) :: q } w })
    else
      let r := waitNotify false q (release t s)
      (.released t :: r.1, r.2)

def ttosPeriodWaitNotify (s : State τ) : List (Event τ) × State τ := waitNotify true s.wait.chain s

/-- The first task of the queue of deadlines, which has been taken out, is at its deadline:
it waits for its next period, or begins it at once. -/
def deadline (t : τ) (s : State τ) : List (Event τ) × State τ :=
  let node := s.node t
  let waitedTime := node.periodTime - node.durationTime - node.replenishTime
  let missed := hook t node.jobCompleted
  let s :=
    { s with
      node := update s.node t { node with replenishTime := 0, jobCompleted := false }
      state := update s.state t (s.state t &&& ~~~TTOS_TASK_CWAITING) }
  if waitedTime ≠ 0 then
    (missed,
      { s with
        wait := s.wait.insert t waitedTime
        state := update s.state t (s.state t &&& ~~~TTOS_TASK_READY ||| TTOS_TASK_PWAITING) })
  else
    let r := ttosInsertWaitedPeriodTask t node.durationTime s.expire.chain 0
    let s := { s with expire := { s.expire with chain := r.2 } }
    (missed ++ [.released t], if node.jobCompleted then addIfRunnable t s else s)

/-- The loop of `ttosPeriodExpireNotify`. -/
def expireNotify : ℕ → Bool → State τ → Option (List (Event τ) × State τ)
  | 0, _, _ => none
  | n + 1, first, s =>
    match s.expire.chain with
    | [] => some ([], s)
    | (t, w) :: q =>
      if first = false ∧ w ≠ 0 then some ([], { s with expire := s.expire.setTick w })
      else
        let r := deadline t { s with expire := { s.expire with chain := q } }
        (expireNotify n false r.2).map fun r' => (r.1 ++ r'.1, r'.2)

def ttosPeriodExpireNotify (n : ℕ) (s : State τ) : Option (List (Event τ) × State τ) :=
  expireNotify n true s

/-- The queues after the counters have been counted down and the first differences of the
queues to be notified cleared. -/
def countedDown (q : Queue τ) : Queue τ :=
  if q.countDown.1 then q.countDown.2.modify else q.countDown.2

/-- A queue is notified if its first task is due. -/
def notifyWaiting (due : Bool) (s : State τ) : List (Event τ) × State τ :=
  if due then ttosPeriodWaitNotify s else ([], s)

def notifyExpired (n : ℕ) (due : Bool) (s : State τ) : Option (List (Event τ) × State τ) :=
  if due then ttosPeriodExpireNotify n s else some ([], s)

def tbspClockNotify (n : ℕ) (s : State τ) : Option (List (Event τ) × State τ) :=
  let s' := { s with wait := countedDown s.wait, expire := countedDown s.expire }
  if s.wait.countDown.1 = false ∧ s.expire.countDown.1 = false then
    some ([], ttosPeriodPrioReadyQueueSetReady s')
  else
    let s'' := { s' with wait := s'.wait.merge.2, expire := s'.expire.merge.2 }
    let waited := notifyWaiting s'.wait.merge.1 s''
    (notifyExpired n s'.expire.merge.1 waited.2).map fun r =>
      (waited.1 ++ r.1, ttosPeriodPrioReadyQueueSetReady r.2)

/-! ## The calls -/

/-- A task is put into the queue that it starts in. -/
def ttosStartPeriod (t : τ) (s : State τ) : State τ :=
  if (s.node t).delayTime ≠ 0 then
    { s with
      wait := s.wait.insert t (s.node t).delayTime
      state := update s.state t (TTOS_TASK_PWAITING ||| TTOS_TASK_FIRSTRUN) }
  else
    { s with
      expire := s.expire.insert t (s.node t).durationTime
      state := update s.state t (setReady TTOS_TASK_FIRSTRUN) }

def activeTask (t : τ) (s : State τ) : State τ :=
  if s.created t = false then s
  else if s.state t ≠ TTOS_TASK_DORMANT then s
  else ttosStartPeriod t s

/-- The counters of the queue start anew. -/
def Queue.restart (q : Queue τ) : Queue τ :=
  match q.chain with
  | [] => q
  | (_, w) :: _ => { q with ticks := w, curentTicks := w }

def ttosSetPWaitAndExpireTick (s : State τ) : State τ :=
  { s with wait := s.wait.restart, expire := s.expire.restart }

/-- `TTOS_CreateTask` for a periodic task.  One that starts by itself is put into its queue
as if nothing had been waited there. -/
def createTask (t : τ) (periodTime durationTime delayTime : ℕ) (autoStarted : Bool)
    (s : State τ) : State τ :=
  if durationTime > periodTime then s
  else
    let s :=
      { s with
        created := update s.created t true
        node := update s.node t ⟨periodTime, durationTime, delayTime, 0, false⟩ }
    ttosSetPWaitAndExpireTick <|
      if autoStarted then
        if delayTime ≠ 0 then
          { s with
            wait := { s.wait with
              chain := (ttosInsertWaitedPeriodTask t delayTime s.wait.chain 0).2 }
            state := update s.state t (TTOS_TASK_PWAITING ||| TTOS_TASK_FIRSTRUN) }
        else
          { s with
            expire := { s.expire with
              chain := (ttosInsertWaitedPeriodTask t durationTime s.expire.chain 0).2 }
            state := update s.state t (TTOS_TASK_READY ||| TTOS_TASK_FIRSTRUN) }
      else { s with state := update s.state t TTOS_TASK_DORMANT }

def waitPeriod (t : τ) (s : State τ) : State τ :=
  { s with
    node := update s.node t { s.node t with jobCompleted := true }
    state := update s.state t ((s.state t ||| TTOS_TASK_CWAITING) &&& ~~~TTOS_TASK_READY) }

def Queue.has (q : Queue τ) (t : τ) : Prop := t ∈ q.chain.map Prod.fst

instance (q : Queue τ) (t : τ) : Decidable (q.has t) := inferInstanceAs (Decidable (_ ∈ _))

/-- `ttosStopTask`.  The state tells the queue that the task is taken out of. -/
def ttosStopTask (t : τ) (s : State τ) : Option (State τ) :=
  let s' :=
    { s with
      node := update s.node t { s.node t with replenishTime := 0, jobCompleted := false }
      state := update s.state t
        (s.state t &&& (TTOS_TASK_EXIT_DEAD ||| TTOS_TASK_EXIT_ZOMBIE) ||| TTOS_TASK_DORMANT) }
  if s.state t &&& TTOS_TASK_PWAITING = TTOS_TASK_PWAITING then
    if s.wait.has t then some { s' with wait := s.wait.exact t } else none
  else if s.expire.has t then some { s' with expire := s.expire.exact t }
  else none

/-- A task that is dormant is in no queue. -/
def stopTask (t : τ) (s : State τ) : Option (State τ) :=
  if s.created t = false ∨ s.state t = TTOS_TASK_DORMANT then some s else ttosStopTask t s

def deleteTask (t : τ) (s : State τ) : Option (State τ) :=
  (stopTask t s).map fun s => { s with created := update s.created t false }

/-- The node is deleted from the list that it is in. -/
def Queue.unlink (t : τ) (q : Queue τ) : Queue τ :=
  { q with chain := q.chain.eraseP fun x => x.1 = t }

/-- `group` tells whether there is a group of the task's period. -/
def period_sched_group_exit (group : Bool) (t : τ) (s : State τ) : Option (State τ) :=
  if group then
    if s.wait.has t ∨ s.expire.has t then
      some { s with wait := s.wait.unlink t, expire := s.expire.unlink t }
    else none
  else some s

end Intewell.Period
