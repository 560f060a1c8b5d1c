/-
# Software timers

The timers of kernel/timer: a control block for each timer, and the queue
`ttosManager.timerWaitedQueue` of the active ones, coded by differences.  A timer object
is there from `TTOS_CreateTimer` to `TTOS_DeleteTimer`.

`ttosTimerNotify` calls the handlers of the timers that are due.  What a handler does
here is to activate and to stop timers: `script k` are the calls of the `k`-th handler
that the notification runs.  A call through a `NULL` handler is a fault (`none`).
-/

import Intewell.Lib.DeltaQueue

namespace Intewell.Timer

open Function

inductive TimerState where
  | TTOS_TIMER_UNINSTALL | TTOS_TIMER_INSTALLED | TTOS_TIMER_ACTIVE | TTOS_TIMER_STOP
deriving DecidableEq, Repr

inductive ReturnCode where
  | TTOS_OK | TTOS_INVALID_ID | TTOS_INVALID_STATE | TTOS_INVALID_TIME | TTOS_INVALID_ADDRESS
  | TTOS_INVALID_NUMBER
deriving DecidableEq, Repr

open TimerState ReturnCode

def TTOS_TIMER_LOOP_FOREVER : ℕ := 0xFFFFFFFF

/-- Of `T_TTOS_TimerControlBlock`: what is counted, the handler (`none` for `NULL`), and
the state. -/
structure TimerControlBlock (η : Type*) where
  ticks : ℕ
  repeatCount : ℕ
  remainCount : ℕ
  handler : Option η
  state : TimerState

/-- The timer objects, and the queue with the `waitedTicks` of each timer in it. -/
structure State (ι η : Type*) where
  created : ι → Bool
  timer : ι → TimerControlBlock η
  timerWaitedQueue : List (ι × ℕ)

variable {ι η : Type*} [DecidableEq ι]

def State.set (s : State ι η) (i : ι) (t : TimerControlBlock η) : State ι η :=
  { s with timer := update s.timer i t }

/-- A timer goes before those that wait as long as it. -/
def ttosInsertWaitedTimer (i : ι) (waitedTicks : ℕ) (s : State ι η) : State ι η :=
  { s with timerWaitedQueue := DeltaQueue.insert (· ≤ ·) i waitedTicks s.timerWaitedQueue }

def ttosExactWaitedTimer (i : ι) (s : State ι η) : State ι η :=
  { s with timerWaitedQueue := DeltaQueue.remove i s.timerWaitedQueue }

def ttosInitTimer (i : ι) (ticks repeatCount : ℕ) (handler : Option η) (autoStarted : Bool)
    (s : State ι η) : State ι η :=
  let t := { s.timer i with ticks := ticks, repeatCount := repeatCount, handler := handler }
  let s := { s with created := update s.created i true }
  if autoStarted then
    ttosInsertWaitedTimer i ticks
      (s.set i { t with state := TTOS_TIMER_ACTIVE, remainCount := repeatCount })
  else if ticks ≠ 0 ∧ handler ≠ none then s.set i { t with state := TTOS_TIMER_INSTALLED }
  else s.set i { t with state := TTOS_TIMER_UNINSTALL }

/-- `TTOS_CreateTimer`, with `i` the object that is allocated. -/
def createTimer (i : ι) (ticks repeatCount : ℕ) (handler : Option η) (autoStarted : Bool)
    (s : State ι η) : ReturnCode × State ι η :=
  if autoStarted = true ∧ ticks = 0 then (TTOS_INVALID_NUMBER, s)
  else if autoStarted = true ∧ handler = none then (TTOS_INVALID_ADDRESS, s)
  else (TTOS_OK, ttosInitTimer i ticks repeatCount handler autoStarted s)

def installTimer (i : ι) (ticks : ℕ) (handler : Option η) (repeatCount : ℕ) (s : State ι η) :
    ReturnCode × State ι η :=
  if ticks = 0 then (TTOS_INVALID_TIME, s)
  else if s.created i = false then (TTOS_INVALID_ID, s)
  else if handler = none then (TTOS_INVALID_ADDRESS, s)
  else
    let t := { s.timer i with ticks := ticks, handler := handler, repeatCount := repeatCount }
    (TTOS_OK, s.set i
      { t with
        state := if t.state = TTOS_TIMER_UNINSTALL then TTOS_TIMER_INSTALLED else t.state })

/-- The timer is taken out of the queue if it is active. -/
def exactIfActive (i : ι) (s : State ι η) : State ι η :=
  if (s.timer i).state = TTOS_TIMER_ACTIVE then ttosExactWaitedTimer i s else s

def activeTimer (i : ι) (s : State ι η) : ReturnCode × State ι η :=
  if s.created i = false then (TTOS_INVALID_ID, s)
  else if (s.timer i).state = TTOS_TIMER_UNINSTALL then (TTOS_INVALID_STATE, s)
  else
    let t := { s.timer i with remainCount := (s.timer i).repeatCount, state := TTOS_TIMER_ACTIVE }
    (TTOS_OK, (ttosInsertWaitedTimer i t.ticks (exactIfActive i s)).set i t)

/-- `TTOS_UpdateTimer` does not look whether the timer is installed. -/
def updateTimer (i : ι) (ticks : ℕ) (s : State ι η) : ReturnCode × State ι η :=
  if s.created i = false then (TTOS_INVALID_ID, s)
  else
    (TTOS_OK, (ttosInsertWaitedTimer i ticks (exactIfActive i s)).set i
      { s.timer i with state := TTOS_TIMER_ACTIVE })

def stopTimer (i : ι) (s : State ι η) : ReturnCode × State ι η :=
  if s.created i = false then (TTOS_INVALID_ID, s)
  else if (s.timer i).state ≠ TTOS_TIMER_ACTIVE then (TTOS_INVALID_STATE, s)
  else (TTOS_OK, (ttosExactWaitedTimer i s).set i { s.timer i with state := TTOS_TIMER_STOP })

def deleteTimer (i : ι) (s : State ι η) : ReturnCode × State ι η :=
  if s.created i = false then (TTOS_INVALID_ID, s)
  else (TTOS_OK, { exactIfActive i s with created := update s.created i false })

/-- The calls of the timer interface. -/
inductive Op (ι η : Type*) where
  | create (i : ι) (ticks repeatCount : ℕ) (handler : Option η) (autoStarted : Bool)
  | install (i : ι) (ticks : ℕ) (handler : Option η) (repeatCount : ℕ)
  | active (i : ι)
  | update (i : ι) (ticks : ℕ)
  | stop (i : ι)
  | delete (i : ι)

/-- The timer that a call is for. -/
def Op.timer : Op ι η → ι
  | create i .. => i
  | install i .. => i
  | active i => i
  | update i _ => i
  | stop i => i
  | delete i => i

def Op.run (s : State ι η) : Op ι η → ReturnCode × State ι η
  | create i ticks repeatCount handler autoStarted =>
    createTimer i ticks repeatCount handler autoStarted s
  | install i ticks handler repeatCount => installTimer i ticks handler repeatCount s
  | active i => activeTimer i s
  | update i ticks => updateTimer i ticks s
  | stop i => stopTimer i s
  | delete i => deleteTimer i s

/-- A call of a handler. -/
inductive Call (ι : Type*) where
  | active (i : ι)
  | stop (i : ι)

def Call.op : Call ι → Op ι η
  | active i => .active i
  | stop i => .stop i

/-- What is seen of the timers: calls with what they return, and handlers that run. -/
inductive Event (ι η : Type*) where
  | returned (op : Op ι η) (code : ReturnCode)
  | fired (i : ι)

/-- The calls that a handler makes. -/
def runCalls : List (Call ι) → State ι η → List (Event ι η) × State ι η
  | [], s => ([], s)
  | c :: cs, s =>
    let r := Op.run s c.op
    let rest := runCalls cs r.2
    (.returned c.op r.1 :: rest.1, rest.2)

/-- What happens to a timer that is due and out of the queue, before its handler is
called: it is put into the queue again, or stopped. -/
def expire (i : ι) (ticks : ℕ) (s : State ι η) : State ι η :=
  let t := s.timer i
  if t.remainCount ≠ 0 then
    let s := ttosInsertWaitedTimer i (t.ticks + ticks) s
    if t.repeatCount ≠ TTOS_TIMER_LOOP_FOREVER then
      s.set i { t with remainCount := t.remainCount - 1 }
    else s
  else s.set i { t with state := TTOS_TIMER_STOP }

/-- The loop of `ttosTimerNotify`, after `k` handlers, and what happens in it. -/
def notifyLoop (script : ℕ → List (Call ι)) :
    ℕ → ℕ → ℕ → State ι η → Option (List (Event ι η) × State ι η)
  | 0, _, _, _ => none
  | n + 1, ticks, k, s =>
    match s.timerWaitedQueue with
    | [] => some ([], s)
    | (i, waitedTicks) :: q =>
      if waitedTicks > ticks then
        some ([], { s with timerWaitedQueue := (i, waitedTicks - ticks) :: q })
      else
        let ticks := ticks - waitedTicks
        let s' := expire i ticks { s with timerWaitedQueue := q }
        if (s'.timer i).handler = none then none
        else
          let called := runCalls (script k) s'
          (notifyLoop script n ticks (k + 1) called.2).map fun r =>
            (.fired i :: called.1 ++ r.1, r.2)

def ttosTimerNotify (n : ℕ) (script : ℕ → List (Call ι)) (ticks : ℕ) (s : State ι η) :
    Option (List (Event ι η) × State ι η) := notifyLoop script n ticks 0 s

end Intewell.Timer
