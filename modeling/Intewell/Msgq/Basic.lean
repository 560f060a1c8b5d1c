/-
# Message queues

TTOS_SendMsgq and TTOS_ReceiveMsgq, with ttosInsertMsg and ttosCommitMessage (ttosMsgq.c) and
ttosReceiveMessage (ttosReceiveMsgq.c).  A message is in a block: one of the 32 lists
`pendingMsgQueue` has it, by the priority of the message, or the list of free blocks.  A bit for
each list says which is not empty.

Calls do not overlap: the copying, which the code does with the lock released, is part of the
step.  A call is one step, or two if it waits; a task that has been taken out of a wait queue
returns in a step of its own.  The lists `sendResuming` and `receiveResuming` have the tasks
between the two.

What is before a step of the code is left out: creation (`State.Created` is its result),
deletion, and with it `disableDeleteFlag`.  A wait queue is a list, ordered by priority if the
queue has TTOS_PRIORITY (Intewell.Sched.TaskqRun).
-/

import Intewell.Lib.Bitmap
import Intewell.Lib.PriorityFifo
import Mathlib.Tactic.Ring

namespace Intewell.Msgq

open Function (update)

def TTOS_WAIT : BitVec 32 := 0x00000000
def TTOS_NO_WAIT : BitVec 32 := 0x00000001
def TTOS_URGENT : BitVec 32 := 0x00000004
def TTOS_MSGQ_PRIORITY_MASK : BitVec 32 := 0x000000F8
def TTOS_MSGQ_PRIORITY_NUMBER : ℕ := 32
def TTOS_WAIT_FOREVER : ℕ := 0xFFFFFFFF

def TTOS_MSGQ_GET_PRIORITY (options : BitVec 32) : ℕ :=
  ((options &&& TTOS_MSGQ_PRIORITY_MASK) >>> 3).toNat

def TTOS_MSGQ_SET_PRIORITYBITMAP (priorityBitMap : BitVec 32) (pri : ℕ) : BitVec 32 :=
  priorityBitMap ||| (0x80000000#32 >>> pri)

def TTOS_MSGQ_CLEAR_PRIORITYBITMAP (priorityBitMap : BitVec 32) (pri : ℕ) : BitVec 32 :=
  priorityBitMap &&& ~~~(0x80000000#32 >>> pri)

/-- The instruction `clz`. -/
def zero_num_of_word_get (numVar : BitVec 32) : ℕ := Bitmap.first numVar

inductive ReturnCode where
  | TTOS_OK | TTOS_TIMEOUT | TTOS_SIGNAL_INTR | TTOS_UNSATISFIED | TTOS_TOO_MANY
  | TTOS_CALLED_FROM_ISR | TTOS_INVALID_USER | TTOS_INVALID_ADDRESS | TTOS_INVALID_SIZE
  | TTOS_INVALID_ID
deriving DecidableEq, Repr

open ReturnCode

/-- `T_TTOS_MsgqBufControl`. -/
structure MsgqBufControl where
  size : ℕ
  priority : ℕ
  buffer : ℕ → UInt8

/-- Of `T_TTOS_MsgqControlBlock`, without its wait queues; `msg` are the blocks of `msgBuffers`,
by their index. -/
structure MsgqControlBlock where
  maxPendingMsg : ℕ
  maxMsgSize : ℕ
  pendingCount : ℕ
  msgPriorityBitMap : BitVec 32
  pendingMsgQueue : ℕ → List ℕ
  inactiveMsgQueue : List ℕ
  msg : ℕ → MsgqBufControl

/-- Of `T_TTOS_TaskControlBlock`.  `buffer` and `size` are those of the call that the task is in:
`wait.returnArgument` points to the one, and `wait.returnArgument1` is the other or points to
it.  `option` and `count` are `wait.option` and `wait.count`; `timed` if the task is in the tick
queue. -/
structure Tcb where
  isIdle : Bool
  taskCurPriority : ℕ
  returnCode : ReturnCode
  timed : Bool
  buffer : ℕ → UInt8
  size : ℕ
  option : Bool
  count : ℕ

/-- `notified` counts the calls of `notifyHandler`. -/
structure State (τ : Type*) extends MsgqControlBlock where
  isPriority : Bool
  sendWaitQueue : List τ
  receiveWaitQueue : List τ
  notifyHandler : Bool
  notified : ℕ
  tcb : τ → Tcb
  sendResuming : List τ
  receiveResuming : List τ

variable {τ : Type*} [DecidableEq τ]

def MsgqControlBlock.setMsg (c : MsgqControlBlock) (b : ℕ) (m : MsgqBufControl) :
    MsgqControlBlock := { c with msg := update c.msg b m }

@[simp] theorem MsgqControlBlock.setMsg_msg (c : MsgqControlBlock) (b b' : ℕ) (m : MsgqBufControl) :
    (c.setMsg b m).msg b' = if b' = b then m else c.msg b' := Function.update_apply ..

def State.setTcb (s : State τ) (t : τ) (c : Tcb) : State τ := { s with tcb := update s.tcb t c }

/-- The tasks that are inside a call. -/
def State.inside (s : State τ) : List τ :=
  s.sendWaitQueue ++ (s.receiveWaitQueue ++ (s.sendResuming ++ s.receiveResuming))

/-- What `TTOS_CreateMsgq` leaves. -/
structure State.Created (s : State τ) : Prop where
  count : s.pendingCount = 0
  bits : s.msgPriorityBitMap = 0
  pending : ∀ p, s.pendingMsgQueue p = []
  free : s.inactiveMsgQueue = List.range s.maxPendingMsg
  idle : s.inside = []

/-- A queue as it is created, with FIFO wait queues, and tasks that have done nothing yet. -/
def State.new (τ : Type*) (maxPendingMsg maxMsgSize : ℕ) : State τ where
  maxPendingMsg := maxPendingMsg
  maxMsgSize := maxMsgSize
  pendingCount := 0
  msgPriorityBitMap := 0
  pendingMsgQueue _ := []
  inactiveMsgQueue := List.range maxPendingMsg
  msg _ :=
    { size := 0
      priority := 0
      buffer := fun _ => 0 }
  isPriority := false
  sendWaitQueue := []
  receiveWaitQueue := []
  notifyHandler := false
  notified := 0
  tcb _ :=
    { isIdle := false
      taskCurPriority := 100
      returnCode := TTOS_OK
      timed := false
      buffer := fun _ => 0
      size := 0
      option := false
      count := 0 }
  sendResuming := []
  receiveResuming := []

theorem State.new_created (τ : Type*) (maxPendingMsg maxMsgSize : ℕ) :
    (State.new τ maxPendingMsg maxMsgSize).Created := ⟨rfl, rfl, fun _ => rfl, rfl, rfl⟩

/-- Word by word or byte by byte, but `size` bytes. -/
def ttosCopyString (dest src : ℕ → UInt8) (size : ℕ) : ℕ → UInt8 :=
  fun i => if i < size then src i else dest i

/-! ## ttosMsgq.c -/

/-- An urgent message becomes the first of list 0, and the bitmap is left as it is. -/
def MsgqControlBlock.linkFirst (theMessage : ℕ) (c : MsgqControlBlock) : MsgqControlBlock :=
  { c with
    pendingCount := c.pendingCount + 1
    pendingMsgQueue := update c.pendingMsgQueue 0 (theMessage :: c.pendingMsgQueue 0) }

/-- Another becomes the last of the list of its priority. -/
def MsgqControlBlock.linkLast (theMessage : ℕ) (c : MsgqControlBlock) : MsgqControlBlock :=
  let priority := (c.msg theMessage).priority
  { c with
    pendingCount := c.pendingCount + 1
    msgPriorityBitMap := TTOS_MSGQ_SET_PRIORITYBITMAP c.msgPriorityBitMap priority
    pendingMsgQueue :=
      update c.pendingMsgQueue priority (c.pendingMsgQueue priority ++ [theMessage]) }

/-- The part of `ttosInsertMsg` that is about the lists.  `none` for a list beyond the array. -/
def MsgqControlBlock.insert (theMessage : ℕ) (isUrgent : Bool) (c : MsgqControlBlock) :
    Option MsgqControlBlock :=
  if isUrgent then some (c.linkFirst theMessage)
  else if (c.msg theMessage).priority < TTOS_MSGQ_PRIORITY_NUMBER then
    some (c.linkLast theMessage)
  else none

/-- `notifyHandler` is called if there was no message and nobody waits for one. -/
def ttosInsertMsg (theMessage : ℕ) (isUrgent : Bool) (s : State τ) : Option (State τ) :=
  (s.insert theMessage isUrgent).map fun c =>
    { s with
      toMsgqControlBlock := c
      notified :=
        if s.pendingCount = 0 ∧ s.receiveWaitQueue = [] ∧ s.notifyHandler = true then
          s.notified + 1
        else s.notified }

/-- A message leaves its list. -/
def MsgqControlBlock.unlink (priority theMessage : ℕ) (c : MsgqControlBlock) : MsgqControlBlock :=
  let rest := (c.pendingMsgQueue priority).erase theMessage
  { c with
    pendingMsgQueue := update c.pendingMsgQueue priority rest
    msgPriorityBitMap :=
      if rest = [] then TTOS_MSGQ_CLEAR_PRIORITYBITMAP c.msgPriorityBitMap priority
      else c.msgPriorityBitMap
    pendingCount := c.pendingCount - 1 }

/-- A block becomes free. -/
def MsgqControlBlock.recycle (b : ℕ) (c : MsgqControlBlock) : MsgqControlBlock :=
  { c with inactiveMsgQueue := c.inactiveMsgQueue ++ [b] }

/-- The message that is taken from the lists goes to a task that has waited for one; the size
that is given to it is that of the message that was sent. -/
def deliver (theTask : τ) (rest : List τ) (priority theMessage size : ℕ) (s : State τ) : State τ :=
  let m := s.msg theMessage
  { s with
    toMsgqControlBlock := (s.unlink priority theMessage).recycle theMessage
    receiveWaitQueue := rest
    receiveResuming := theTask :: s.receiveResuming
    tcb := update s.tcb theTask
      { s.tcb theTask with
        buffer := ttosCopyString (s.tcb theTask).buffer m.buffer m.size
        size := size
        count := m.priority } }

/-- The second half of `ttosCommitMessage`.  `none` if the bitmap is 0, where
`pendingMsgQueue[32]` is read, beyond the array, and if the list is empty, where NULL is not
looked for. -/
def wakeReceiver (size : ℕ) (s : State τ) : Option (State τ) :=
  match s.receiveWaitQueue with
  | [] => some s
  | theTask :: rest =>
    let priority := zero_num_of_word_get s.msgPriorityBitMap
    if priority < TTOS_MSGQ_PRIORITY_NUMBER then
      match s.pendingMsgQueue priority with
      | [] => none
      | theMessage :: _ => some (deliver theTask rest priority theMessage size s)
    else none

def ttosCommitMessage (theMessage : ℕ) (buffer : ℕ → UInt8) (size : ℕ) (isUrgent : Bool)
    (s : State τ) : Option (State τ) :=
  let m := s.msg theMessage
  let c := s.setMsg theMessage
    { m with
      buffer := ttosCopyString m.buffer buffer size
      size := size }
  (ttosInsertMsg theMessage isUrgent { s with toMsgqControlBlock := c }).bind (wakeReceiver size)

/-! ## Wait queues -/

def State.enqueue (s : State τ) (t : τ) (q : List τ) : List τ :=
  if s.isPriority then PriorityFifo.put (fun t => (s.tcb t).taskCurPriority) t q else q ++ [t]

/-- The record of a task that begins to wait. -/
def Tcb.waiting (c : Tcb) (ticks : ℕ) : Tcb :=
  { c with
    returnCode := TTOS_OK
    timed := ticks ≠ TTOS_WAIT_FOREVER }

/-! ## TTOS_SendMsgq -/

/-- The code of a call that is refused. -/
def sendRefused (isISR : Bool) (executing : Option τ) (found : Bool)
    (buffer : Option (ℕ → UInt8)) (size : ℕ) (options : BitVec 32) (s : State τ) :
    Option ReturnCode :=
  if TTOS_WAIT = options ∧ isISR = true then some TTOS_CALLED_FROM_ISR
  else if buffer = none then some TTOS_INVALID_ADDRESS
  else if size = 0 then some TTOS_INVALID_SIZE
  else if found = false then some TTOS_INVALID_ID
  else if size > s.maxMsgSize then some TTOS_INVALID_SIZE
  else if executing = none then some TTOS_INVALID_ADDRESS
  else none

/-- `TTOS_NO_WAIT`, or no time to wait. -/
def noWait (options : BitVec 32) (ticks : ℕ) : Bool := options &&& TTOS_NO_WAIT ≠ 0 || ticks = 0

def isUrgent (options : BitVec 32) : Bool := options &&& TTOS_URGENT ≠ 0

/-- The sender waits. -/
def waitToSend (executing : τ) (buffer : ℕ → UInt8) (size : ℕ) (options : BitVec 32) (ticks : ℕ)
    (s : State τ) : State τ :=
  { s with
    sendWaitQueue := s.enqueue executing s.sendWaitQueue
    tcb := update s.tcb executing
      { (s.tcb executing).waiting ticks with
        buffer := buffer
        size := size
        option := isUrgent options
        count := TTOS_MSGQ_GET_PRIORITY options } }

/-- What is done for a call that is not refused.  In an interrupt handler nothing is waited for,
but the task that was interrupted is put into the queue. -/
def sendMsgq (isISR : Bool) (executing : τ) (buffer : ℕ → UInt8) (size : ℕ) (options : BitVec 32)
    (ticks : ℕ) (s : State τ) : Option (Option ReturnCode × State τ) :=
  match s.inactiveMsgQueue with
  | theMessage :: rest =>
    let c := { s.toMsgqControlBlock with inactiveMsgQueue := rest }
    let c := c.setMsg theMessage
      { c.msg theMessage with priority := TTOS_MSGQ_GET_PRIORITY options }
    (ttosCommitMessage theMessage buffer size (isUrgent options)
      { s with toMsgqControlBlock := c }).map fun s => (some TTOS_OK, s)
  | [] =>
    if noWait options ticks then some (some TTOS_TOO_MANY, s)
    else
      some (if isISR then some TTOS_OK else none, waitToSend executing buffer size options ticks s)

/-- Up to where the call returns a code, or the task waits.  `found` if the id is the queue's. -/
def TTOS_SendMsgq (isISR : Bool) (executing : Option τ) (found : Bool)
    (buffer : Option (ℕ → UInt8)) (size : ℕ) (options : BitVec 32) (ticks : ℕ) (s : State τ) :
    Option (Option ReturnCode × State τ) :=
  match sendRefused isISR executing found buffer size options s, executing, buffer with
  | none, some executing, some buffer => sendMsgq isISR executing buffer size options ticks s
  | some code, _, _ => some (some code, s)
  | none, _, _ => none

/-! ## TTOS_ReceiveMsgq -/

/-- The block that has been read is filled again, for a sender that has waited. -/
def refill (theTask : τ) (rest : List τ) (theMessage : ℕ) (s : State τ) : Option (State τ) :=
  let c := s.tcb theTask
  let m := s.msg theMessage
  let b := s.setMsg theMessage
    { m with
      buffer := ttosCopyString m.buffer c.buffer c.size
      size := c.size
      priority := c.count % 2 ^ 8 }
  ttosInsertMsg theMessage c.option
    { s with
      toMsgqControlBlock := b
      sendWaitQueue := rest
      sendResuming := theTask :: s.sendResuming }

/-- `wait.count` of the caller is set last, from the block, whatever is in it by then. -/
def ttosReceiveMessage (task : τ) (theMessage : ℕ) (s : State τ) : Option (State τ) :=
  let m := s.msg theMessage
  let s := s.setTcb task
    { s.tcb task with
      buffer := ttosCopyString (s.tcb task).buffer m.buffer m.size
      size := m.size }
  let s :=
    match s.sendWaitQueue with
    | theTask :: rest => refill theTask rest theMessage s
    | [] => some { s with toMsgqControlBlock := s.recycle theMessage }
  s.map fun s => s.setTcb task { s.tcb task with count := (s.msg theMessage).priority }

def receiveRefused (isISR isIdle found : Bool) (buffer : Option (ℕ → UInt8)) (size : Option ℕ) :
    Option ReturnCode :=
  if isISR then some TTOS_CALLED_FROM_ISR
  else if isIdle then some TTOS_INVALID_USER
  else if buffer = none ∨ size = none then some TTOS_INVALID_ADDRESS
  else if found = false then some TTOS_INVALID_ID
  else none

/-- There is a message: `none` if the bitmap is 0, where `pendingMsgQueue[32]` is read. -/
def receivePending (executing : τ) (s : State τ) : Option (Option ReturnCode × State τ) :=
  let priority := zero_num_of_word_get s.msgPriorityBitMap
  if priority < TTOS_MSGQ_PRIORITY_NUMBER then
    match s.pendingMsgQueue priority with
    | [] => some (some TTOS_INVALID_ID, s)
    | theMessage :: _ =>
      (ttosReceiveMessage executing theMessage
        { s with toMsgqControlBlock := s.unlink priority theMessage }).map
          fun s => (some TTOS_OK, s)
  else none

/-- The receiver waits, unless a signal is pending: then `wait.returnCode` is returned as it has
just been set. -/
def waitToReceive (executing : τ) (ticks : ℕ) (pending : Bool) (s : State τ) :
    Option ReturnCode × State τ :=
  if pending then
    (some TTOS_OK, s.setTcb executing { s.tcb executing with returnCode := TTOS_OK })
  else
    (none,
      { s with
        receiveWaitQueue := s.enqueue executing s.receiveWaitQueue
        tcb := update s.tcb executing ((s.tcb executing).waiting ticks) })

/-- What is done for a call that is not refused. -/
def receiveMsgq (executing : τ) (options : BitVec 32) (ticks : ℕ) (pending : Bool) (s : State τ) :
    Option (Option ReturnCode × State τ) :=
  if s.pendingCount ≠ 0 then receivePending executing s
  else if noWait options ticks then some (some TTOS_UNSATISFIED, s)
  else some (waitToReceive executing ticks pending s)

/-- Up to where the call returns a code, or the task waits.  `buffer` and `size` are what the
caller's variables hold, `pending` is `pcb_signal_pending`. -/
def TTOS_ReceiveMsgq (isISR : Bool) (executing : τ) (found : Bool)
    (buffer : Option (ℕ → UInt8)) (size : Option ℕ) (options : BitVec 32) (ticks : ℕ)
    (pending : Bool) (s : State τ) : Option (Option ReturnCode × State τ) :=
  match receiveRefused isISR (s.tcb executing).isIdle found buffer size, buffer, size with
  | none, some buffer, some size =>
    receiveMsgq executing options ticks pending (s.setTcb executing
        { s.tcb executing with
          buffer := buffer
          size := size })
  | some code, _, _ => some (some code, s)
  | none, _, _ => none

/-! ## Beside the calls -/

/-- A wait ends, by a tick (`TTOS_TIMEOUT`) or by a signal (`TTOS_SIGNAL_INTR`). -/
def interrupt (code : ReturnCode) (t : τ) (s : State τ) : State τ :=
  let s := s.setTcb t { s.tcb t with returnCode := code }
  if t ∈ s.sendWaitQueue then
    { s with
      sendWaitQueue := s.sendWaitQueue.erase t
      sendResuming := t :: s.sendResuming }
  else
    { s with
      receiveWaitQueue := s.receiveWaitQueue.erase t
      receiveResuming := t :: s.receiveResuming }

/-- The end of a call that has waited. -/
def resume (t : τ) (s : State τ) : ReturnCode × State τ :=
  ((s.tcb t).returnCode,
    { s with
      sendResuming := s.sendResuming.erase t
      receiveResuming := s.receiveResuming.erase t })

/-- As far as the wait queues go. -/
def taskChangePriority (t : τ) (newPriority : ℕ) (s : State τ) : State τ :=
  let s := s.setTcb t { s.tcb t with taskCurPriority := newPriority }
  let again (q : List τ) := if s.isPriority ∧ t ∈ q then s.enqueue t (q.erase t) else q
  { s with
    sendWaitQueue := again s.sendWaitQueue
    receiveWaitQueue := again s.receiveWaitQueue }

/-! ## Runs -/

inductive Op (τ : Type*) where
  | send (isISR : Bool) (executing : Option τ) (found : Bool) (buffer : Option (ℕ → UInt8))
    (size : ℕ) (options : BitVec 32) (ticks : ℕ)
  | receive (isISR : Bool) (executing : τ) (found : Bool) (buffer : Option (ℕ → UInt8))
    (size : Option ℕ) (options : BitVec 32) (ticks : ℕ) (pending : Bool)
  | expire (t : τ)
  | signal (t : τ)
  | resume (t : τ)
  | changePriority (t : τ) (newPriority : ℕ)
  /-- A task uses its record in another way, for another queue or an event. -/
  | use (t : τ) (c : Tcb)

/-- What may happen: the task that calls, or is interrupted, runs and is in no call; only a wait
that is timed expires. -/
def Op.Possible (s : State τ) : Op τ → Prop
  | send _ executing _ _ _ _ _ => ∀ t ∈ executing, t ∉ s.inside
  | receive _ executing _ _ _ _ _ _ => executing ∉ s.inside
  | expire t => t ∈ s.sendWaitQueue ++ s.receiveWaitQueue ∧ (s.tcb t).timed = true
  | signal t => t ∈ s.sendWaitQueue ++ s.receiveWaitQueue
  | resume t => t ∈ s.sendResuming ++ s.receiveResuming
  | changePriority _ _ => True
  | use t _ => t ∉ s.inside

/-- The code that is returned, if a call ends with the step. -/
def Op.run (s : State τ) : Op τ → Option (Option ReturnCode × State τ)
  | send isISR executing found buffer size options ticks =>
    TTOS_SendMsgq isISR executing found buffer size options ticks s
  | receive isISR executing found buffer size options ticks pending =>
    TTOS_ReceiveMsgq isISR executing found buffer size options ticks pending s
  | expire t => some (none, interrupt TTOS_TIMEOUT t s)
  | signal t => some (none, interrupt TTOS_SIGNAL_INTR t s)
  | resume t => some (some (Msgq.resume t s).1, (Msgq.resume t s).2)
  | changePriority t newPriority => some (none, taskChangePriority t newPriority s)
  | use t c => some (none, s.setTcb t c)

end Intewell.Msgq
