/-
# What the calls do to the messages

A send that finds a free block puts its message among those that are stored, and hands it on to
the first task that waits for one.  A receive that finds a message takes the first, and puts that
of the first task that waits to send in its place.
-/

import Intewell.Msgq.Store

namespace Intewell.Msgq

open MsgqControlBlock Function List Option MsgqBufControl
open PriorityFifo (put)
open ReturnCode

/-- The message of a call. -/
def sentMessage (buffer : ℕ → UInt8) (size : ℕ) (options : BitVec 32) : Message :=
  ⟨isUrgent options, bytesOf buffer size, size, TTOS_MSGQ_GET_PRIORITY options⟩

/-- What a task has received. -/
def Tcb.received (c : Tcb) : Received := ⟨bytesOf c.buffer c.size, c.size, c.count⟩

/-- The message that a task waits to send. -/
def Tcb.message (c : Tcb) : Message := ⟨c.option, c.received⟩

theorem TTOS_MSGQ_GET_PRIORITY_lt (options : BitVec 32) :
    TTOS_MSGQ_GET_PRIORITY options < TTOS_MSGQ_PRIORITY_NUMBER := by
  have h : (options &&& TTOS_MSGQ_PRIORITY_MASK).toNat ≤ 0xF8 := by
    rw [BitVec.toNat_and]
    exact Nat.and_le_right
  rw [TTOS_MSGQ_GET_PRIORITY, BitVec.toNat_ushiftRight, Nat.shiftRight_eq_div_pow,
    TTOS_MSGQ_PRIORITY_NUMBER]
  omega

variable {τ : Type*} {s : State τ} {t u : τ} {q : List Message} {m : Message} {b : ℕ}
  {rest : List ℕ} {buffer : ℕ → UInt8} {size : ℕ} {options : BitVec 32}

theorem received_fill (d : MsgqBufControl) (buffer : ℕ → UInt8) (size priority : ℕ) : received
      { d with
        buffer := ttosCopyString d.buffer buffer size
        size := size
        priority := priority } = ⟨bytesOf buffer size, size, priority⟩ := by
  rw [received, bytesOf_ttosCopyString]

/-- The record of a task that a block has been copied to. -/
def Tcb.filledFrom (c : Tcb) (d : MsgqBufControl) : Tcb :=
  { c with
    buffer := ttosCopyString c.buffer d.buffer d.size
    size := d.size
    count := d.priority }

theorem received_filledFrom (c : Tcb) (d : MsgqBufControl) :
    (c.filledFrom d).received = d.received := by
  rw [Tcb.received, Tcb.filledFrom, bytesOf_ttosCopyString, received]

theorem of_ttosInsertMsg {urgent : Bool} {s' : State τ} (h : ttosInsertMsg b urgent s = some s') :
    ∃ c n, s.toMsgqControlBlock.insert b urgent = some c ∧ s' =
      { s with
        toMsgqControlBlock := c
        notified := n } := by
  obtain ⟨c, hc, hs⟩ := map_eq_some_iff.1 h
  exact ⟨c, _, hc, hs.symm⟩

theorem ttosInsertMsg_eq {c : MsgqControlBlock} {urgent : Bool}
    (h : s.toMsgqControlBlock.insert b urgent = some c) : ∃ n, ttosInsertMsg b urgent s =
      some { s with
        toMsgqControlBlock := c
        notified := n } := by
  rw [ttosInsertMsg, h]
  exact ⟨_, rfl⟩

theorem enqueue_perm (s : State τ) (t : τ) (l : List τ) : (s.enqueue t l).Perm (t :: l) := by
  unfold State.enqueue
  split_ifs
  · exact PriorityFifo.put_perm t l
  · exact perm_append_singleton t l

theorem mem_inside : t ∈ s.inside ↔ t ∈ s.sendWaitQueue ∨ t ∈ s.receiveWaitQueue ∨
    t ∈ s.sendResuming ∨ t ∈ s.receiveResuming := by
  simp [State.inside]

variable [DecidableEq τ]

/-- The first part of a send that finds a free block: the message is stored. -/
theorem sendMsgq_insert (isISR : Bool) (t : τ) (ticks : ℕ) (hs : Stores s.toMsgqControlBlock [] q)
    (hb : s.inactiveMsgQueue = b :: rest) (hf : Fits q (sentMessage buffer size options)) :
    ∃ c n, sendMsgq isISR t buffer size options ticks s = (wakeReceiver size
          { s with
            toMsgqControlBlock := c
            notified := n }).map (fun s => (some TTOS_OK, s)) ∧
      Stores c [] (put Message.rank (sentMessage buffer size options) q) ∧
      c.maxPendingMsg = s.maxPendingMsg := by
  have h1 := (hs.takeFree hb).setMsg (mem_singleton_self b)
    { s.msg b with priority := TTOS_MSGQ_GET_PRIORITY options }
  have h2 := h1.setMsg (mem_singleton_self b)
    { s.msg b with
      buffer := ttosCopyString (s.msg b).buffer buffer size
      size := size
      priority := TTOS_MSGQ_GET_PRIORITY options }
  obtain ⟨c, hc, hst, -, hmax, -, -⟩ :=
    h2.insert (by rw [setMsg_msg, if_pos rfl, received_fill]; rfl)
      (TTOS_MSGQ_GET_PRIORITY_lt options) hf
  obtain ⟨n, hn⟩ := ttosInsertMsg_eq (s := { s with toMsgqControlBlock := _ }) hc
  refine ⟨c, n, ?_, hst, hmax⟩
  have hk := congrArg (fun o : Option (State τ) =>
    (o.bind (wakeReceiver size)).map fun s => (some TTOS_OK, s)) hn
  simp only [sendMsgq, hb, ttosCommitMessage, setMsg_msg, if_true]
  exact hk

variable {ts : List τ}

/-- The second part, if a task waits: it gets the one message that there is. -/
theorem wakeReceiver_cons (hs : Stores s.toMsgqControlBlock [] [m])
    (hw : s.receiveWaitQueue = t :: ts) : ∃ c x, wakeReceiver m.received.size s =
        some { s with
          toMsgqControlBlock := c
          receiveWaitQueue := ts
          receiveResuming := t :: s.receiveResuming
          tcb := update s.tcb t x } ∧
      Stores c [] [] ∧ c.maxPendingMsg = s.maxPendingMsg ∧ x.received = m.received ∧
      x.returnCode = (s.tcb t).returnCode := by
  obtain ⟨b, rest, hz, hlt, hl, hm, hst⟩ := hs.unlink
  have hsize : (s.msg b).size = m.received.size := by rw [← hm]; rfl
  refine ⟨_, (s.tcb t).filledFrom (s.msg b), ?_, hst.recycle, rfl,
    (received_filledFrom (s.tcb t) (s.msg b)).trans hm, rfl⟩
  simp only [wakeReceiver, hw, hz, hlt, if_true, hl, deliver, Tcb.filledFrom, hsize]

/-- **A send that is waited for.** -/
theorem sendMsgq_handed (isISR : Bool) (t : τ) (ticks : ℕ) (hs : Stores s.toMsgqControlBlock [] [])
    (hb : s.inactiveMsgQueue = b :: rest) (hf : Fits [] (sentMessage buffer size options))
    (hw : s.receiveWaitQueue = u :: ts) : ∃ c n x, sendMsgq isISR t buffer size options ticks s =
        some (some TTOS_OK,
          { s with
            toMsgqControlBlock := c
            notified := n
            receiveWaitQueue := ts
            receiveResuming := u :: s.receiveResuming
            tcb := update s.tcb u x }) ∧ Stores c [] [] ∧ c.maxPendingMsg = s.maxPendingMsg ∧
      x.received = (sentMessage buffer size options).received ∧
      x.returnCode = (s.tcb u).returnCode := by
  obtain ⟨c, n, h, hst, hmax⟩ := sendMsgq_insert isISR t ticks hs hb hf
  obtain ⟨c', x, h', hst', hmax', hx, hcode⟩ :=
    wakeReceiver_cons (s := { s with toMsgqControlBlock := c, notified := n }) hst hw
  refine ⟨c', n, x, ?_, hst', hmax'.trans hmax, hx, hcode⟩
  rw [h]
  exact congrArg (Option.map fun s => (some TTOS_OK, s)) h'

/-- **A receive that finds a message**, with nobody waiting to send. -/
theorem receivePending_free (t : τ) (hs : Stores s.toMsgqControlBlock [] (m :: q))
    (hw : s.sendWaitQueue = []) : ∃ c x, receivePending t s = some (some TTOS_OK,
          { s with
            toMsgqControlBlock := c
            tcb := update s.tcb t x }) ∧
      Stores c [] q ∧ c.maxPendingMsg = s.maxPendingMsg ∧ x.received = m.received := by
  obtain ⟨b, rest, hz, hlt, hl, hm, hst⟩ := hs.unlink
  refine ⟨_, (s.tcb t).filledFrom (s.msg b), ?_, hst.recycle, rfl,
    (received_filledFrom (s.tcb t) (s.msg b)).trans hm⟩
  simp only [receivePending, hz, hlt, if_true, hl, ttosReceiveMessage, State.setTcb, hw,
    map_some, update_idem, update_self]
  rfl

/-- **A receive that lets a sender in**, whose message fits and has the same priority. -/
theorem receivePending_refill (t : τ) (hs : Stores s.toMsgqControlBlock [] (m :: q))
    (hw : s.sendWaitQueue = u :: ts) (hu : u ≠ t) (hv : (s.tcb u).count < TTOS_MSGQ_PRIORITY_NUMBER)
    (hp : (s.tcb u).message.received.priority = m.received.priority) (hf : Fits q (s.tcb u).message)
    : ∃ c n x, receivePending t s = some (some TTOS_OK,
          { s with
            toMsgqControlBlock := c
            notified := n
            sendWaitQueue := ts
            sendResuming := u :: s.sendResuming
            tcb := update s.tcb t x }) ∧
      Stores c [] (put Message.rank (s.tcb u).message q) ∧ c.maxPendingMsg = s.maxPendingMsg ∧
      c.inactiveMsgQueue = s.inactiveMsgQueue ∧ x.received = m.received := by
  obtain ⟨b, rest, hz, hlt, hl, hm, hst⟩ := hs.unlink
  have hmod : (s.tcb u).count % 2 ^ 8 = (s.tcb u).count := Nat.mod_eq_of_lt (hv.trans (by decide))
  have h1 := hst.setMsg (mem_singleton_self b)
    { s.msg b with
      buffer := ttosCopyString (s.msg b).buffer (s.tcb u).buffer (s.tcb u).size
      size := (s.tcb u).size
      priority := (s.tcb u).count }
  obtain ⟨c, hc, hst', hmsg, hmax, -, hfree⟩ :=
    h1.insert (by rw [setMsg_msg, if_pos rfl, received_fill]; rfl) hv hf
  obtain ⟨n, hn⟩ := ttosInsertMsg_eq (s :=
    { s with
      toMsgqControlBlock := _
      tcb := update s.tcb t
        { s.tcb t with
          buffer := ttosCopyString (s.tcb t).buffer (s.msg b).buffer (s.msg b).size
          size := (s.msg b).size }
      sendWaitQueue := ts
      sendResuming := u :: s.sendResuming }) hc
  have hpr : (c.msg b).priority = (s.msg b).priority := by
    rw [hmsg, setMsg_msg, if_pos rfl]
    exact hp.trans (congrArg Received.priority hm).symm
  refine ⟨c, n, (s.tcb t).filledFrom (s.msg b), ?_, hst', hmax, hfree,
    (received_filledFrom (s.tcb t) (s.msg b)).trans hm⟩
  have hk := congrArg (fun o : Option (State τ) => (o.map fun s =>
    s.setTcb t { s.tcb t with count := (s.msg b).priority }).map fun s => (some TTOS_OK, s)) hn
  simp only [map_some, State.setTcb, update_idem, update_self, hpr] at hk
  simp only [receivePending, hz, hlt, if_true, hl, ttosReceiveMessage, State.setTcb, hw,
    refill, update_of_ne hu, hmod]
  exact hk

/-! ## The end of a wait -/

theorem interrupt_of_mem (code : ReturnCode) (ht : t ∈ s.sendWaitQueue) : ∃ x, interrupt code t s =
      { s with
        sendWaitQueue := s.sendWaitQueue.erase t
        sendResuming := t :: s.sendResuming
        tcb := update s.tcb t x } ∧ x.returnCode = code :=
  ⟨_, if_pos ht, rfl⟩

theorem interrupt_of_not_mem (code : ReturnCode) (ht : t ∉ s.sendWaitQueue) :
    ∃ x, interrupt code t s =
      { s with
        receiveWaitQueue := s.receiveWaitQueue.erase t
        receiveResuming := t :: s.receiveResuming
        tcb := update s.tcb t x } ∧ x.returnCode = code :=
  ⟨_, if_neg ht, rfl⟩

theorem taskChangePriority_perm (t : τ) (newPriority : ℕ) (s : State τ) :
    (taskChangePriority t newPriority s).sendWaitQueue.Perm s.sendWaitQueue ∧
      (taskChangePriority t newPriority s).receiveWaitQueue.Perm s.receiveWaitQueue := by
  have hagain (l : List τ) (s : State τ) :
      (if s.isPriority ∧ t ∈ l then s.enqueue t (l.erase t) else l).Perm l := by
    split_ifs with hl
    · exact (enqueue_perm s t _).trans (perm_cons_erase hl.2).symm
    · exact .refl l
  exact ⟨hagain .., hagain ..⟩

end Intewell.Msgq
