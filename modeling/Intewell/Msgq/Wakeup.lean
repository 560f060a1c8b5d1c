/-
# Wake-ups of a message queue

The copying of a message is done with the lock released: between the two halves of
ttosCommitMessage, and between TTOS_ReceiveMsgq and the second half of ttosReceiveMessage, other
tasks run, while the block is in no list (`Flight`).  The rest of a call is one step.

A send looks for a task that waits to receive when its copy is done, and a receive for one that
waits to send: what a copy gives back or lets in while tasks wait on both sides is left.

An urgent message does not set the bit of its list: it has to find another one there, or the next
call that looks for a message reads beyond the lists.
-/

import Intewell.Lib.Exec
import Intewell.Lib.Update
import Intewell.Msgq.Calls

namespace Intewell.Msgq.Wakeup

open Relation Option List Function ReturnCode MsgqControlBlock

variable {τ : Type*}

/-- A call in the middle of a copy, with its block. -/
inductive Flight (τ : Type*) where
  | send (t : τ) (theMessage : ℕ) (buffer : ℕ → UInt8) (size : ℕ) (isUrgent : Bool)
  | receive (t : τ) (theMessage : ℕ)

def Flight.task : Flight τ → τ
  | send t _ _ _ _ => t
  | receive t _ => t

def Flight.theMessage : Flight τ → ℕ
  | send _ b _ _ _ => b
  | receive _ b => b

structure World (τ : Type*) where
  st : State τ
  flights : List (Flight τ)

/-- No message is there for a task that waits, and no block. -/
def Awake (s : State τ) : Prop :=
  (s.blocks ≠ [] → s.receiveWaitQueue = []) ∧ (s.inactiveMsgQueue ≠ [] → s.sendWaitQueue = [])

variable [DecidableEq τ]

/-- `TTOS_SendMsgq` up to the copy, or to its end if there is none. -/
def beginSend (executing : τ) (buffer : ℕ → UInt8) (size : ℕ)
    (options : BitVec 32) (ticks : ℕ) (w : World τ) : World τ :=
  match w.st.inactiveMsgQueue with
  | theMessage :: rest =>
    let c := { w.st.toMsgqControlBlock with inactiveMsgQueue := rest }
    let c := c.setMsg theMessage
      { c.msg theMessage with priority := TTOS_MSGQ_GET_PRIORITY options }
    { st := { w.st with toMsgqControlBlock := c }
      flights := .send executing theMessage buffer size (isUrgent options) :: w.flights }
  | [] =>
    if noWait options ticks then w
    else { w with st := waitToSend executing buffer size options ticks w.st }

/-- `TTOS_ReceiveMsgq` up to the copy, or to its end if there is none. -/
def beginReceive (executing : τ) (options : BitVec 32) (ticks : ℕ) (pending : Bool) (w : World τ) :
    Option (World τ) :=
  if w.st.pendingCount ≠ 0 then
    let priority := zero_num_of_word_get w.st.msgPriorityBitMap
    if priority < TTOS_MSGQ_PRIORITY_NUMBER then
      match w.st.pendingMsgQueue priority with
      | [] => some w
      | theMessage :: _ =>
        some
          { st := { w.st with toMsgqControlBlock := w.st.unlink priority theMessage }
            flights := .receive executing theMessage :: w.flights }
    else none
  else if noWait options ticks then some w
  else some { w with st := (waitToReceive executing ticks pending w.st).2 }

/-- From the copy to the end of the call. -/
def Flight.finish (s : State τ) : Flight τ → Option (State τ)
  | send _ theMessage buffer size isUrgent =>
    ttosCommitMessage theMessage buffer size isUrgent s
  | receive t theMessage => ttosReceiveMessage t theMessage s

/-- Without anything in between, the two halves of a send are the call. -/
theorem sendMsgq_eq (isISR : Bool) (t : τ) (buffer : ℕ → UInt8) (size : ℕ) (options : BitVec 32)
    (ticks : ℕ) (s : State τ) {b : ℕ} {rest : List ℕ} (hb : s.inactiveMsgQueue = b :: rest) :
    ∃ f, (beginSend t buffer size options ticks ⟨s, []⟩).flights = [f] ∧
      sendMsgq isISR t buffer size options ticks s =
        (f.finish (beginSend t buffer size options ticks ⟨s, []⟩).st).map
          fun s => (some TTOS_OK, s) := by
  refine ⟨.send t b buffer size (isUrgent options), ?_, ?_⟩
  · simp [beginSend, hb]
  · simp [beginSend, hb, sendMsgq, Flight.finish]

theorem beginReceive_pending (t : τ) (options : BitVec 32) (ticks : ℕ) (pending : Bool)
    {w : World τ} (hs : w.st.pendingCount ≠ 0) {b : ℕ} {rest : List ℕ}
    (hp : zero_num_of_word_get w.st.msgPriorityBitMap < TTOS_MSGQ_PRIORITY_NUMBER)
    (hb : w.st.pendingMsgQueue (zero_num_of_word_get w.st.msgPriorityBitMap) = b :: rest) :
    beginReceive t options ticks pending w =
      some ⟨{ w.st with
        toMsgqControlBlock := w.st.unlink (zero_num_of_word_get w.st.msgPriorityBitMap) b },
        .receive t b :: w.flights⟩ := by
  simp [beginReceive, hs, hp, hb]

/-- So are those of a receive that finds a message. -/
theorem receivePending_eq (t : τ) (options : BitVec 32) (ticks : ℕ) (pending : Bool)
    {s : State τ} (hs : s.pendingCount ≠ 0) {b : ℕ} {rest : List ℕ}
    (hp : zero_num_of_word_get s.msgPriorityBitMap < TTOS_MSGQ_PRIORITY_NUMBER)
    (hb : s.pendingMsgQueue (zero_num_of_word_get s.msgPriorityBitMap) = b :: rest) :
    ∃ f w, beginReceive t options ticks pending ⟨s, []⟩ = some w ∧ w.flights = [f] ∧
      receivePending t s = (f.finish w.st).map fun s => (some TTOS_OK, s) := by
  refine ⟨_, _, beginReceive_pending t options ticks pending hs hp hb, rfl, ?_⟩
  simp [receivePending, hp, hb, Flight.finish]

/-! ## Runs -/

/-- The calls begin with `send` and `receive`; `finish i` ends the `i`-th copy that is under
way. -/
inductive Op (τ : Type*) where
  | send (isISR : Bool) (executing : Option τ) (found : Bool) (buffer : Option (ℕ → UInt8))
    (size : ℕ) (options : BitVec 32) (ticks : ℕ)
  | receive (isISR : Bool) (executing : τ) (found : Bool) (buffer : Option (ℕ → UInt8))
    (size : Option ℕ) (options : BitVec 32) (ticks : ℕ) (pending : Bool)
  | finish (i : ℕ)
  | expire (t : τ)
  | signal (t : τ)
  | resume (t : τ)
  | changePriority (t : τ) (newPriority : ℕ)
  | use (t : τ) (c : Tcb)

/-- The task is in no call; an interrupt handler may come in the middle of a copy. -/
def World.Running (w : World τ) (t : τ) : Prop := t ∉ w.st.inside ∧ ∀ f ∈ w.flights, f.task ≠ t

def Op.Possible (w : World τ) : Op τ → Prop
  | send isISR executing _ _ _ _ _ =>
    ∀ t ∈ executing, t ∉ w.st.inside ∧ (isISR = false → w.Running t)
  | receive _ executing _ _ _ _ _ _ => w.Running executing
  | finish i => i < w.flights.length
  | expire t => t ∈ w.st.sendWaitQueue ++ w.st.receiveWaitQueue ∧ (w.st.tcb t).timed = true
  | signal t => t ∈ w.st.sendWaitQueue ++ w.st.receiveWaitQueue
  | resume t => t ∈ w.st.sendResuming ++ w.st.receiveResuming
  | changePriority _ _ => True
  | use t _ => w.Running t

def Op.run (w : World τ) : Op τ → Option (World τ)
  | send isISR executing found buffer size options ticks =>
    match sendRefused isISR executing found buffer size options w.st, executing, buffer with
    | none, some t, some buffer => some (beginSend t buffer size options ticks w)
    | some _, _, _ => some w
    | none, _, _ => none
  | receive isISR t found buffer size options ticks pending =>
    match receiveRefused isISR (w.st.tcb t).isIdle found buffer size, buffer, size with
    | none, some buffer, some size =>
      beginReceive t options ticks pending
        { w with
          st := w.st.setTcb t
            { w.st.tcb t with
              buffer := buffer
              size := size } }
    | some _, _, _ => some w
    | none, _, _ => none
  | finish i =>
    match w.flights[i]? with
    | none => none
    | some f => (f.finish w.st).map fun s => ⟨s, w.flights.eraseIdx i⟩
  | expire t => some { w with st := interrupt TTOS_TIMEOUT t w.st }
  | signal t => some { w with st := interrupt TTOS_SIGNAL_INTR t w.st }
  | resume t => some { w with st := (Msgq.resume t w.st).2 }
  | changePriority t newPriority => some { w with st := taskChangePriority t newPriority w.st }
  | use t c => some { w with st := w.st.setTcb t c }

/-- A copy does not end while tasks wait on both sides. -/
def Op.OneSided (w : World τ) : Op τ → Prop
  | finish _ => w.st.sendWaitQueue = [] ∨ w.st.receiveWaitQueue = []
  | _ => True

/-- An urgent message that the end of a copy lets in finds list 0 non-empty: that of the sender, or
that of the first task that waits to send. -/
def Flight.Marked (s : State τ) : Flight τ → Prop
  | send _ _ _ _ isUrgent => isUrgent = true → s.pendingMsgQueue 0 ≠ []
  | receive _ _ => ∀ t ∈ s.sendWaitQueue.head?, (s.tcb t).option = true → s.pendingMsgQueue 0 ≠ []

def Op.Marked (w : World τ) : Op τ → Prop
  | finish i => ∀ f ∈ w.flights[i]?, f.Marked w.st
  | _ => True

/-- A step, with a condition on it. -/
inductive Step (ok : World τ → Op τ → Prop) : World τ → World τ → Prop
  | op (w w' : World τ) (op : Op τ) (hp : op.Possible w) (hok : ok w op)
    (h : op.run w = some w') : Step ok w w'

/-! ## Messages and blocks -/

section

variable {c c' : MsgqControlBlock} {b p : ℕ} {rest : List ℕ} {u : Bool}

theorem blocks_insert (h : c.insert b u = some c') :
    c'.blocks.Perm (b :: c.blocks) ∧ c'.inactiveMsgQueue = c.inactiveMsgQueue ∧
      c'.pendingCount = c.pendingCount + 1 := by
  unfold MsgqControlBlock.insert at h
  split_ifs at h with hu hp
  · cases h
    refine ⟨blocks_perm_of_one (p := 0) (y := [b]) (by decide) ?_ fun j hj => ?_, rfl, rfl⟩
    · simp [linkFirst]
    · simp [linkFirst, update_of_ne hj]
  · cases h
    refine ⟨blocks_perm_of_one (y := [b]) hp ?_ fun j hj => ?_, rfl, rfl⟩
    · simp [linkLast]
    · simp [linkLast, update_of_ne hj]

theorem blocks_unlink (hp : p < TTOS_MSGQ_PRIORITY_NUMBER) (h : c.pendingMsgQueue p = b :: rest) :
    c.blocks.Perm (b :: (c.unlink p b).blocks) := by
  refine blocks_perm_of_one (y := [b]) hp ?_ fun j hj => ?_
  · simp [unlink, h]
  · simp [unlink, update_of_ne hj]

end

/-! ## The bits of the lists -/

section

variable {c : MsgqControlBlock} {b p : ℕ} {u : Bool}

/-- The bits say which lists hold messages. -/
def Bits (c : MsgqControlBlock) : Prop :=
  Bitmap.Marks c.msgPriorityBitMap fun p => c.pendingMsgQueue p ≠ []

/-- There is a list for the priority of the block. -/
def HasList (c : MsgqControlBlock) (b : ℕ) : Prop := (c.msg b).priority < TTOS_MSGQ_PRIORITY_NUMBER

/-- Where there is a message, the bits lead to one. -/
theorem Bits.first (h : Bits c) (hne : c.blocks ≠ []) :
    zero_num_of_word_get c.msgPriorityBitMap < TTOS_MSGQ_PRIORITY_NUMBER ∧
      ∃ b rest, c.pendingMsgQueue (zero_num_of_word_get c.msgPriorityBitMap) = b :: rest := by
  have hex : ∃ p, p < TTOS_MSGQ_PRIORITY_NUMBER ∧ c.pendingMsgQueue p ≠ [] := by
    obtain ⟨b, hb⟩ := exists_mem_of_ne_nil _ hne
    obtain ⟨p, hp, hbp⟩ := mem_flatMap.1 hb
    exact ⟨p, mem_range.1 hp, ne_nil_of_mem hbp⟩
  have hfind := Nat.find_spec hex
  have hfirst : zero_num_of_word_get c.msgPriorityBitMap = Nat.find hex :=
    Bitmap.Marks.first_eq h hfind.1 hfind.2 fun j hj hne' =>
      Nat.find_min hex hj ⟨hj.trans hfind.1, hne'⟩
  rw [hfirst]
  exact ⟨hfind.1, exists_cons_of_ne_nil hfind.2⟩

theorem Bits.insert (h : Bits c) (hp : HasList c b) (hu : u = true → c.pendingMsgQueue 0 ≠ []) :
    ∃ c', c.insert b u = some c' ∧ Bits c' ∧ c'.msg = c.msg := by
  cases u with
  | true =>
    refine ⟨c.linkFirst b, rfl, Bitmap.Marks.congr h fun j _ => ?_, rfl⟩
    by_cases hj : j = 0
    · subst hj
      simpa [linkFirst] using hu rfl
    · simp [linkFirst, update_of_ne hj]
  | false =>
    refine ⟨c.linkLast b, if_pos hp, Bitmap.Marks.set h ?_ fun j hj => ?_, rfl⟩
    · simp [linkLast]
    · simp [linkLast, update_of_ne hj]

theorem Bits.unlink (h : Bits c) : Bits (c.unlink p b) := by
  have hother (j : ℕ) (hj : j ≠ p) :
      update c.pendingMsgQueue p ((c.pendingMsgQueue p).erase b) j ≠ [] ↔
        c.pendingMsgQueue j ≠ [] := by rw [update_of_ne hj]
  unfold Bits MsgqControlBlock.unlink
  dsimp only
  split_ifs with hnil
  · refine Bitmap.Marks.clear h ?_ hother
    rwa [update_self, not_not]
  · refine Bitmap.Marks.congr h fun j _ => ?_
    by_cases hj : j = p
    · subst hj
      rw [update_self]
      refine iff_of_true hnil fun he => hnil ?_
      rw [he]
      rfl
    · exact hother j hj

end

/-! ## Nothing is lost -/

/-- The counter counts the messages, and nothing is lost. -/
structure Sound (s : State τ) : Prop where
  count : s.pendingCount = s.blocks.length
  receivers : s.receiveWaitQueue ≠ [] → s.blocks = []
  senders : s.sendWaitQueue ≠ [] → s.inactiveMsgQueue = []

namespace Sound

variable {w w' w₀ : World τ} {s s' : State τ} {t : τ} {f : Flight τ} {b : ℕ} {urgent : Bool}

omit [DecidableEq τ] in
/-- A step that leaves the messages alone and lets no more tasks wait. -/
theorem quiet (h : Sound s) (hc : s'.toMsgqControlBlock = s.toMsgqControlBlock)
    (hr : s'.receiveWaitQueue ≠ [] → s.receiveWaitQueue ≠ [])
    (hs : s'.sendWaitQueue ≠ [] → s.sendWaitQueue ≠ []) : Sound s' := by
  constructor
  · rw [hc]
    exact h.count
  · rw [hc]
    exact fun hne => h.receivers (hr hne)
  · rw [hc]
    exact fun hne => h.senders (hs hne)

theorem interrupt (h : Sound s) (code : ReturnCode) (t : τ) : Sound (interrupt code t s) := by
  have herase (l : List τ) (hne : l.erase t ≠ []) : l ≠ [] := by
    rintro rfl
    exact hne rfl
  by_cases ht : t ∈ s.sendWaitQueue
  · obtain ⟨x, heq, -⟩ := interrupt_of_mem code ht
    rw [heq]
    exact h.quiet rfl id (herase _)
  · obtain ⟨x, heq, -⟩ := interrupt_of_not_mem code ht
    rw [heq]
    exact h.quiet rfl (herase _) id

theorem changePriority (h : Sound s) (t : τ) (newPriority : ℕ) :
    Sound (taskChangePriority t newPriority s) := by
  obtain ⟨hs, hr⟩ := taskChangePriority_perm t newPriority s
  refine h.quiet rfl (fun hne hnil => hne ?_) fun hne hnil => hne ?_
  · exact perm_nil.1 (hnil ▸ hr)
  · exact perm_nil.1 (hnil ▸ hs)

/-- A send takes a free block, or waits if there is none. -/
theorem beginSend (h : Sound w.st) (t : τ) (buffer : ℕ → UInt8) (size : ℕ) (options : BitVec 32)
    (ticks : ℕ) : Sound (beginSend t buffer size options ticks w).st := by
  unfold Wakeup.beginSend
  split
  · rename_i b rest hb
    refine ⟨h.count, h.receivers, fun hs => ?_⟩
    simpa [hb] using h.senders hs
  · rename_i hb
    split_ifs
    · exact h
    · exact ⟨h.count, h.receivers, fun _ => hb⟩

/-- A receive takes a message, or waits if there is none. -/
theorem beginReceive (h : Sound w.st) (hbits : Bits w.st.toMsgqControlBlock)
    {options : BitVec 32} {ticks : ℕ} {pending : Bool}
    (hr : beginReceive t options ticks pending w = some w') : Sound w'.st := by
  by_cases hc : w.st.pendingCount = 0
  · have hnil : w.st.blocks = [] := length_eq_zero_iff.1 (h.count ▸ hc)
    simp only [Wakeup.beginReceive, hc, ne_eq, not_true_eq_false, if_false] at hr
    split_ifs at hr with hnw
    · exact some.inj hr ▸ h
    · cases hr
      unfold waitToReceive
      split_ifs
      · exact h.quiet rfl id id
      · exact ⟨h.count, fun _ => hnil, h.senders⟩
  · have hcount := h.count
    obtain ⟨hp, b, rest, hb⟩ := hbits.first fun hnil => hc (by rw [hcount, hnil]; rfl)
    rw [beginReceive_pending t options ticks pending hc hp hb] at hr
    cases hr
    have hl := (blocks_unlink hp hb).length_eq
    rw [length_cons] at hl
    refine ⟨?_, fun hne => ?_, h.senders⟩
    · show w.st.pendingCount - 1 = (w.st.unlink _ b).blocks.length
      omega
    · rw [h.receivers hne] at hl
      cases hl

/-- What the end of a send changes: the message is added, or goes to a task that waits, and the
block of that one is given back. -/
theorem finish_send {buffer : ℕ → UInt8} {size : ℕ}
    (hf : (Flight.send t b buffer size urgent).finish s = some s') :
    s'.sendWaitQueue = s.sendWaitQueue ∧ (s.receiveWaitQueue = [] ∧ s'.receiveWaitQueue = [] ∧
        s'.inactiveMsgQueue = s.inactiveMsgQueue ∧ s'.pendingCount = s.pendingCount + 1 ∧
        s'.blocks.length = s.blocks.length + 1 ∨
      s.receiveWaitQueue ≠ [] ∧ s'.inactiveMsgQueue ≠ [] ∧ s'.pendingCount = s.pendingCount ∧
        s'.blocks.length = s.blocks.length) := by
  obtain ⟨s1, hins, hw⟩ := bind_eq_some_iff.1 hf
  obtain ⟨c, n, hc, rfl⟩ := of_ttosInsertMsg hins
  obtain ⟨hperm, hfree, hcount⟩ := blocks_insert hc
  have hlen : c.blocks.length = s.blocks.length + 1 := hperm.length_eq
  cases hr : s.receiveWaitQueue with
  | nil =>
    simp only [wakeReceiver, hr, some.injEq] at hw
    subst hw
    exact ⟨rfl, .inl ⟨rfl, rfl, hfree, hcount, hlen⟩⟩
  | cons u ts =>
    simp only [wakeReceiver, hr] at hw
    split_ifs at hw with hp
    cases hb : c.pendingMsgQueue (zero_num_of_word_get c.msgPriorityBitMap) with
    | nil => simp [hb] at hw
    | cons b' rest =>
      simp only [hb, some.injEq] at hw
      subst hw
      have hl := (blocks_unlink hp hb).length_eq
      rw [length_cons] at hl
      refine ⟨rfl, .inr ⟨by simp, ?_, ?_, ?_⟩⟩
      · simp [deliver, recycle]
      · show c.pendingCount - 1 = s.pendingCount
        rw [hcount]
        rfl
      · show (c.unlink _ b').blocks.length = s.blocks.length
        omega

/-- What the end of a receive changes: the block is given back, or filled for a task that waits
to send. -/
theorem finish_receive (hf : (Flight.receive t b).finish s = some s') :
    s'.receiveWaitQueue = s.receiveWaitQueue ∧
    (s.sendWaitQueue = [] ∧ s'.sendWaitQueue = [] ∧ s'.pendingCount = s.pendingCount ∧
        s'.blocks.length = s.blocks.length ∨
      s.sendWaitQueue ≠ [] ∧ s'.inactiveMsgQueue = s.inactiveMsgQueue ∧
        s'.pendingCount = s.pendingCount + 1 ∧ s'.blocks.length = s.blocks.length + 1) := by
  cases hs : s.sendWaitQueue with
  | nil =>
    simp only [Flight.finish, ttosReceiveMessage, State.setTcb, hs, map_some, some.injEq] at hf
    subst hf
    exact ⟨rfl, .inl ⟨rfl, rfl, rfl, rfl⟩⟩
  | cons u ts =>
    simp only [Flight.finish, ttosReceiveMessage, State.setTcb, hs, refill, map_eq_some_iff] at hf
    obtain ⟨s1, hins, rfl⟩ := hf
    obtain ⟨c, n, hc, rfl⟩ := of_ttosInsertMsg hins
    obtain ⟨hperm, hfree, hcount⟩ := blocks_insert hc
    exact ⟨rfl, .inr ⟨by simp, hfree, hcount, hperm.length_eq⟩⟩

/-- **The end of a copy loses nothing, if tasks wait on one side at most.** -/
theorem finish (h : Sound s) (hone : s.sendWaitQueue = [] ∨ s.receiveWaitQueue = [])
    (hf : f.finish s = some s') : Sound s' := by
  have hcount := h.count
  cases f with
  | send t b buffer size urgent =>
    obtain ⟨hs, ⟨hr, hr', hfree, hc, hl⟩ | ⟨hr, -, hc, hl⟩⟩ := finish_send hf
    · refine ⟨by omega, absurd hr', fun hne => ?_⟩
      rw [hfree]
      exact h.senders (hs ▸ hne)
    · have hnil := h.receivers hr
      refine ⟨by omega, fun _ => ?_, fun hne => ?_⟩
      · rw [hnil] at hl
        exact length_eq_zero_iff.1 hl
      · exact absurd (hone.resolve_right hr) (hs ▸ hne)
  | receive t b =>
    obtain ⟨hr, ⟨-, hs', hc, hl⟩ | ⟨hs, hfree, hc, hl⟩⟩ := finish_receive hf
    · refine ⟨by omega, fun hne => ?_, absurd hs'⟩
      rw [h.receivers (hr ▸ hne)] at hl
      exact length_eq_zero_iff.1 hl
    · refine ⟨by omega, fun hne => ?_, fun _ => ?_⟩
      · exact absurd (hone.resolve_left hs) (hr ▸ hne)
      · rw [hfree]
        exact h.senders hs

/-- If they wait on both, something is lost. -/
theorem not_awake_of_finish (hs : s.sendWaitQueue ≠ []) (hr : s.receiveWaitQueue ≠ [])
    (hf : f.finish s = some s') : ¬Awake s' := by
  rintro ⟨h1, h2⟩
  cases f with
  | send t b buffer size urgent =>
    obtain ⟨hs', ⟨hr', -⟩ | ⟨-, hfree, -⟩⟩ := finish_send hf
    · exact hr hr'
    · exact hs (hs' ▸ h2 hfree)
  | receive t b =>
    obtain ⟨hr', ⟨hs', -⟩ | ⟨-, -, -, hl⟩⟩ := finish_receive hf
    · exact hs hs'
    · refine hr (hr' ▸ h1 fun hnil => ?_)
      rw [hnil] at hl
      cases hl

/-- **One step.** -/
theorem step {op : Op τ} (h : Sound w.st) (hbits : Bits w.st.toMsgqControlBlock)
    (hone : op.OneSided w) (hr : op.run w = some w') :
    Sound w'.st := by
  cases op with
  | send isISR executing found buffer size options ticks =>
    simp only [Op.run] at hr
    split at hr
    · exact some.inj hr ▸ h.beginSend _ _ _ _ _
    · exact some.inj hr ▸ h
    · cases hr
  | receive isISR executing found buffer size options ticks pending =>
    simp only [Op.run] at hr
    split at hr
    · refine beginReceive ?_ (by exact hbits) hr
      exact h.quiet rfl id id
    · exact some.inj hr ▸ h
    · cases hr
  | finish i =>
    simp only [Op.run] at hr
    split at hr
    · cases hr
    · obtain ⟨s', hf, rfl⟩ := map_eq_some_iff.1 hr
      exact h.finish hone hf
  | expire t | signal t => exact some.inj hr ▸ h.interrupt _ t
  | resume t | use t => exact some.inj hr ▸ h.quiet rfl id id
  | changePriority t p => exact some.inj hr ▸ h.changePriority t p

omit [DecidableEq τ] in
theorem awake (h : Sound s) : Awake s :=
  ⟨fun hb => by_contra fun hr => hb (h.receivers hr),
    fun hf => by_contra fun hs => hf (h.senders hs)⟩

end Sound

/-- The bits are right, and there is a list for every message. -/
structure Listed (w : World τ) : Prop where
  bits : Bits w.st.toMsgqControlBlock
  flights : ∀ f ∈ w.flights, HasList w.st.toMsgqControlBlock f.theMessage
  messages : ∀ b ∈ w.st.blocks, HasList w.st.toMsgqControlBlock b
  senders : ∀ t ∈ w.st.sendWaitQueue, (w.st.tcb t).count % 2 ^ 8 < TTOS_MSGQ_PRIORITY_NUMBER

namespace Listed

variable {w w' : World τ} {s' : State τ} {t : τ} {b : ℕ} {l : List (Flight τ)}

/-- Of the tasks that wait to send, the priorities of the messages are kept. -/
def Keeps (w : World τ) (s' : State τ) : Prop :=
  ∀ t ∈ s'.sendWaitQueue, t ∈ w.st.sendWaitQueue ∧ (s'.tcb t).count = (w.st.tcb t).count ∨
    (s'.tcb t).count < TTOS_MSGQ_PRIORITY_NUMBER

section

omit [DecidableEq τ]

theorem frame (h : Listed w) (hbits : Bits w'.st.toMsgqControlBlock)
    (hmsg : ∀ b, HasList w.st.toMsgqControlBlock b → HasList w'.st.toMsgqControlBlock b)
    (hf : ∀ f ∈ w'.flights, f ∈ w.flights ∨ HasList w'.st.toMsgqControlBlock f.theMessage)
    (hb : ∀ b ∈ w'.st.blocks, b ∈ w.st.blocks ∨ HasList w'.st.toMsgqControlBlock b)
    (hs : Keeps w w'.st) : Listed w' where
  bits := hbits
  flights f hf' := (hf f hf').elim (fun hold => hmsg _ (h.flights f hold)) id
  messages b hb' := (hb b hb').elim (fun hold => hmsg _ (h.messages b hold)) id
  senders t ht := by
    obtain ⟨hold, hc⟩ | hlt := hs t ht
    · rw [hc]
      exact h.senders t hold
    · exact (Nat.mod_le _ _).trans_lt hlt

/-- A step that leaves the messages alone. -/
theorem quiet (h : Listed w) (hc : s'.toMsgqControlBlock = w.st.toMsgqControlBlock)
    (hs : Keeps w s') : Listed { w with st := s' } := by
  refine h.frame ?_ (fun b hb => ?_) (fun f hf => .inl hf) (fun b hb => .inl ?_) hs
  · simpa only [hc] using h.bits
  · simpa only [hc] using hb
  · simpa only [hc] using hb

end

theorem interrupt (h : Listed w) (code : ReturnCode) (t : τ) :
    Listed { w with st := interrupt code t w.st } := by
  unfold Msgq.interrupt
  dsimp only
  split_ifs
  · exact h.quiet rfl fun u hu => .inl ⟨mem_of_mem_erase hu, update_proj Tcb.count (by rfl) u⟩
  · exact h.quiet rfl fun u hu => .inl ⟨hu, update_proj Tcb.count (by rfl) u⟩

theorem beginSend (h : Listed w) (t : τ) (buffer : ℕ → UInt8) (size : ℕ) (options : BitVec 32)
    (ticks : ℕ) : Listed (beginSend t buffer size options ticks w) := by
  have hlt := TTOS_MSGQ_GET_PRIORITY_lt options
  unfold Wakeup.beginSend
  split
  · rename_i b rest hb
    refine h.frame h.bits (fun b' hb' => ?_) (fun f hf => ?_) (fun b' hb' => .inl hb')
      fun t ht => .inl ⟨ht, rfl⟩
    · unfold HasList
      rw [setMsg_msg]
      split_ifs
      · exact hlt
      · exact hb'
    · obtain rfl | hf := mem_cons.1 hf
      · exact .inr (by simpa [HasList, Flight.theMessage] using hlt)
      · exact .inl hf
  · split_ifs
    · exact h
    · refine h.quiet rfl fun u hu => ?_
      by_cases hut : u = t
      · subst hut
        exact .inr (by simpa [waitToSend] using hlt)
      · refine .inl ⟨?_, by simp [waitToSend, hut]⟩
        have hperm := enqueue_perm w.st t w.st.sendWaitQueue
        exact (mem_cons.1 (hperm.mem_iff.1 hu)).resolve_left hut

/-- **A receive finds a message where there is one.** -/
theorem beginReceive (h : Listed w) (hcount : w.st.pendingCount = w.st.blocks.length) (t : τ)
    (options : BitVec 32) (ticks : ℕ) (pending : Bool) :
    ∃ w', beginReceive t options ticks pending w = some w' ∧ Listed w' := by
  by_cases hc : w.st.pendingCount = 0
  · simp only [Wakeup.beginReceive, hc, ne_eq, not_true_eq_false, if_false]
    split_ifs
    · exact ⟨w, rfl, h⟩
    · refine ⟨_, rfl, ?_⟩
      unfold waitToReceive
      split_ifs
      · exact h.quiet rfl fun u hu => .inl ⟨hu, update_proj Tcb.count (by rfl) u⟩
      · exact h.quiet rfl fun u hu => .inl ⟨hu, update_proj Tcb.count (by rfl) u⟩
  · have hne : w.st.blocks ≠ [] := fun hnil => hc (by rw [hcount, hnil]; rfl)
    obtain ⟨hp, b, rest, hb⟩ := h.bits.first hne
    refine ⟨_, beginReceive_pending t options ticks pending hc hp hb, ?_⟩
    have hperm := blocks_unlink hp hb
    refine h.frame h.bits.unlink (fun _ hb' => hb') (fun f hf => ?_) (fun b' hb' => .inl ?_)
      fun u hu => .inl ⟨hu, rfl⟩
    · obtain rfl | hf := mem_cons.1 hf
      · exact .inr (h.messages b (hperm.mem_iff.2 (.head _)))
      · exact .inl hf
    · exact hperm.mem_iff.2 (.tail _ hb')

omit [DecidableEq τ] in
/-- A message is put into its list, whatever else is changed. -/
theorem insert (h : Listed w) {m : MsgqBufControl} {u : Bool} {s : State τ}
    (hs : s.toMsgqControlBlock = w.st.setMsg b m) (hm : m.priority < TTOS_MSGQ_PRIORITY_NUMBER)
    (hu : u = true → w.st.pendingMsgQueue 0 ≠ []) (hk : Keeps w s) (hl : ∀ f ∈ l, f ∈ w.flights) :
    ∃ c n, ttosInsertMsg b u s = some { s with toMsgqControlBlock := c, notified := n } ∧
      c.blocks ≠ [] ∧ HasList c b ∧
        Listed ⟨{ s with toMsgqControlBlock := c, notified := n }, l⟩ := by
  have hb : HasList s.toMsgqControlBlock b := by
    rw [hs, HasList, setMsg_msg, if_pos rfl]
    exact hm
  have hkeep (b' : ℕ) (hb' : HasList w.st.toMsgqControlBlock b') :
      HasList s.toMsgqControlBlock b' := by
    rw [hs, HasList, setMsg_msg]
    split_ifs
    · exact hm
    · exact hb'
  obtain ⟨c, hc, hbits, hmsg⟩ := Bits.insert (c := s.toMsgqControlBlock) (u := u)
    (by rw [hs]; exact h.bits) hb (by rw [hs]; exact hu)
  have hperm := (blocks_insert hc).1
  have hhas (b' : ℕ) : HasList c b' ↔ HasList s.toMsgqControlBlock b' := by
    rw [HasList, HasList, hmsg]
  refine ⟨c, _, by rw [ttosInsertMsg, hc, map_some], fun hnil => ?_, (hhas b).2 hb, ?_⟩
  · rw [hnil] at hperm
    cases hperm.nil_eq
  · refine h.frame hbits (fun b' hb' => (hhas b').2 (hkeep b' hb')) (fun f hf => .inl (hl f hf))
      (fun b' hb' => ?_) hk
    obtain rfl | hold := mem_cons.1 (hperm.mem_iff.1 hb')
    · exact .inr ((hhas _).2 hb)
    · rw [hs] at hold
      exact .inl hold

/-- A task that waits is given a message. -/
theorem wakeReceiver {s : State τ} (h : Listed ⟨s, l⟩) (hne : s.blocks ≠ []) (size : ℕ) :
    ∃ s', wakeReceiver size s = some s' ∧ Listed ⟨s', l⟩ := by
  unfold Msgq.wakeReceiver
  cases s.receiveWaitQueue with
  | nil => exact ⟨s, rfl, h⟩
  | cons u ts =>
    obtain ⟨hp, b, rest, hb⟩ := h.bits.first hne
    have hperm := blocks_unlink hp hb
    have hlist : HasList s.toMsgqControlBlock b := h.messages b (hperm.mem_iff.2 (.head _))
    dsimp only at hb ⊢
    rw [if_pos hp, hb]
    refine ⟨_, rfl, h.frame h.bits.unlink (fun _ hx => hx) (fun f hf => .inl hf)
      (fun x hx => .inl (hperm.mem_iff.2 (.tail _ hx))) fun v hv => ?_⟩
    by_cases hvu : v = u
    · subst hvu
      exact .inr (by simpa [deliver, HasList] using hlist)
    · exact .inl ⟨hv, by simp [deliver, hvu]⟩

/-- **A send ends**, with the message in its list or with a task that waited. -/
theorem finish_send (h : Listed w) {buffer : ℕ → UInt8} {size : ℕ} {urgent : Bool}
    (hb : HasList w.st.toMsgqControlBlock b)
    (hm : (Flight.send t b buffer size urgent).Marked w.st) (hl : ∀ f ∈ l, f ∈ w.flights) :
    ∃ s', (Flight.send t b buffer size urgent).finish w.st = some s' ∧ Listed ⟨s', l⟩ := by
  obtain ⟨c, n, hins, hne, -, h'⟩ := h.insert (l := l) (b := b) (u := urgent) (s :=
      { w.st with
        toMsgqControlBlock := w.st.setMsg b
          { w.st.msg b with
            buffer := ttosCopyString (w.st.msg b).buffer buffer size
            size := size } })
    rfl hb hm (fun t ht => .inl ⟨ht, rfl⟩) hl
  simp only [Flight.finish, ttosCommitMessage]
  rw [hins, bind_some]
  exact h'.wakeReceiver hne size

theorem setCount {s : State τ} (h : Listed ⟨s, l⟩) (hb : HasList s.toMsgqControlBlock b) :
    Listed ⟨s.setTcb t { s.tcb t with count := (s.msg b).priority }, l⟩ := by
  refine h.quiet rfl fun u hu => ?_
  by_cases hut : u = t
  · subst hut
    exact .inr (by simpa [State.setTcb, HasList] using hb)
  · exact .inl ⟨hu, by simp [State.setTcb, hut]⟩

omit [DecidableEq τ] in
theorem refill (h : Listed w) {u : τ} {ts : List τ} (hs : w.st.sendWaitQueue = u :: ts)
    (hu : (w.st.tcb u).option = true → w.st.pendingMsgQueue 0 ≠ []) (hl : ∀ f ∈ l, f ∈ w.flights) :
    ∃ s', refill u ts b w.st = some s' ∧ HasList s'.toMsgqControlBlock b ∧ Listed ⟨s', l⟩ := by
  have hmem (v : τ) (hv : v ∈ u :: ts) : v ∈ w.st.sendWaitQueue := hs ▸ hv
  obtain ⟨c, n, hins, -, hb, h'⟩ := h.insert (l := l) (b := b) (u := (w.st.tcb u).option) (s :=
      { w.st with
        toMsgqControlBlock := w.st.setMsg b
          { w.st.msg b with
            buffer := ttosCopyString (w.st.msg b).buffer (w.st.tcb u).buffer (w.st.tcb u).size
            size := (w.st.tcb u).size
            priority := (w.st.tcb u).count % 2 ^ 8 }
        sendWaitQueue := ts
        sendResuming := u :: w.st.sendResuming })
    rfl (h.senders u (hmem u (.head _))) hu (fun v hv => .inl ⟨hmem v (.tail _ hv), rfl⟩) hl
  exact ⟨_, hins, hb, h'⟩

/-- **A receive ends**, with the block free or filled again. -/
theorem finish_receive (h : Listed w) (hb : HasList w.st.toMsgqControlBlock b)
    (hm : (Flight.receive t b).Marked w.st) (hl : ∀ f ∈ l, f ∈ w.flights) :
    ∃ s', (Flight.receive t b).finish w.st = some s' ∧ Listed ⟨s', l⟩ := by
  simp only [Flight.finish, ttosReceiveMessage]
  generalize hs1 : w.st.setTcb t _ = s1
  have h1 : Listed ⟨s1, w.flights⟩ := by
    rw [← hs1]
    exact h.quiet rfl fun u hu => .inl ⟨hu, update_proj Tcb.count (by rfl) u⟩
  have hoption (u : τ) : (s1.tcb u).option = (w.st.tcb u).option := by
    rw [← hs1]
    exact update_proj Tcb.option (by rfl) u
  have hwait : s1.sendWaitQueue = w.st.sendWaitQueue := hs1 ▸ rfl
  have hc1 : s1.toMsgqControlBlock = w.st.toMsgqControlBlock := hs1 ▸ rfl
  cases hs : s1.sendWaitQueue with
  | nil =>
    refine ⟨_, rfl, setCount ?_ (hc1 ▸ hb)⟩
    exact h1.frame h1.bits (fun _ hb' => hb') (fun f hf => .inl (hl f hf)) (fun _ hb' => .inl hb')
      fun _ hu => absurd hu not_mem_nil
  | cons u ts =>
    obtain ⟨s2, hrefill, hb', h'⟩ := h1.refill (b := b) hs
      (fun ho => hc1 ▸ hm u (by rw [← hwait, hs]; rfl) (hoption u ▸ ho)) hl
    refine ⟨_, ?_, h'.setCount (b := b) (t := t) hb'⟩
    dsimp only
    rw [hrefill, map_some]

/-- **One step has a result**, and there is a list for every message again. -/
theorem step {op : Op τ} (h : Listed w) (hcount : w.st.pendingCount = w.st.blocks.length)
    (hp : op.Possible w) (hm : op.Marked w) : ∃ w', op.run w = some w' ∧ Listed w' := by
  cases op with
  | send isISR executing found buffer size options ticks =>
    simp only [Op.run]
    split
    · exact ⟨_, rfl, h.beginSend _ _ _ _ _⟩
    · exact ⟨w, rfl, h⟩
    · rename_i hno hr
      unfold sendRefused at hr
      split_ifs at hr with _ hb _ _ _ ht
      obtain ⟨t, rfl⟩ := ne_none_iff_exists'.1 ht
      obtain ⟨b, rfl⟩ := ne_none_iff_exists'.1 hb
      exact (hno t b rfl rfl).elim
  | receive isISR executing found buffer size options ticks pending =>
    simp only [Op.run]
    split
    · refine beginReceive ?_ (by exact hcount) executing options ticks pending
      refine h.quiet rfl fun u hu => .inl ⟨hu, ?_⟩
      exact update_proj Tcb.count (by rfl) u
    · exact ⟨w, rfl, h⟩
    · rename_i hno hr
      unfold receiveRefused at hr
      split_ifs at hr with _ _ hb
      obtain ⟨b, rfl⟩ := ne_none_iff_exists'.1 (not_or.1 hb).1
      obtain ⟨n, rfl⟩ := ne_none_iff_exists'.1 (not_or.1 hb).2
      exact (hno b n rfl rfl).elim
  | finish i =>
    obtain ⟨f, hf⟩ : ∃ f, w.flights[i]? = some f := ⟨_, getElem?_eq_getElem hp⟩
    have hb := h.flights f (mem_of_getElem? hf)
    obtain ⟨s', hs', h'⟩ : ∃ s', f.finish w.st = some s' ∧ Listed ⟨s', w.flights.eraseIdx i⟩ := by
      cases f with
      | send => exact h.finish_send hb (hm _ hf) fun _ => mem_of_mem_eraseIdx
      | receive => exact h.finish_receive hb (hm _ hf) fun _ => mem_of_mem_eraseIdx
    refine ⟨_, ?_, h'⟩
    simp only [Op.run, hf, hs', map_some]
  | expire t | signal t => exact ⟨_, rfl, h.interrupt _ t⟩
  | resume t => exact ⟨_, rfl, h.quiet rfl fun u hu => .inl ⟨hu, rfl⟩⟩
  | changePriority t p =>
    refine ⟨_, rfl, h.quiet rfl fun u hu => .inl ⟨?_, update_proj Tcb.count (by rfl) u⟩⟩
    exact (taskChangePriority_perm t p w.st).1.mem_iff.1 hu
  | use t c =>
    refine ⟨_, rfl, h.quiet rfl fun u hu => .inl ⟨hu, ?_⟩⟩
    have hut : u ≠ t := fun he => hp.1 (mem_inside.2 (.inl (he ▸ hu)))
    simp [State.setTcb, hut]

end Listed

variable {w w₀ : World τ}

/-- No copy ends while tasks wait on both sides, and no urgent message goes to an empty list. -/
def Op.Careful (w : World τ) (op : Op τ) : Prop := op.OneSided w ∧ op.Marked w

/-- **No wake-up is lost, exactly as long as no copy ends while tasks wait on both sides**, where
every urgent message finds another one in list 0.  In every state that is reached so, with copies
under way or not, there is no message while a task waits to receive and no free block while one
waits to send; every call goes on; and after the first copy that ends while tasks wait on both
sides, there is one. -/
theorem no_lost_wakeup (hs : w₀.st.Created) (hf : w₀.flights = [])
    (h : ReflTransGen (Step fun w op => op.Careful w) w₀ w) : Awake w.st ∧
      ∀ op : Op τ, op.Possible w → op.Marked w →
        ∃ w', op.run w = some w' ∧ (Awake w'.st ↔ op.OneSided w) := by
  obtain ⟨hsound, hlisted⟩ : Sound w.st ∧ Listed w := by
    induction h with
    | refl =>
      have hin := hs.idle
      simp only [State.inside, append_eq_nil_iff] at hin
      refine ⟨⟨?_, absurd hin.2.1, absurd hin.1⟩, ?_, ?_, ?_, ?_⟩
      · rw [hs.count]
        simp [blocks, hs.pending]
      · rw [Bits, hs.bits]
        exact Bitmap.marks_zero fun p _ => not_not.2 (hs.pending p)
      · simp [hf]
      · simp [blocks, hs.pending]
      · simp [hin.1]
    | tail _ hstep ih =>
      obtain ⟨op, hp, hok, hrun⟩ := hstep
      refine ⟨ih.1.step ih.2.bits hok.1 hrun, ?_⟩
      obtain ⟨w', hrun', h'⟩ := ih.2.step ih.1.count hp hok.2
      exact some.inj (hrun.symm.trans hrun') ▸ h'
  refine ⟨hsound.awake, fun op hp hm => ?_⟩
  obtain ⟨w', hrun, -⟩ := hlisted.step hsound.count hp hm
  refine ⟨w', hrun, fun hawake => by_contra fun hno => ?_, fun hone => ?_⟩
  swap
  · exact (hsound.step hlisted.bits hone hrun).awake
  cases op with
  | finish i =>
    simp only [Op.OneSided, not_or] at hno
    simp only [Op.run] at hrun
    split at hrun
    · cases hrun
    · obtain ⟨s', hf, rfl⟩ := map_eq_some_iff.1 hrun
      exact Sound.not_awake_of_finish hno.1 hno.2 hf hawake
  | _ => exact hno trivial

/-! ## Runs on fixed inputs -/

instance (w : World τ) (t : τ) : Decidable (w.Running t) := inferInstanceAs (Decidable (_ ∧ _))

instance (w : World τ) : (op : Op τ) → Decidable (op.Possible w)
  | .send isISR executing _ _ _ _ _ => inferInstanceAs (Decidable (∀ t ∈ executing,
      t ∉ w.st.inside ∧ (isISR = false → w.Running t)))
  | .receive _ executing _ _ _ _ _ _ => inferInstanceAs (Decidable (w.Running executing))
  | .finish i => inferInstanceAs (Decidable (i < w.flights.length))
  | .expire _ => inferInstanceAs (Decidable (_ ∧ _))
  | .signal t => inferInstanceAs (Decidable (t ∈ w.st.sendWaitQueue ++ w.st.receiveWaitQueue))
  | .resume t => inferInstanceAs (Decidable (t ∈ w.st.sendResuming ++ w.st.receiveResuming))
  | .changePriority _ _ => inferInstanceAs (Decidable True)
  | .use t _ => inferInstanceAs (Decidable (w.Running t))

instance (w : World τ) : (f : Flight τ) → Decidable (f.Marked w.st)
  | .send .. => inferInstanceAs (Decidable (_ → _))
  | .receive .. => inferInstanceAs (Decidable (∀ t ∈ w.st.sendWaitQueue.head?, _))

instance (w : World τ) : (op : Op τ) → Decidable (op.Marked w)
  | .finish i => inferInstanceAs (Decidable (∀ f ∈ w.flights[i]?, f.Marked w.st))
  | .send .. | .receive .. | .expire _ | .signal _ | .resume _ | .changePriority .. | .use .. =>
    inferInstanceAs (Decidable True)

instance (w : World τ) : (op : Op τ) → Decidable (op.OneSided w)
  | .finish _ => inferInstanceAs (Decidable (_ ∨ _))
  | .send .. | .receive .. | .expire _ | .signal _ | .resume _ | .changePriority .. | .use .. =>
    inferInstanceAs (Decidable True)

instance (w : World τ) (op : Op τ) : Decidable (op.Careful w) :=
  inferInstanceAs (Decidable (_ ∧ _))

/-- A step that is possible and meets a condition. -/
def Op.next (ok : World τ → Op τ → Prop) [∀ w op, Decidable (ok w op)] (w : World τ) (op : Op τ) :
    Option (World τ) :=
  if op.Possible w ∧ ok w op then op.run w else none

theorem next_run {ok : World τ → Op τ → Prop} [∀ w op, Decidable (ok w op)] {ops : List (Op τ)}
    (h : exec (Op.next ok) w₀ ops = some w) : ReflTransGen (Step ok) w₀ w := by
  refine exec_run (fun w op w' h => ?_) h
  unfold Op.next at h
  split_ifs at h with hp
  exact .op w w' op hp.1 hp.2 h

/-- A queue of one message, and four tasks. -/
def oneMessage : World (Fin 4) := ⟨State.new (Fin 4) 1 4, []⟩

def sendByte (t : Fin 4) : Op (Fin 4) := .send false (some t) true (some fun _ => 7) 1 TTOS_WAIT 5

def receiveByte (t : Fin 4) : Op (Fin 4) :=
  .receive false t true (some fun _ => 0) (some 0) TTOS_WAIT 5 false

/-- Of two messages the urgent one finds the other in list 0; both are received, and a receiver
that waits for a third is woken when the copy is done, and goes on. -/
theorem no_lost_wakeup_woken :
    ∃ w, ReflTransGen (Step fun w op => op.Careful w) ⟨State.new (Fin 4) 2 4, []⟩ w ∧
      w.st.receiveResuming = [0] ∧ Awake w.st ∧
      ∃ w', (Op.resume 0).run w = some w' ∧ Awake w'.st := by
  obtain ⟨w, hw, hr, hp⟩ : ∃ w, exec (Op.next fun w op => op.Careful w) ⟨State.new (Fin 4) 2 4, []⟩
      [sendByte 1, .finish 0, .send false (some 2) true (some fun _ => 9) 1 TTOS_URGENT 5,
        .finish 0, receiveByte 0, receiveByte 3, .finish 0, .finish 0, receiveByte 0, sendByte 1,
        .finish 0] = some w ∧ w.st.receiveResuming = [0] ∧ (Op.resume 0).Possible w :=
    ⟨_, rfl, rfl, .head _⟩
  obtain ⟨hawake, hnext⟩ := no_lost_wakeup (State.new_created ..) rfl (next_run hw)
  obtain ⟨w', hrun, hiff⟩ := hnext (.resume 0) hp trivial
  exact ⟨w, next_run hw, hr, hawake, w', hrun, hiff.2 trivial⟩

/-- **Two wake-ups that are lost.**  Task 0 waits to receive, task 1 has taken the only block and
copies, task 2 waits to send: the message of task 1 goes to task 0, and the block is free while
task 2 waits.  Task 0 has taken the only message and copies, task 2 waits to send and task 3 to
receive: the message of task 2 is let in, and is there while task 3 waits. -/
theorem wakeup_lost :
    (∃ w, ReflTransGen (Step fun _ _ => True) oneMessage w ∧ w.flights = [] ∧
      w.st.inactiveMsgQueue = [0] ∧ w.st.sendWaitQueue = [2]) ∧
    ∃ w, ReflTransGen (Step fun _ _ => True) oneMessage w ∧ w.flights = [] ∧
      w.st.pendingCount = 1 ∧ w.st.blocks = [0] ∧ w.st.receiveWaitQueue = [3] := by
  constructor
  · obtain ⟨w, hw, h⟩ : ∃ w, exec (Op.next fun _ _ => True) oneMessage
        [receiveByte 0, sendByte 1, sendByte 2, .finish 0] = some w ∧ w.flights = [] ∧
        w.st.inactiveMsgQueue = [0] ∧ w.st.sendWaitQueue = [2] := ⟨_, rfl, rfl, rfl, rfl⟩
    exact ⟨w, next_run hw, h⟩
  · obtain ⟨w, hw, h⟩ : ∃ w, exec (Op.next fun _ _ => True) oneMessage
        [sendByte 1, .finish 0, receiveByte 0, sendByte 2, receiveByte 3, .finish 0] = some w ∧
        w.flights = [] ∧ w.st.pendingCount = 1 ∧ w.st.blocks = [0] ∧
        w.st.receiveWaitQueue = [3] := ⟨_, rfl, rfl, rfl, rfl, rfl⟩
    exact ⟨w, next_run hw, h⟩

end Intewell.Msgq.Wakeup
