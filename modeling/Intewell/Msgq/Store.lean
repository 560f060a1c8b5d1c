/-
# The blocks of a message queue

What the lists, the bitmap, the counter and the blocks of a message queue have to do with the
messages that are in it.  The messages are a list in the order in which they are to be delivered
(Intewell.Lib.PriorityFifo): urgent ones first, then by priority, then as they came.

The lists agree with it as long as an urgent message comes only where list 0 has another one
already, which has set the bit of the list, and none that is as urgent (`Fits`).
-/

import Intewell.Msgq.Basic

namespace Intewell.Msgq

open PriorityFifo List Function

/-- The bytes of a message. -/
def bytesOf (buffer : ℕ → UInt8) (size : ℕ) : List UInt8 := (range size).map buffer

theorem bytesOf_ttosCopyString (dest src : ℕ → UInt8) (size : ℕ) :
    bytesOf (ttosCopyString dest src size) size = bytesOf src size := by
  refine map_congr_left fun i hi => ?_
  rw [ttosCopyString, if_pos (mem_range.1 hi)]

/-- What a receiver gets to see of a message. -/
structure Received where
  bytes : List UInt8
  size : ℕ
  priority : ℕ
deriving DecidableEq

structure Message where
  urgent : Bool
  received : Received
deriving DecidableEq

/-- The order of delivery: urgent ones first, then the smallest number. -/
def Message.rank (m : Message) : ℕ :=
  if m.urgent then m.received.priority else TTOS_MSGQ_PRIORITY_NUMBER + m.received.priority

/-- The list that a message is put into. -/
def Message.slot (m : Message) : ℕ := if m.urgent then 0 else m.received.priority

/-- An urgent message may come to these messages: there is one in list 0, and none as urgent. -/
def Fits (q : List Message) (m : Message) : Prop :=
  m.urgent = true → (∃ x ∈ q, x.slot = 0) ∧ ∀ x ∈ q, m.rank < x.rank

instance (q : List Message) (m : Message) : Decidable (Fits q m) :=
  inferInstanceAs (Decidable (_ → _ ∧ _))

def MsgqBufControl.received (b : MsgqBufControl) : Received :=
  ⟨bytesOf b.buffer b.size, b.size, b.priority⟩

/-- The blocks that are in a list, for a message. -/
def MsgqControlBlock.blocks (c : MsgqControlBlock) : List ℕ :=
  (range TTOS_MSGQ_PRIORITY_NUMBER).flatMap c.pendingMsgQueue

/-- The queue holds the messages `q`, and the blocks `hand` are in no list at the moment. -/
structure Stores (c : MsgqControlBlock) (hand : List ℕ) (q : List Message) : Prop where
  ordered : Ordered Message.rank q
  valid : ∀ m ∈ q, m.received.priority < TTOS_MSGQ_PRIORITY_NUMBER
  lists : ∀ p < TTOS_MSGQ_PRIORITY_NUMBER, (c.pendingMsgQueue p).map (fun b => (c.msg b).received) =
    (q.filter fun m => m.slot = p).map Message.received
  bits : Bitmap.Marks c.msgPriorityBitMap fun p => c.pendingMsgQueue p ≠ []
  count : c.pendingCount = q.length
  blocks : (c.inactiveMsgQueue ++ (hand ++ c.blocks)).Perm (range c.maxPendingMsg)

variable {c c' : MsgqControlBlock} {hand : List ℕ} {q : List Message} {m : Message} {b p : ℕ}
  {urgent : Bool}

theorem Message.slot_lt (h : m.received.priority < TTOS_MSGQ_PRIORITY_NUMBER) :
    m.slot < TTOS_MSGQ_PRIORITY_NUMBER := by
  unfold slot
  split_ifs
  · decide
  · exact h

theorem flatMap_perm_of_one {α : Type*} {f g : ℕ → List α} {l : List ℕ} {y : List α} (hp : p ∈ l)
    (hl : l.Nodup) (hg : (g p).Perm (y ++ f p)) (ho : ∀ j, j ≠ p → g j = f j) :
    (l.flatMap g).Perm (y ++ l.flatMap f) := by
  induction l with
  | nil => cases hp
  | cons i l ih =>
    obtain ⟨hi, hl⟩ := nodup_cons.1 hl
    rw [flatMap_cons, flatMap_cons]
    rcases mem_cons.1 hp with rfl | hp
    · have hrest : l.flatMap g = l.flatMap f :=
        flatMap_congr fun j hj => ho j fun e : j = p => hi (e ▸ hj)
      rw [hrest, ← append_assoc]
      exact hg.append_right _
    · rw [ho i fun e : i = p => hi (e ▸ hp)]
      exact ((ih hp hl).append_left _).trans (perm_append_comm_assoc _ _ _)

theorem blocks_perm_of_one {y : List ℕ} (hp : p < TTOS_MSGQ_PRIORITY_NUMBER)
    (hg : (c'.pendingMsgQueue p).Perm (y ++ c.pendingMsgQueue p))
    (ho : ∀ j, j ≠ p → c'.pendingMsgQueue j = c.pendingMsgQueue j) :
    c'.blocks.Perm (y ++ c.blocks) :=
  flatMap_perm_of_one (mem_range.2 hp) nodup_range hg ho

namespace Stores

theorem nodup (h : Stores c hand q) : (c.inactiveMsgQueue ++ (hand ++ c.blocks)).Nodup :=
  h.blocks.nodup_iff.2 nodup_range

theorem setMsg (h : Stores c hand q) (hb : b ∈ hand) (x : MsgqBufControl) :
    Stores (c.setMsg b x) hand q := by
  refine ⟨h.ordered, h.valid, fun p hp => ?_, h.bits, h.count, h.blocks⟩
  rw [← h.lists p hp]
  refine map_congr_left fun b' hb' => ?_
  have hne : b' ≠ b := by
    rintro rfl
    have hd := (nodup_append.1 (nodup_append.1 h.nodup).2.1).2.2
    exact hd b' hb b' (mem_flatMap.2 ⟨p, mem_range.2 hp, hb'⟩) rfl
  rw [MsgqControlBlock.setMsg_msg, if_neg hne]

theorem takeFree {rest : List ℕ} (h : Stores c [] q) (hb : c.inactiveMsgQueue = b :: rest) :
    Stores { c with inactiveMsgQueue := rest } [b] q := by
  refine ⟨h.ordered, h.valid, h.lists, h.bits, h.count, ?_⟩
  have := h.blocks
  rw [hb] at this
  exact perm_middle.trans this

theorem recycle (h : Stores c [b] q) : Stores (c.recycle b) [] q := by
  refine ⟨h.ordered, h.valid, h.lists, h.bits, h.count, ?_⟩
  show (c.inactiveMsgQueue ++ [b] ++ c.blocks).Perm _
  rw [append_assoc]
  exact h.blocks

theorem length_free (h : Stores c [] q) :
    c.inactiveMsgQueue.length + c.blocks.length = c.maxPendingMsg := by
  simpa using h.blocks.length_eq

open Message

theorem length_blocks (h : Stores c hand q) : c.blocks.length = q.length := by
  have hsplit (l : List Message) (hl : ∀ m ∈ l, m.slot < TTOS_MSGQ_PRIORITY_NUMBER) :
      ((range TTOS_MSGQ_PRIORITY_NUMBER).flatMap fun p =>
        l.filter fun m => m.slot = p).Perm l := by
    induction l with
    | nil => simp
    | cons m l ih =>
      have hm := hl m (.head _ ..)
      refine (flatMap_perm_of_one (y := [m])
        (mem_range.2 hm) nodup_range (by simp) fun j hj => ?_).trans
        ((ih fun x hx => hl x (.tail _ hx)).cons m)
      exact filter_cons_of_neg (by simpa using Ne.symm hj)
  have hmap : c.blocks.map (fun b => (c.msg b).received) =
      ((range TTOS_MSGQ_PRIORITY_NUMBER).flatMap fun p =>
        q.filter fun m => m.slot = p).map received := by
    rw [MsgqControlBlock.blocks, map_flatMap, map_flatMap]
    exact flatMap_congr fun p hp => h.lists p (mem_range.1 hp)
  have hlen := congrArg length hmap
  rwa [length_map, length_map, (hsplit q fun m hm => slot_lt (h.valid m hm)).length_eq] at hlen

theorem list_ne_nil_iff (h : Stores c hand q) (hp : p < TTOS_MSGQ_PRIORITY_NUMBER) :
    c.pendingMsgQueue p ≠ [] ↔ ∃ m ∈ q, m.slot = p := by
  have hnil : c.pendingMsgQueue p = [] ↔ q.filter (fun m => m.slot = p) = [] := by
    rw [← map_eq_nil_iff, h.lists p hp, map_eq_nil_iff]
  rw [ne_eq, hnil, filter_eq_nil_iff]
  simp

section
variable (h : Stores c [b] q) (hm : (c.msg b).received = m.received)
include h hm

/-- A message that is not urgent goes to the end of its list. -/
theorem linkLast (hu : m.urgent = false) (hv : m.received.priority < TTOS_MSGQ_PRIORITY_NUMBER) :
    Stores (c.linkLast b) [] (put rank m q) := by
  have hslot : m.slot = m.received.priority := by simp [slot, hu]
  have hpr : (c.msg b).priority = m.slot := by rw [hslot, ← hm]; rfl
  constructor
  · exact h.ordered.put m
  · intro x hx
    rcases mem_put.1 hx with rfl | hx
    · exact hv
    · exact h.valid x hx
  · intro p hp
    simp only [MsgqControlBlock.linkLast, hpr]
    by_cases he : p = m.slot
    · subst he
      rw [filter_put_last h.ordered (by simp)]
      · simp [← h.lists m.slot hp, hm]
      · intro x hx hs
        have hvalid := h.valid x hx
        simp only [Message.slot, hu, Bool.false_eq_true, if_false, decide_eq_true_eq] at hs
        simp only [Message.rank, hu, Bool.false_eq_true, if_false]
        split_ifs at hs ⊢ <;> omega
    · rw [filter_put_of_not (by simpa using Ne.symm he), update_of_ne he]
      exact h.lists p hp
  · simp only [MsgqControlBlock.linkLast, hpr]
    refine h.bits.set (by simp) fun j hj => ?_
    rw [update_of_ne hj]
  · simp [MsgqControlBlock.linkLast, h.count]
  · have hb : (c.linkLast b).blocks.Perm ([b] ++ c.blocks) := by
      refine blocks_perm_of_one (slot_lt hv) ?_ fun j hj => ?_
      · simp [MsgqControlBlock.linkLast, hpr]
      · simp [MsgqControlBlock.linkLast, hpr, update_of_ne hj]
    exact (hb.append_left _).trans h.blocks

/-- An urgent message that fits goes to the front of list 0. -/
theorem linkFirst (hu : m.urgent = true) (hv : m.received.priority < TTOS_MSGQ_PRIORITY_NUMBER)
    (hf : Fits q m) : Stores (c.linkFirst b) [] (put rank m q) := by
  have hslot : m.slot = 0 := by simp [slot, hu]
  obtain ⟨h0, hlt⟩ := hf hu
  constructor
  · exact h.ordered.put m
  · intro x hx
    rcases mem_put.1 hx with rfl | hx
    · exact hv
    · exact h.valid x hx
  · intro p hp
    simp only [MsgqControlBlock.linkFirst]
    by_cases he : p = 0
    · subst he
      rw [filter_put_first (by simp [hslot]) fun x hx _ => hlt x hx]
      simp [← h.lists 0 hp, hm]
    · rw [filter_put_of_not (by simpa [hslot] using Ne.symm he), update_of_ne he]
      exact h.lists p hp
  · -- the bit of list 0 is set already
    refine h.bits.congr fun j _ => ?_
    simp only [MsgqControlBlock.linkFirst]
    by_cases hj : j = 0
    · subst hj
      simpa using (h.list_ne_nil_iff (by decide)).2 h0
    · rw [update_of_ne hj]
  · simp [MsgqControlBlock.linkFirst, h.count]
  · have hb : (c.linkFirst b).blocks.Perm ([b] ++ c.blocks) := by
      refine blocks_perm_of_one (p := 0) (by decide) ?_ fun j hj => ?_
      · simp [MsgqControlBlock.linkFirst]
      · simp [MsgqControlBlock.linkFirst, update_of_ne hj]
    exact (hb.append_left _).trans h.blocks

/-- **A message that fits is stored where it belongs.** -/
theorem insert (hv : m.received.priority < TTOS_MSGQ_PRIORITY_NUMBER) (hf : Fits q m) :
    ∃ c', c.insert b m.urgent = some c' ∧ Stores c' [] (put rank m q) ∧
      c'.msg = c.msg ∧ c'.maxPendingMsg = c.maxPendingMsg ∧ c'.maxMsgSize = c.maxMsgSize ∧
      c'.inactiveMsgQueue = c.inactiveMsgQueue := by
  cases hu : m.urgent with
  | false =>
    have hpr : (c.msg b).priority < TTOS_MSGQ_PRIORITY_NUMBER := by
      rw [← hm] at hv
      exact hv
    exact ⟨c.linkLast b, by simp [MsgqControlBlock.insert, hpr], h.linkLast hm hu hv, rfl, rfl,
      rfl, rfl⟩
  | true =>
    exact ⟨c.linkFirst b, by simp [MsgqControlBlock.insert], h.linkFirst hm hu hv hf, rfl, rfl,
      rfl, rfl⟩

end

/-- **The first message of the lists is the first to be delivered.** -/
theorem unlink (h : Stores c [] (m :: q)) :
    ∃ b rest, zero_num_of_word_get c.msgPriorityBitMap = m.slot ∧
      m.slot < TTOS_MSGQ_PRIORITY_NUMBER ∧ c.pendingMsgQueue m.slot = b :: rest ∧
      (c.msg b).received = m.received ∧ Stores (c.unlink m.slot b) [b] q := by
  have hv := slot_lt (h.valid m (.head _ ..))
  obtain ⟨hle, ho⟩ := pairwise_cons.1 h.ordered
  have hl := h.lists m.slot hv
  rw [filter_cons_of_pos (by simp), map_cons] at hl
  obtain ⟨b, rest, hb, hm, hrest⟩ := map_eq_cons_iff.1 hl
  have hfirst : zero_num_of_word_get c.msgPriorityBitMap = m.slot := by
    refine h.bits.first_eq hv (by simp [hb]) fun j hj hne => ?_
    obtain ⟨x, hx, rfl⟩ := (h.list_ne_nil_iff (hj.trans hv)).1 hne
    rcases mem_cons.1 hx with rfl | hxq
    · exact lt_irrefl _ hj
    · have hrank := hle x hxq
      have hvalid := h.valid x hx
      unfold Message.rank at hrank
      unfold Message.slot at hj
      split_ifs at hrank hj <;> omega
  have herase : (c.pendingMsgQueue m.slot).erase b = rest := by rw [hb, erase_cons_head]
  refine ⟨b, rest, hfirst, hv, hb, hm, ?_⟩
  constructor
  · exact ho
  · exact fun x hx => h.valid x (.tail _ hx)
  · intro p hp
    by_cases he : p = m.slot
    · subst he
      simpa [MsgqControlBlock.unlink, herase] using hrest
    · have hp' := h.lists p hp
      rw [filter_cons_of_neg (by simpa using Ne.symm he)] at hp'
      simpa [MsgqControlBlock.unlink, update_of_ne he] using hp'
  · simp only [MsgqControlBlock.unlink, herase]
    split_ifs with hr
    · refine h.bits.clear (by simp [hr]) fun j hj => ?_
      simp [update_of_ne hj]
    · refine h.bits.congr fun j _ => ?_
      by_cases hj : j = m.slot
      · subst hj
        simp [hr, hb]
      · simp [update_of_ne hj]
  · simp [MsgqControlBlock.unlink, h.count]
  · have hb' : c.blocks.Perm ([b] ++ (c.unlink m.slot b).blocks) := by
      refine blocks_perm_of_one hv ?_ fun j hj => ?_
      · simp [MsgqControlBlock.unlink, hb]
      · simp [MsgqControlBlock.unlink, update_of_ne hj]
    exact (hb'.symm.append_left _).trans h.blocks

end Stores

end Intewell.Msgq
