/-
# A message queue is a bounded priority FIFO

In a run of orderly calls the log is a history of the bounded priority FIFO, of whose messages
the queue holds those that are left (`fifo_refined`).  Each kind of call that is not orderly
(`Op.Orderly`) breaks this (`fifo_breaks`).
-/

import Intewell.Lib.Exec
import Intewell.Msgq.Effects

namespace Intewell.Msgq

open Relation List Function Option
open PriorityFifo (put)
open ReturnCode

variable {τ : Type*} [DecidableEq τ]

/-- The calls that keep to the FIFO. -/
def Op.Orderly (w : World τ) : Op τ → Prop
  | send isISR (some t) found (some buffer) size options ticks =>
    sendRefused isISR (some t) found (some buffer) size options w.st = none →
      (w.st.inactiveMsgQueue ≠ [] → Fits w.pending (sentMessage buffer size options)) ∧
      (w.st.inactiveMsgQueue = [] → isISR = true → noWait options ticks = true)
  | receive isISR t found buffer size options ticks pending =>
    receiveRefused isISR (w.st.tcb t).isIdle found buffer size = none →
      match w.pending with
      | [] => noWait options ticks = false → pending = false
      | m :: q => ∀ u ∈ w.st.sendWaitQueue.head?,
        (w.st.tcb u).message.received.priority = m.received.priority ∧
        Fits q (w.st.tcb u).message
  | _ => True

/-- A step, with a condition on it. -/
inductive Step (ok : World τ → Op τ → Prop) : World τ → World τ → Prop
  | op (w : World τ) (op : Op τ) (code : Option ReturnCode) (s' : State τ)
    (hp : op.Possible w.st) (hok : ok w op) (h : op.run w.st = some (code, s')) :
    Step ok w (op.after w s' code)

/-- **The queue is a bounded priority FIFO.**  The log is a history of it; each task has
returned, or will return next, what the log has for it; and every orderly call has a result. -/
structure FifoRefined (w : World τ) : Prop where
  history : w.replay = some w.pending
  conserved : ((w.log.map Event.act).filterMap PriorityFifo.Event.putOf |>.map
    Message.received).Perm
    ((w.log.map Event.act).filterMap PriorityFifo.Event.takenOf ++ w.pending.map Message.received)
  returned : ∀ t, of t w.log = of t w.returned ++ w.st.promised t
  count : w.st.pendingCount = w.pending.length
  bitmap : ∀ p < TTOS_MSGQ_PRIORITY_NUMBER,
    w.st.msgPriorityBitMap.getMsbD p = true ↔ w.st.pendingMsgQueue p ≠ []
  linked : w.st.blocks.length = w.st.pendingCount
  capacity : w.st.inactiveMsgQueue.length + w.st.pendingCount = w.st.maxPendingMsg
  defined : ∀ op : Op τ, op.Possible w.st → op.Orderly w → (op.run w.st).isSome = true

variable {w w₀ : World τ} {s s' : State τ} {t u : τ} {q : List Message} {m : Message}

namespace Sound

/-! ## Steps -/

variable {buffer : Option (ℕ → UInt8)}

variable {options : BitVec 32} {isISR : Bool} {found : Bool}

/-- A step that has a result, after which the queue holds some messages. -/
def Keeps (w : World τ) (op : Op τ) : Prop :=
  ∃ code s', op.run w.st = some (code, s') ∧ ∃ q', Sound (op.after w s' code) q'

theorem filter_woken {ts l : List τ} (h : u ∉ ts ∧ ∀ v ∈ ts, v ∉ l) :
    (u :: ts).filter (fun v => decide (v ∈ u :: l)) = [u] := by
  have hts : ts.filter (fun v => decide (v ∈ u :: l)) = [] := by
    refine filter_eq_nil_iff.2 fun v hv hm => ?_
    rcases mem_cons.1 (of_decide_eq_true hm) with rfl | hm
    · exact h.1 hv
    · exact h.2 v hv hm
  rw [filter_cons_of_pos (by simp), hts]

theorem keeps_send (h : Sound w q) {executing : Option τ} {size : ℕ} {ticks : ℕ}
    (hp : (Op.send isISR executing found buffer size options ticks).Possible w.st)
    (hok : (Op.send isISR executing found buffer size options ticks).Orderly w) :
    Keeps w (.send isISR executing found buffer size options ticks) := by
  cases hR : sendRefused isISR executing found buffer size options w.st with
  | some code =>
    refine ⟨some code, w.st, by simp [Op.run, TTOS_SendMsgq, hR], q, ?_⟩
    have hne : code ≠ TTOS_OK := by
      rintro rfl
      unfold sendRefused at hR
      split_ifs at hR <;> simp at hR
    cases code <;> first | exact absurd rfl hne | cases executing <;> cases buffer <;> exact h
  | none =>
    have hR' := hR
    unfold sendRefused at hR'
    split_ifs at hR' with _ hbuf _ _ _ he
    obtain ⟨t, rfl⟩ := ne_none_iff_exists'.1 he
    obtain ⟨buf, rfl⟩ := ne_none_iff_exists'.1 hbuf
    have ht : t ∉ w.st.inside := hp t rfl
    have hrun : (Op.send isISR (some t) found (some buf) size options ticks).run w.st =
        sendMsgq isISR t buf size options ticks w.st := by
      simp [Op.run, TTOS_SendMsgq, hR]
    obtain ⟨hfit, hisr⟩ := hok hR
    rw [h.pending_eq] at hfit
    cases hb : w.st.inactiveMsgQueue with
    | nil =>
      cases hnw : noWait options ticks with
      | true =>
        refine ⟨some TTOS_TOO_MANY, w.st, ?_, q, h⟩
        rw [hrun]
        simp [sendMsgq, hb, hnw]
      | false =>
        obtain rfl : isISR = false := by
          by_contra hi
          simpa [hnw] using hisr hb (by simpa using hi)
        refine ⟨none, _, ?_, q, h.waitToSend ht hb buf size options ticks⟩
        rw [hrun]
        simp [sendMsgq, hb, hnw]
    | cons b rest =>
      have hf := hfit (by simp [hb])
      cases hw : w.st.receiveWaitQueue with
      | nil =>
        obtain ⟨c, n, hs, hst, hmax⟩ := sendMsgq_insert isISR t ticks h.stores hb hf
        simp only [wakeReceiver, hw, map_some] at hs
        refine ⟨_, _, hrun.trans hs, put Message.rank (sentMessage buf size options) q, ?_⟩
        simpa [Op.after, World.sent, hw] using h.sent ht hb hw hst hmax n
      | cons u ts =>
        obtain rfl := h.receivers (by simp [hw])
        obtain ⟨c, n, x, hs, hst, hmax, hx, hcode⟩ :=
          sendMsgq_handed isISR t ticks h.stores hb hf hw
        refine ⟨_, _, hrun.trans hs, [], ?_⟩
        have hn := h.nodup
        rw [State.inside, hw, h.no_senders hb, nil_append, cons_append, nodup_cons] at hn
        have hwoken : (u :: ts).filter (fun v => decide (v ∈ u :: w.st.receiveResuming)) = [u] :=
          filter_woken ⟨fun hu => hn.1 (mem_append_left _ hu), fun v hv hm =>
            (nodup_append.1 hn.2).2.2 v hv v (mem_append_right _ hm) rfl⟩
        simp only [Op.after, World.sent, hw, hwoken, map_cons, map_nil, update_self]
        exact h.handed ht hb hw hst hmax hx hcode n

/-- A receive that finds a message.  The world may have been another one, up to the caller's
record, when the call began. -/
theorem keeps_receivePending (h : Sound w (m :: q)) (ht : t ∉ w.st.inside)
    (hok : ∀ u ∈ w.st.sendWaitQueue.head?,
      (w.st.tcb u).message.received.priority = m.received.priority ∧ Fits q (w.st.tcb u).message)
    (hc : ∀ u ∈ w.st.sendWaitQueue, s.tcb u = w.st.tcb u)
    (hq : s.sendWaitQueue = w.st.sendWaitQueue) :
    ∃ s', receivePending t w.st = some (some TTOS_OK, s') ∧
      ∃ q', Sound (World.received { w with st := s } s' t) q' := by
  cases hw : w.st.sendWaitQueue with
  | nil =>
    obtain ⟨c, x, hs, hst, hmax, hx⟩ := receivePending_free t h.stores hw
    refine ⟨_, hs, q, ?_⟩
    simpa [World.received, hq, hw] using h.received ht hw hst hmax hx
  | cons u ts =>
    have hu : u ∈ w.st.sendWaitQueue := by simp [hw]
    have hut : u ≠ t := fun e : u = t => ht (e ▸ mem_inside.2 (.inl hu))
    obtain ⟨hpr, hf⟩ := hok u (by simp [hw])
    obtain ⟨c, n, x, hs, hst, hmax, hfree, hx⟩ :=
      receivePending_refill t h.stores hw hut (h.counts u hu) hpr hf
    refine ⟨_, hs, put Message.rank (w.st.tcb u).message q, ?_⟩
    have hn := h.nodup
    rw [State.inside, hw, cons_append, nodup_cons] at hn
    have hwoken : (u :: ts).filter (fun v => decide (v ∈ u :: w.st.sendResuming)) = [u] :=
      filter_woken ⟨fun hu => hn.1 (mem_append_left _ hu), fun v hv hm =>
        (nodup_append.1 hn.2).2.2 v hv v (mem_append_right _ (mem_append_left _ hm)) rfl⟩
    simp only [World.received, hq, hw, hwoken, map_cons, map_nil, update_self, hc u hu]
    exact h.refilled ht hw hst hmax hfree hx n

theorem keeps_receive (h : Sound w q) {size : Option ℕ} {ticks : ℕ} {pending : Bool}
    (ht : t ∉ w.st.inside)
    (hok : (Op.receive isISR t found buffer size options ticks pending).Orderly w) :
    Keeps w (.receive isISR t found buffer size options ticks pending) := by
  cases hR : receiveRefused isISR (w.st.tcb t).isIdle found buffer size with
  | some code =>
    refine ⟨some code, w.st, by simp [Op.run, TTOS_ReceiveMsgq, hR], q, ?_⟩
    have hne : code ≠ TTOS_OK := by
      rintro rfl
      unfold receiveRefused at hR
      split_ifs at hR <;> simp at hR
    cases code <;> first | exact absurd rfl hne | exact h
  | none =>
    have hR' := hR
    unfold receiveRefused at hR'
    split_ifs at hR' with _ _ hbuf _
    obtain ⟨buf, rfl⟩ := ne_none_iff_exists'.1 (not_or.1 hbuf).1
    obtain ⟨n, rfl⟩ := ne_none_iff_exists'.1 (not_or.1 hbuf).2
    -- the caller's variables, which the call has the addresses of
    have h1 := h.setTcb ht
      { w.st.tcb t with
        buffer := buf
        size := n }
    have hrun : (Op.receive isISR t found (some buf) (some n) options ticks pending).run w.st =
        receiveMsgq t options ticks pending (w.st.setTcb t
          { w.st.tcb t with
            buffer := buf
            size := n }) := by
      simp [Op.run, TTOS_ReceiveMsgq, hR]
    have hcount := h.stores.count
    replace hok := hok hR
    rw [h.pending_eq] at hok
    cases q with
    | nil =>
      have hzero : w.st.pendingCount = 0 := hcount
      cases hnw : noWait options ticks with
      | true =>
        refine ⟨some TTOS_UNSATISFIED, _, ?_, [], h1⟩
        rw [hrun]
        simp [receiveMsgq, State.setTcb, hzero, hnw]
      | false =>
        obtain rfl := hok hnw
        refine ⟨none, _, ?_, [], h1.waitToReceive ht ticks⟩
        rw [hrun]
        simp [receiveMsgq, State.setTcb, hzero, hnw, Msgq.waitToReceive]
    | cons m q =>
      have hne : w.st.pendingCount ≠ 0 := by simp [hcount]
      have hsame (u : τ) (hu : u ∈ w.st.sendWaitQueue) (c : Tcb) :
          (w.st.setTcb t c).tcb u = w.st.tcb u :=
        update_of_ne (fun e : u = t => ht (e ▸ mem_inside.2 (.inl hu))) _ _
      obtain ⟨s', hs', q', hq'⟩ := h1.keeps_receivePending ht
        (fun u hu => by
          rw [hsame u (mem_of_mem_head? hu)]
          exact hok u hu)
        (fun u hu => (hsame u hu _).symm) rfl
      exact ⟨_, s', hrun.trans ((if_pos hne).trans hs'), q', hq'⟩

/-- **Every orderly step has a result and keeps to the FIFO.** -/
theorem keeps (h : Sound w q) {op : Op τ} (hp : op.Possible w.st) (hok : op.Orderly w) :
    Keeps w op := by
  cases op with
  | send => exact h.keeps_send hp hok
  | receive => exact h.keeps_receive hp hok
  | expire t => exact ⟨none, _, rfl, q, h.interrupt hp.1 (by decide)⟩
  | signal t => exact ⟨none, _, rfl, q, h.interrupt hp (by decide)⟩
  | resume t => exact ⟨_, _, rfl, q, h.resume t⟩
  | changePriority t p => exact ⟨none, _, rfl, q, h.changePriority t p⟩
  | use t c => exact ⟨none, _, rfl, q, h.setTcb hp c⟩

end Sound

theorem sound_created (hs : w.st.Created) (hl : w.log = []) (hr : w.returned = []) :
    Sound w [] := by
  have hin := hs.idle
  simp only [State.inside, append_eq_nil_iff] at hin
  obtain ⟨h1, h2, h3, h4⟩ := hin
  have hblocks : w.st.blocks = [] := by
    simp [MsgqControlBlock.blocks, hs.pending]
  constructor
  · rw [World.replay, hl]
    rfl
  · refine ⟨.nil, by simp, fun p _ => by simp [hs.pending], ?_, hs.count, ?_⟩
    · rw [hs.bits]
      exact Bitmap.marks_zero fun p _ => by simp [hs.pending]
    · simp [hblocks, hs.free]
  · rw [hs.idle]
    exact nodup_nil
  · exact fun _ => rfl
  · exact absurd h1
  · simp [h1, h2]
  · simp [h1]
  · intro t
    rw [hl, hr, promised_of_not_mem (by simp [h3]) (by simp [h4])]
    rfl

theorem Sound.refined (h : Sound w q) : FifoRefined w := by
  have hq := h.pending_eq
  have hcount : w.st.pendingCount = q.length := h.stores.count
  have hlen := h.stores.length_free
  rw [h.stores.length_blocks] at hlen
  constructor
  · rw [hq]
    exact h.history
  · rw [hq]
    exact (PriorityFifo.replay_sound h.history).1
  · exact h.returned
  · rw [hq, hcount]
  · exact h.stores.bits
  · rw [h.stores.length_blocks, hcount]
  · omega
  · intro op hp hok
    obtain ⟨code, s', hrun, -⟩ := h.keeps hp hok
    simp [hrun]

/-- **A message queue refines a bounded priority FIFO.**  In every state that is reached by
orderly steps from a queue as it is created. -/
theorem fifo_refined (hs : w₀.st.Created) (hl : w₀.log = []) (hr : w₀.returned = [])
    (h : ReflTransGen (Step fun w op => op.Orderly w) w₀ w) : FifoRefined w := by
  have hsound : ∃ q, Sound w q := by
    induction h with
    | refl => exact ⟨[], sound_created hs hl hr⟩
    | tail _ hstep ih =>
      obtain ⟨q, hq⟩ := ih
      obtain ⟨op, code, s', hp, hok, hrun⟩ := hstep
      obtain ⟨code', s'', hrun', q', hq'⟩ := hq.keeps hp hok
      cases hrun'.symm.trans hrun
      exact ⟨q', hq'⟩
  obtain ⟨q, hq⟩ := hsound
  exact hq.refined

/-! ## Runs on fixed inputs -/

instance (s : State τ) : (op : Op τ) → Decidable (op.Possible s)
  | .send _ executing _ _ _ _ _ => inferInstanceAs (Decidable (∀ t ∈ executing, t ∉ s.inside))
  | .receive _ executing _ _ _ _ _ _ => inferInstanceAs (Decidable (executing ∉ s.inside))
  | .expire _ => inferInstanceAs (Decidable (_ ∧ _))
  | .signal t => inferInstanceAs (Decidable (t ∈ s.sendWaitQueue ++ s.receiveWaitQueue))
  | .resume t => inferInstanceAs (Decidable (t ∈ s.sendResuming ++ s.receiveResuming))
  | .changePriority _ _ => inferInstanceAs (Decidable True)
  | .use t _ => inferInstanceAs (Decidable (t ∉ s.inside))

/-- A step that is possible and meets a condition. -/
def Op.next (ok : World τ → Op τ → Prop) [∀ w op, Decidable (ok w op)] (w : World τ) (op : Op τ) :
    Option (World τ) :=
  if op.Possible w.st ∧ ok w op then (op.run w.st).map fun r => op.after w r.2 r.1 else none

theorem exists_run {ok : World τ → Op τ → Prop} [∀ w op, Decidable (ok w op)] (ops : List (Op τ))
    {P : World τ → Prop} [DecidablePred P]
    (h : ((exec (Op.next ok) w₀ ops).map fun w => decide (P w)) = some true) :
    ∃ w, ReflTransGen (Step ok) w₀ w ∧ P w := by
  refine exists_exec (fun w op w' h => ?_) ops h
  unfold Op.next at h
  split_ifs at h with hp
  obtain ⟨⟨code, s'⟩, hr, rfl⟩ := map_eq_some_iff.1 h
  exact .op w op code s' hp.1 hp.2 hr

/-- A queue of `cap` messages of at most 4 bytes, and three tasks. -/
def newQueue (cap : ℕ) : World (Fin 3) := ⟨State.new (Fin 3) cap 4, [], []⟩

/-- One byte is sent, with a priority. -/
def sendByte (t : Fin 3) (x : UInt8) (urgent : Bool) (priority : BitVec 32) : Op (Fin 3) :=
  .send false (some t) true (some fun _ => x) 1
    ((priority <<< 3) ||| if urgent then TTOS_URGENT else 0) 5

def receiveByte (t : Fin 3) (pending : Bool) : Op (Fin 3) :=
  .receive false t true (some fun _ => 0) (some 0) TTOS_WAIT 5 pending

instance (w : World τ) : (op : Op τ) → Decidable (op.Orderly w)
  | .send _ (some _) _ (some _) _ _ _ => inferInstanceAs (Decidable (_ → _ ∧ _))
  | .receive isISR t found buffer size options ticks pending =>
    match hp : w.pending with
    | [] => decidable_of_iff
        (receiveRefused isISR (w.st.tcb t).isIdle found buffer size = none →
          noWait options ticks = false → pending = false) (by simp [Op.Orderly, hp])
    | m :: q => decidable_of_iff
        (receiveRefused isISR (w.st.tcb t).isIdle found buffer size = none →
          ∀ u ∈ w.st.sendWaitQueue.head?,
            (w.st.tcb u).message.received.priority = m.received.priority ∧
            Fits q (w.st.tcb u).message) (by simp [Op.Orderly, hp])
  | .send _ none _ _ _ _ _ | .send _ (some _) _ none _ _ _ | .expire _ | .signal _ | .resume _
  | .changePriority _ _ | .use _ _ => inferInstanceAs (Decidable True)

/-- An urgent message overtakes; a task that waits to send is let in, and one that waits to
receive is woken. -/
theorem fifo_refined_two :
    ∃ w, ReflTransGen (Step fun w op => op.Orderly w) (newQueue 2) w ∧ FifoRefined w ∧
      w.returned = [.sent 0 ⟨false, [7], 1, 0⟩, .sent 0 ⟨true, [9], 1, 5⟩, .received 2 ⟨[9], 1, 5⟩,
        .sent 1 ⟨false, [8], 1, 5⟩, .received 2 ⟨[7], 1, 0⟩, .received 2 ⟨[8], 1, 5⟩,
        .sent 0 ⟨false, [4], 1, 3⟩, .received 2 ⟨[4], 1, 3⟩] := by
  refine (exists_run
    [sendByte 0 7 false 0, sendByte 0 9 true 5, sendByte 1 8 false 5, receiveByte 2 false,
      .resume 1, receiveByte 2 false, receiveByte 2 false, receiveByte 2 false,
      sendByte 0 4 false 3, .resume 2] ?_).imp
    fun w hw => ⟨hw.1, fifo_refined (State.new_created (Fin 3) 2 4) rfl rfl hw.1, hw.2⟩
  decide +kernel

/-- A run whose log is not one of a FIFO. -/
theorem exists_run_not_refined (ops : List (Op τ)) {es : List (Event τ)}
    (h : ((exec (Op.next fun _ _ => True) w₀ ops).map
      fun w => decide (w.returned = es ∧ w.replay = none)) = some true) :
    ∃ w, ReflTransGen (Step fun _ _ => True) w₀ w ∧ w.returned = es ∧ ¬FifoRefined w := by
  obtain ⟨w, hw, hes, hnone⟩ := exists_run ops h
  exact ⟨w, hw, hes, fun hf => by cases hnone.symm.trans hf.history⟩

/-- **Runs that are not those of a FIFO.**  An urgent message behind one of priority 5 is
delivered second; with no other message it is in list 0 while the bitmap is 0, and the next
receive reads beyond the lists.  A message of priority 3 is received with the priority 7 of the
one that takes its place.  With a signal pending, a receive returns `TTOS_OK` without a message.
A send of an interrupt handler to a full queue returns `TTOS_OK`. -/
theorem fifo_breaks : (∃ w, ReflTransGen (Step fun _ _ => True) (newQueue 2) w ∧
      w.returned = [.sent 0 ⟨false, [7], 1, 5⟩, .sent 0 ⟨true, [9], 1, 5⟩,
        .received 2 ⟨[7], 1, 5⟩] ∧ ¬FifoRefined w) ∧
    (∃ w, ReflTransGen (Step fun _ _ => True) (newQueue 2) w ∧
      w.st.pendingMsgQueue 0 = [0] ∧ w.st.msgPriorityBitMap = 0 ∧
      ((receiveByte 2 false).run w.st).isNone) ∧
    (∃ w, ReflTransGen (Step fun _ _ => True) (newQueue 1) w ∧
      w.returned = [.sent 0 ⟨false, [7], 1, 3⟩, .received 2 ⟨[7], 1, 7⟩] ∧ ¬FifoRefined w) ∧
    (∃ w, ReflTransGen (Step fun _ _ => True) (newQueue 1) w ∧
      w.returned = [.received 2 ⟨[], 0, 0⟩] ∧ ¬FifoRefined w) ∧
    ∃ w, ReflTransGen (Step fun _ _ => True) (newQueue 1) w ∧
      w.returned = [.sent 0 ⟨false, [7], 1, 3⟩, .sent 1 ⟨false, [8], 1, 7⟩] ∧ ¬FifoRefined w := by
  refine ⟨?_, ?_, ?_, ?_, ?_⟩
  · exact exists_run_not_refined
      [sendByte 0 7 false 5, sendByte 0 9 true 5, receiveByte 2 false] (by decide +kernel)
  · exact exists_run [sendByte 0 9 true 5] (by decide +kernel)
  · exact exists_run_not_refined
      [sendByte 0 7 false 3, sendByte 1 8 false 7, receiveByte 2 false] (by decide +kernel)
  · exact exists_run_not_refined [receiveByte 2 true] (by decide +kernel)
  · exact exists_run_not_refined [sendByte 0 7 false 3,
      .send true (some 1) true (some fun _ => 8) 1 (7 <<< 3) 5] (by decide +kernel)

end Intewell.Msgq
