/-
# What takes effect

The log of a run of calls has what took effect, in order: a message of a send that returns, or
will return, TTOS_OK, and what a receive that returns, or will return, TTOS_OK has got.  The
lemmas say for each thing that may happen that the log stays a history of the bounded priority
FIFO of Intewell.Lib.PriorityFifo, and that each task returns what the log has for it.
-/

import Intewell.Msgq.Calls

namespace Intewell.Msgq

open State List
open Message (rank)
open Function
open PriorityFifo (put replay_put replay_take)
open ReturnCode

variable {τ : Type*}

/-- A call that has taken effect. -/
inductive Event (τ : Type*) where
  | sent (t : τ) (m : Message)
  | received (t : τ) (d : Received)
deriving DecidableEq

def Event.task : Event τ → τ
  | sent t _ => t
  | received t _ => t

/-- For the FIFO. -/
def Event.act : Event τ → PriorityFifo.Event Message Received
  | sent _ m => .put m
  | received _ d => .take d

/-- The state, with the calls that have taken effect and those that have returned `TTOS_OK`. -/
structure World (τ : Type*) where
  st : State τ
  log : List (Event τ)
  returned : List (Event τ)

/-- The FIFO after the log. -/
def World.replay (w : World τ) : Option (List Message) :=
  PriorityFifo.replay rank Message.received w.st.maxPendingMsg (w.log.map Event.act)

/-- The messages that were sent and have not been delivered. -/
def World.pending (w : World τ) : List Message := w.replay.getD []

variable [DecidableEq τ]

/-- The events of a task. -/
def of (t : τ) (es : List (Event τ)) : List (Event τ) := es.filter fun e => e.task = t

/-- What a task on its way back will return, if that is `TTOS_OK`. -/
def State.promised (s : State τ) (t : τ) : List (Event τ) :=
  if (s.tcb t).returnCode = TTOS_OK then
    if t ∈ s.sendResuming then [.sent t (s.tcb t).message]
    else if t ∈ s.receiveResuming then [.received t (s.tcb t).received]
    else []
  else []

/-- A send of `t` has returned `TTOS_OK` at once: it has taken effect, and with it the receive of
a task that it has woken. -/
def World.sent (w : World τ) (s' : State τ) (t : τ) (m : Message) : World τ :=
  let woken := w.st.receiveWaitQueue.filter (· ∈ s'.receiveResuming)
  { st := s'
    log := w.log ++ .sent t m :: woken.map fun u => .received u (s'.tcb u).received
    returned := w.returned ++ [.sent t m] }

/-- Likewise a receive. -/
def World.received (w : World τ) (s' : State τ) (t : τ) : World τ :=
  let woken := w.st.sendWaitQueue.filter (· ∈ s'.sendResuming)
  { st := s'
    log := w.log ++ .received t (s'.tcb t).received ::
      woken.map fun u => .sent u (w.st.tcb u).message
    returned := w.returned ++ [.received t (s'.tcb t).received] }

/-- The world after a step that has left the state `s'`. -/
def Op.after (w : World τ) (s' : State τ) : Op τ → Option ReturnCode → World τ
  | send _ (some t) _ (some buffer) size options _, some TTOS_OK =>
    w.sent s' t (sentMessage buffer size options)
  | receive _ t _ _ _ _ _ _, some TTOS_OK => w.received s' t
  | resume t, _ =>
    { w with
      st := s'
      returned := w.returned ++ w.st.promised t }
  | _, _ => { w with st := s' }

/-- The queue holds `q`, which is what the log leaves. -/
structure Sound (w : World τ) (q : List Message) : Prop where
  history : w.replay = some q
  stores : Stores w.st.toMsgqControlBlock [] q
  nodup : w.st.inside.Nodup
  receivers : w.st.receiveWaitQueue ≠ [] → q = []
  senders : w.st.sendWaitQueue ≠ [] → w.st.inactiveMsgQueue = []
  waits : ∀ t ∈ w.st.sendWaitQueue ++ w.st.receiveWaitQueue, (w.st.tcb t).returnCode = TTOS_OK
  counts : ∀ t ∈ w.st.sendWaitQueue, (w.st.tcb t).count < TTOS_MSGQ_PRIORITY_NUMBER
  returned : ∀ t, of t w.log = of t w.returned ++ w.st.promised t

variable {w : World τ} {s s' : State τ} {t u : τ} {q : List Message} {m : Message}
  {es rs : List (Event τ)}

/-! ## Tasks -/

theorem of_append (t : τ) (es rs : List (Event τ)) : of t (es ++ rs) = of t es ++ of t rs :=
  filter_append ..

theorem of_single (e : Event τ) : of t [e] = if e.task = t then [e] else [] := by
  by_cases h : e.task = t <;> simp [of, h]

theorem promised_of_not_mem (hs : t ∉ s.sendResuming) (hr : t ∉ s.receiveResuming) :
    s.promised t = [] := by
  simp [promised, hs, hr]

theorem promised_congr (hc : (s'.tcb t).returnCode = (s.tcb t).returnCode)
    (hm : (s'.tcb t).message = (s.tcb t).message) (hs : t ∈ s'.sendResuming ↔ t ∈ s.sendResuming)
    (hr : t ∈ s'.receiveResuming ↔ t ∈ s.receiveResuming) : s'.promised t = s.promised t := by
  have hd : (s'.tcb t).received = (s.tcb t).received := congrArg Message.received hm
  simp [promised, hc, hm, hd, hs, hr]

theorem promised_of_not_inside (h : t ∉ s.inside) : s.promised t = [] := by
  simp only [mem_inside, not_or] at h
  exact promised_of_not_mem h.2.2.1 h.2.2.2

theorem promised_outside (hs : s'.sendResuming = s.sendResuming)
    (hr : s'.receiveResuming = s.receiveResuming) (hne : ∀ u ∈ s.inside, s'.tcb u = s.tcb u)
    (u : τ) : s'.promised u = s.promised u := by
  by_cases hu : u ∈ s.inside
  · exact promised_congr (by rw [hne u hu]) (by rw [hne u hu]) (by rw [hs]) (by rw [hr])
  · simp only [mem_inside, not_or] at hu
    rw [promised_of_not_mem hu.2.2.1 hu.2.2.2]
    exact promised_of_not_mem (by rw [hs]; exact hu.2.2.1) (by rw [hr]; exact hu.2.2.2)

namespace Sound

section
variable (h : Sound w q)
include h

section
variable (ht : t ∈ w.st.sendWaitQueue ++ w.st.receiveWaitQueue)
include ht

theorem not_resuming : t ∉ w.st.sendResuming ∧ t ∉ w.st.receiveResuming := by
  have hd : (w.st.sendWaitQueue ++ w.st.receiveWaitQueue ++
      (w.st.sendResuming ++ w.st.receiveResuming)).Nodup := by
    simpa [inside] using h.nodup
  have hn := fun hr => (nodup_append.1 hd).2.2 t ht t hr rfl
  exact ⟨fun hs => hn (mem_append_left _ hs), fun hs => hn (mem_append_right _ hs)⟩

theorem promised_of_waiting : w.st.promised t = [] :=
  promised_of_not_mem (h.not_resuming ht).1 (h.not_resuming ht).2

end

theorem pending_eq : w.pending = q := by
  rw [World.pending, h.history, Option.getD_some]

theorem returned_step (es rs : List (Event τ)) (s' : State τ)
    (he : ∀ t, w.st.promised t ++ of t es = of t rs ++ s'.promised t) (t : τ) :
    of t (w.log ++ es) = of t (w.returned ++ rs) ++ s'.promised t := by
  rw [of_append, of_append, h.returned t, append_assoc, he t, append_assoc]

section
variable (hc : s'.toMsgqControlBlock = w.st.toMsgqControlBlock) (hn : s'.inside.Nodup)
  (hr : s'.receiveWaitQueue ≠ [] → q = []) (hs : s'.sendWaitQueue ≠ [] → w.st.inactiveMsgQueue = [])
  (hw : ∀ t ∈ s'.sendWaitQueue ++ s'.receiveWaitQueue, (s'.tcb t).returnCode = TTOS_OK)
  (hcnt : ∀ t ∈ s'.sendWaitQueue, (s'.tcb t).count < TTOS_MSGQ_PRIORITY_NUMBER)
include hc hn hr hs hw hcnt

/-- A step that leaves the messages alone. -/
theorem quiet (hp : ∀ t, w.st.promised t = of t rs ++ s'.promised t) :
    Sound ⟨s', w.log, w.returned ++ rs⟩ q where
  history := by
    have := h.history
    rw [World.replay] at this ⊢
    rwa [hc]
  stores := by rw [hc]; exact h.stores
  nodup := hn
  receivers := hr
  senders := by rw [hc]; exact hs
  waits := hw
  counts := hcnt
  returned t := by
    have := h.returned_step [] rs s'
      (fun t => by rw [of, filter_nil, append_nil]; exact hp t) t
    rwa [append_nil] at this

/-- One that returns nothing. -/
theorem quiet_nil (hp : ∀ t, s'.promised t = w.st.promised t) : Sound { w with st := s' } q := by
  have hret : Sound ⟨s', w.log, w.returned ++ []⟩ q :=
    h.quiet hc hn hr hs hw hcnt fun t => (hp t).symm
  rwa [append_nil] at hret

end

theorem setTcb (ht : t ∉ w.st.inside) (c : Tcb) : Sound { w with st := w.st.setTcb t c } q := by
  have hne (u : τ) (hu : u ∈ w.st.inside) : (w.st.setTcb t c).tcb u = w.st.tcb u :=
    update_of_ne (fun e : u = t => ht (e ▸ hu)) _ _
  refine h.quiet_nil rfl h.nodup h.receivers h.senders (fun u hu => ?_) (fun u hu => ?_)
    (promised_outside rfl rfl hne)
  · rw [hne u (by simp only [mem_inside, mem_append] at hu ⊢; tauto)]
    exact h.waits u hu
  · rw [hne u (mem_inside.2 (.inl hu))]
    exact h.counts u hu

theorem waitToSend (ht : t ∉ w.st.inside) (hb : w.st.inactiveMsgQueue = []) (buffer : ℕ → UInt8)
    (size : ℕ) (options : BitVec 32) (ticks : ℕ) :
    Sound { w with st := waitToSend t buffer size options ticks w.st } q := by
  have hperm := enqueue_perm w.st t w.st.sendWaitQueue
  have hne (u : τ) (hu : u ∈ w.st.inside) :
      (Msgq.waitToSend t buffer size options ticks w.st).tcb u = w.st.tcb u :=
    update_of_ne (fun e : u = t => ht (e ▸ hu)) _ _
  have hself : ((Msgq.waitToSend t buffer size options ticks w.st).tcb t).returnCode = TTOS_OK ∧
      ((Msgq.waitToSend t buffer size options ticks w.st).tcb t).count =
        TTOS_MSGQ_GET_PRIORITY options := by
    simp [Msgq.waitToSend, Tcb.waiting]
  refine h.quiet_nil rfl ?_ h.receivers (fun _ => hb) (fun u hu => ?_) (fun u hu => ?_)
    (promised_outside rfl rfl hne)
  · exact (hperm.append_right _).nodup_iff.2 (nodup_cons.2 ⟨ht, h.nodup⟩)
  · rcases mem_append.1 hu with hu | hu
    · rcases mem_cons.1 (hperm.mem_iff.1 hu) with rfl | hu
      · exact hself.1
      · rw [hne u (mem_inside.2 (.inl hu))]
        exact h.waits u (mem_append_left _ hu)
    · rw [hne u (mem_inside.2 (.inr (.inl hu)))]
      exact h.waits u (mem_append_right _ hu)
  · rcases mem_cons.1 (hperm.mem_iff.1 hu) with rfl | hu
    · rw [hself.2]
      exact TTOS_MSGQ_GET_PRIORITY_lt options
    · rw [hne u (mem_inside.2 (.inl hu))]
      exact h.counts u hu

end

theorem waitToReceive (h : Sound w []) (ht : t ∉ w.st.inside) (ticks : ℕ) :
    Sound { w with st := (waitToReceive t ticks false w.st).2 } [] := by
  have hperm := enqueue_perm w.st t w.st.receiveWaitQueue
  have hne (u : τ) (hu : u ∈ w.st.inside) :
      (Msgq.waitToReceive t ticks false w.st).2.tcb u = w.st.tcb u :=
    update_of_ne (fun e : u = t => ht (e ▸ hu)) _ _
  have hself : ((Msgq.waitToReceive t ticks false w.st).2.tcb t).returnCode = TTOS_OK := by
    simp [Msgq.waitToReceive, Tcb.waiting]
  refine h.quiet_nil rfl ?_ (fun _ => rfl) h.senders (fun u hu => ?_) (fun u hu => ?_)
    (promised_outside rfl rfl hne)
  · have hp : ((Msgq.waitToReceive t ticks false w.st).2.inside).Perm (t :: w.st.inside) :=
      ((hperm.append_right _).append_left _).trans perm_middle
    exact hp.nodup_iff.2 (nodup_cons.2 ⟨ht, h.nodup⟩)
  · rcases mem_append.1 hu with hu | hu
    · rw [hne u (mem_inside.2 (.inl hu))]
      exact h.waits u (mem_append_left _ hu)
    · rcases mem_cons.1 (hperm.mem_iff.1 hu) with rfl | hu
      · exact hself
      · rw [hne u (mem_inside.2 (.inr (.inl hu)))]
        exact h.waits u (mem_append_right _ hu)
  · rw [hne u (mem_inside.2 (.inl hu))]
    exact h.counts u hu

/-! ## Calls that take effect -/

open Event

variable {rest : List ℕ}

variable {b : ℕ}

theorem length_lt (h : Sound w q) (hb : w.st.inactiveMsgQueue = b :: rest) :
    q.length < w.st.maxPendingMsg := by
  have hl := h.stores.length_free
  rw [h.stores.length_blocks, hb, length_cons] at hl
  omega

theorem no_senders (h : Sound w q) (hb : w.st.inactiveMsgQueue = b :: rest) :
    w.st.sendWaitQueue = [] := by
  by_contra hs
  simpa [hb] using h.senders hs

theorem commit_outside (ht : t ∉ s.inside) {e : Event τ} (he : e.task = t)
    (hp : ∀ u, s'.promised u = s.promised u) (u : τ) :
    s.promised u ++ of u [e] = of u [e] ++ s'.promised u := by
  rw [hp u]
  by_cases hu : u = t
  · subst hu
    rw [promised_of_not_inside ht, append_nil, nil_append]
  · rw [of_single, if_neg (fun h => hu (h.symm.trans he)), append_nil, nil_append]

theorem commit_woken (ht : t ∉ s.inside) (hut : u ≠ t) {e f : Event τ} (he : e.task = t)
    (hf : f.task = u) (hu : s.promised u = []) (hu' : s'.promised u = [f])
    (hp : ∀ v, v ≠ u → s'.promised v = s.promised v) (v : τ) :
    s.promised v ++ of v [e, f] = of v [e] ++ s'.promised v := by
  have hsplit : of v [e, f] = of v [e] ++ of v [f] := of_append v [e] [f]
  rw [hsplit, of_single e, of_single f, he, hf]
  by_cases hv : v = u
  · subst hv
    rw [hu, hu', if_neg hut.symm, if_pos rfl]
    rfl
  · rw [hp v hv, if_neg (Ne.symm hv), append_nil]
    by_cases hvt : v = t
    · subst hvt
      rw [promised_of_not_inside ht, append_nil, nil_append]
    · rw [if_neg (Ne.symm hvt), append_nil, nil_append]

variable {c : MsgqControlBlock}

/-- **A send that finds a free block.** -/
theorem sent (h : Sound w q) (ht : t ∉ w.st.inside) (hb : w.st.inactiveMsgQueue = b :: rest)
    (hw : w.st.receiveWaitQueue = []) (hc : Stores c [] (put rank m q))
    (hm : c.maxPendingMsg = w.st.maxPendingMsg) (n : ℕ) :
    Sound ⟨{ w.st with
        toMsgqControlBlock := c
        notified := n }, w.log ++ [.sent t m], w.returned ++ [.sent t m]⟩ (put rank m q) where
  history := by
    simp only [World.replay, hm, map_append, map_cons, map_nil, act]
    exact replay_put h.history (h.length_lt hb)
  stores := hc
  nodup := h.nodup
  receivers hr := absurd hw hr
  senders hs := absurd (h.no_senders hb) hs
  waits := h.waits
  counts := h.counts
  returned := h.returned_step _ _ _ (commit_outside ht rfl fun _ => rfl)

/-- **A send that a task has waited for.** -/
theorem handed (h : Sound w []) (ht : t ∉ w.st.inside) {ts : List τ}
    (hb : w.st.inactiveMsgQueue = b :: rest) (hw : w.st.receiveWaitQueue = u :: ts)
    (hc : Stores c [] []) (hm : c.maxPendingMsg = w.st.maxPendingMsg) {x : Tcb}
    (hx : x.received = m.received) (hcode : x.returnCode = (w.st.tcb u).returnCode) (n : ℕ) :
    Sound ⟨{ w.st with
        toMsgqControlBlock := c
        notified := n
        receiveWaitQueue := ts
        receiveResuming := u :: w.st.receiveResuming
        tcb := update w.st.tcb u x },
      w.log ++ [.sent t m, .received u x.received], w.returned ++ [.sent t m]⟩ [] := by
  have hwait : u ∈ w.st.sendWaitQueue ++ w.st.receiveWaitQueue := by simp [hw]
  have hut : u ≠ t := fun e : u = t => ht (e ▸ mem_inside.2 (.inr (.inl (by simp [hw]))))
  have hn := h.nodup
  rw [inside, hw, h.no_senders hb, nil_append, cons_append, nodup_cons] at hn
  constructor
  · have h1 := replay_put (a := m) h.history (h.length_lt hb)
    have h2 := replay_take h1
    simpa [World.replay, hm, act, hx] using h2
  · exact hc
  · have hp : (ts ++ (w.st.sendResuming ++ u :: w.st.receiveResuming)).Perm
        (u :: (ts ++ (w.st.sendResuming ++ w.st.receiveResuming))) :=
      (perm_middle.append_left ts).trans perm_middle
    simpa [inside, h.no_senders hb] using hp.nodup_iff.2 (nodup_cons.2 hn)
  · exact fun _ => rfl
  · exact absurd (h.no_senders hb)
  · intro v hv
    have hvt : v ∈ ts := by simpa [h.no_senders hb] using hv
    have hvu : v ≠ u := fun e : v = u => hn.1 (mem_append_left _ (e ▸ hvt))
    show (update w.st.tcb u x v).returnCode = TTOS_OK
    rw [update_of_ne hvu]
    exact h.waits v (by simp [hw, hvt])
  · intro v hv
    simp [h.no_senders hb] at hv
  · refine h.returned_step _ _ _ (commit_woken ht hut rfl rfl (h.promised_of_waiting hwait) ?_ ?_)
    · simp [promised, hcode, h.waits u hwait, (h.not_resuming hwait).1]
    · intro v hv
      exact promised_congr (by simp [hv]) (by simp [hv]) Iff.rfl (by simp [hv])

/-- **A receive that finds a message.** -/
theorem received (h : Sound w (m :: q)) (ht : t ∉ w.st.inside) (hw : w.st.sendWaitQueue = [])
    (hc : Stores c [] q) (hm : c.maxPendingMsg = w.st.maxPendingMsg) {x : Tcb}
    (hx : x.received = m.received) :
    Sound ⟨{ w.st with
        toMsgqControlBlock := c
        tcb := update w.st.tcb t x },
      w.log ++ [.received t x.received], w.returned ++ [.received t x.received]⟩ q := by
  have hne (u : τ) (hu : u ∈ w.st.inside) : update w.st.tcb t x u = w.st.tcb u :=
    update_of_ne (fun e : u = t => ht (e ▸ hu)) _ _
  have hr : w.st.receiveWaitQueue = [] := by
    by_contra hr
    cases h.receivers hr
  constructor
  · rw [hx]
    simp only [World.replay, hm, map_append, map_cons, map_nil, act]
    exact replay_take h.history
  · exact hc
  · exact h.nodup
  · exact absurd hr
  · exact absurd hw
  · intro v hv
    simp [hw, hr] at hv
  · intro v hv
    simp [hw] at hv
  · exact h.returned_step _ _ _ (commit_outside ht rfl (promised_outside rfl rfl hne))

/-- **A receive that lets a sender in.** -/
theorem refilled (h : Sound w (m :: q)) (ht : t ∉ w.st.inside) {ts : List τ}
    (hw : w.st.sendWaitQueue = u :: ts) (hc : Stores c [] (put rank (w.st.tcb u).message q))
    (hm : c.maxPendingMsg = w.st.maxPendingMsg) (hfree : c.inactiveMsgQueue = w.st.inactiveMsgQueue)
    {x : Tcb} (hx : x.received = m.received) (n : ℕ) :
    Sound ⟨{ w.st with
        toMsgqControlBlock := c
        notified := n
        sendWaitQueue := ts
        sendResuming := u :: w.st.sendResuming
        tcb := update w.st.tcb t x },
      w.log ++ [.received t x.received, .sent u (w.st.tcb u).message],
      w.returned ++ [.received t x.received]⟩ (put rank (w.st.tcb u).message q) := by
  have hwait : u ∈ w.st.sendWaitQueue ++ w.st.receiveWaitQueue := by simp [hw]
  have hin : u ∈ w.st.inside := mem_inside.2 (.inl (by simp [hw]))
  have hut : u ≠ t := fun e : u = t => ht (e ▸ hin)
  have hne (v : τ) (hv : v ∈ w.st.inside) : update w.st.tcb t x v = w.st.tcb v :=
    update_of_ne (fun e : v = t => ht (e ▸ hv)) _ _
  have hr : w.st.receiveWaitQueue = [] := by
    by_contra hr
    cases h.receivers hr
  have hq : q.length < w.st.maxPendingMsg := by
    have := h.stores.length_free
    rw [h.stores.length_blocks, length_cons] at this
    omega
  have hn := h.nodup
  rw [inside, hw, hr, nil_append, cons_append, nodup_cons] at hn
  constructor
  · have h1 := replay_take h.history
    have h2 := replay_put (a := (w.st.tcb u).message) h1 hq
    simpa [World.replay, hm, act, hx] using h2
  · exact hc
  · have hp : (ts ++ (u :: w.st.sendResuming ++ w.st.receiveResuming)).Perm
        (u :: (ts ++ (w.st.sendResuming ++ w.st.receiveResuming))) := perm_middle
    simpa [inside, hr] using hp.nodup_iff.2 (nodup_cons.2 hn)
  · exact absurd hr
  · intro _
    exact hfree.trans (h.senders (by simp [hw]))
  · intro v hv
    have hvt : v ∈ w.st.sendWaitQueue := by
      simp only [hr, append_nil] at hv
      simp [hw, hv]
    show (update w.st.tcb t x v).returnCode = TTOS_OK
    rw [hne v (mem_inside.2 (.inl hvt))]
    exact h.waits v (mem_append_left _ hvt)
  · intro v hv
    have hvt : v ∈ w.st.sendWaitQueue := by simp [hw, show v ∈ ts from hv]
    show (update w.st.tcb t x v).count < _
    rw [hne v (mem_inside.2 (.inl hvt))]
    exact h.counts v hvt
  · refine h.returned_step _ _ _ (commit_woken ht hut rfl rfl (h.promised_of_waiting hwait) ?_ ?_)
    · simp [promised, hne u hin, h.waits u hwait]
    · intro v hv
      by_cases hvi : v ∈ w.st.inside
      · exact promised_congr (by simp [hne v hvi]) (by simp [hne v hvi]) (by simp [hv]) Iff.rfl
      · rw [promised_of_not_inside hvi]
        simp only [mem_inside, not_or] at hvi
        exact promised_of_not_mem (by simp [hv, hvi.2.2.1]) hvi.2.2.2

/-! ## Beside the calls -/

section
variable (h : Sound w q)
include h

/-- A task stops waiting, with another code than `TTOS_OK`. -/
theorem interrupted (ht : t ∈ w.st.sendWaitQueue ++ w.st.receiveWaitQueue)
    (hc : s'.toMsgqControlBlock = w.st.toMsgqControlBlock) {x : Tcb} (hx : x.returnCode ≠ TTOS_OK)
    (htcb : s'.tcb = update w.st.tcb t x) (hperm : s'.inside.Perm w.st.inside)
    (hs : s'.sendWaitQueue.Sublist w.st.sendWaitQueue)
    (hr : s'.receiveWaitQueue.Sublist w.st.receiveWaitQueue)
    (hnot : t ∉ s'.sendWaitQueue ++ s'.receiveWaitQueue)
    (hsr : ∀ v ≠ t, v ∈ s'.sendResuming ↔ v ∈ w.st.sendResuming)
    (hrr : ∀ v ≠ t, v ∈ s'.receiveResuming ↔ v ∈ w.st.receiveResuming) :
    Sound { w with st := s' } q := by
  have hne (v : τ) (hv : v ≠ t) : s'.tcb v = w.st.tcb v := by rw [htcb, update_of_ne hv]
  have hwait (v : τ) (hv : v ∈ s'.sendWaitQueue ++ s'.receiveWaitQueue) : s'.tcb v = w.st.tcb v :=
    hne v fun e : v = t => hnot (e ▸ hv)
  refine h.quiet_nil hc (hperm.nodup_iff.2 h.nodup)
    (fun hne => h.receivers fun hnil => hne (sublist_nil.1 (hnil ▸ hr)))
    (fun hne => h.senders fun hnil => hne (sublist_nil.1 (hnil ▸ hs))) (fun v hv => ?_)
    (fun v hv => ?_) fun v => ?_
  · rw [hwait v hv]
    exact h.waits v ((hs.append hr).subset hv)
  · rw [hwait v (mem_append_left _ hv)]
    exact h.counts v (hs.subset hv)
  · by_cases hv : v = t
    · subst hv
      rw [h.promised_of_waiting ht]
      simp [promised, htcb, hx]
    · exact promised_congr (by rw [hne v hv]) (by rw [hne v hv]) (hsr v hv) (hrr v hv)

theorem interrupt_sender (hs : t ∈ w.st.sendWaitQueue) {code : ReturnCode}
    (hcode : code ≠ TTOS_OK) :
    Sound { w with st := interrupt code t w.st } q := by
  obtain ⟨x, heq, hx⟩ := interrupt_of_mem code hs
  obtain ⟨hn, -, hd⟩ := nodup_append.1 h.nodup
  rw [heq]
  refine h.interrupted (mem_append_left _ hs) rfl (hx ▸ hcode) rfl ?_ (erase_sublist ..)
    (List.Sublist.refl _) ?_ (fun v hv => by simp [hv]) fun _ _ => Iff.rfl
  · have hp : (w.st.receiveWaitQueue ++ (t :: w.st.sendResuming ++ w.st.receiveResuming)).Perm
        (t :: (w.st.receiveWaitQueue ++ (w.st.sendResuming ++ w.st.receiveResuming))) :=
      perm_middle
    exact ((hp.append_left _).trans perm_middle).trans ((perm_cons_erase hs).symm.append_right _)
  · rw [mem_append, not_or]
    exact ⟨hn.not_mem_erase, fun hr => hd t hs t (mem_append_left _ hr) rfl⟩

theorem interrupt_receiver (hr : t ∈ w.st.receiveWaitQueue) {code : ReturnCode}
    (hcode : code ≠ TTOS_OK) : Sound { w with st := interrupt code t w.st } q := by
  obtain ⟨-, hn, hd⟩ := nodup_append.1 h.nodup
  have hs : t ∉ w.st.sendWaitQueue := fun hs => hd t hs t (mem_append_left _ hr) rfl
  obtain ⟨x, heq, hx⟩ := interrupt_of_not_mem code hs
  rw [heq]
  refine h.interrupted (mem_append_right _ hr) rfl (hx ▸ hcode) rfl ?_ (List.Sublist.refl _)
    (erase_sublist ..) ?_ (fun _ _ => Iff.rfl) fun v hv => by simp [hv]
  · refine List.Perm.append_left _ (List.Perm.trans ?_ ((perm_cons_erase hr).symm.append_right _))
    exact (perm_middle.append_left (w.st.receiveWaitQueue.erase t)).trans perm_middle
  · rw [mem_append, not_or]
    exact ⟨hs, (nodup_append.1 hn).1.not_mem_erase⟩

theorem interrupt (ht : t ∈ w.st.sendWaitQueue ++ w.st.receiveWaitQueue) {code : ReturnCode}
    (hcode : code ≠ TTOS_OK) : Sound { w with st := interrupt code t w.st } q :=
  (mem_append.1 ht).elim (fun hs => h.interrupt_sender hs hcode)
    fun hr => h.interrupt_receiver hr hcode

theorem resume (t : τ) : Sound ⟨(resume t w.st).2, w.log, w.returned ++ w.st.promised t⟩ q := by
  have hnd := h.nodup
  simp only [inside] at hnd
  have hns : w.st.sendResuming.Nodup :=
    (nodup_append.1 (nodup_append.1 (nodup_append.1 hnd).2.1).2.1).1
  have hnr : w.st.receiveResuming.Nodup :=
    (nodup_append.1 (nodup_append.1 (nodup_append.1 hnd).2.1).2.1).2.1
  refine h.quiet rfl ?_ h.receivers h.senders h.waits h.counts fun v => ?_
  · refine List.Sublist.nodup ?_ h.nodup
    exact (((erase_sublist ..).append (erase_sublist ..)).append_left _).append_left _
  · by_cases hv : v = t
    · subst hv
      have hp : (Msgq.resume v w.st).2.promised v = [] :=
        promised_of_not_mem (hns.not_mem_erase) (hnr.not_mem_erase)
      have hof : of v (w.st.promised v) = w.st.promised v := by
        refine filter_eq_self.2 fun e he => ?_
        unfold promised at he
        split_ifs at he
        · simp [mem_singleton.1 he, task]
        · simp [mem_singleton.1 he, task]
        · cases he
        · cases he
      rw [hp, hof, append_nil]
    · have hof : of v (w.st.promised t) = [] := by
        refine filter_eq_nil_iff.2 fun e he => ?_
        unfold promised at he
        split_ifs at he
        · simpa [mem_singleton.1 he, task] using Ne.symm hv
        · simpa [mem_singleton.1 he, task] using Ne.symm hv
        · cases he
        · cases he
      rw [hof, nil_append]
      have hp : (Msgq.resume t w.st).2.promised v = w.st.promised v :=
        promised_congr rfl rfl (mem_erase_of_ne hv) (mem_erase_of_ne hv)
      exact hp.symm

theorem changePriority (t : τ) (newPriority : ℕ) :
    Sound { w with st := taskChangePriority t newPriority w.st } q := by
  have htcb (v : τ) : ((taskChangePriority t newPriority w.st).tcb v).returnCode =
        (w.st.tcb v).returnCode ∧
      ((taskChangePriority t newPriority w.st).tcb v).count = (w.st.tcb v).count ∧
      ((taskChangePriority t newPriority w.st).tcb v).message = (w.st.tcb v).message := by
    by_cases hv : v = t
    · subst hv
      simp [taskChangePriority, State.setTcb, Tcb.message, Tcb.received]
    · simp [taskChangePriority, State.setTcb, hv]
  obtain ⟨hs, hr⟩ := taskChangePriority_perm t newPriority w.st
  refine h.quiet_nil rfl ?_ (fun hne => h.receivers fun hnil => hne ?_)
    (fun hne => h.senders fun hnil => hne ?_) (fun v hv => ?_) (fun v hv => ?_) fun v => ?_
  · exact (hs.append (hr.append_right _)).nodup_iff.2 h.nodup
  · exact perm_nil.1 (hnil ▸ hr)
  · exact perm_nil.1 (hnil ▸ hs)
  · rw [(htcb v).1]
    exact h.waits v ((hs.append hr).mem_iff.1 hv)
  · rw [(htcb v).2.1]
    exact h.counts v (hs.mem_iff.1 hv)
  · exact promised_congr (htcb v).1 (htcb v).2.2 Iff.rfl Iff.rfl

end

end Sound

end Intewell.Msgq
