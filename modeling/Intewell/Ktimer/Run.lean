/-
# Timers stay in one queue

`ktimer_start` binds the timer to the CPU that it is called on before it takes it out of the queue
that it is in.  If that is the queue of another CPU, the entry is erased through the wrong root:
the queue it was in still has it for its earliest entry, and its bit stays (`ktimer_left_behind`).
A cancellation reads the state, the running timer and the base without the lock, and what it has
read may be out of date when it acts.

`ktimer_in_one_queue` is about runs in which a timer that is in a queue, or whose handler runs, is
started only on the CPU of its base, and no cancellation acts on what is out of date (`Careful`).
-/

import Intewell.Ktimer.Inv

namespace Intewell.Ktimer

open Relation Option List World
open World (init setBase setTimer)
open Function

variable {κ τ ι : Type*} [DecidableEq κ] [DecidableEq τ] {w w' : World κ τ ι} {b : κ × BaseType}
  {t : τ} {c : κ} {e now : ℤ} {type : BaseType} {ev : Event τ}

/-- What a cancellation has read is still so where it acts on it: the timer has not been put into a
queue since its state was read, and if it is in one, that is the queue of the base that was read. -/
def Call.Current (w : World κ τ ι) : Call κ τ → Prop
  | .running t => ktimer_callback_is_running w t ∨ (w.timer t).state = .inactive
  | .locked _ t b => (w.timer t).state = .enqueued → (w.timer t).base = b
  | _ => True

instance (w : World κ τ ι) : (x : Call κ τ) → Decidable (x.Current w)
  | .running _ => inferInstanceAs (Decidable (_ ∨ _))
  | .locked _ t b =>
    inferInstanceAs (Decidable ((w.timer t).state = .enqueued → (w.timer t).base = b))
  | .none => .isTrue trivial
  | .state _ => .isTrue trivial
  | .base _ => .isTrue trivial
  | .compare _ _ => .isTrue trivial
  | .send _ => .isTrue trivial
  | .remote _ _ => .isTrue trivial

def Careful (w : World κ τ ι) : Op κ τ ι → Prop
  | .start c t _ _ _ =>
    (w.timer t).state = .enqueued ∨ ktimer_callback_is_running w t → (w.timer t).base.1 = c
  | .cancelStep i _ => (w.call i).Current w
  | _ => True

instance (w : World κ τ ι) : (o : Op κ τ ι) → Decidable (Careful w o)
  | .start c t _ _ _ => inferInstanceAs (Decidable
      ((w.timer t).state = .enqueued ∨ ktimer_callback_is_running w t → (w.timer t).base.1 = c))
  | .cancelStep i _ => inferInstanceAs (Decidable ((w.call i).Current w))
  | .interrupt _ _ _ => .isTrue trivial
  | .dispatch _ => .isTrue trivial
  | .handlerEnd _ _ => .isTrue trivial
  | .cancel _ _ _ => .isTrue trivial

/-! ## Into a queue and out of it -/

/-- The timer is in no queue any more; nothing else has changed that the invariant is about. -/
structure Off (t : τ) (w w' : World κ τ ι) : Prop where
  timer : w'.timer = update w.timer t { w.timer t with state := .inactive, linked := false }
  running : ∀ b, (w'.base b).running_timer = (w.base b).running_timer
  irq : w'.irq = w.irq
  log : w'.log = w.log

def Timer.queuedAt (x : Timer κ) (b : κ × BaseType) (e : ℤ) : Timer κ :=
  { x with expires := e, linked := true, base := b, state := .enqueued }

/-- The timer is in the queue of the base `b`, with the expiry `e`. -/
structure On (t : τ) (b : κ × BaseType) (e : ℤ) (w w' : World κ τ ι) : Prop where
  timer : w'.timer = update w.timer t ((w.timer t).queuedAt b e)
  running : ∀ b, (w'.base b).running_timer = (w.base b).running_timer
  irq : w'.irq = w.irq
  log : w'.log = w.log

omit [DecidableEq τ] in
theorem running_setBase {q : Queue τ} {a : Bool} (w : World κ τ ι) (b b' : κ × BaseType) :
    ((w.setBase b { w.base b with queue := q, active := a }).base b').running_timer =
      (w.base b').running_timer := update_proj Base.running_timer (by rfl) b'

omit [DecidableEq κ] in
theorem off_self (h : Queues w) (ht : (w.timer t).state = .inactive) : Off t w w := by
  have hlinked := h.unlinked ht
  have hself : { w.timer t with state := .inactive, linked := false } = w.timer t := by
    rw [← ht, ← hlinked]
  exact ⟨by rw [hself, update_eq_self], fun _ => rfl, rfl, rfl⟩

theorem Queues.dequeue (h : Queues w) (hb : (w.timer t).state = .enqueued → (w.timer t).base = b) :
    ∃ w', ktimer_dequeue_timer t b w = some w' ∧ Queues w' ∧ Off t w w' := by
  unfold ktimer_dequeue_timer
  by_cases ht : (w.timer t).state = .enqueued
  · obtain ⟨q, a, hrem, hq⟩ := h.remove ht (hb ht)
    rw [if_pos ht]
    exact ⟨_, hrem, hq, rfl, running_setBase w b, rfl, rfl⟩
  · have hin := State.eq_inactive ht
    rw [if_neg ht]
    exact ⟨w, rfl, h, off_self h hin⟩

theorem Queues.requeue (h : Queues w) (ht : (w.timer t).state = .inactive)
    (hb : (w.timer t).base = b) (e : ℤ) :
    ∃ w', ktimer_queue_timer t b (w.setTimer t { w.timer t with expires := e }) = some w' ∧
      On t b e w w' ∧ ∀ ev, Queues (w'.record ev) := by
  have hlinked := h.unlinked ht
  have hself : (w.setTimer t { w.timer t with expires := e }).timer t =
      { w.timer t with expires := e } := update_self _ _ _
  have h1 : Queues (w.setTimer t { w.timer t with expires := e }) :=
    h.setInactive ht ht hlinked (h.type t)
  obtain ⟨q, _, rfl, hadd, hq⟩ := h1.add (b := b) (by rw [hself]; exact ht)
    (by rw [hself]; exact hb)
  refine ⟨_, hadd, ⟨?_, running_setBase _ b, rfl, rfl⟩, hq⟩
  simp only [setTimer, setBase, update_self, update_idem, Timer.queuedAt, hb]

theorem start_spec (time : ℤ) (mode : Mode) (now : ℤ) (h : Queues w)
    (hb : (w.timer t).state = .enqueued → (w.timer t).base.1 = c) :
    ∃ w', ktimer_start c t time mode now w =
        some (w'.record (.started t (if mode = .rel then ktime_add_safe time now else time))) ∧
      On t (c, ktimer_clock_id_to_base_type (w.timer t).clock_id)
        (if mode = .rel then ktime_add_safe time now else time) w w' ∧
      ∀ ev, Queues (w'.record ev) := by
  set b : κ × BaseType := (c, ktimer_clock_id_to_base_type (w.timer t).clock_id) with hbdef
  set e : ℤ := if mode = .rel then ktime_add_safe time now else time with hedef
  set w0 := w.setTimer t { w.timer t with base := b } with hw0
  have hself : w0.timer t = { w.timer t with base := b } := update_self _ _ _
  -- the base is the old one, or the timer is in no queue
  have h0 : Queues w0 := by
    by_cases ht : (w.timer t).state = .enqueued
    · have heq : (w.timer t).base = b := Prod.ext (hb ht) (h.type t)
      have hsame : w0 = w := by
        rw [hw0, ← heq, setTimer, update_eq_self]
      rwa [hsame]
    · have hin := State.eq_inactive ht
      have hlinked := h.unlinked hin
      exact h.setInactive hin hin hlinked rfl
  obtain ⟨w1, hdeq, h1, hoff⟩ := h0.dequeue fun _ => by rw [hself]
  have hself1 : w1.timer t = { w.timer t with base := b, state := .inactive, linked := false } := by
    rw [hoff.timer, update_self, hself]
  obtain ⟨w2, hadd, hon, h2⟩ := h1.requeue (by rw [hself1]) (by rw [hself1]) e
  refine ⟨w2, ?_, ⟨?_, fun b' => ?_, ?_, ?_⟩, h2⟩
  · simp only [ktimer_start, ← hbdef, ← hedef, ← hw0, hdeq, bind_some, hadd, map_some]
  · rw [hon.timer, hself1, hoff.timer, hw0]
    simp only [setTimer, update_idem, Timer.queuedAt]
  · rw [hon.running, hoff.running]
    rfl
  · rw [hon.irq, hoff.irq]
    rfl
  · rw [hon.log, hoff.log]
    rfl

/-! ## Steps -/

omit [DecidableEq κ] [DecidableEq τ] in
theorem Handlers.eq_base (h : Handlers w) (hb : (w.base b).running_timer = some t) :
    ktimer_callback_is_running w t := by
  rw [ktimer_callback_is_running, h.base b t hb]
  exact hb

section

omit [DecidableEq κ]

/-- An event of the timer `t`: the other timers stay as they are, and no handler of them begins. -/
theorem Inv.record (hi : Inv w) (ht : ev.timer = t) (hlog : w'.log = w.log)
    (hother : ∀ u, u ≠ t → w'.timer u = w.timer u) (hq : Queues (w'.record ev))
    (hrun : ∀ c type u, (w'.base (c, type)).running_timer = some u ↔
      ∃ now, w'.irq c = .handler type now u)
    (hkeep : ∀ b u, u ≠ t → (w'.base b).running_timer = some u → (w.base b).running_timer = some u)
    (hbase : ∀ b, (w'.base b).running_timer = some t → (w'.timer t).base = b)
    (hallow : Allowed w.log ev) (hqueued : (w'.timer t).state = .enqueued →
      ev = .started t (w'.timer t).expires ∨ ev = .requeued t (w'.timer t).expires)
    (hran : ∀ b, (w'.base b).running_timer = some t → (w'.timer t).state = .inactive →
      ∃ now, ev = .ran t now) : Inv (w'.record ev) := by
  have hlast : ∀ u, u ≠ t → last u (w'.record ev).log = last u w.log := fun u hu => by
    rw [← hlog]
    exact last_cons_of_ne (by rw [ht]; exact Ne.symm hu)
  have hlast' : last t (w'.record ev).log = some ev := last_cons_self ht
  refine ⟨hq, ⟨hrun, fun b u hu => ?_⟩, ⟨⟨hlog ▸ hallow, hlog ▸ hi.history.orderly⟩, fun u hu => ?_,
    fun b u hu hs => ?_⟩⟩
  · by_cases hut : u = t
    · subst hut
      exact hbase b hu
    · exact (congrArg Timer.base (hother u hut)).trans (hi.handlers.base b u (hkeep b u hut hu))
  · change (w'.timer u).state = .enqueued at hu
    change last u _ = some (.started u (w'.timer u).expires) ∨
      last u _ = some (.requeued u (w'.timer u).expires)
    by_cases hut : u = t
    · subst hut
      rw [hlast']
      exact (hqueued hu).imp (congrArg some) (congrArg some)
    · rw [hother u hut] at hu ⊢
      rw [hlast u hut]
      exact hi.history.enqueued u hu
  · change (w'.timer u).state = .inactive at hs
    by_cases hut : u = t
    · subst hut
      rw [hlast']
      exact (hran b hu hs).imp fun _ => congrArg some
    · rw [hother u hut] at hs
      rw [hlast u hut]
      exact hi.history.running b u (hkeep b u hut hu) hs

theorem Inv.on (hi : Inv w) (hon : On t b e w w') (hq : Queues (w'.record ev))
    (hrun : ∀ b', (w.base b').running_timer = some t → b' = b)
    (hev : ev = .started t e ∨ ev = .requeued t e) (hallow : Allowed w.log ev) :
    Inv (w'.record ev) := by
  have hself : w'.timer t = (w.timer t).queuedAt b e := by
    rw [hon.timer, update_self]
  refine hi.record (t := t) ?_ hon.log (fun u hu => ?_) hq (fun c type u => ?_)
    (fun b' u _ hu => hon.running b' ▸ hu) (fun b' hu => ?_) hallow (fun _ => ?_) fun b' _ hs => ?_
  · rcases hev with rfl | rfl <;> rfl
  · rw [hon.timer, update_of_ne hu]
  · rw [hon.running, hon.irq]
    exact hi.handlers.running c type u
  · rw [hself, hrun b' (hon.running b' ▸ hu)]
    rfl
  · rw [hself]
    exact hev
  · rw [hself] at hs
    cases hs

theorem Inv.off (hi : Inv w) (hoff : Off t w w') (hq : Queues w')
    (hrun : ¬ ktimer_callback_is_running w t) : Inv (w'.record (.cancelled t)) := by
  have hnot : ∀ b', (w'.base b').running_timer ≠ some t := fun b' hu =>
    hrun (hi.handlers.eq_base (hoff.running b' ▸ hu))
  refine hi.record (t := t) rfl hoff.log (fun u hu => ?_)
    (hq.congr rfl (fun _ => ⟨rfl, rfl⟩) rfl (Nat.le_succ _))
    (fun c type u => ?_) (fun b' u _ hu => hoff.running b' ▸ hu) (fun b' hu => absurd hu (hnot b'))
    trivial (fun hs => ?_) fun b' hu => absurd hu (hnot b')
  · rw [hoff.timer, update_of_ne hu]
  · rw [hoff.running, hoff.irq]
    exact hi.handlers.running c type u
  · rw [hoff.timer, update_self] at hs
    cases hs

end

theorem Inv.start (time : ℤ) (mode : Mode) (now : ℤ) (hi : Inv w)
    (hc : (w.timer t).state = .enqueued ∨ ktimer_callback_is_running w t → (w.timer t).base.1 = c) :
    ∃ w', ktimer_start c t time mode now w = some w' ∧ Inv w' := by
  obtain ⟨w', hstart, hon, hq⟩ :=
    start_spec time mode now hi.queues fun ht => hc (.inl ht)
  refine ⟨_, hstart, hi.on hon (hq _) (fun b' hb' => ?_) (.inl rfl) trivial⟩
  -- the handler runs on this CPU
  have hbase := hi.handlers.base b' t hb'
  have hcpu := hc (.inr (hi.handlers.eq_base hb'))
  rw [← hbase]
  exact Prod.ext hcpu (hi.queues.type t)

theorem Inv.leave (hi : Inv w) (hirq : w.irq c = .handler type now t) :
    Inv (handlerLeave c type now w) := by
  have hrun : ∀ b' u, ((handlerLeave c type now w).base b').running_timer = some u →
      b' ≠ (c, type) ∧ (w.base b').running_timer = some u := by
    intro b' u hu
    by_cases hb' : b' = (c, type)
    · subst hb'
      simp [handlerLeave, setBase, setIrq] at hu
    · simpa [handlerLeave, setBase, setIrq, hb'] using hu
  refine ⟨hi.queues.congr rfl (fun b' => ?_) rfl le_rfl, ⟨fun c' type' u => ?_, fun b' u hu => ?_⟩,
    ⟨hi.history.orderly, hi.history.enqueued, fun b' u hu hs => ?_⟩⟩
  · by_cases hb' : b' = (c, type)
    · subst hb'
      simp [handlerLeave, setBase, setIrq]
    · simp [handlerLeave, setBase, setIrq, hb']
  · by_cases hc : c' = c
    · subst hc
      have hnone : ((handlerLeave c' type now w).base (c', type')).running_timer ≠ some u := by
        intro hu
        obtain ⟨hne, hu⟩ := hrun _ _ hu
        obtain ⟨now', hnow'⟩ := (hi.handlers.running c' type' u).1 hu
        rw [hirq] at hnow'
        cases hnow'
        exact hne rfl
      refine ⟨fun hu => absurd hu hnone, ?_⟩
      rintro ⟨now', hnow'⟩
      simp [handlerLeave, setIrq] at hnow'
    · simp only [handlerLeave, setIrq, setBase, update_of_ne hc,
        update_of_ne (fun h => hc (congrArg Prod.fst h) : (c', type') ≠ (c, type))]
      exact hi.handlers.running c' type' u
  · exact hi.handlers.base b' u (hrun b' u hu).2
  · exact hi.history.running b' u (hrun b' u hu).2 hs

theorem Inv.setIrq {x : Irq τ} (hi : Inv w) (hold : ∀ type now t, w.irq c ≠ .handler type now t)
    (hnew : ∀ type now t, x ≠ .handler type now t) : Inv (w.setIrq c x) := by
  refine ⟨{ hi.queues with }, ⟨fun c' type' u => ?_, hi.handlers.base⟩, { hi.history with }⟩
  refine (hi.handlers.running c' type' u).trans ?_
  by_cases hc : c' = c
  · subst hc
    simp [setIrq, hold, hnew]
  · simp [World.setIrq, hc]

theorem Inv.handlerBegin (hi : Inv w) (hirq : ∀ type now t, w.irq c ≠ .handler type now t)
    (ht : (w.base (c, type)).queue.earliest = some t)
    (hexp : ¬ now + (w.base (c, type)).time_offset < w.expires t) :
    ∃ w', handlerBegin c type now t w = some w' ∧ Inv w' := by
  have hmem : t ∈ (w.base (c, type)).queue.entries := by
    rw [(hi.queues.queue (c, type)).earliest] at ht
    exact mem_of_head? ht
  obtain ⟨hst, hbase⟩ := (hi.queues.mem (c, type) t).1 hmem
  set w0 := w.setBase (c, type) { w.base (c, type) with running_timer := some t } with hw0
  have hq0 : Queues w0 := by
    refine hi.queues.congr rfl (fun b' => ?_) rfl le_rfl
    by_cases hb' : b' = (c, type)
    · subst hb'
      simp [hw0, setBase]
    · simp [hw0, setBase, hb']
  have hrun0 : ∀ b', (w0.base b').running_timer =
      if b' = (c, type) then some t else (w.base b').running_timer := by
    intro b'
    by_cases hb' : b' = (c, type)
    · subst hb'
      simp [hw0, setBase]
    · simp [hw0, setBase, hb']
  obtain ⟨q, a, hrem, hq⟩ := hq0.remove hst hbase
  set w1 := (w0.setTimer t { w0.timer t with state := .inactive, linked := false }).setBase
    (c, type)
    { w0.base (c, type) with queue := q, active := a } with hw1
  have hrun : ∀ b', (w1.base b').running_timer =
      if b' = (c, type) then some t else (w.base b').running_timer := fun b' => by
    rw [← hrun0 b']
    exact running_setBase _ (c, type) b'
  have hself : (w1.timer t).state = .inactive ∧ (w1.timer t).base = (c, type) := by
    have heq : w1.timer t = { w0.timer t with state := .inactive, linked := false } :=
      update_self _ _ _
    rw [heq]
    exact ⟨rfl, hbase⟩
  refine ⟨_, by rw [Ktimer.handlerBegin, hrem, map_some], ?_⟩
  refine hi.record rfl rfl (fun u hu => update_of_ne hu _ _)
    (hq.congr rfl (fun _ => ⟨rfl, rfl⟩) rfl (Nat.le_succ _)) (fun c' type' u => ?_)
    (fun b' u hut hu => ?_)
    (fun b' hu => ?_) ⟨w.expires t, not_lt.1 hexp, hi.history.enqueued t hst⟩ (fun hs => ?_)
    fun _ _ _ => ⟨_, rfl⟩
  · change (w1.base (c', type')).running_timer = _ ↔ ∃ now', update w.irq c _ c' = _
    rw [hrun]
    have hold := hi.handlers.running c' type' u
    by_cases hc : c' = c
    · subst hc
      simp only [hirq, exists_false, iff_false] at hold
      by_cases htype : type' = type
      · subst htype
        simp
      · have hne : (c', type') ≠ (c', type) := fun h => htype (congrArg Prod.snd h)
        simp [hne, hold, Ne.symm htype]
    · have hne : (c', type') ≠ (c, type) := fun h => hc (congrArg Prod.fst h)
      rw [if_neg hne, update_of_ne hc]
      exact hold
  · change (w1.base b').running_timer = _ at hu
    rw [hrun] at hu
    split_ifs at hu
    · exact absurd (some.inj hu).symm hut
    · exact hu
  · change (w1.base b').running_timer = _ at hu
    rw [hrun] at hu
    split_ifs at hu with hb'
    · exact hself.2.trans hb'.symm
    · exact absurd ((hi.handlers.base b' t hu).symm.trans hbase) hb'
  · exact absurd (hself.1.symm.trans hs) (by decide)

omit [DecidableEq τ] in
theorem nextBase_ne_handler (type type' : BaseType) (now now' : ℤ) (t : τ) :
    nextBase type now ≠ Irq.handler type' now' t := by
  cases type <;> simp [nextBase, BaseType.next]

theorem Inv.dispatch (hi : Inv w) (h : ¬(w.irq c).free) :
    ∃ w', dispatch c w = some w' ∧ Inv w' := by
  unfold Ktimer.dispatch
  cases hirq : w.irq c with
  | idle | handler => simp [hirq, Irq.free] at h
  | scan type now =>
    refine ⟨_, rfl, hi.setIrq (by simp [hirq]) ?_⟩
    split_ifs
    · simp
    · exact fun _ _ _ => nextBase_ne_handler _ _ _ _ _
  | loop type now =>
    have hne : ∀ type' now' t', w.irq c ≠ .handler type' now' t' := by simp [hirq]
    have hnext := hi.setIrq hne fun _ _ _ => nextBase_ne_handler type _ now _ _
    simp only
    cases he : (w.base (c, type)).queue.earliest with
    | none => exact ⟨_, rfl, hnext⟩
    | some t =>
      simp only
      split_ifs with hexp
      · exact ⟨_, rfl, hnext⟩
      · exact hi.handlerBegin hne he hexp

theorem Inv.handlerEnd (restart : Option ℤ) (hi : Inv w) (hirq : w.irq c = .handler type now t) :
    ∃ w', handlerEnd c restart w = some w' ∧ Inv w' := by
  simp only [Ktimer.handlerEnd, hirq]
  cases restart with
  | none => exact ⟨_, rfl, hi.leave hirq⟩
  | some e =>
    simp only
    split_ifs with hst
    · exact ⟨_, rfl, hi.leave hirq⟩
    · have hrun : (w.base (c, type)).running_timer = some t :=
        (hi.handlers.running c type t).2 ⟨now, hirq⟩
      have hbase := hi.handlers.base _ _ hrun
      have hin := State.eq_inactive hst
      obtain ⟨w'', hadd, hon, hq⟩ := hi.queues.requeue hin hbase e
      rw [hadd]
      refine ⟨_, rfl, Inv.leave (hi.on hon (hq _) (fun b' hb' => ?_) (.inr rfl)
        (hi.history.running _ _ hrun hin)) (t := t) ?_⟩
      · exact (hi.handlers.base b' t hb').symm.trans hbase
      · change w''.irq c = _
        rw [hon.irq, hirq]

section

variable [DecidableEq ι] {i : ι}

omit [DecidableEq κ] in
theorem Inv.setCall (hi : Inv w) (i : ι) (x : Call κ τ) : Inv (w.setCall i x) :=
  ⟨{ hi.queues with }, { hi.handlers with }, { hi.history with }⟩

theorem Inv.cancelStep (hi : Inv w) (hc : (w.call i).Current w) (hn : w.call i ≠ .none) :
    ∃ w', cancelStep i c w = some w' ∧ Inv w' := by
  -- the locked section, with the base of the timer
  have hsection (t b) (hb : (w.timer t).state = .enqueued → (w.timer t).base = b)
      (hrun : ¬ ktimer_callback_is_running w t) :
      ∃ w', (ktimer_dequeue_timer t b w).map (cancelled i t) = some w' ∧ Inv w' := by
    obtain ⟨w'', hdeq, hq, hoff⟩ := hi.queues.dequeue hb
    rw [hdeq]
    exact ⟨_, rfl, (hi.off hoff hq hrun).setCall i .none⟩
  unfold Ktimer.cancelStep
  cases hcall : w.call i with
  | none => exact absurd hcall hn
  | state t | base t | compare t b | send t => exact ⟨_, rfl, hi.setCall i _⟩
  | running t =>
    rw [hcall] at hc
    refine ⟨_, rfl, ?_⟩
    split_ifs with hrun
    · exact hi.setCall i _
    · exact (hi.off (off_self hi.queues (hc.resolve_left hrun)) hi.queues hrun).setCall i .none
  | locked c' t b =>
    rw [hcall] at hc
    simp only
    split_ifs with hrun
    · exact ⟨_, rfl, hi.setCall i _⟩
    · exact hsection t b hc hrun
  | remote c' t =>
    simp only
    split_ifs with hcpu hrun
    · exact ⟨_, rfl, hi.setCall i _⟩
    · exact ⟨_, rfl, hi.setCall i _⟩
    · exact hsection t _ (fun _ => rfl) hrun

end

/-! ## Every run -/

theorem Inv.interrupt {offset : BaseType → ℤ} (hi : Inv w) (hirq : w.irq c = .idle) :
    Inv (ktimer_interrupt c now offset w) := by
  have hbase : ∀ b, ((ktimer_interrupt c now offset w).base b).queue = (w.base b).queue ∧
      ((ktimer_interrupt c now offset w).base b).active = (w.base b).active ∧
      ((ktimer_interrupt c now offset w).base b).running_timer = (w.base b).running_timer := by
    intro b
    simp only [ktimer_interrupt]
    split_ifs <;> exact ⟨rfl, rfl, rfl⟩
  have hi' := hi.setIrq (c := c) (x := .scan .monotonic now) (by simp [hirq]) (by simp)
  refine ⟨hi'.queues.congr rfl (fun b => ⟨(hbase b).1, (hbase b).2.1⟩) rfl le_rfl,
    ⟨fun c' type u => ?_, fun b u hu => ?_⟩, ⟨hi.history.orderly, hi.history.enqueued,
      fun b u hu hs => ?_⟩⟩
  · rw [(hbase _).2.2]
    exact hi'.handlers.running c' type u
  · rw [(hbase _).2.2] at hu
    exact hi.handlers.base b u hu
  · rw [(hbase _).2.2] at hu
    exact hi.history.running b u hu hs

section

variable [DecidableEq ι]

/-- The dispatch, the handler or the cancellation that goes on is under way. -/
def Op.UnderWay (w : World κ τ ι) : Op κ τ ι → Prop
  | .dispatch c => ¬(w.irq c).free
  | .handlerEnd c _ => ∃ type now t, w.irq c = .handler type now t
  | .cancelStep i _ => w.call i ≠ .none
  | _ => True

theorem underWay_of_run {o : Op κ τ ι} (h : o.run w = some w') : o.UnderWay w := by
  cases o with
  | start | interrupt | cancel => trivial
  | dispatch c =>
    intro hfree
    cases hirq : w.irq c <;> simp_all [Op.run, dispatch, Irq.free]
  | handlerEnd c restart =>
    cases hirq : w.irq c with
    | handler type now t => exact ⟨type, now, t, hirq⟩
    | idle | scan | loop => simp [Op.run, handlerEnd, hirq] at h
  | cancelStep i c =>
    intro hn
    simp [Op.run, cancelStep, hn] at h

/-- Every careful step that is under way has a result. -/
theorem Inv.result {o : Op κ τ ι} (hi : Inv w) (hp : o.Possible w) (hok : Careful w o)
    (hu : o.UnderWay w) : ∃ w', o.run w = some w' ∧ Inv w' := by
  cases o with
  | start c t time mode now => exact Inv.start time mode now hi hok
  | interrupt c now offset => exact ⟨_, rfl, hi.interrupt hp⟩
  | dispatch c => exact hi.dispatch hu
  | handlerEnd c restart =>
    obtain ⟨type, now, t, hirq⟩ := hu
    exact hi.handlerEnd restart hirq
  | cancel i c t =>
    refine ⟨_, rfl, ?_⟩
    unfold ktimer_cancel
    split_ifs
    · exact hi
    · exact hi.setCall i _
  | cancelStep i c => exact hi.cancelStep hok hu

theorem Inv.step (hi : Inv w) (h : Step Careful w w') : Inv w' := by
  cases h with
  | @mk o hp hok hrun =>
  obtain ⟨w'', hres, hi''⟩ := hi.result hp hok (underWay_of_run hrun)
  cases hrun.symm.trans hres
  exact hi''

omit [DecidableEq κ] [DecidableEq ι] in
theorem inv_init (cpu : τ → κ) (clock_id : τ → ClockId) :
    Inv (init cpu clock_id : World κ τ ι) where
  queues :=
    { queue := fun _ => ⟨⟨0, .nil⟩, .nil, rfl⟩
      mem := by simp [init, Queue.empty, Queue.entries, ColorTree.CTree.toList]
      active := by simp [init, Queue.empty, Queue.entries, ColorTree.CTree.toList]
      linked := by simp [init]
      type := fun _ => rfl
      stamp := by simp [init] }
  handlers := { running := by simp [init], base := by simp [init] }
  history := { orderly := trivial, enqueued := by simp [init], running := by simp [init] }

theorem inv_run {cpu : τ → κ} {clock_id : τ → ClockId}
    (h : ReflTransGen (Step Careful) (init cpu clock_id) w) : Inv w := by
  induction h with
  | refl => exact inv_init cpu clock_id
  | tail _ hstep ih => exact ih.step hstep

omit [DecidableEq κ] [DecidableEq ι] in
/-- The pointer is at the entry that expires first, and of those at the one put in first. -/
theorem Queues.earliest_iff (h : Queues w) (b : κ × BaseType) (t : τ) :
    (w.base b).queue.earliest = some t ↔ t ∈ (w.base b).queue.entries ∧
      ∀ u ∈ (w.base b).queue.entries, u ≠ t → w.Before t u := by
  have hsorted := (h.queue b).sorted
  rw [(h.queue b).earliest]
  cases hq : (w.base b).queue.entries with
  | nil => simp
  | cons v l =>
    rw [hq, pairwise_cons] at hsorted
    simp only [head?_cons, some.injEq]
    constructor
    · rintro rfl
      refine ⟨.head _, fun u hu hne => ?_⟩
      exact hsorted.1 u ((mem_cons.1 hu).resolve_left hne)
    · rintro ⟨hmem, hfirst⟩
      rcases mem_cons.1 hmem with rfl | hmem
      · rfl
      · by_contra hne
        exact (hsorted.1 t hmem).asymm (hfirst v (.head _) hne)

/-- The queues are as they should be, and so is the history. -/
structure Sound (w : World κ τ ι) : Prop where
  one : ∀ t, (w.timer t).state = .enqueued → ∀ b,
    t ∈ (w.base b).queue.entries ↔ b = (w.timer t).base
  once : ∀ b, (w.base b).queue.entries.Nodup
  earliest : ∀ b t, (w.base b).queue.earliest = some t ↔ t ∈ (w.base b).queue.entries ∧
    ∀ u ∈ (w.base b).queue.entries, u ≠ t → w.Before t u
  active : ∀ b, (w.base b).active = true ↔ (w.base b).queue.entries ≠ []
  orderly : Orderly w.log

/-- **A timer in the state `KTIMER_ENQUEUED` is linked in the queue of its base, once, and in no
other; each queue's earliest entry is the one that expires first; bits and queues agree; and the
handler of a timer runs only after it has been started or put back by the handler itself, not
before it expires, once for each of these, and not after it has been cancelled.**  Every careful
step that is under way has a result. -/
theorem ktimer_in_one_queue {cpu : τ → κ} {clock_id : τ → ClockId}
    (h : ReflTransGen (Step Careful) (init cpu clock_id) w) : Sound w ∧
      ∀ o : Op κ τ ι, o.Possible w → Careful w o → o.UnderWay w → (o.run w).isSome = true := by
  have hi := inv_run h
  refine ⟨⟨fun t ht b => ?_, hi.queues.nodup, hi.queues.earliest_iff, hi.queues.active,
    hi.history.orderly⟩, fun o hp hok hu => isSome_iff_exists.2 ?_⟩
  · rw [hi.queues.mem b t]
    exact ⟨fun hb => hb.2.symm, fun hb => ⟨ht, hb.symm⟩⟩
  · exact (hi.result hp hok hu).imp fun _ => And.left

theorem ktimer_in_one_queue_expired : ∃ w : World Bool Unit Unit,
      ReflTransGen (Step Careful) (init (fun _ => false) fun _ => .monotonic) w ∧
        w.log = [.ran () 10, .started () 10] ∧ Sound w := by
  obtain ⟨w, hrun, hlog⟩ : ∃ w : World Bool Unit Unit,
      ReflTransGen (Step Careful) (init (fun _ => false) fun _ => .monotonic) w ∧
        w.log = [.ran () 10, .started () 10] :=
    exists_exec (step_of_next Careful)
      [.start false () 10 .abs 0, .interrupt false 10 fun _ => 0, .dispatch false, .dispatch false]
      (by decide +kernel)
  exact ⟨w, hrun, hlog, (ktimer_in_one_queue hrun).1⟩

/-- A timer that is in the queue of the first CPU is started on the second one: it is in both
queues afterwards, and the earliest entry of the first one has the second one for its base. -/
theorem ktimer_left_behind : ∃ w : World Bool Unit Unit,
      ReflTransGen (Step fun _ _ => True)
          (init (fun _ => false) fun _ => .monotonic) w ∧ ¬ Sound w := by
  obtain ⟨w, hrun, hst, hbase, hmem⟩ : ∃ w : World Bool Unit Unit,
      ReflTransGen (Step fun _ _ => True) (init (fun _ => false) fun _ => .monotonic) w ∧
        (w.timer ()).state = .enqueued ∧ (w.timer ()).base = (true, .monotonic) ∧
        () ∈ (w.base (false, .monotonic)).queue.entries :=
    exists_exec (step_of_next fun _ _ => True)
      [.start false () 10 .abs 0, .start true () 10 .abs 0] (by decide +kernel)
  refine ⟨w, hrun, fun hs => ?_⟩
  have := (hs.one () hst (false, .monotonic)).1 hmem
  simp [hbase] at this

end

end Intewell.Ktimer
