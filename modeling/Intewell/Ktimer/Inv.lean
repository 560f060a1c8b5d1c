/-
# What holds of the queues of timers

A timer that is in the state `KTIMER_ENQUEUED` is in the queue of its base and in no other; each
queue is in the order of expiry, and of the time they were put into it where that is the same
(`Queues`).  The running timer of a base is the one whose handler runs on that CPU (`Handlers`).
The history says when a handler may run (`Orderly`): for a timer that has been put into a queue,
not cancelled and not run since, and not before it expires.
-/

import Intewell.Ktimer.Basic

namespace Intewell.Ktimer

open List Function

variable {κ τ ι : Type*}

/-- The order of a queue. -/
def World.Before (w : World κ τ ι) (t u : τ) : Prop :=
  w.expires t < w.expires u ∨ w.expires t = w.expires u ∧ w.stamp t < w.stamp u

structure Queues (w : World κ τ ι) : Prop where
  queue : ∀ b, (w.base b).queue.Sound w.Before
  mem : ∀ b t, t ∈ (w.base b).queue.entries ↔ (w.timer t).state = .enqueued ∧ (w.timer t).base = b
  active : ∀ b, (w.base b).active = true ↔ (w.base b).queue.entries ≠ []
  linked : ∀ t, (w.timer t).linked = true ↔ (w.timer t).state = .enqueued
  type : ∀ t, (w.timer t).base.2 = ktimer_clock_id_to_base_type (w.timer t).clock_id
  stamp : ∀ t, (w.timer t).state = .enqueued → w.stamp t < w.log.length

structure Handlers (w : World κ τ ι) : Prop where
  running : ∀ c type t, (w.base (c, type)).running_timer = some t ↔
    ∃ now, w.irq c = .handler type now t
  base : ∀ b t, (w.base b).running_timer = some t → (w.timer t).base = b

section

variable {w : World κ τ ι} {t u v : τ}

theorem World.Before.irrefl : ¬ w.Before t t := by
  rintro (h | ⟨-, h⟩)
  · exact lt_irrefl _ h
  · exact lt_irrefl _ h

theorem World.Before.asymm (h : w.Before t u) : ¬ w.Before u t := by
  rintro (h' | ⟨h', h''⟩) <;> rcases h with h | ⟨h, h2⟩ <;> omega

theorem Queues.nodup (h : Queues w) (b : κ × BaseType) : (w.base b).queue.entries.Nodup :=
  (h.queue b).sorted.imp fun {t u} (htu : w.Before t u) (he : t = u) =>
    World.Before.irrefl (he ▸ htu)

end

/-! ## The history -/

section

variable [DecidableEq τ]

/-- The last event of a timer. -/
def last (t : τ) (log : List (Event τ)) : Option (Event τ) := log.find? fun e => e.timer = t

/-- What may come next: the handler of a timer that has been put into a queue, at its expiry or
later, and nothing else has happened to it since; the return of a timer into the queue, from its
handler. -/
def Allowed (log : List (Event τ)) : Event τ → Prop
  | .ran t now =>
    ∃ e ≤ now, last t log = some (.started t e) ∨ last t log = some (.requeued t e)
  | .requeued t _ => ∃ now, last t log = some (.ran t now)
  | .started _ _ => True
  | .cancelled _ => True

def Orderly : List (Event τ) → Prop
  | [] => True
  | e :: log => Allowed log e ∧ Orderly log

variable {t u : τ} {e : Event τ} {log : List (Event τ)}

theorem last_cons_self (h : e.timer = t) : last t (e :: log) = some e := by
  simp [last, h]

theorem last_cons_of_ne (h : e.timer ≠ t) : last t (e :: log) = last t log := by
  simp [last, h]

/-- What the history has to say of the timers now. -/
structure History (w : World κ τ ι) : Prop where
  orderly : Orderly w.log
  enqueued : ∀ t, (w.timer t).state = .enqueued → last t w.log = some (.started t (w.expires t)) ∨
      last t w.log = some (.requeued t (w.expires t))
  running : ∀ b t, (w.base b).running_timer = some t → (w.timer t).state = .inactive →
    ∃ now, last t w.log = some (.ran t now)

end

structure Inv [DecidableEq τ] (w : World κ τ ι) : Prop where
  queues : Queues w
  handlers : Handlers w
  history : History w

/-! ## Queues -/

variable [DecidableEq κ] [DecidableEq τ] {w w' : World κ τ ι} {b : κ × BaseType} {t : τ} {c : κ}

omit [DecidableEq κ] [DecidableEq τ] in
theorem Queues.congr (h : Queues w) (htimer : w'.timer = w.timer)
    (hbase : ∀ b, (w'.base b).queue = (w.base b).queue ∧ (w'.base b).active = (w.base b).active)
    (hstamp : w'.stamp = w.stamp) (hlog : w.log.length ≤ w'.log.length) : Queues w' := by
  have hbefore : w'.Before = w.Before := by
    funext t u
    simp only [World.Before, World.expires, htimer, hstamp]
  refine ⟨fun b => ?_, fun b t => ?_, fun b => ?_, ?_, ?_, fun t ht => ?_⟩
  · rw [(hbase b).1, hbefore]
    exact h.queue b
  · rw [(hbase b).1, htimer]
    exact h.mem b t
  · rw [(hbase b).1, (hbase b).2]
    exact h.active b
  · rw [htimer]
    exact h.linked
  · rw [htimer]
    exact h.type
  · rw [htimer] at ht
    rw [hstamp]
    exact (h.stamp t ht).trans_le hlog

theorem State.eq_inactive {s : State} (h : s ≠ .enqueued) : s = .inactive := by
  cases s with
  | inactive => rfl
  | enqueued => exact absurd rfl h

section
variable (h : Queues w)
include h

section
variable (ht : (w.timer t).state = .inactive)
include ht

section

omit [DecidableEq κ] [DecidableEq τ]

theorem Queues.unlinked : (w.timer t).linked = false := by
  rw [← Bool.not_eq_true, h.linked, ht]
  simp

theorem Queues.not_mem (b : κ × BaseType) : t ∉ (w.base b).queue.entries := by
  intro hb
  have := ((h.mem b t).1 hb).1
  simp [ht] at this

end

omit [DecidableEq κ] in
/-- A timer in no queue may be given another base and another expiry. -/
theorem Queues.setInactive {x : Timer κ} (hx : x.state = .inactive) (hlinked : x.linked = false)
    (htype : x.base.2 = ktimer_clock_id_to_base_type x.clock_id) : Queues (w.setTimer t x) := by
  refine ⟨fun b => (h.queue b).congr fun u hu v hv huv => ?_, fun b => ?_, h.active, ?_, ?_, ?_⟩
  · have hne : ∀ v ∈ (w.base b).queue.entries, (w.setTimer t x).expires v = w.expires v := by
      intro v hv
      have hvt : v ≠ t := fun h' => h.not_mem ht b (h' ▸ hv)
      exact congrArg Timer.expires (update_of_ne hvt _ _)
    rw [World.Before, hne u hu, hne v hv]
    exact huv
  · refine (forall_update_iff w.timer fun u y => u ∈ (w.base b).queue.entries ↔
      y.state = .enqueued ∧ y.base = b).2 ⟨?_, fun u _ => h.mem b u⟩
    rw [hx]
    exact ⟨fun hb => absurd hb (h.not_mem ht b), fun hb => absurd hb.1 (by simp)⟩
  · refine (forall_update_iff w.timer fun u y => y.linked = true ↔
      y.state = .enqueued).2 ⟨?_, fun u _ => h.linked u⟩
    simp [hx, hlinked]
  · exact (forall_update_iff w.timer fun u y =>
      y.base.2 = ktimer_clock_id_to_base_type y.clock_id).2 ⟨htype, fun u _ => h.type u⟩
  · refine (forall_update_iff w.timer fun u y => y.state = .enqueued →
      w.stamp u < w.log.length).2 ⟨?_, fun u _ => h.stamp u⟩
    simp [hx]

end

/-- One timer goes into the queue of its base or out of it, and everything else is as it was. -/
theorem Queues.change {x : Timer κ} {y : Base τ} (hb : (w.timer t).base = b)
    (htimer : w'.timer = update w.timer t x) (hbase : w'.base = update w.base b y)
    (hstamp : ∀ u ≠ t, w'.stamp u = w.stamp u) (hlog : w.log.length ≤ w'.log.length)
    (hxb : x.base = b) (hclock : x.clock_id = (w.timer t).clock_id)
    (hlinked : x.linked = true ↔ x.state = .enqueued)
    (hst : x.state = .enqueued → w'.stamp t < w'.log.length)
    (hmem : ∀ u, u ∈ y.queue.entries ↔
      if u = t then x.state = .enqueued else u ∈ (w.base b).queue.entries)
    (hactive : y.active = true ↔ y.queue.entries ≠ [])
    (hsound : (∀ u v, u ≠ t → v ≠ t → (w'.Before u v ↔ w.Before u v)) → y.queue.Sound w'.Before) :
    Queues w' := by
  have hbefore : ∀ u v, u ≠ t → v ≠ t → (w'.Before u v ↔ w.Before u v) := by
    intro u v hu hv
    simp only [World.Before, World.expires, htimer, hstamp u hu, hstamp v hv,
      update_of_ne hu, update_of_ne hv]
  -- in the other queues there is nothing new
  have hother : ∀ b' ≠ b, t ∉ (w.base b').queue.entries := fun b' hb' ht =>
    hb' (((h.mem b' t).1 ht).2.symm.trans hb)
  refine ⟨?_, ?_, ?_, ?_, ?_, ?_⟩
  · rw [hbase]
    refine (forall_update_iff w.base fun b' z => z.queue.Sound w'.Before).2
      ⟨hsound hbefore, fun b' hb' => (h.queue b').congr fun u hu v hv huv => ?_⟩
    exact (hbefore u v (fun he => hother b' hb' (he ▸ hu)) fun he => hother b' hb' (he ▸ hv)).2 huv
  · intro b' u
    rw [htimer, hbase]
    by_cases hu : u = t
    · subst hu
      rw [update_self]
      by_cases hb' : b' = b
      · subst hb'
        rw [update_self, hmem, if_pos rfl, hxb]
        simp
      · rw [update_of_ne hb', hxb]
        exact ⟨fun h' => absurd h' (hother b' hb'), fun h' => absurd h'.2.symm hb'⟩
    · rw [update_of_ne hu, ← h.mem b' u]
      by_cases hb' : b' = b
      · subst hb'
        rw [update_self, hmem, if_neg hu]
      · rw [update_of_ne hb']
  · rw [hbase]
    exact (forall_update_iff w.base fun b' z => z.active = true ↔
      z.queue.entries ≠ []).2 ⟨hactive, fun b' _ => h.active b'⟩
  · rw [htimer]
    exact (forall_update_iff w.timer fun u z => z.linked = true ↔
      z.state = .enqueued).2 ⟨hlinked, fun u _ => h.linked u⟩
  · rw [htimer]
    refine (forall_update_iff w.timer fun u z =>
      z.base.2 = ktimer_clock_id_to_base_type z.clock_id).2 ⟨?_, fun u _ => h.type u⟩
    rw [hxb, hclock, ← hb]
    exact h.type t
  · rw [htimer]
    refine (forall_update_iff w.timer fun u z => z.state = .enqueued →
      w'.stamp u < w'.log.length).2 ⟨hst, fun u hu hs => ?_⟩
    rw [hstamp u hu]
    exact (h.stamp u hs).trans_le hlog

/-- `_ktimer_remove` with the base of the timer. -/
theorem Queues.remove (ht : (w.timer t).state = .enqueued) (hb : (w.timer t).base = b) :
    ∃ q a, _ktimer_remove t b w =
        some ((w.setTimer t { w.timer t with state := .inactive, linked := false }).setBase b
          { w.base b with queue := q, active := a }) ∧
      Queues ((w.setTimer t { w.timer t with state := .inactive, linked := false }).setBase b
        { w.base b with queue := q, active := a }) := by
  have hmem : t ∈ (w.base b).queue.entries := (h.mem b t).2 ⟨ht, hb⟩
  obtain ⟨q, pre, post, hdel, hsplit, hq, hsound⟩ :=
    ktimerqueue_del_spec (h.queue b) (fun _ => World.Before.irrefl) hmem
  have hnot : t ∉ pre ++ post := by
    have hnodup := h.nodup b
    rw [hsplit, perm_middle.nodup_iff, nodup_cons] at hnodup
    exact hnodup.1
  have hearliest : q.earliest = none ↔ q.entries = [] := by
    rw [hsound.earliest, List.head?_eq_none_iff]
  refine ⟨q, if q.earliest = none then false else (w.base b).active, ?_, ?_⟩
  · rw [_ktimer_remove, if_pos ht, del, if_pos ((h.linked t).2 ht), eraseThrough, if_pos hmem, hdel,
      Option.map_some]
  refine h.change hb rfl rfl (fun _ _ => rfl) le_rfl hb rfl (by simp) nofun ?_ ?_ fun hbefore => ?_
  · intro u
    rw [hq, hsplit]
    split_ifs with hu
    · subst hu
      exact ⟨fun h' => absurd h' hnot, nofun⟩
    · simp [hu]
  · have hactive : (w.base b).active = true := (h.active b).2 (ne_nil_of_mem hmem)
    rw [hactive, ne_eq, ← hearliest]
    by_cases he : q.earliest = none <;> simp [he]
  · refine hsound.congr fun u hu v hv huv => (hbefore u v ?_ ?_).2 huv
    · rintro rfl
      exact hnot (hq ▸ hu)
    · rintro rfl
      exact hnot (hq ▸ hv)

/-- `ktimer_queue_timer` with the base of the timer. -/
theorem Queues.add (ht : (w.timer t).state = .inactive) (hb : (w.timer t).base = b) :
    ∃ q w', w' = { (w.setTimer t { w.timer t with state := .enqueued, linked := true }).setBase b
          { w.base b with queue := q, active := true } with
        home := update w.home t b
        stamp := update w.stamp t w.log.length } ∧
      ktimer_queue_timer t b w = some w' ∧ ∀ e, Queues (w'.record e) := by
  obtain ⟨q, pre, post, hadd, hsplit, hq, hpre, hpost, hbal, hearliest⟩ :=
    ktimerqueue_add_spec t (h.queue b) fun _ _ h => h.elim le_of_lt fun h => h.1.le
  refine ⟨q, _, rfl, by rw [ktimer_queue_timer, hadd, Option.map_some], fun e => ?_⟩
  have hnot := h.not_mem ht b
  have hsorted := (h.queue b).sorted
  rw [hsplit, mem_append, not_or] at hnot
  rw [hsplit, pairwise_append] at hsorted
  have hself : update w.stamp t w.log.length t = w.log.length := update_self _ _ _
  have hold : ∀ u ∈ pre ++ post, u ≠ t ∧ w.stamp u < w.log.length := fun u hu => by
    rw [← hsplit] at hu
    exact ⟨fun he => h.not_mem ht b (he ▸ hu), h.stamp u ((h.mem b u).1 hu).1⟩
  refine h.change hb rfl rfl (fun u hu => update_of_ne hu _ _) (Nat.le_succ _) hb rfl
    (by simp) ?_ ?_ ?_ fun hbefore => ⟨hbal, ?_, hearliest⟩
  · intro _
    change update w.stamp t w.log.length t < w.log.length + 1
    rw [hself]
    exact Nat.lt_succ_self _
  · intro u
    rw [hq, hsplit]
    split_ifs with hu
    · simp [hu]
    · simp [hu]
  · rw [hq]
    simp
  · -- behind those that expire at the same time, because it has come last
    rw [hq, pairwise_append, pairwise_cons]
    set w1 : World κ τ ι := World.record _ e with hw1
    have hexp : w1.expires t = w.expires t := by
      change (update w.timer t _ t).expires = _
      rw [update_self]
      rfl
    have hexp' : ∀ u, u ≠ t → w1.expires u = w.expires u := fun u hu =>
      congrArg Timer.expires (update_of_ne hu _ w.timer)
    have hpair : ∀ l : List τ, l ⊆ pre ++ post → l.Pairwise w.Before → l.Pairwise w1.Before :=
      fun l hl => List.Pairwise.imp_of_mem fun hu hv =>
        (hbefore _ _ (hold _ (hl hu)).1 (hold _ (hl hv)).1).2
    refine ⟨hpair pre (subset_append_left _ _) hsorted.1, ⟨fun u hu => .inl ?_,
      hpair post (subset_append_right _ _) hsorted.2.1⟩, fun u hu v hv => ?_⟩
    · rw [hexp, hexp' u (hold u (mem_append_right _ hu)).1]
      exact hpost u hu
    · obtain ⟨hut, hstamp⟩ := hold u (mem_append_left _ hu)
      rcases mem_cons.1 hv with rfl | hv
      · rw [World.Before, hexp, hexp' u hut]
        have hstamp' : w1.stamp u < w1.stamp v := by
          change update w.stamp v w.log.length u < update w.stamp v w.log.length v
          rwa [hself, update_of_ne hut]
        exact (hpre u hu).lt_or_eq.imp id fun he => ⟨he, hstamp'⟩
      · have hvt := (hold v (mem_append_right _ hv)).1
        exact (hbefore u v hut hvt).2 (hsorted.2.2 u hu v hv)

end

end Intewell.Ktimer
