/-
# What is dequeued is what was enqueued

`mpscq_peek` reads `head` and then `commit_tail`.  A producer that finds the ring empty and too
short up to its end moves `reserve_tail`, `commit_tail` and `head` on, one after the other; if the
consumer has read `head` before the last of these and reads `commit_tail` after the second, it
takes the slots that have been skipped for elements (`mpscq_makes_up`).
-/

import Intewell.Mpscq.Run
import Mathlib

namespace Intewell.Mpscq

open Nat Relation List
open Result (toConsumer toPc)
open Pc (stage)
open Function Circular

variable {θ α : Type*} [DecidableEq θ] {w w' : World θ α} {f : Flight θ} {p : θ}
  {data : List α} {tok i k : ℕ}

/-- `mpscq_peek` does not give out slots for a `commit_tail` that a re-base has moved on from the
`head` that it has read. -/
def Consumer.InTime (r : Ring α) (skipped : List ℕ) : Consumer α → Prop
  | .tail k head => head ∈ skipped → ¬ mpscq_peek r k head
  | _ => True

instance (r : Ring α) (skipped : List ℕ) : (c : Consumer α) → Decidable (c.InTime r skipped)
  | .tail k head => inferInstanceAs (Decidable (head ∈ skipped → ¬ mpscq_peek r k head))
  | .idle _ => .isTrue trivial
  | .copy _ _ _ => .isTrue trivial
  | .popTail _ => .isTrue trivial
  | .rebase _ _ => .isTrue trivial

def Timely (w : World θ α) : Op θ α → Prop
  | .consume => w.consumer.InTime w.ring w.skipped
  | _ => True

instance (w : World θ α) : (o : Op θ α) → Decidable (Timely w o)
  | .consume => inferInstanceAs (Decidable (w.consumer.InTime w.ring w.skipped))
  | .enqueue _ _ => .isTrue trivial
  | .produce _ => .isTrue trivial
  | .dequeue _ => .isTrue trivial

/-! ## Steps -/

section

omit [DecidableEq θ]

theorem atPc_allocate {head : ℕ} (h : Core w f) (hfits : Fits w.ring data)
    (hle : head ≤ w.ring.head) : AtPc w.ring f p (allocate w.ring data head w.ring.reserve_tail) ∧
      (allocate w.ring data head w.ring.reserve_tail).holds = none := by
  have h1 := h.head_le_commit
  have h2 := h.commit_le
  have h3 := h.bound
  have hsize := w.ring.size_le
  have hused : subPtr w.ring.reserve_tail head = w.ring.reserve_tail - head :=
    subPtr_eq (by omega) (by omega)
  have hlen := hfits.2
  unfold allocate
  rw [hused, addPtr_eq (by omega)]
  split_ifs with hroom hcross hzero
  · exact ⟨trivial, rfl⟩
  · exact ⟨⟨hfits, by omega⟩, rfl⟩
  · exact ⟨trivial, rfl⟩
  · rw [cross_boundary_iff hlen] at hcross
    exact ⟨⟨hfits, by omega, by omega⟩, rfl⟩

/-- The checks of `mpscq_push` never fail. -/
theorem push_eq (h : Core w f) (hheld : Held w.ring f tok data) :
    mpscq_push w.ring data tok = .spin data tok := by
  have h1 := h.bound
  have h2 := hheld.le_reserve
  unfold mpscq_push
  rw [if_neg (by omega), addPtr_eq (by omega), if_neg (by omega)]

end

section
variable (hi : Inv w f)
include hi

theorem Inv.enqueue (hp : (w.pc p).isIdle = true) : Inv (mpscq_enqueue p data w) f := by
  obtain ⟨code, hpc⟩ : ∃ code, w.pc p = .idle code := by
    cases h : w.pc p <;> simp_all [Pc.isIdle]
  have hstage : ∀ x ∈ (w.pc p).stage, x.2.late = false := by simp [hpc, stage]
  unfold mpscq_enqueue
  split_ifs with hlen
  · exact hi.goto trivial (by rw [hpc]; rfl) hstage
  · exact hi.goto (show Fits _ _ from ⟨by omega, by omega⟩) (by rw [hpc]; rfl) hstage

theorem Inv.produce (hb : (produce p w).ring.reserve_tail < 2 ^ 63) :
    ∃ f', Inv (produce p w) f' := by
  have hat := hi.atPc p
  unfold Mpscq.produce at hb ⊢
  cases hpc : w.pc p with
  | idle code => exact ⟨f, hi⟩
  | head data =>
    rw [hpc] at hat
    exact ⟨f, hi.goto ⟨hat, le_rfl⟩ (by rw [hpc]; rfl) (by simp [hpc, stage])⟩
  | reserve data head =>
    rw [hpc] at hat
    obtain ⟨hpc', hh⟩ := atPc_allocate hi.core hat.1 hat.2
    exact ⟨f, hi.goto hpc' (by rw [hpc, hh]; rfl) (by simp [hpc, stage])⟩
  | empty data old =>
    rw [hpc] at hat
    refine ⟨f, hi.goto ?_ ?_ (by simp [hpc, stage])⟩
    · unfold enter
      split_ifs
      · exact trivial
      · exact hat
      · exact trivial
    · rw [hpc]
      unfold enter
      split_ifs <;> rfl
  | rebase data seq s =>
    rw [hpc] at hat hb
    refine hi.normalize (moves_update rfl rfl rfl rfl ?_) (by rw [World.stage, hpc]; rfl)
      hat.2 rfl rfl hb (fun s' hs' => ⟨?_, fun f' hf' => ?_⟩) fun b hb' f' => ?_
    · rw [hpc]
      cases (mpscq_try_normalize_empty w.ring seq s).2 with
      | «at» s' => rfl
      | ret b => cases b <;> rfl
    · simp [World.stage, hs', toPc, stage]
    · simp only [AtAgent, update_self, hs', toPc, AtPc, Fits, size_normalize]
      exact ⟨hat.1, hf'⟩
    · simp only [AtAgent, update_self, hb']
      cases b with
      | false => exact trivial
      | true =>
        simp only [toPc, AtPc, Fits, size_normalize]
        exact hat.1
  | cas data old =>
    rw [hpc] at hat hb
    by_cases hr : w.ring.reserve_tail = old
    · subst hr
      simp only [if_true] at hb ⊢
      have hbound := hi.core.bound
      have hsize := w.ring.size_le
      have hlen := hat.1.2
      rw [addPtr_eq (by omega)] at hb ⊢
      exact ⟨f, hi.reserve hpc hb⟩
    · simp only [if_neg hr]
      exact ⟨f, hi.goto hat.1 (by rw [hpc]; rfl) (by simp [hpc, stage])⟩
  | copy data tok i =>
    rw [hpc] at hat
    cases hx : data[i]? with
    | some x =>
      simp only [hx]
      exact ⟨f, hi.write hpc hx⟩
    | none =>
      have hlen : i = data.length := le_antisymm hat.2.1 (getElem?_eq_none_iff.1 hx)
      have hspan := hat.2.2
      rw [hlen, take_length] at hspan
      simp only [hx, push_eq hi.core hat.1]
      have hspin : AtPc w.ring f p (.spin data tok) := ⟨hat.1, hspan⟩
      exact ⟨f, hi.goto hspin (by rw [hpc]; rfl) (by simp [hpc, stage])⟩
  | spin data tok =>
    rw [hpc] at hat
    -- whoever waits for its turn has not been overtaken
    have hle : w.ring.commit_tail ≤ tok := by
      have hs := hi.core.shape
      refine le_trans ?_ hat.1.hi_le
      cases f with
      | none => exact le_rfl
      | reserved a seq => exact hs.2.1.trans_le (lt_up w.ring.size_pos).le
      | committed a seq => exact le_rfl
    by_cases hc : w.ring.commit_tail = tok
    · simp only [if_pos hc]
      exact ⟨f, hi.goto ⟨hat.1, hat.2, hc⟩ (by rw [hpc]; rfl) (by simp [hpc, stage])⟩
    · simp only [if_neg hc, if_neg (not_lt.2 hle)]
      exact ⟨f, hi⟩
  | publish data tok =>
    rw [hpc] at hat
    have hbound := hi.core.bound
    have hres := hat.1.le_reserve
    simp only [addPtr_eq (by omega : tok + data.length < 2 ^ 64)]
    exact ⟨f, hi.publish hpc⟩

omit [DecidableEq θ] in
/-- `mpscq_peek` that has read `commit_tail` in time has found elements. -/
theorem atConsumer_peek {head : ℕ} (hk : 0 < k) (hhead : head = w.ring.head ∨ head ∈ w.skipped)
    (hskip : head ∉ w.skipped) (hpeek : mpscq_peek w.ring k head) :
    AtConsumer w.ring f w.skipped (.copy k head []) := by
  obtain rfl := hhead.resolve_right hskip
  have h1 := hi.core.head_le_commit
  have h2 := hi.core.commit_le
  have h3 := hi.core.bound
  have h4 := hi.core.room
  obtain ⟨hlen, hcross⟩ := hpeek
  rw [subPtr_eq h1 (by omega)] at hlen
  rw [cross_boundary_iff (by omega)] at hcross
  refine ⟨?_, hk, rfl, by omega, by omega, zero_le _, rfl⟩
  have hs := hi.core.shape
  cases f with
  | none => rfl
  | reserved a seq =>
    have := hs.1
    have := hs.2.1
    omega
  | committed a seq => exact absurd (hs.1 ▸ hs.2.2.2) hskip

theorem Inv.consume (ht : Timely w .consume) (hb : (consume w).ring.reserve_tail < 2 ^ 63) :
    ∃ f', Inv (consume w) f' := by
  have hat := hi.atConsumer
  unfold Mpscq.consume at hb ⊢
  cases hc : w.consumer with
  | idle code => exact ⟨f, hi⟩
  | tail k head =>
    rw [hc] at hat
    simp only [Timely, hc, Consumer.InTime] at ht
    refine ⟨f, hi.setConsumer ?_ (by simp [hc, Consumer.stage])⟩
    split_ifs with hpeek
    · exact atConsumer_peek hi hat.1 hat.2 (fun h => ht h hpeek) hpeek
    · exact trivial
  | copy k head out =>
    rw [hc] at hat
    obtain ⟨hf, hk, hhead, hle, hwhole, hlen, hspan⟩ := hat
    by_cases hlt : out.length < k
    · simp only [if_pos hlt]
      refine ⟨f, hi.setConsumer ?_ (by simp [hc, Consumer.stage])⟩
      refine ⟨hf, hk, hhead, hle, hwhole, by simpa using succ_le_of_lt hlt, ?_⟩
      rw [length_append, length_singleton, span_succ, ← hspan,
        add_mod_of_le hlt hwhole, Ring.idx_eq]
    · have hcr := hi.core.commit_le
      have hbound := hi.core.bound
      simp only [if_neg hlt, addPtr_eq (by omega : w.ring.head + k < 2 ^ 64)]
      exact ⟨f, hi.pop hc hlt⟩
  | popTail new_head =>
    rw [hc] at hat
    refine ⟨f, hi.setConsumer ?_ (by simp [hc, Consumer.stage])⟩
    unfold enter
    split_ifs
    · exact trivial
    · exact hat
    · exact trivial
  | rebase seq s =>
    rw [hc] at hat hb
    refine hi.normalize (moves_consumer rfl rfl rfl) (by rw [World.stage, hc]; rfl) hat
      rfl rfl hb (fun s' hs' => ⟨?_, fun f' hf' => ?_⟩) fun b hb' f' => ?_
    · simp [World.stage, hs', toConsumer, Consumer.stage]
    · simpa only [AtAgent, hs', toConsumer, AtConsumer] using hf'
    · simp only [AtAgent, hb', toConsumer, AtConsumer]

theorem Inv.step (h : Step Timely w w') : ∃ f', Inv w' f' := by
  cases h with
  | @mk o hposs hok =>
  obtain ⟨hb, hp⟩ := hposs
  cases o with
  | enqueue p data => exact ⟨f, hi.enqueue hp.1⟩
  | produce p => exact hi.produce hb
  | dequeue k =>
    obtain ⟨code, hc⟩ : ∃ code, w.consumer = .idle code := by
      cases h : w.consumer <;> simp_all [Consumer.isIdle]
    refine ⟨f, hi.setConsumer ?_ (by simp [hc, Consumer.stage])⟩
    split_ifs with hk
    · exact trivial
    · exact ⟨pos_of_ne_zero hk, .inl rfl⟩
  | consume => exact hi.consume hok hb

end

omit [DecidableEq θ] in
theorem inv_init (bits : Fin 32) (data : ℕ → α) : Inv (World.init bits data : World θ α) .none where
  core :=
    { shape := ⟨le_rfl, le_rfl⟩
      room := zero_le _
      bound := Nat.two_pow_pos _
      content := rfl
      tokens := .nil
      below := nofun }
  owned := trivial
  atPc _ := trivial
  atConsumer := trivial
  apart _ _ _ := nofun
  cover _ _ h := absurd h (not_lt_zero _)

theorem inv_run {bits : Fin 32} {data : ℕ → α}
    (h : ReflTransGen (Step Timely) (World.init bits data) w) : ∃ f : Flight θ, Inv w f := by
  induction h with
  | refl => exact ⟨.none, inv_init bits data⟩
  | tail _ hstep ih =>
    obtain ⟨f, hi⟩ := ih
    exact hi.step hstep

/-! ## One producer alone -/

/-- The accesses of `p` alone lead to a state with the property. -/
def Reaches (p : θ) (P : World θ α → Prop) (w : World θ α) : Prop := ∃ m, P ((produce p)^[m] w)

theorem Reaches.step {P : World θ α → Prop} (h : Reaches p P (produce p w)) : Reaches p P w := by
  obtain ⟨m, hm⟩ := h
  exact ⟨m + 1, hm⟩

/-- The call of `p` has enqueued its elements after those of `sent`, and has returned 0. -/
def Enqueued (p : θ) (data : List α) (sent : List (ℕ × List α)) (w : World θ α) : Prop :=
  w.pc p = .idle 0 ∧ ∃ tok, w.sent = sent ++ [(tok, data)]

theorem reaches_copy (hpc : w.pc p = .copy data tok i) (hc : w.ring.commit_tail = tok)
    (hr : w.ring.reserve_tail = tok + data.length) (hb : tok + data.length < 2 ^ 64) :
    Reaches p (Enqueued p data w.sent) w := by
  -- the induction is on what has not been copied
  induction hn : data.length - i generalizing i w with
  | zero =>
    have hnone : data[i]? = none := getElem?_eq_none (by omega)
    have hpush : mpscq_push w.ring data tok = .spin data tok := by
      unfold mpscq_push
      rw [if_neg (by omega), addPtr_eq hb, if_neg (by omega)]
    have hstep : produce p w = w.goto p (.spin data tok) := by
      simp only [produce, hpc, hnone, hpush]
    refine .step ?_
    rw [hstep]
    refine ⟨2, ?_⟩
    simp [iterate_succ_apply, produce, hc, World.goto, Enqueued]
  | succ n ih =>
    have hsome : data[i]? = some data[i] := getElem?_eq_getElem (by omega)
    refine .step ?_
    simp only [produce, hpc, hsome]
    exact ih (update_self _ _ _) hc hr (by omega)

variable {seq : ℕ}

section
variable (hpc : w.pc p = .head data) (hfits : Fits w.ring data) (hh : w.ring.head = seq)
  (hc : w.ring.commit_tail = seq) (hr : w.ring.reserve_tail = seq)
include hpc hfits hh hc hr

theorem reaches_of_not_cross
    (hb : seq < 2 ^ 63 + 2 ^ 32) (hcross : seq % w.ring.size + data.length ≤ w.ring.size) :
    Reaches p (Enqueued p data w.sent) w := by
  have hsize := w.ring.size_le
  have hlen := hfits.2
  have halloc : allocate w.ring data seq seq = .cas data seq := by
    unfold allocate
    rw [subPtr_eq le_rfl (by omega), Nat.sub_self, addPtr_eq (by omega), if_neg (by omega),
      if_neg (by rw [cross_boundary_iff hlen]; omega)]
  refine .step (.step (.step ?_))
  simp only [produce, hpc, World.goto, update_self, update_idem, hh, hr, halloc,
    if_true, addPtr_eq (by omega : seq + data.length < 2 ^ 64)]
  exact reaches_copy (update_self _ _ _) hc rfl (by omega)

theorem reaches_of_empty (hb : seq < 2 ^ 63) : Reaches p (Enqueued p data w.sent) w := by
  have hsize := w.ring.size_le
  have hlen := hfits.2
  by_cases hcross : seq % w.ring.size + data.length ≤ w.ring.size
  · exact reaches_of_not_cross hpc hfits hh hc hr (by omega) hcross
  have hlt : seq < up w.ring.size seq := lt_up w.ring.size_pos
  have hle : up w.ring.size seq ≤ seq + w.ring.size := up_le
  have halloc : allocate w.ring data seq seq = .empty data seq := by
    unfold allocate
    rw [subPtr_eq le_rfl (by omega), Nat.sub_self, addPtr_eq (by omega), if_neg (by omega),
      if_pos (by rw [cross_boundary_iff hlen]; omega), if_pos rfl]
  have hidx : w.ring.idx seq ≠ 0 := by
    rw [Ring.idx_eq]
    omega
  have hbase := w.ring.base_eq hb
  refine .step (.step (.step ?_))
  simp only [produce, hpc, World.goto, update_self, update_idem, hh, hc, hr,
    halloc, if_true, enter, if_neg hidx, toPc]
  -- the five accesses of the re-base
  refine .step (.step (.step (.step (.step ?_))))
  have hnle : ¬ up w.ring.size seq ≤ seq := not_le.2 hlt
  simp only [produce, mpscq_try_normalize_empty, update_self, update_idem, hh, hc,
    hr, hbase, hnle, ne_eq, not_true_eq_false, if_false, if_true, toPc, cas]
  have hnot : up w.ring.size seq % w.ring.size + data.length ≤ w.ring.size := by
    rwa [up_mod w.ring.size_pos, zero_add]
  exact reaches_of_not_cross (update_self _ _ _) hfits hbase hbase rfl (by omega) hnot

end

/-! ## Every run -/

/-- The cells of the slots that a producer has. -/
def Pc.region (r : Ring α) (pc : Pc α) : Set ℕ :=
  {j | ∃ x ∈ pc.holds, ∃ i < x.2.length, j = r.idx x.1 + i}

/-- Nobody is in a call. -/
def World.Quiet (w : World θ α) : Prop := (∀ p, (w.pc p).isIdle = true) ∧ w.consumer.isIdle = true

section

omit [DecidableEq θ]

theorem Inv.region_disjoint (hi : Inv w f) {q : θ} (hne : p ≠ q) :
    Disjoint ((w.pc p).region w.ring) ((w.pc q).region w.ring) := by
  rw [Set.disjoint_left]
  rintro j ⟨x, hx, i, hi', rfl⟩ ⟨y, hy, i', hi'', hij⟩
  have hheld := (hi.atPc p).held hx
  have hheld' := (hi.atPc q).held hy
  have h1 := hheld.hi_le
  have h2 := hheld.le_reserve
  have h3 := hheld'.hi_le
  have h4 := hheld'.le_reserve
  have hlo := hi.core.lo_le_hi
  have hroom := hi.core.reserve_le
  -- the same cell within one turn is the same position
  rw [Ring.idx_eq, Ring.idx_eq, ← add_mod_of_le hi' hheld.whole,
    ← add_mod_of_le hi'' hheld'.whole] at hij
  have heq := eq_of_mod_eq (a := f.lo w.ring) (by omega) (by omega) (by omega) (by omega) hij
  have := hi.apart p q hne x hx y hy
  omega

/-- In a state in which nobody is in a call no re-base is under way, and no slot is anybody's. -/
theorem Inv.quiet (hi : Inv w f) (hq : w.Quiet) :
    f = .none ∧ w.ring.reserve_tail = w.ring.commit_tail := by
  have hidle : ∀ p, (w.pc p).holds = none ∧ (w.pc p).stage = none := fun p => by
    have := hq.1 p
    cases hpc : w.pc p <;> simp_all [Pc.isIdle, Pc.holds, stage]
  have hcons : w.consumer.stage = none := by
    have := hq.2
    cases hc : w.consumer <;> simp_all [Consumer.isIdle, Consumer.stage]
  have hstage : ∀ a, w.stage a = none := by
    intro a
    cases a with
    | none => exact hcons
    | some p => exact (hidle p).2
  have howned := hi.owned
  have hnone : f = .none := by
    cases f with
    | none => rfl
    | reserved a seq => simp [Owned, hstage] at howned
    | committed a seq => simp [Owned, hstage] at howned
  subst hnone
  refine ⟨rfl, le_antisymm (not_lt.1 fun hlt => ?_) hi.core.commit_le⟩
  obtain ⟨p, x, hx, -⟩ := hi.cover w.ring.commit_tail le_rfl hlt
  rw [(hidle p).1] at hx
  cases hx

end

/-- **What has been dequeued is the beginning of what has been enqueued, in the order of the
tokens, and between calls the rest is in the ring; the slots of two producers are never the same;
and on an empty ring that nobody uses an enqueue of as many elements as the ring has slots, or
fewer, returns 0.** -/
theorem mpscq_delivers {bits : Fin 32} {buffer : ℕ → α}
    (h : ReflTransGen (Step Timely) (World.init bits buffer) w) : w.got <+: w.stream ∧
      w.sent.Pairwise (fun a b => a.1 < b.1) ∧
      (w.Quiet → w.got ++ span w.ring.size w.ring.data w.ring.head
        (w.ring.commit_tail - w.ring.head) = w.stream) ∧
      (∀ p q : θ, p ≠ q → Disjoint ((w.pc p).region w.ring) ((w.pc q).region w.ring)) ∧
      (w.Quiet → w.ring.head = w.ring.commit_tail → ∀ (p : θ) (data : List α),
        0 < data.length → data.length ≤ w.ring.size →
          Reaches p (Enqueued p data w.sent) (mpscq_enqueue p data w)) := by
  obtain ⟨f, hi⟩ := inv_run h
  refine ⟨⟨_, hi.core.content⟩, hi.core.tokens, fun hq => ?_, fun p q => hi.region_disjoint,
    fun hq hempty p data hlen hlen' => ?_⟩
  · obtain ⟨rfl, -⟩ := hi.quiet hq
    exact hi.core.content
  · obtain ⟨rfl, hr⟩ := hi.quiet hq
    unfold mpscq_enqueue
    rw [if_neg (by omega)]
    exact reaches_of_empty (update_self _ _ _) ⟨hlen, hlen'⟩ rfl hempty.symm
      (hr.trans hempty.symm) (hempty ▸ hr ▸ hi.core.bound)

/-- The accesses of a call of `mpscq_enqueue` with three elements on an empty ring of four. -/
def enqueueThree (p : θ) : List (Op θ ℕ) := .enqueue p [1, 2, 3] :: replicate 9 (.produce p)

theorem mpscq_delivers_three :
    ∃ w : World Bool ℕ, ReflTransGen (Step Timely) (World.init 2 fun _ => 0) w ∧
      w.got = [1, 2, 3] ∧ w.got <+: w.stream := by
  obtain ⟨w, hrun, hgot⟩ : ∃ w : World Bool ℕ,
      ReflTransGen (Step Timely) (World.init 2 fun _ => 0) w ∧ w.got = [1, 2, 3] :=
    exists_exec (step_of_next Timely)
      (enqueueThree false ++ .dequeue 3 :: replicate 11 .consume) (by decide +kernel)
  exact ⟨w, hrun, hgot, (mpscq_delivers hrun).1⟩

/-- The consumer has taken three elements from a ring of four.  Before it can look whether the
ring is empty, a producer with two elements does, and moves `reserve_tail` and `commit_tail` on to
4; the consumer finds `head` at 3 and one element there. -/
theorem mpscq_makes_up : ∃ w : World Bool ℕ,
      ReflTransGen (Step fun _ _ => True) (World.init 2 fun _ => 0) w ∧
        ¬ w.got <+: w.stream :=
  exists_exec (step_of_next fun _ _ => True)
    (enqueueThree false ++ .dequeue 3 :: replicate 5 .consume ++
      .enqueue true [4, 5] :: replicate 6 (.produce true) ++ replicate 3 .consume ++
      .produce true :: .dequeue 1 :: replicate 3 .consume) (by decide +kernel)

end Intewell.Mpscq
