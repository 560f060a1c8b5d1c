/-
# Producers and the consumer keep the invariant

One lemma for each access that changes something: a slot is reserved, written or published, the
consumer takes its elements, a re-base moves one of the counters.  Everything else is a read.

A read of `commit_tail` by the consumer is harmful if a re-base has taken the ring away from the
`head` it has read before: then what it finds between the two has never been enqueued.  `Timely`
says that it does not read so late.
-/

import Intewell.Mpscq.Inv

namespace Intewell.Mpscq

open World List Function Circular Nat

variable {θ α : Type*} [DecidableEq θ] {w w' : World θ α} {f : Flight θ} {p : θ} {pc' : Pc α}
  {data : List α} {seq tok i k : ℕ} {s : Stage}

/-- A re-base that has moved a counter. -/
def Stage.late : Stage → Bool
  | .casCommit => true
  | .casHead => true
  | _ => false

omit [DecidableEq θ] in
/-- A re-base that is under way stays with its agent while another one moves. -/
theorem Owned.agree {a : Option θ} (h : Owned w f) (ha : ∀ x ∈ w.stage a, x.2.late = false)
    (hst : ∀ b ≠ a, w'.stage b = w.stage b) : Owned w' f := by
  have hstage : ∀ b seq s, s.late = true → w.stage b = some (seq, s) →
      w'.stage b = some (seq, s) := by
    intro b seq s hs hb
    have hne : b ≠ a := by
      rintro rfl
      have := ha (seq, s) hb
      simp [hs] at this
    rw [hst b hne, hb]
  cases f with
  | none => exact trivial
  | reserved b seq => exact hstage b seq _ rfl h
  | committed b seq => exact hstage b seq _ rfl h

theorem stage_update (hpc : w'.pc = update w.pc p pc') (hc : w'.consumer = w.consumer) :
    ∀ b ≠ some p, w'.stage b = w.stage b := by
  intro b hb
  cases b with
  | none => rw [stage, stage, hc]
  | some q =>
    have hq : q ≠ p := fun h => hb (congrArg some h)
    rw [stage, stage, hpc, update_of_ne hq]

theorem forall_update {P : θ → Pc α → Prop} (hp : P p pc') (hq : ∀ q ≠ p, P q (w.pc q)) :
    ∀ q, P q (update w.pc p pc' q) := by
  intro q
  by_cases h : q = p
  · subst h
    rwa [update_self]
  · rw [update_of_ne h]
    exact hq q h

/-- The slots of two producers after one of them has moved and keeps its slots, if it has any. -/
theorem Inv.apart_update (hi : Inv w f) (hh : ∀ x ∈ pc'.holds, x ∈ (w.pc p).holds) (q q' : θ)
    (hne : q ≠ q') : ∀ x ∈ (update w.pc p pc' q).holds, ∀ y ∈ (update w.pc p pc' q').holds,
      x.1 + x.2.length ≤ y.1 ∨ y.1 + y.2.length ≤ x.1 := by
  have hsub : ∀ q, ∀ x ∈ (update w.pc p pc' q).holds, x ∈ (w.pc q).holds :=
    forall_update (P := fun q pc => ∀ x ∈ pc.holds, x ∈ (w.pc q).holds) hh fun _ _ _ hx => hx
  exact fun x hx y hy => hi.apart q q' hne x (hsub q x hx) y (hsub q' y hy)

/-! ## Slots -/

/-- The compare-and-swap of `mpscq_alloc`. -/
theorem Inv.reserve (hi : Inv w f) (hp : w.pc p = .cas data w.ring.reserve_tail)
    (hb : w.ring.reserve_tail + data.length < 2 ^ 63) :
    Inv { w with
      ring := { w.ring with reserve_tail := w.ring.reserve_tail + data.length }
      pc := update w.pc p (.copy data w.ring.reserve_tail 0) } f := by
  have hat := hi.atPc p
  rw [hp] at hat
  obtain ⟨hfits, hroom, hwhole⟩ := hat
  have hle : w.ring.reserve_tail ≤ w.ring.reserve_tail + data.length := le_add_right _ _
  refine
    { core := ?_, owned := ?_, atPc := ?_, atConsumer := ?_, apart := ?_, cover := ?_ }
  · refine { hi.core with shape := ?_, room := hroom, bound := hb }
    have hs := hi.core.shape
    cases f with
    | none => exact ⟨hs.1, hs.2.trans hle⟩
    | reserved a seq => exact ⟨hs.1, hs.2.1, hs.2.2.trans hle⟩
    | committed a seq => exact ⟨hs.1, hs.2.1, hs.2.2.1.trans hle, hs.2.2.2⟩
  · refine hi.owned.agree ?_ (stage_update rfl rfl)
    simp [stage, hp, Pc.stage]
  · refine forall_update ?_ fun q _ => (hi.atPc q).frame rfl le_rfl ?_ (fun _ h => h) fun _ h => h
    · exact ⟨⟨hfits.1, hi.core.hi_le, le_rfl, hwhole⟩, zero_le _, rfl⟩
    · exact fun x _ hx =>
        ⟨⟨hx.pos, hx.hi_le, hx.le_reserve.trans hle, hx.whole⟩, fun _ _ => rfl, fun h => h⟩
  · exact hi.atConsumer.frame rfl le_rfl (fun _ h => h) (.inl rfl)
      (fun _ h _ _ _ => ⟨h, rfl, le_rfl, fun _ _ => rfl⟩) (fun _ h => h) fun _ h => h
  · -- the new slots are above all others
    have hbelow : ∀ q, ∀ x ∈ (w.pc q).holds, x.1 + x.2.length ≤ w.ring.reserve_tail :=
      fun q x hx => ((hi.atPc q).held hx).le_reserve
    intro q q' hne
    by_cases hq : q = p
    · subst hq
      simp only [update_self, update_of_ne hne.symm]
      rintro x ⟨⟩ y hy
      exact .inr (hbelow q' y hy)
    · by_cases hq' : q' = p
      · subst hq'
        simp only [update_self, update_of_ne hne]
        rintro x hx y ⟨⟩
        exact .inl (hbelow q x hx)
      · simp only [update_of_ne hq, update_of_ne hq']
        exact hi.apart q q' hne
  · intro i hlo hhi
    by_cases hlt : i < w.ring.reserve_tail
    · obtain ⟨q, x, hx, hle⟩ := hi.cover i hlo hlt
      have hq : q ≠ p := by
        rintro rfl
        simp [hp, Pc.holds] at hx
      exact ⟨q, x, by simpa [hq] using hx, hle⟩
    · exact ⟨p, (w.ring.reserve_tail, data), by simp [Pc.holds], not_lt.1 hlt, hhi⟩

/-- The copy of one element into its slot. -/
theorem Inv.write {x : α} (hi : Inv w f) (hp : w.pc p = .copy data tok i) (hx : data[i]? = some x) :
    Inv { w with
      ring := { w.ring with data := update w.ring.data (w.ring.idx tok + i) x }
      pc := update w.pc p (.copy data tok (i + 1)) } f := by
  have hat := hi.atPc p
  rw [hp] at hat
  obtain ⟨hheld, -, hspan⟩ := hat
  obtain ⟨hlt, hget⟩ := List.getElem?_eq_some_iff.1 hx
  have hcell : w.ring.idx tok + i = (tok + i) % w.ring.size := by
    rw [Ring.idx_eq, add_mod_of_le hlt hheld.whole]
  have hlo := hi.core.lo_le_hi
  have hle := hi.core.hi_le
  have hroom := hi.core.reserve_le
  have htok := hheld.hi_le
  have hres := hheld.le_reserve
  -- what is in the ring, and the slots of the others, are elsewhere
  have hkeep : ∀ a n, f.lo w.ring ≤ a → a + n ≤ w.ring.reserve_tail →
      tok + i < a ∨ a + n ≤ tok + i →
      span w.ring.size (update w.ring.data (w.ring.idx tok + i) x) a n =
        span w.ring.size w.ring.data a n := by
    intro a n ha hn hne
    rw [hcell]
    exact span_update ha (hn.trans hroom) (by omega) (by omega) hne
  have hpc : (w.pc p).holds = some (tok, data) := by rw [hp]; rfl
  refine
    { core := ?_, owned := ?_, atPc := ?_, atConsumer := ?_, apart := ?_, cover := ?_ }
  · refine { hi.core with content := ?_ }
    have hspan' := hkeep (f.lo w.ring) (f.hi w.ring - f.lo w.ring) le_rfl (by omega)
      (.inr (by omega))
    exact (congrArg (w.got ++ ·) hspan').trans hi.core.content
  · refine hi.owned.agree ?_ (stage_update rfl rfl)
    simp [stage, hp, Pc.stage]
  · refine forall_update ?_ fun q hq => (hi.atPc q).frame rfl le_rfl ?_ (fun _ h => h) fun _ h => h
    · refine ⟨{ hheld with }, hlt, ?_⟩
      have hself : update w.ring.data (w.ring.idx tok + i) x ((tok + i) % w.ring.size) =
        data[i] := by
        rw [hcell, update_self, hget]
      change span w.ring.size (update w.ring.data (w.ring.idx tok + i) x) tok (i + 1) = _
      rw [span_succ, hself, hkeep tok i (by omega) (by omega) (.inr le_rfl), hspan,
        take_succ_eq_append_getElem hlt]
    · intro y hy hheld'
      have hapart := hi.apart q p hq y hy (tok, data) hpc
      have := hheld'.hi_le
      have := hheld'.le_reserve
      refine ⟨{ hheld' with }, fun n hn => hkeep _ _ (by omega) (by omega) ?_, fun h => h⟩
      simp only at hapart
      omega
  · refine hi.atConsumer.frame rfl le_rfl (fun _ h => h) (.inl rfl) ?_ (fun _ h => h) fun _ h => h
    rintro k rfl - hk hsize
    refine ⟨rfl, rfl, le_rfl, fun n hn => hkeep _ _ le_rfl ?_ (.inr ?_)⟩
    · have : w.ring.commit_tail ≤ w.ring.reserve_tail := hle
      omega
    · have : w.ring.commit_tail ≤ tok := htok
      omega
  · exact hi.apart_update fun y hy => by simpa [hp, Pc.holds] using hy
  · intro j hj hj'
    obtain ⟨q, y, hy, hy'⟩ := hi.cover j hj hj'
    refine ⟨q, y, ?_, hy'⟩
    by_cases hq : q = p
    · subst hq
      simpa [hp, Pc.holds] using hy
    · simpa [hq] using hy

/-- The write of `commit_tail` in `mpscq_push`. -/
theorem Inv.publish (hi : Inv w f) (hp : w.pc p = .publish data tok) :
    Inv { w with
      ring := { w.ring with commit_tail := tok + data.length }
      pc := update w.pc p (.idle 0)
      sent := w.sent ++ [(tok, data)] } f := by
  have hat := hi.atPc p
  rw [hp] at hat
  obtain ⟨hheld, hspan, hcommit⟩ := hat
  have hpc : (w.pc p).holds = some (tok, data) := by rw [hp]; rfl
  have hpos := hheld.pos
  have hres := hheld.le_reserve
  have htok := hheld.hi_le
  have hlo := hi.core.lo_le_hi
  -- `commit_tail` is where the elements end
  have hhi : f.hi w.ring = tok ∧ ∀ c, f.hi { w.ring with commit_tail := c } = c := by
    cases f with
    | none => exact ⟨hcommit, fun _ => rfl⟩
    | committed a seq => exact ⟨hcommit, fun _ => rfl⟩
    | reserved a seq =>
      have h1 : up w.ring.size seq ≤ tok := htok
      have h2 : w.ring.commit_tail = seq := hi.core.shape.2.1
      have h3 : seq < up w.ring.size seq := lt_up w.ring.size_pos
      omega
  have hlo' : ∀ c, f.lo { w.ring with commit_tail := c } = f.lo w.ring := by
    intro c
    cases f <;> rfl
  have habove : ∀ q, q ≠ p → ∀ y ∈ (w.pc q).holds, tok + data.length ≤ y.1 := by
    intro q hq y hy
    have hy' := (hi.atPc q).held hy
    have := hy'.hi_le
    have := hy'.pos
    have hapart := hi.apart q p hq y hy (tok, data) hpc
    simp only at hapart
    omega
  refine
    { core := ?_, owned := ?_, atPc := ?_, atConsumer := ?_, apart := ?_, cover := ?_ }
  · refine { hi.core with shape := ?_, content := ?_, tokens := ?_, below := ?_ }
    · have hs := hi.core.shape
      have hle : w.ring.commit_tail ≤ tok + data.length := by omega
      cases f with
      | none => exact ⟨hs.1.trans hle, hres⟩
      | committed a seq => exact ⟨hs.1, hs.2.1.trans hle, hres, hs.2.2.2⟩
      | reserved a seq => exact absurd (hhi.2 (up w.ring.size seq + 1)) (succ_ne_self _).symm
    · simp only [hhi.2, hlo', stream, map_append, flatten_append, map_cons,
        map_nil, flatten_cons, flatten_nil, append_nil]
      change w.got ++ span w.ring.size w.ring.data _ _ = _
      rw [span_split (m := tok) (by omega) (by omega), Nat.add_sub_cancel_left, hspan,
        ← append_assoc, ← hhi.1]
      exact congrArg (· ++ data) hi.core.content
    · refine pairwise_append.2 ⟨hi.core.tokens, pairwise_singleton _ _, ?_⟩
      intro a ha b hb
      rw [mem_singleton.1 hb]
      exact (hi.core.below a ha).trans_le hhi.1.le
    · intro e he
      rw [hhi.2]
      rcases mem_append.1 he with he | he
      · exact (hi.core.below e he).trans_le (by omega)
      · rw [mem_singleton.1 he]
        exact Nat.lt_add_of_pos_right hpos
  · refine hi.owned.agree ?_ (stage_update rfl rfl)
    simp [stage, hp, Pc.stage]
  · refine forall_update trivial fun q hq =>
      (hi.atPc q).frame rfl le_rfl ?_ (fun _ h => h) fun _ h => h
    intro y hy hy'
    have := habove q hq y hy
    refine ⟨{ hy' with hi_le := ?_ }, fun _ _ => rfl, fun h => ?_⟩
    · rw [hhi.2]
      exact this
    · omega
  · refine hi.atConsumer.frame rfl le_rfl (fun _ h => h) (.inl rfl) ?_ (fun _ h => h) fun _ h => h
    exact fun k hf _ _ _ => ⟨hf, rfl, by simp only; omega, fun _ _ => rfl⟩
  · have hnone : ∀ x ∈ (Pc.idle 0 : Pc α).holds, x ∈ (w.pc p).holds := nofun
    exact hi.apart_update hnone
  · intro j hj hj'
    rw [hhi.2] at hj
    obtain ⟨q, y, hy, hy'⟩ := hi.cover j (by omega) hj'
    have hq : q ≠ p := by
      rintro rfl
      rw [hpc] at hy
      cases hy
      simp only at hy'
      omega
    exact ⟨q, y, by simpa [hq] using hy, hy'⟩

omit [DecidableEq θ] in
/-- `mpscq_pop` moves `head` over what has been copied. -/
theorem Inv.pop {head : ℕ} {out : List α} (hi : Inv w f) (hc : w.consumer = .copy k head out)
    (hlen : ¬ out.length < k) :
    Inv { w with
      ring := { w.ring with head := w.ring.head + k }
      consumer := .popTail (w.ring.head + k)
      got := w.got ++ out } f := by
  have hat := hi.atConsumer
  rw [hc] at hat
  obtain ⟨rfl, hk, rfl, hle, -, hout, hspan⟩ := hat
  have hlen' : out.length = k := by omega
  rw [hlen'] at hspan
  have hcr := hi.core.commit_le
  have hhead : w.ring.head ≤ w.ring.head + k := le_add_right _ _
  refine
    { core := ?_, owned := trivial, atPc := ?_, atConsumer := le_rfl, apart := hi.apart,
      cover := hi.cover }
  · refine { hi.core with shape := ⟨hle, hcr⟩, room := ?_, content := ?_ }
    · exact hi.core.room.trans (Nat.add_le_add_right hhead _)
    · change w.got ++ out ++ span w.ring.size w.ring.data (w.ring.head + k)
        (w.ring.commit_tail - (w.ring.head + k)) = w.stream
      have hsplit : span w.ring.size w.ring.data w.ring.head (w.ring.commit_tail - w.ring.head) =
        _ :=
        span_split hhead hle
      rw [Nat.add_sub_cancel_left, ← hspan] at hsplit
      rw [append_assoc, ← hsplit]
      exact hi.core.content
  · exact fun q => (hi.atPc q).frame rfl hhead
      (fun x _ hx => ⟨{ hx with }, fun _ _ => rfl, fun h => h⟩) (fun _ h => h) fun _ h => h

/-! ## Reads -/

/-- Only the agent `a` has moved, and not into slots or out of them. -/
structure Moves (a : Option θ) (w w' : World θ α) : Prop where
  sent : w'.sent = w.sent
  got : w'.got = w.got
  pc : ∀ q, some q ≠ a → w'.pc q = w.pc q
  consumer : a ≠ none → w'.consumer = w.consumer
  holds : ∀ q, (w'.pc q).holds = (w.pc q).holds

def AtAgent (w : World θ α) (f : Flight θ) : Option θ → Prop
  | some p => AtPc w.ring f p (w.pc p)
  | none => AtConsumer w.ring f w.skipped w.consumer

section

variable {a : Option θ} {f' : Flight θ}

omit [DecidableEq θ] in
theorem Moves.stage (hm : Moves a w w') : ∀ b ≠ a, w'.stage b = w.stage b := by
  intro b hb
  cases b with
  | none => rw [World.stage, World.stage, hm.consumer hb.symm]
  | some q => rw [World.stage, World.stage, hm.pc q hb]

theorem moves_update (hsent : w'.sent = w.sent) (hgot : w'.got = w.got)
    (hpc : w'.pc = update w.pc p pc') (hc : w'.consumer = w.consumer)
    (hh : pc'.holds = (w.pc p).holds) : Moves (some p) w w' := by
  refine ⟨hsent, hgot, fun q hq => ?_, fun _ => hc, fun q => ?_⟩
  · rw [hpc, update_of_ne fun h => hq (congrArg some h)]
  · rw [hpc]
    exact forall_update (P := fun q pc => pc.holds = (w.pc q).holds) hh (fun _ _ => rfl) q

omit [DecidableEq θ] in
theorem moves_consumer (hsent : w'.sent = w.sent) (hgot : w'.got = w.got) (hpc : w'.pc = w.pc) :
    Moves none w w' :=
  ⟨hsent, hgot, fun q _ => by rw [hpc], absurd rfl, fun q => by rw [hpc]⟩

/-- What a re-base leaves to be shown, whoever makes it. -/
theorem Inv.of_moves (hi : Inv w f) (hm : Moves a w w') (hcore : Core w' f') (howned : Owned w' f')
    (ha : AtAgent w' f' a) (hpc : ∀ q, some q ≠ a → AtPc w'.ring f' q (w.pc q))
    (hcons : a ≠ none → AtConsumer w'.ring f' w'.skipped w.consumer)
    (hcover : ∀ i, f'.hi w'.ring ≤ i → i < w'.ring.reserve_tail →
      f.hi w.ring ≤ i ∧ i < w.ring.reserve_tail) : Inv w' f' := by
  refine ⟨hcore, howned, fun q => ?_, ?_, fun q q' hne x hx y hy => ?_, fun i hlo hhi => ?_⟩
  · by_cases hq : some q = a
    · subst hq
      exact ha
    · rw [hm.pc q hq]
      exact hpc q hq
  · cases a with
    | none => exact ha
    | some p =>
      rw [hm.consumer (by simp)]
      exact hcons (by simp)
  · rw [hm.holds] at hx hy
    exact hi.apart q q' hne x hx y hy
  · obtain ⟨q, x, hx, hle⟩ := hi.cover i (hcover i hlo hhi).1 (hcover i hlo hhi).2
    exact ⟨q, x, by rwa [hm.holds], hle⟩

theorem Inv.read (hi : Inv w f) (hm : Moves a w w') (hring : w'.ring = w.ring)
    (hskip : w'.skipped = w.skipped) (hlate : ∀ x ∈ w.stage a, x.2.late = false)
    (ha : AtAgent w' f a) : Inv w' f := by
  refine hi.of_moves hm ⟨?_, ?_, ?_, ?_, ?_, ?_⟩ (hi.owned.agree hlate hm.stage) ha ?_ ?_ ?_
  · rw [hring, hskip]
    exact hi.core.shape
  · rw [hring]
    exact hi.core.room
  · rw [hring]
    exact hi.core.bound
  · rw [hring, stream, hm.got, hm.sent]
    exact hi.core.content
  · rw [hm.sent]
    exact hi.core.tokens
  · rw [hm.sent, hring]
    exact hi.core.below
  · rw [hring]
    exact fun q _ => hi.atPc q
  · rw [hring, hskip]
    exact fun _ => hi.atConsumer
  · rw [hring]
    exact fun i hlo hhi => ⟨hlo, hhi⟩

theorem Inv.goto (hi : Inv w f) (hpc : AtPc w.ring f p pc') (hh : pc'.holds = (w.pc p).holds)
    (hs : ∀ x ∈ (w.pc p).stage, x.2.late = false) : Inv (w.goto p pc') f := by
  refine hi.read (moves_update rfl rfl rfl rfl hh) rfl rfl hs ?_
  simpa only [AtAgent, World.goto, update_self] using hpc

theorem Inv.setConsumer {c : Consumer α} (hi : Inv w f)
    (hc : AtConsumer w.ring f w.skipped c) (hs : ∀ x ∈ w.consumer.stage, x.2.late = false) :
    Inv { w with consumer := c } f := hi.read (moves_consumer rfl rfl rfl) rfl rfl hs hc

/-! ## Re-bases -/

/-- The compare-and-swap of `reserve_tail`: it finds the ring empty, and the two others will. -/
theorem Inv.casReserve (hi : Inv w f) (hm : Moves a w w') (hle : seq ≤ w.ring.head)
    (hr : w.ring.reserve_tail = seq)
    (hring : w'.ring = { w.ring with reserve_tail := up w.ring.size seq })
    (hskip : w'.skipped = w.skipped) (hb : up w.ring.size seq < 2 ^ 63)
    (hstage : w'.stage a = some (seq, .casCommit)) (ha : AtAgent w' (.reserved a seq) a) :
    Inv w' (.reserved a seq) := by
  obtain ⟨rfl, hhead, hcommit⟩ := hi.core.eq_none hle hr
  have hup : seq < up w.ring.size seq := lt_up w.ring.size_pos
  have hcontent := hi.core.content
  simp only [Flight.lo, Flight.hi, hhead, hcommit, Nat.sub_self, span_zero, append_nil] at hcontent
  refine hi.of_moves hm ?_ hstage ha (fun q _ => ?_) (fun _ => ?_) ?_
  · refine ⟨?_, ?_, ?_, ?_, ?_, ?_⟩
    · rw [hring]
      exact ⟨hhead, hcommit, le_rfl⟩
    · rw [hring]
      exact hhead ▸ up_le
    · rw [hring]
      exact hb
    · simp only [Flight.lo, Flight.hi, Nat.sub_self, span_zero, append_nil, stream, hm.got, hm.sent]
      exact hcontent
    · rw [hm.sent]
      exact hi.core.tokens
    · rw [hm.sent, hring]
      intro e he
      have hbelow : e.1 < w.ring.commit_tail := hi.core.below e he
      exact hbelow.trans (hcommit ▸ hup)
  · rw [hring]
    refine (hi.atPc q).frame rfl le_rfl (fun x _ hx => ?_) nofun nofun
    -- nobody has slots
    have h1 : w.ring.commit_tail ≤ x.1 := hx.hi_le
    have h2 := hx.le_reserve
    have h3 := hx.pos
    omega
  · rw [hring, hskip]
    exact hi.atConsumer.frame rfl le_rfl (fun _ h => h) (.inl rfl)
      (fun k _ hk hle _ => by omega) nofun nofun
  · rw [hring]
    intro i hlo hhi
    exact absurd hhi (not_lt.2 hlo)

/-- The compare-and-swap of `commit_tail`. -/
theorem Inv.casCommit (hi : Inv w (.reserved a seq)) (hm : Moves a w w')
    (hring : w'.ring = { w.ring with commit_tail := up w.ring.size seq })
    (hskip : w'.skipped = seq :: w.skipped)
    (hstage : w'.stage a = some (seq, .casHead)) (ha : AtAgent w' (.committed a seq) a) :
    Inv w' (.committed a seq) := by
  obtain ⟨hhead, hcommit, hres⟩ := hi.core.shape
  have hup : seq < up w.ring.size seq := lt_up w.ring.size_pos
  have hmem : w.ring.head ∈ seq :: w.skipped := hhead ▸ (.head _)
  refine hi.of_moves hm ?_ hstage ha (fun q hq => ?_) (fun hne => ?_) ?_
  · refine ⟨?_, ?_, ?_, ?_, ?_, ?_⟩
    · rw [hring, hskip]
      exact ⟨hhead, le_rfl, hres, .head _⟩
    · rw [hring]
      exact hi.core.room
    · rw [hring]
      exact hi.core.bound
    · rw [hring, stream, hm.got, hm.sent]
      exact hi.core.content
    · rw [hm.sent]
      exact hi.core.tokens
    · rw [hm.sent, hring]
      exact hi.core.below
  · rw [hring]
    refine (hi.atPc q).frame rfl le_rfl (fun x _ hx => ⟨{ hx with }, fun _ _ => rfl, fun h => ?_⟩)
      ?_ nofun
    · have h1 : up w.ring.size seq ≤ x.1 := hx.hi_le
      omega
    · intro seq' h
      cases h
      exact absurd rfl hq
  · rw [hring, hskip]
    refine hi.atConsumer.frame rfl le_rfl (fun _ h => .tail _ h) (.inl rfl) nofun ?_ nofun
    intro seq' h
    cases h
    exact absurd rfl hne
  · rw [hring]
    exact fun i hlo hhi => ⟨hlo, hhi⟩

/-- The compare-and-swap of `head`, and the counters are together. -/
theorem Inv.casHead (hi : Inv w (.committed a seq)) (hm : Moves a w w')
    (hring : w'.ring = { w.ring with head := up w.ring.size seq })
    (hskip : w'.skipped = w.skipped) (ha : AtAgent w' .none a) : Inv w' .none := by
  obtain ⟨hhead, hcommit, hres, hmem⟩ := hi.core.shape
  have hup : seq < up w.ring.size seq := lt_up w.ring.size_pos
  have hmono : w.ring.head ≤ up w.ring.size seq := hhead ▸ hup.le
  refine hi.of_moves hm ?_ trivial ha (fun q hq => ?_) (fun hne => ?_) ?_
  · refine ⟨?_, ?_, ?_, ?_, ?_, ?_⟩
    · rw [hring]
      exact ⟨hcommit, hres⟩
    · rw [hring]
      exact hi.core.room.trans (Nat.add_le_add_right hmono _)
    · rw [hring]
      exact hi.core.bound
    · rw [hring, stream, hm.got, hm.sent]
      exact hi.core.content
    · rw [hm.sent]
      exact hi.core.tokens
    · rw [hm.sent, hring]
      exact hi.core.below
  · rw [hring]
    refine (hi.atPc q).frame rfl hmono (fun x _ hx => ⟨{ hx with }, fun _ _ => rfl, fun h => h⟩)
      nofun ?_
    intro seq' h
    cases h
    exact absurd rfl hq
  · rw [hring, hskip]
    refine hi.atConsumer.frame rfl hmono (fun _ h => h) (.inr (hhead ▸ hmem)) nofun nofun ?_
    intro seq' h
    cases h
    exact absurd rfl hne
  · rw [hring]
    exact fun i hlo hhi => ⟨hlo, hhi⟩

/-- Every access of `mpscq_try_normalize_empty`, whoever makes it. -/
theorem Inv.normalize (hi : Inv w f) (hm : Moves a w w') (hst : w.stage a = some (seq, s))
    (hat : AtStage w.ring f a seq s) (hring : w'.ring = (mpscq_try_normalize_empty w.ring seq s).1)
    (hskip : w'.skipped = w.skip seq s) (hb : w'.ring.reserve_tail < 2 ^ 63)
    (hnext : ∀ s', (mpscq_try_normalize_empty w.ring seq s).2 = .at s' →
      w'.stage a = some (seq, s') ∧ ∀ f', AtStage w'.ring f' a seq s' → AtAgent w' f' a)
    (hret : ∀ b, (mpscq_try_normalize_empty w.ring seq s).2 = .ret b → ∀ f', AtAgent w' f' a) :
    ∃ f', Inv w' f' := by
  have hbase : seq ≤ w.ring.head → w.ring.base seq = up w.ring.size seq := fun hle => by
    have h1 := hi.core.head_le_commit
    have h2 := hi.core.commit_le
    have h3 := hi.core.bound
    exact w.ring.base_eq (by omega)
  cases s with
  | commit =>
    refine ⟨f, hi.read hm hring hskip (by simp [hst, Stage.late]) ?_⟩
    by_cases hc : w.ring.commit_tail = seq
    · refine (hnext .reserve (by simp [mpscq_try_normalize_empty, hc])).2 f ?_
      rw [hring]
      exact hat
    · exact hret false (by simp [mpscq_try_normalize_empty, hc]) f
  | reserve =>
    refine ⟨f, hi.read hm hring hskip (by simp [hst, Stage.late]) ?_⟩
    by_cases hc : w.ring.reserve_tail = seq ∧ ¬ w.ring.base seq ≤ seq
    · refine (hnext .casReserve ?_).2 f ?_
      · rw [mpscq_try_normalize_empty, if_neg (not_not.2 hc.1), if_neg hc.2]
      · rw [hring]
        exact hat
    · refine hret false ?_ f
      simp only [mpscq_try_normalize_empty]
      split_ifs with h1 h2
      · rfl
      · rfl
      · exact absurd ⟨not_not.1 h1, h2⟩ hc
  | casReserve =>
    by_cases hr : w.ring.reserve_tail = seq
    · rw [mpscq_try_normalize_empty, if_pos hr] at hring hnext
      obtain ⟨hstage, hagent⟩ := hnext .casCommit rfl
      rw [hbase hat] at hring
      rw [hring] at hb
      exact ⟨_, hi.casReserve hm hat hr hring hskip hb hstage (hagent _ rfl)⟩
    · rw [mpscq_try_normalize_empty, if_neg hr] at hring hret
      exact ⟨f, hi.read hm hring hskip (by simp [hst, Stage.late]) (hret false rfl f)⟩
  | casCommit =>
    cases hat
    obtain ⟨hhead, hcommit, -⟩ := hi.core.shape
    obtain ⟨hstage, hagent⟩ := hnext .casHead rfl
    rw [mpscq_try_normalize_empty, cas, if_pos hcommit, hbase hhead.ge] at hring
    rw [skip, if_pos hcommit] at hskip
    exact ⟨_, hi.casCommit hm hring hskip hstage (hagent _ rfl)⟩
  | casHead =>
    cases hat
    have hhead := hi.core.shape.1
    rw [mpscq_try_normalize_empty, cas, if_pos hhead, hbase hhead.ge] at hring
    exact ⟨_, hi.casHead hm hring hskip (hret true rfl _)⟩

end

end Intewell.Mpscq
