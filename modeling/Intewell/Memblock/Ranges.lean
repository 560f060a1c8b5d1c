/-
# The free ranges are `memory` without `reserved`

`ttos_memblk_collect_ranges` on two sorted tables returns, in ascending order, ranges of the bytes
that are in the first table and not in the second (`freeRanges_spec`).  A range ends where these
bytes do, or at a `Seam`, where two regions of the first table touch.  The output array is large
enough: a reserved region starts inside one memory region at most, so there are at most `128 + 128`
ranges.
-/

import Intewell.Memblock.Basic

namespace Intewell.Memblock

open List Nat

/-- `x` is a byte of one of the regions. -/
def InRegions (rs : List Region) (x : ℕ) : Prop := ∃ r ∈ rs, r.start ≤ x ∧ x < r.stop

namespace Collect

variable (c : Collect)

variable {r : Region}

theorem stop_eq (hr : r ∈ c.regions) : r.stop = r.start + r.size :=
  mod_eq_of_lt (c.stop_lt r hr)

theorem start_lt_stop (hr : r ∈ c.regions) : r.start < r.stop := by
  have := c.size_pos r hr
  rw [c.stop_eq hr]
  omega

/-- Two regions touch at `x`. -/
def Seam (x : ℕ) : Prop := ∃ a ∈ c.regions, ∃ b ∈ c.regions, a.stop = x ∧ b.start = x

/-- Regions have no byte in common. -/
theorem eq_of_mem {s : Region} {x : ℕ} (hr : r ∈ c.regions) (hs : s ∈ c.regions)
    (hx : r.start ≤ x ∧ x < r.stop) (hx' : s.start ≤ x ∧ x < s.stop) : r = s := by
  by_contra he
  have hsep : c.regions.Pairwise fun a b => a.stop ≤ b.start ∨ b.stop ≤ a.start :=
    c.sorted.imp .inl
  have : Std.Symm fun a b : Region => a.stop ≤ b.start ∨ b.stop ≤ a.start := ⟨fun _ _ => Or.symm⟩
  have := hsep.forall hr hs he
  omega

theorem seam_of_stop_mem (hr : r ∈ c.regions) (h : r.stop ∈ c.bytes) : c.Seam r.stop := by
  obtain ⟨s, hs, h1, h2⟩ := h
  refine ⟨r, hr, s, hs, rfl, ?_⟩
  by_contra hne
  -- the byte before the end would be in both
  have hr' := c.start_lt_stop hr
  obtain rfl := c.eq_of_mem (x := r.stop - 1) hr hs (by omega) (by omega)
  omega

end Collect

/-- `out` is what is left of the bytes from `lo` up to `hi` without the regions
`bs`: ascending nonempty ranges, each one as long as it can be. -/
structure Gaps (lo hi : ℕ) (bs out : List Region) : Prop where
  inside : ∀ r ∈ out, lo ≤ r.start ∧ r.start < r.stop ∧ r.stop ≤ hi
  ascending : out.Pairwise fun r s => r.stop ≤ s.start
  bytes : ∀ x, InRegions out x ↔ lo ≤ x ∧ x < hi ∧ ¬InRegions bs x
  maximal : ∀ r ∈ out, r.stop = hi ∨ InRegions bs r.stop

theorem inRegions_cons {rs : List Region} {x : ℕ} :
    InRegions (r :: rs) x ↔ (r.start ≤ x ∧ x < r.stop) ∨ InRegions rs x := by
  simp [InRegions]

theorem inRegions_append {rs ss : List Region} {x : ℕ} :
    InRegions (rs ++ ss) x ↔ InRegions rs x ∨ InRegions ss x := by
  simp [InRegions, or_and_right, exists_or]

theorem not_inRegions_nil (x : ℕ) : ¬InRegions [] x := by simp [InRegions]

namespace Gaps

variable {lo hi : ℕ} {bs out : List Region} {fl : Flags}

theorem nothing (h : hi ≤ lo) : Gaps lo hi bs [] := by
  refine ⟨by simp, List.Pairwise.nil, fun x => ?_, by simp⟩
  simp only [not_inRegions_nil, false_iff, not_and]
  omega

theorem whole (h : lo < hi) (hhi : hi < 2 ^ 64) (hbs : ∀ x, lo ≤ x → x < hi → ¬InRegions bs x) :
    Gaps lo hi bs [⟨lo, hi - lo, fl⟩] := by
  have hstop : Region.stop ⟨lo, hi - lo, fl⟩ = hi := by
    rw [Region.stop, show lo + (hi - lo) = hi by omega]
    exact mod_eq_of_lt hhi
  refine ⟨by simp [hstop, h], pairwise_singleton _ _, fun x => ?_, by simp [hstop]⟩
  rw [inRegions_cons, hstop]
  simp only [not_inRegions_nil, or_false]
  exact ⟨fun hx => ⟨hx.1, hx.2, hbs x hx.1 hx.2⟩, fun hx => ⟨hx.1, hx.2.1⟩⟩

/-- The gap before a region, followed by the gaps after it. -/
theorem step {b : Region} {mid : ℕ} (hlo : lo < hi) (hhi : hi < 2 ^ 64) (hb : b.start < b.stop)
    (hbl : lo < b.stop) (hbh : b.start < hi) (hm : mid ≤ b.stop) (hmid : mid = b.stop ∨ mid = hi)
    (hafter : ∀ c ∈ bs, b.stop ≤ c.start) (h : Gaps mid hi bs out) : Gaps lo hi (b :: bs)
      ((if lo < b.start then [⟨lo, b.start - lo, fl⟩] else []) ++ out) := by
  have hnot : ∀ x, x < b.stop → ¬InRegions bs x := by
    rintro x hx ⟨c, hc, h1, -⟩
    have := hafter c hc
    omega
  split_ifs with hc
  · have hstop : Region.stop ⟨lo, b.start - lo, fl⟩ = b.start := by
      rw [Region.stop, show lo + (b.start - lo) = b.start by omega]
      exact mod_eq_of_lt (by omega)
    refine ⟨?_, ?_, fun x => ?_, ?_⟩
    · intro r hr
      rcases mem_cons.1 hr with rfl | hr
      · rw [hstop]
        exact ⟨le_rfl, hc, by omega⟩
      · have := h.inside r hr
        exact ⟨by omega, this.2⟩
    · refine pairwise_cons.2 ⟨fun r hr => ?_, h.ascending⟩
      have := (h.inside r hr).1
      rw [hstop]
      omega
    · rw [singleton_append, inRegions_cons, hstop, h.bytes, inRegions_cons]
      have := hnot x
      grind
    · intro r hr
      rcases mem_cons.1 hr with rfl | hr
      · rw [hstop]
        exact .inr (inRegions_cons.2 (.inl ⟨le_rfl, hb⟩))
      · exact (h.maximal r hr).imp_right fun hr => inRegions_cons.2 (.inr hr)
  · refine ⟨fun r hr => ?_, h.ascending, fun x => ?_, fun r hr => ?_⟩
    · have := h.inside r hr
      exact ⟨by omega, this.2⟩
    · rw [nil_append, h.bytes, inRegions_cons]
      have := hnot x
      grind
    · exact (h.maximal r hr).imp_right fun hr => inRegions_cons.2 (.inr hr)

end Gaps

/-- **The inner loop of `ttos_memblk_collect_ranges`.** -/
theorem subtract_gaps {hi : ℕ} (hhi : hi < 2 ^ 64) (fl : Flags) {bs : List Region}
    (hpos : ∀ b ∈ bs, b.start < b.stop) (hsort : bs.Pairwise fun a b => a.stop ≤ b.start) (lo : ℕ) :
    Gaps lo hi bs (subtract hi fl bs lo) := by
  induction bs generalizing lo with
  | nil =>
    unfold subtract
    split_ifs with h
    · exact Gaps.whole h hhi fun x _ _ => not_inRegions_nil x
    · exact Gaps.nothing (not_lt.1 h)
  | cons b bs ih =>
    obtain ⟨hafter, hsort⟩ := pairwise_cons.1 hsort
    have hb := hpos b (by simp)
    have hrest := ih (fun c hc => hpos c (by simp [hc])) hsort
    unfold subtract
    by_cases h1 : lo < hi
    swap
    · rw [if_neg h1]
      exact Gaps.nothing (not_lt.1 h1)
    rw [if_pos h1]
    by_cases h2 : b.stop ≤ lo
    · -- the region lies before the cursor
      rw [if_pos h2]
      have h := hrest lo
      refine ⟨h.inside, h.ascending, fun x => ?_, fun r hr =>
        (h.maximal r hr).imp_right fun hr => inRegions_cons.2 (.inr hr)⟩
      rw [h.bytes, inRegions_cons]
      grind
    rw [if_neg h2]
    by_cases h3 : hi ≤ b.start
    · -- the region and all later ones lie past the end
      rw [if_pos h3]
      refine Gaps.whole h1 hhi fun x hx1 hx2 => ?_
      rintro ⟨c, hc, hc1, -⟩
      rcases mem_cons.1 hc with rfl | hc
      · omega
      · have := hafter c hc
        omega
    · rw [if_neg h3]
      exact Gaps.step h1 hhi hb (not_le.1 h2) (not_le.1 h3) (min_le_left _ _) (min_choice _ _)
        hafter (hrest _)

theorem length_subtract_le (hi : ℕ) (fl : Flags) (bs : List Region)
    (hpos : ∀ b ∈ bs, b.start < b.stop) (lo : ℕ) : (subtract hi fl bs lo).length ≤
      1 + bs.countP (fun b => decide (lo ≤ b.start ∧ b.start < hi)) := by
  induction bs generalizing lo with
  | nil =>
    unfold subtract
    split_ifs <;> simp
  | cons b bs ih =>
    have hb := hpos b (by simp)
    have hlo := ih (fun c hc => hpos c (by simp [hc])) lo
    have hmin := ih (fun c hc => hpos c (by simp [hc])) (min b.stop hi)
    unfold subtract
    rw [countP_cons]
    by_cases h1 : lo < hi
    swap
    · rw [if_neg h1]
      exact zero_le _
    rw [if_pos h1]
    by_cases h2 : b.stop ≤ lo
    · rw [if_pos h2]
      omega
    rw [if_neg h2]
    by_cases h3 : hi ≤ b.start
    · rw [if_pos h3]
      exact le_add_right 1 _
    have hmono : bs.countP (fun c => decide (min b.stop hi ≤ c.start ∧ c.start < hi)) ≤
        bs.countP (fun c => decide (lo ≤ c.start ∧ c.start < hi)) := by
      refine countP_mono_left fun c _ hc => ?_
      simp only [decide_eq_true_eq] at hc ⊢
      omega
    rw [if_neg h3, length_append]
    simp only [decide_eq_true_eq]
    split_ifs with h4 h5 h5 <;> simp only [length_cons, length_nil] <;> omega

/-- The outer loop, without the bound on the output. -/
def allGaps (as bs : List Region) : List Region :=
  as.flatMap fun a => subtract a.stop a.flags bs a.start

section

variable {as bs : List Region}

theorem length_allGaps_le (hsort : as.Pairwise fun a b => a.stop ≤ b.start)
    (hpos : ∀ b ∈ bs, b.start < b.stop) (lo : ℕ) (hlo : ∀ a ∈ as, lo ≤ a.start ∧ a.start < a.stop) :
    (allGaps as bs).length ≤ as.length + bs.countP (fun b => decide (lo ≤ b.start)) := by
  induction as generalizing lo with
  | nil => simp [allGaps]
  | cons a as ih =>
    obtain ⟨hafter, hsort⟩ := pairwise_cons.1 hsort
    have hrest := ih hsort a.stop fun c hc =>
      ⟨hafter c hc, (hlo c (by simp [hc])).2⟩
    have hhead := length_subtract_le a.stop a.flags bs hpos a.start
    have hsum : bs.countP (fun b => decide (a.start ≤ b.start ∧ b.start < a.stop)) +
        bs.countP (fun b => decide (a.stop ≤ b.start)) ≤
        bs.countP (fun b => decide (lo ≤ b.start)) := by
      obtain ⟨ha, ha'⟩ := hlo a (by simp)
      clear hhead hrest ih hpos
      induction bs with
      | nil => simp
      | cons b bs ihb =>
        simp only [countP_cons, decide_eq_true_eq]
        split_ifs <;> omega
    rw [allGaps, flatMap_cons, length_append, length_cons]
    rw [allGaps] at hrest
    omega

/-- What the loop returns, for sorted tables. -/
theorem allGaps_spec (hpos : ∀ a ∈ as, a.start < a.stop) (hstop : ∀ a ∈ as, a.stop < 2 ^ 64)
    (hsort : as.Pairwise fun a b => a.stop ≤ b.start)
    (hbpos : ∀ b ∈ bs, b.start < b.stop) (hbsort : bs.Pairwise fun a b => a.stop ≤ b.start) :
    (∀ r ∈ allGaps as bs, r.start < r.stop ∧ (∃ a ∈ as, a.start ≤ r.start ∧ r.stop ≤ a.stop) ∧
      ((∃ a ∈ as, r.stop = a.stop) ∨ InRegions bs r.stop)) ∧
    ((allGaps as bs).Pairwise fun r s => r.stop ≤ s.start) ∧
    ∀ x, InRegions (allGaps as bs) x ↔ InRegions as x ∧ ¬InRegions bs x := by
  induction as with
  | nil => simp [allGaps, InRegions]
  | cons a as ih =>
    obtain ⟨hafter, hsort⟩ := pairwise_cons.1 hsort
    have hhead := subtract_gaps (hstop a (by simp)) a.flags hbpos hbsort a.start
    obtain ⟨h1, h2, h3⟩ := ih (fun c hc => hpos c (by simp [hc]))
      (fun c hc => hstop c (by simp [hc])) hsort
    have hcons : allGaps (a :: as) bs = subtract a.stop a.flags bs a.start ++ allGaps as bs := rfl
    rw [hcons]
    refine ⟨fun r hr => ?_, pairwise_append.2 ⟨hhead.ascending, h2, fun r hr s hs => ?_⟩,
      fun x => ?_⟩
    · rcases mem_append.1 hr with hr | hr
      · have hin := hhead.inside r hr
        refine ⟨hin.2.1, ⟨a, by simp, hin.1, hin.2.2⟩, ?_⟩
        exact (hhead.maximal r hr).imp_left fun h => ⟨a, by simp, h⟩
      · obtain ⟨hr1, ⟨c, hc, hr2⟩, hr3⟩ := h1 r hr
        refine ⟨hr1, ⟨c, by simp [hc], hr2⟩, hr3.imp_left ?_⟩
        rintro ⟨d, hd, he⟩
        exact ⟨d, by simp [hd], he⟩
    · obtain ⟨-, ⟨c, hc, hs1, -⟩, -⟩ := h1 s hs
      have := (hhead.inside r hr).2.2
      have := hafter c hc
      omega
    · rw [inRegions_append, hhead.bytes, h3, inRegions_cons]
      tauto

end

/-- With at most `128` regions on both sides the output array does not fill up. -/
theorem collectRanges_eq (memory reserved : Collect) {n : ℕ} (hn : MEMBLOCK_MAX_ITER_RANGES ≤ n) :
    collectRanges true memory.regions (some reserved.regions) .none n =
      allGaps memory.regions reserved.regions := by
  have hskip : (memory.regions.filter fun r => !skipRegion true r .none) = memory.regions := by
    rw [filter_eq_self]
    intro r hr
    simp [skipRegion, memory.flags_none r hr]
  have hlen := length_allGaps_le memory.sorted
    (fun b => reserved.start_lt_stop) 0 fun a ha => ⟨zero_le _, memory.start_lt_stop ha⟩
  have hcount := countP_le_length (p := fun b : Region => decide (0 ≤ b.start))
    (l := reserved.regions)
  have hm := memory.length_le
  have hr := reserved.length_le
  rw [collectRanges, hskip]
  refine take_of_length_le ?_
  simp only [MEMBLOCK_MAX_ITER_RANGES, DEFAULT_MEMBLOCK_REGIONS] at *
  exact le_trans hlen (by omega)

theorem freeRanges_eq (memory reserved : Collect) :
    freeRanges memory.regions reserved.regions = allGaps memory.regions reserved.regions :=
  collectRanges_eq memory reserved le_rfl

/-- **The free ranges are `memory` without `reserved`**, in ascending order, each as long as it can
be up to a seam. -/
theorem freeRanges_spec (memory reserved : Collect) :
    (∀ r ∈ freeRanges memory.regions reserved.regions, r.start < r.stop ∧ r.stop < 2 ^ 64 ∧
      (∃ a ∈ memory.regions, a.start ≤ r.start ∧ r.stop ≤ a.stop) ∧
      (r.stop ∉ memory.bytes ∨ r.stop ∈ reserved.bytes ∨ memory.Seam r.stop)) ∧
    ((freeRanges memory.regions reserved.regions).Pairwise fun r s => r.stop ≤ s.start) ∧
    ∀ x, InRegions (freeRanges memory.regions reserved.regions) x ↔
      x ∈ memory.bytes ∧ x ∉ reserved.bytes := by
  rw [freeRanges_eq]
  obtain ⟨h1, h2, h3⟩ := allGaps_spec (fun a => memory.start_lt_stop)
    (fun a _ => mod_lt _ (by decide)) memory.sorted
    (fun b => reserved.start_lt_stop) reserved.sorted
  refine ⟨fun r hr => ?_, h2, h3⟩
  obtain ⟨hr1, ha, hr2⟩ := h1 r hr
  refine ⟨hr1, mod_lt _ (by decide), ha, ?_⟩
  rcases hr2 with ⟨a, ha, he⟩ | hr2
  · by_cases hm : r.stop ∈ memory.bytes
    · rw [he] at hm ⊢
      exact .inr (.inr (memory.seam_of_stop_mem ha hm))
    · exact .inl hm
  · exact .inr (.inl hr2)

end Intewell.Memblock
