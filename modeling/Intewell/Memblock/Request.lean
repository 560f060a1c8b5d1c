/-
# Early allocation

`ttos_memblk_request_size_in_range` looks for a free place in the ranges of
`ttos_memblk_collect_ranges`, from the highest one down or from the lowest one up.  It finds an
aligned place inside one range if there is one, and returns `0` otherwise; `round_up` wraps to `0`
only where no aligned address follows.

**A free place over a seam is not found**: two regions of memory that touch, as an addition that
fails leaves them, are two ranges.  `request_size_spec` says that this is all that goes wrong.
-/

import Intewell.Memblock.Full

namespace Intewell.Memblock

open List Nat

def MEMBLOCK_ALLOC_ACCESSIBLE : ℕ := 0

def PAGE_SIZE : ℕ := 4096

/-- `((x - 1) | (y - 1)) + 1`. -/
def roundUp (x y : ℕ) : ℕ := (((x + 2 ^ 64 - 1) % 2 ^ 64 ||| (y - 1)) + 1) % 2 ^ 64

/-- `x & ~(y - 1)`: the bits of `y - 1` are taken away. -/
def roundDown (x y : ℕ) : ℕ := x - (x &&& (y - 1))

def clamp (x lo hi : ℕ) : ℕ := min (max x lo) hi

section
variable (size align lo hi : ℕ)

/-- One round of the loop from the top down. -/
def topDown (r : Region) : Option ℕ :=
  let start := clamp r.start lo hi
  let stop := clamp r.stop lo hi
  if stop ≤ start ∨ stop - start < size then none
  else
    let dest := roundDown (stop - size) align
    if start ≤ dest then some dest else none

/-- One round of the loop from the bottom up. -/
def bottomUp (r : Region) : Option ℕ :=
  let start := clamp r.start lo hi
  let stop := clamp r.stop lo hi
  if stop ≤ start then none
  else
    let dest := roundUp start align
    if dest < stop ∧ size ≤ stop - dest then some dest else none

end

/-- `ttos_memblk_request_size_in_range`, with `memblock.bottom_up`, `memblock.current_limit` and
SMP_CACHE_BYTES. -/
def requestSizeInRange (up : Bool) (limit cacheBytes : ℕ) (memory reserved : List Region)
    (size align rangeStart rangeEnd : ℕ) : ℕ :=
  if size = 0 then 0
  else
    let align := if align = 0 then cacheBytes else align
    let rangeEnd := if rangeEnd = MEMBLOCK_ALLOC_ACCESSIBLE then limit else rangeEnd
    let rangeStart := max rangeStart PAGE_SIZE
    if rangeEnd ≤ rangeStart then 0
    else
      let ranges := freeRanges memory reserved
      (if up then ranges.findSome? (bottomUp size align rangeStart rangeEnd)
        else ranges.reverse.findSome? (topDown size align rangeStart rangeEnd)).getD 0

/-- A place in the window, above the first page, in `memory` and not in `reserved`. -/
structure Fits (memory reserved : Collect) (size align lo hi d : ℕ) : Prop where
  aligned : align ∣ d
  window : lo ≤ d ∧ PAGE_SIZE ≤ d ∧ d + size ≤ hi
  free : ∀ x, d ≤ x → x < d + size → x ∈ memory.bytes ∧ x ∉ reserved.bytes

/-- A place in one range. -/
def FitsIn (size align lo hi : ℕ) (r : Region) (d : ℕ) : Prop :=
  align ∣ d ∧ max r.start lo ≤ d ∧ d + size ≤ min r.stop hi

section
variable {x k : ℕ}

theorem roundDown_eq : roundDown x (2 ^ k) = x / 2 ^ k * 2 ^ k := by
  have := div_add_mod' x (2 ^ k)
  rw [roundDown, and_two_pow_sub_one_eq_mod]
  omega

theorem or_mask : x ||| (2 ^ k - 1) = x / 2 ^ k * 2 ^ k + (2 ^ k - 1) := by
  have hpos : 0 < 2 ^ k := Nat.two_pow_pos k
  have hlow : x % 2 ^ k ||| (2 ^ k - 1) = 2 ^ k - 1 := by
    refine eq_of_testBit_eq fun i => ?_
    simp only [testBit_or, testBit_mod_two_pow, testBit_two_pow_sub_one]
    cases decide (i < k) <;> simp
  calc x ||| (2 ^ k - 1) = 2 ^ k * (x / 2 ^ k) ||| x % 2 ^ k ||| (2 ^ k - 1) := by
        rw [← two_pow_add_eq_or_of_lt (mod_lt x hpos), div_add_mod]
    _ = 2 ^ k * (x / 2 ^ k) ||| (2 ^ k - 1) := by rw [Nat.or_assoc, hlow]
    _ = x / 2 ^ k * 2 ^ k + (2 ^ k - 1) := by
        rw [← two_pow_add_eq_or_of_lt (by omega), mul_comm]

/-- The least multiple from `x` on, or `0` if that is `2 ^ 64`. -/
theorem roundUp_spec (hx : 0 < x) (hlt : x < 2 ^ 64) (hk : k < 64) :
    (roundUp x (2 ^ k) = 0 ∨ 2 ^ k ∣ roundUp x (2 ^ k) ∧ x ≤ roundUp x (2 ^ k)) ∧
      ∀ d, 2 ^ k ∣ d → x ≤ d → d < 2 ^ 64 → 0 < roundUp x (2 ^ k) ∧ roundUp x (2 ^ k) ≤ d := by
  have hpos : 0 < 2 ^ k := Nat.two_pow_pos k
  set y := ((x - 1) / 2 ^ k + 1) * 2 ^ k with hy
  have hsum : (x - 1) / 2 ^ k * 2 ^ k + (2 ^ k - 1) + 1 = y := by
    rw [hy, add_mul, one_mul]
    omega
  have heq : roundUp x (2 ^ k) = y % 2 ^ 64 := by
    rw [roundUp, show (x + 2 ^ 64 - 1) % 2 ^ 64 = x - 1 by omega, or_mask, hsum]
  have hle : x ≤ y := by
    have := div_add_mod' (x - 1) (2 ^ k)
    have := mod_lt (x - 1) hpos
    omega
  have hleast (d : ℕ) (hd : 2 ^ k ∣ d) (hxd : x ≤ d) : y ≤ d := by
    obtain ⟨q, rfl⟩ := hd
    rw [mul_comm (2 ^ k)]
    refine Nat.mul_le_mul_right _ (Nat.div_lt_of_lt_mul ?_)
    omega
  have hdvd : 2 ^ k ∣ y := dvd_mul_left ..
  clear_value y
  rw [heq]
  rcases (hleast (2 ^ 64) (pow_dvd_pow 2 hk.le) hlt.le).lt_or_eq with h | rfl
  · rw [mod_eq_of_lt h]
    exact ⟨.inr ⟨hdvd, hle⟩, fun d hd hxd _ => ⟨by omega, hleast d hd hxd⟩⟩
  · exact ⟨.inl (mod_self _), fun d hd hxd hd' => absurd (hleast d hd hxd) (not_le.2 hd')⟩

end

section
variable {size k lo hi d : ℕ} {r : Region}

theorem topDown_some (h : topDown size (2 ^ k) lo hi r = some d) :
    FitsIn size (2 ^ k) lo hi r d := by
  unfold topDown clamp at h
  simp only [roundDown_eq] at h
  split_ifs at h with hroom hle
  cases h
  have := div_mul_le_self (min (max r.stop lo) hi - size) (2 ^ k)
  exact ⟨dvd_mul_left .., by omega, by omega⟩

theorem topDown_none (hs : 0 < size) (h : topDown size (2 ^ k) lo hi r = none) :
    ¬FitsIn size (2 ^ k) lo hi r d := by
  rintro ⟨⟨q, rfl⟩, h1, h2⟩
  unfold topDown clamp at h
  simp only [roundDown_eq] at h
  split_ifs at h with hroom hle
  · omega
  · have hq : q ≤ (min (max r.stop lo) hi - size) / 2 ^ k := by
      rw [Nat.le_div_iff_mul_le (Nat.two_pow_pos k), Nat.mul_comm]
      omega
    have := mul_le_mul_right (2 ^ k) hq
    rw [mul_comm q] at this
    omega

variable (hlo : 0 < lo) (hr : r.stop < 2 ^ 64) (hk : k < 64)
include hlo hr hk

/-- `0` is returned where no multiple follows. -/
theorem bottomUp_some (h : bottomUp size (2 ^ k) lo hi r = some d) : FitsIn size (2 ^ k) lo hi r d ∨
      d = 0 ∧ ∀ d', max r.start lo ≤ d' → d' < 2 ^ 64 → ¬2 ^ k ∣ d' := by
  unfold bottomUp clamp at h
  simp only at h
  split_ifs at h with hroom hfit
  cases h
  obtain ⟨hup, hleast⟩ := roundUp_spec (x := min (max r.start lo) hi) (by omega) (by omega) hk
  rcases hup with hzero | ⟨hdvd, hle⟩
  · exact .inr ⟨hzero, fun d' h1 h2 hd' => absurd hzero (hleast d' hd' (by omega) h2).1.ne'⟩
  · exact .inl ⟨hdvd, by omega, by omega⟩

theorem bottomUp_none (hs : 0 < size) (h : bottomUp size (2 ^ k) lo hi r = none) :
    ¬FitsIn size (2 ^ k) lo hi r d := by
  rintro ⟨hd, h1, h2⟩
  unfold bottomUp clamp at h
  simp only at h
  split_ifs at h with hroom hfit
  · omega
  · have := (roundUp_spec (x := min (max r.start lo) hi) (by omega) (by omega) hk).2 d hd (by omega)
      (by omega)
    omega

end

variable {memory reserved : Collect} {size align lo hi d : ℕ}

/-- No free place lies over a seam: above the first page, the byte before a seam or the one after it
is reserved. -/
def Seamless (memory reserved : Collect) : Prop :=
  ∀ x, PAGE_SIZE < x → memory.Seam x → x - 1 ∈ reserved.bytes ∨ x ∈ reserved.bytes

/-- Where no free place lies over a seam, each lies in one range. -/
theorem fits_iff (hs : 0 < size) (hseam : Seamless memory reserved) :
    Fits memory reserved size align lo hi d ↔
    ∃ r ∈ freeRanges memory.regions reserved.regions,
      FitsIn size align (max lo PAGE_SIZE) hi r d := by
  obtain ⟨hranges, -, hbytes⟩ := freeRanges_spec memory reserved
  constructor
  · rintro ⟨hd, ⟨h1, h2, h3⟩, hfree⟩
    obtain ⟨r, hr, hrd, hdr⟩ := (hbytes d).2 (hfree d le_rfl (by omega))
    refine ⟨r, hr, hd, by omega, ?_⟩
    -- the byte after the range is not free
    by_contra hlt
    obtain ⟨hm, hres⟩ := hfree r.stop hdr.le (by omega)
    rcases (hranges r hr).2.2.2 with h | h | h
    · exact h hm
    · exact hres h
    · exact (hseam r.stop (by omega) h).elim (hfree (r.stop - 1) (by omega) (by omega)).2 hres
  · rintro ⟨r, hr, hd, h1, h2⟩
    refine ⟨hd, by omega, fun x hx hx' => (hbytes x).1 ⟨r, hr, by omega, by omega⟩⟩

section
variable (memory reserved) (up : Bool) (limit cacheBytes : ℕ) {k : ℕ} (hs : 0 < size) (hk : k < 64)
  (rangeStart rangeEnd : ℕ)
include hs hk

/-- **What a request is answered with**: a place in one range, or `0` if there is none. -/
theorem requestSizeInRange_spec :
    let hi := if rangeEnd = MEMBLOCK_ALLOC_ACCESSIBLE then limit else rangeEnd
    let d := requestSizeInRange up limit cacheBytes memory.regions reserved.regions size (2 ^ k)
      rangeStart rangeEnd
    (∃ r ∈ freeRanges memory.regions reserved.regions,
      FitsIn size (2 ^ k) (max rangeStart PAGE_SIZE) hi r d) ∨
      d = 0 ∧ ∀ d', ¬∃ r ∈ freeRanges memory.regions reserved.regions,
        FitsIn size (2 ^ k) (max rangeStart PAGE_SIZE) hi r d' := by
  obtain ⟨hranges, hsort, -⟩ := freeRanges_spec memory reserved
  unfold requestSizeInRange
  simp only [hs.ne', (Nat.two_pow_pos k).ne', if_false]
  generalize (if rangeEnd = MEMBLOCK_ALLOC_ACCESSIBLE then limit else rangeEnd) = hi
  have hlo : 0 < max rangeStart PAGE_SIZE := by
    unfold PAGE_SIZE
    omega
  generalize max rangeStart PAGE_SIZE = lo at *
  split_ifs with hwin hup
  · refine .inr ⟨rfl, ?_⟩
    rintro d' ⟨r, -, -, h1, h2⟩
    omega
  · cases hf : (freeRanges memory.regions reserved.regions).findSome?
      (bottomUp size (2 ^ k) lo hi) with
    | none =>
      refine .inr ⟨rfl, ?_⟩
      rintro d' ⟨r, hr, hfit⟩
      exact bottomUp_none hlo (hranges r hr).2.1 hk hs (findSome?_eq_none_iff.1 hf r hr) hfit
    | some d =>
      obtain ⟨before, r, after, hl, hrd, hnone⟩ := findSome?_eq_some_iff.1 hf
      rw [hl] at hranges hsort ⊢
      rcases bottomUp_some hlo (hranges r (by simp)).2.1 hk hrd with hfit | ⟨rfl, hno⟩
      · exact .inl ⟨r, by simp, hfit⟩
      refine .inr ⟨rfl, ?_⟩
      rintro d' ⟨r', hr', hd', h1, h2⟩
      have hlt := (hranges r' hr').2.1
      rcases mem_append.1 hr' with hin | hin
      · exact bottomUp_none hlo hlt hk hs (hnone r' hin) ⟨hd', h1, h2⟩
      · have hle : r.start ≤ r'.start := by
          rcases mem_cons.1 hin with rfl | hin
          · exact le_rfl
          · have := (pairwise_cons.1 (pairwise_append.1 hsort).2.1).1 r' hin
            have := (hranges r (by simp)).1
            omega
        exact hno d' (by omega) (by omega) hd'
  · cases hf : (freeRanges memory.regions reserved.regions).reverse.findSome?
      (topDown size (2 ^ k) lo hi) with
    | none =>
      refine .inr ⟨rfl, ?_⟩
      rintro d' ⟨r, hr, hfit⟩
      exact topDown_none hs (findSome?_eq_none_iff.1 hf r (mem_reverse.2 hr)) hfit
    | some d =>
      obtain ⟨r, hr, hrd⟩ := exists_of_findSome?_eq_some hf
      exact .inl ⟨r, mem_reverse.1 hr, topDown_some hrd⟩

end

/-- A request is answered with a place for it, or with `0` if there is none. -/
def Answered (memory reserved : Collect) (up : Bool) (limit cacheBytes size align rangeStart
    rangeEnd : ℕ) : Prop :=
  let hi := if rangeEnd = MEMBLOCK_ALLOC_ACCESSIBLE then limit else rangeEnd
  let d := requestSizeInRange up limit cacheBytes memory.regions reserved.regions size align
    rangeStart rangeEnd
  Fits memory reserved size align rangeStart hi d ∨
    d = 0 ∧ ∀ d', ¬Fits memory reserved size align rangeStart hi d'

/-- Two bytes over a seam are not found. -/
theorem not_answered_of_seam {x : ℕ} (hx : PAGE_SIZE < x) (h : memory.Seam x)
    (hbefore : x - 1 ∉ reserved.bytes) (hafter : x ∉ reserved.bytes) :
    ¬Answered memory reserved false 0 0 2 (2 ^ 0) (x - 1) (x + 1) := by
  obtain ⟨a, ha, b, hb, hax, hbx⟩ := h
  have ha' := memory.start_lt_stop ha
  have hb' := memory.start_lt_stop hb
  have hne : x + 1 ≠ MEMBLOCK_ALLOC_ACCESSIBLE := by
    unfold MEMBLOCK_ALLOC_ACCESSIBLE
    omega
  have hspec := requestSizeInRange_spec memory reserved false 0 0 (k := 0) (by decide : 0 < 2)
    (by decide) (x - 1) (x + 1)
  -- a range that holds both bytes would lie in one region
  have hno : ∀ d, ¬∃ r ∈ freeRanges memory.regions reserved.regions,
      FitsIn 2 (2 ^ 0) (max (x - 1) PAGE_SIZE) (x + 1) r d := by
    rintro d ⟨r, hr, -, h1, h2⟩
    obtain ⟨c, hc, hcr, hrc⟩ := ((freeRanges_spec memory reserved).1 r hr).2.2.1
    obtain rfl := memory.eq_of_mem (x := x - 1) ha hc (by omega) (by omega)
    omega
  unfold Answered
  simp only [if_neg hne] at hspec ⊢
  obtain ⟨hzero, -⟩ := hspec.resolve_left (hno _)
  rw [hzero]
  rintro (hfit | ⟨-, hnone⟩)
  · have := hfit.window
    unfold PAGE_SIZE at *
    omega
  · refine hnone (x - 1) ⟨one_dvd _, by omega, fun y h1 h2 => ?_⟩
    rcases (by omega : y = x - 1 ∨ y = x) with rfl | rfl
    · exact ⟨⟨a, ha, by omega⟩, hbefore⟩
    · exact ⟨⟨b, hb, by omega⟩, hafter⟩

/-- **Early allocation is sound, and complete up to seams.**  The ranges are those of `memory`
without `reserved` and none is cut off; and every request is answered with a place for it, or with
`0` if there is none, exactly if no free place lies over a seam. -/
theorem request_size_spec (memory reserved : Collect) :
    (∀ n, MEMBLOCK_MAX_ITER_RANGES ≤ n →
      collectRanges true memory.regions (some reserved.regions) .none n =
        freeRanges memory.regions reserved.regions) ∧
    ((freeRanges memory.regions reserved.regions).Pairwise fun r s => r.stop ≤ s.start) ∧
    (∀ x, InRegions (freeRanges memory.regions reserved.regions) x ↔
      x ∈ memory.bytes ∧ x ∉ reserved.bytes) ∧
    ((∀ up limit cacheBytes size k rangeStart rangeEnd, 0 < size → k < 64 →
      Answered memory reserved up limit cacheBytes size (2 ^ k) rangeStart rangeEnd) ↔
      Seamless memory reserved) := by
  obtain ⟨-, hsort, hbytes⟩ := freeRanges_spec memory reserved
  refine ⟨fun n hn => ?_, hsort, hbytes, fun h x hx hseam => ?_, fun h => ?_⟩
  · rw [collectRanges_eq memory reserved hn, freeRanges_eq]
  · by_contra hno
    rw [not_or] at hno
    exact not_answered_of_seam hx hseam hno.1 hno.2 (h _ _ _ _ _ _ _ (by decide) (by decide))
  · intro up limit cacheBytes size k rangeStart rangeEnd hs hk
    unfold Answered
    simp only [fits_iff hs h]
    exact requestSizeInRange_spec memory reserved up limit cacheBytes hs hk rangeStart rangeEnd

/-- The empty table. -/
def noRegions : Collect where
  regions := []
  length_le := by simp
  size_pos := by simp
  stop_lt := by simp
  flags_none := by simp
  sorted := List.Pairwise.nil

/-- The table that is left when `[0x2000, 0x5000)` does not fit: there was one slot for its first
page. -/
def touching : Collect where
  regions := (addRange (pages 127) 0x2000 0x3000 .none).2.regions
  length_le := by decide +kernel
  size_pos := by decide +kernel
  stop_lt := by decide +kernel
  flags_none := by decide +kernel
  sorted := by decide +kernel

/-- Three pages that touch are free, and a request for three pages finds no place. -/
theorem request_size_missed : (addRange (pages 127) 0x2000 0x3000 .none).1 = -ENOMEM ∧
    Fits touching noRegions 0x3000 (2 ^ 12) 0 0x5000 0x1000 ∧
    requestSizeInRange false 0 64 touching.regions noRegions.regions 0x3000 (2 ^ 12) 0 0x5000 =
      0 := by
  have hmem : ∀ i < 3, ⟨0x1000 * i + 0x1000, 0x1000, .none⟩ ∈ touching.regions := by decide +kernel
  refine ⟨by decide +kernel, ⟨by decide, by decide, fun x h1 h2 => ⟨?_, ?_⟩⟩, by decide +kernel⟩
  · have hin := hmem ((x - 0x1000) / 0x1000) (by omega)
    refine ⟨_, hin, ?_, ?_⟩
    · dsimp only
      omega
    · rw [touching.stop_eq hin]
      dsimp only
      omega
  · simp [noRegions, Collect.bytes]

end Intewell.Memblock
