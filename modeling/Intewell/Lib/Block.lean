/-
# Aligned power-of-two blocks and tilings

A block `⟨p, k⟩` is the interval of `2^k` consecutive numbers starting at `p`;
it is aligned when `2^k` divides `p`.  An aligned block has one *buddy*, the block
`p xor 2^k` of the same order: together they are the aligned block of the next
order (`frames_merge`).

A set of aligned blocks tiles a set of numbers when the blocks are pairwise
disjoint and their union is that set.  Cutting a tile into its two halves and
gluing two buddies keep the tiling (`Tiles.split`, `Tiles.merge`); these are the
only moves a buddy allocator makes.
-/

import Mathlib.Data.Nat.Bitwise
import Mathlib.Data.Set.Pairwise.Lattice
import Mathlib.Order.CompletePartialOrder
import Mathlib.Tactic.Ring

namespace Aligned

/-- `2^order` consecutive numbers from `head` on. -/
structure Block where
  head : ℕ
  order : ℕ
deriving DecidableEq, Repr

namespace Block

/-- The numbers of a block. -/
def frames (b : Block) : Set ℕ := Set.Ico b.head (b.head + 2 ^ b.order)

/-- The head of the block is a multiple of its size. -/
def IsAligned (b : Block) : Prop := 2 ^ b.order ∣ b.head

instance (b : Block) : Decidable b.IsAligned := inferInstanceAs (Decidable (_ ∣ _))

theorem mem_frames {b : Block} {f : ℕ} : f ∈ b.frames ↔ b.head ≤ f ∧ f < b.head + 2 ^ b.order :=
  Iff.rfl

theorem head_mem_frames (b : Block) : b.head ∈ b.frames :=
  ⟨le_rfl, Nat.lt_add_of_pos_right (Nat.two_pow_pos _)⟩

/-- A number lies in an aligned block exactly when rounding it down to the
block's size gives the head. -/
theorem mem_frames_iff_div {b : Block} (hb : b.IsAligned) {f : ℕ} :
    f ∈ b.frames ↔ f / 2 ^ b.order * 2 ^ b.order = b.head := by
  obtain ⟨m, hm⟩ := hb
  have hpos : 0 < 2 ^ b.order := Nat.two_pow_pos _
  have hdm := Nat.div_add_mod f (2 ^ b.order)
  have hmod := Nat.mod_lt f hpos
  rw [mem_frames, hm, mul_comm (f / 2 ^ b.order)]
  constructor
  · rintro ⟨h1, h2⟩
    have h3 : m ≤ f / 2 ^ b.order := (Nat.le_div_iff_mul_le hpos).2 (by rw [mul_comm]; exact h1)
    have h4 : f / 2 ^ b.order < m + 1 := (Nat.div_lt_iff_lt_mul hpos).2 (by
      rw [Nat.add_mul, Nat.one_mul, mul_comm m]; exact h2)
    rw [show f / 2 ^ b.order = m by omega]
  · intro h
    omega

end Block

open Set Nat Block

/-- The head of the other half of the block of order `k + 1` around `p`. -/
def buddy (p k : ℕ) : ℕ := p ^^^ 2 ^ k

theorem buddy_mul (m k : ℕ) : buddy (2 ^ k * m) k = 2 ^ k * (m ^^^ 1) := by
  have h := shiftLeft_xor_distrib (a := m) (b := 1) (i := k)
  simp only [shiftLeft_eq, one_mul] at h
  rw [buddy, mul_comm (2 ^ k), mul_comm (2 ^ k), h]

theorem xor_one (m : ℕ) : m ^^^ 1 = if m % 2 = 0 then m + 1 else m - 1 := by
  rcases mod_two_eq_zero_or_one m with h | h
  · rw [if_pos h]
    exact xor_one_of_even (even_iff.2 h)
  · rw [if_neg (by omega)]
    exact xor_one_of_odd (odd_iff.2 h)

theorem buddy_buddy (p k : ℕ) : buddy (buddy p k) k = p := by
  rw [buddy, buddy, Nat.xor_assoc, Nat.xor_self, Nat.xor_zero]

theorem buddy_ne (p k : ℕ) : buddy p k ≠ p := by
  intro h
  have h0 : p ^^^ 2 ^ k ^^^ p = 0 := by rw [show p ^^^ 2 ^ k = p from h, Nat.xor_self]
  rw [Nat.xor_comm, ← Nat.xor_assoc, Nat.xor_self, Nat.zero_xor] at h0
  exact absurd h0 (Nat.two_pow_pos k).ne'

variable {p k : ℕ}

theorem buddy_of_dvd_succ (h : 2 ^ (k + 1) ∣ p) : buddy p k = p + 2 ^ k := by
  obtain ⟨m, rfl⟩ := h
  rw [pow_succ, mul_assoc, buddy_mul, xor_one, if_pos (by omega)]
  ring

/-- Of two buddies the lower one heads the block of the next order, and the
other one is its upper half. -/
theorem min_buddy (h : 2 ^ k ∣ p) :
    2 ^ (k + 1) ∣ min p (buddy p k) ∧ max p (buddy p k) = min p (buddy p k) + 2 ^ k := by
  obtain ⟨m, rfl⟩ := h
  rw [buddy_mul, xor_one, pow_succ]
  rcases mod_two_eq_zero_or_one m with hm | hm
  · rw [if_pos hm]
    have hle : 2 ^ k * m ≤ 2 ^ k * (m + 1) := mul_le_mul_left _ (by omega)
    rw [min_eq_left hle, max_eq_right hle]
    exact ⟨mul_dvd_mul_left _ (dvd_of_mod_eq_zero hm), by ring⟩
  · rw [if_neg (by omega)]
    have hle : 2 ^ k * (m - 1) ≤ 2 ^ k * m := mul_le_mul_left _ (by omega)
    rw [min_eq_right hle, max_eq_left hle]
    refine ⟨mul_dvd_mul_left _ (dvd_of_mod_eq_zero (by omega)), ?_⟩
    rw [← mul_succ, show (m - 1).succ = m by omega]

theorem frames_halves (p k : ℕ) : frames ⟨p, k + 1⟩ = frames ⟨p, k⟩ ∪ frames ⟨p + 2 ^ k, k⟩ := by
  ext f
  simp only [mem_union, mem_frames, pow_succ]
  omega

theorem frames_merge (h : 2 ^ k ∣ p) :
    frames ⟨min p (buddy p k), k + 1⟩ = frames ⟨p, k⟩ ∪ frames ⟨buddy p k, k⟩ := by
  have hmax := (min_buddy h).2
  rw [frames_halves, ← hmax]
  rcases le_total p (buddy p k) with hle | hle
  · rw [min_eq_left hle, max_eq_right hle]
  · rw [min_eq_right hle, max_eq_left hle, union_comm]

theorem disjoint_halves (p k : ℕ) : Disjoint (frames ⟨p, k⟩) (frames ⟨p + 2 ^ k, k⟩) := by
  rw [disjoint_left]
  intro f h1 h2
  rw [mem_frames] at h1 h2
  simp only at h1 h2
  omega

/-- The blocks of `S` are aligned, pairwise disjoint, and make up `M`. -/
structure Tiles (S : Set Block) (M : Set ℕ) : Prop where
  aligned : ∀ b ∈ S, b.IsAligned
  disjoint : S.PairwiseDisjoint frames
  cover : ∀ f, f ∈ M ↔ ∃ b ∈ S, f ∈ b.frames

namespace Tiles

variable {S T : Set Block} {M : Set ℕ}

section
variable (h : Tiles S M)
include h

theorem frames_subset {b : Block} (hb : b ∈ S) : b.frames ⊆ M :=
  fun f hf => (h.cover f).2 ⟨b, hb, hf⟩

theorem eq_of_mem {b c : Block} (hb : b ∈ S) (hc : c ∈ S) {f : ℕ} (hfb : f ∈ b.frames)
    (hfc : f ∈ c.frames) : b = c := by
  by_contra hne
  exact disjoint_left.1 (h.disjoint hb hc hne) hfb hfc

theorem eq_of_head_mem {b c : Block} (hb : b ∈ S) (hc : c ∈ S) (hf : b.head ∈ c.frames) : b = c :=
  h.eq_of_mem hb hc b.head_mem_frames hf

/-- Replacing the tiles `A` by tiles `B` of the same numbers keeps the tiling. -/
theorem replace {A B : Set Block} (hA : A ⊆ S) (hT : T = S \ A ∪ B) (hal : ∀ b ∈ B, b.IsAligned)
    (hdis : B.PairwiseDisjoint frames)
    (hAB : ∀ f, (∃ a ∈ A, f ∈ a.frames) ↔ ∃ b ∈ B, f ∈ b.frames) :
    Tiles T M := by
  subst hT
  have hcross : ∀ c ∈ S \ A, ∀ b ∈ B, Disjoint c.frames b.frames := by
    intro c hc b hb
    rw [disjoint_left]
    intro f hfc hfb
    obtain ⟨a, ha, hfa⟩ := (hAB f).2 ⟨b, hb, hfb⟩
    exact hc.2 (h.eq_of_mem hc.1 (hA ha) hfc hfa ▸ ha)
  refine ⟨?_, ?_, fun f => ?_⟩
  · rintro b (hb | hb)
    · exact h.aligned b hb.1
    · exact hal b hb
  · rintro b (hb | hb) c (hc | hc) hne
    · exact h.disjoint hb.1 hc.1 hne
    · exact hcross b hb c hc
    · exact (hcross c hc b hb).symm
    · exact hdis hb hc hne
  · rw [h.cover f]
    constructor
    · rintro ⟨b, hb, hf⟩
      by_cases hbA : b ∈ A
      · obtain ⟨c, hc, hfc⟩ := (hAB f).1 ⟨b, hbA, hf⟩
        exact ⟨c, .inr hc, hfc⟩
      · exact ⟨b, .inl ⟨hb, hbA⟩, hf⟩
    · rintro ⟨b, hb | hb, hf⟩
      · exact ⟨b, hb.1, hf⟩
      · obtain ⟨a, ha, hfa⟩ := (hAB f).2 ⟨b, hb, hf⟩
        exact ⟨a, hA ha, hfa⟩

theorem split (hb : ⟨p, k + 1⟩ ∈ S) (hT : T = S \ {⟨p, k + 1⟩} ∪ {⟨p, k⟩, ⟨p + 2 ^ k, k⟩}) :
    Tiles T M := by
  have hal : 2 ^ (k + 1) ∣ p := h.aligned _ hb
  have hal' : 2 ^ k ∣ p := dvd_trans (pow_dvd_pow 2 (le_succ k)) hal
  refine h.replace (singleton_subset_iff.2 hb) hT ?_ ?_ fun f => ?_
  · rintro b (rfl | rfl)
    · exact hal'
    · exact Nat.dvd_add hal' dvd_rfl
  · rintro b (rfl | rfl) c (rfl | rfl) hne
    · exact absurd rfl hne
    · exact disjoint_halves p k
    · exact (disjoint_halves p k).symm
    · exact absurd rfl hne
  · simp [frames_halves]

theorem merge (hp : ⟨p, k⟩ ∈ S) (hb : ⟨buddy p k, k⟩ ∈ S)
    (hT : T = S \ {⟨p, k⟩, ⟨buddy p k, k⟩} ∪ {⟨min p (buddy p k), k + 1⟩}) : Tiles T M := by
  have hal : 2 ^ k ∣ p := h.aligned _ hp
  refine h.replace ?_ hT ?_ (pairwiseDisjoint_singleton _ _) fun f => ?_
  · rintro b (rfl | rfl)
    · exact hp
    · exact hb
  · rintro b rfl
    exact (min_buddy hal).1
  · simp [frames_merge hal]

theorem insert {b : Block} (hal : b.IsAligned) (hdis : Disjoint b.frames M) :
    Tiles (insert b S) (M ∪ b.frames) := by
  refine ⟨?_, ?_, fun f => ?_⟩
  · rintro c (rfl | hc)
    · exact hal
    · exact h.aligned c hc
  · refine h.disjoint.insert fun c hc _ => ?_
    exact hdis.mono_right (h.frames_subset hc)
  · rw [mem_union, h.cover f]
    constructor
    · rintro (⟨c, hc, hf⟩ | hf)
      · exact ⟨c, .inr hc, hf⟩
      · exact ⟨b, .inl rfl, hf⟩
    · rintro ⟨c, rfl | hc, hf⟩
      · exact .inr hf
      · exact .inl ⟨c, hc, hf⟩

end

theorem empty : Tiles ∅ ∅ :=
  ⟨fun _ h => absurd h (notMem_empty _), pairwiseDisjoint_empty, fun f => by simp⟩

end Tiles

end Aligned
