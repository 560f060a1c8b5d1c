/-
# Tilings of an interval

A list of blocks tiles the interval from `a` to `z` if each begins where the one
before it ends.  The blocks of a tiling are in ascending order and do not overlap,
and a part of it may be replaced by any tiling of the same interval.
-/

import Mathlib.Algebra.Ring.Nat

namespace Intewell.Tiling

open List

variable {β : Type*} (addr size : β → ℕ)

/-- Each block begins where the one before it ends. -/
def Tiles : ℕ → List β → ℕ → Prop
  | a, [], z => a = z
  | a, b :: l, z => addr b = a ∧ Tiles (a + size b) l z

variable {addr size} {a c z : ℕ} {b x : β} {l l1 l2 mid mid' : List β}

theorem tiles_append :
    Tiles addr size a (l1 ++ l2) z ↔ ∃ c, Tiles addr size a l1 c ∧ Tiles addr size c l2 z := by
  induction l1 generalizing a with
  | nil => simp [Tiles]
  | cons b l1 ih =>
    simp only [cons_append, Tiles, ih]
    exact ⟨fun ⟨hb, c, h1, h2⟩ => ⟨c, ⟨hb, h1⟩, h2⟩, fun ⟨c, ⟨hb, h1⟩, h2⟩ => ⟨hb, c, h1, h2⟩⟩

section
variable (h : Tiles addr size a l z)
include h

theorem Tiles.le : a ≤ z := by
  induction l generalizing a with
  | nil => exact le_of_eq h
  | cons b l ih => exact le_trans (Nat.le_add_right a (size b)) (ih h.2)

theorem Tiles.bounds (hx : x ∈ l) : a ≤ addr x ∧ addr x + size x ≤ z := by
  induction l generalizing a with
  | nil => simp at hx
  | cons b l ih =>
    obtain ⟨hb, hl⟩ := h
    rcases mem_cons.1 hx with rfl | hx
    · exact ⟨le_of_eq hb.symm, hb ▸ hl.le⟩
    · have := ih hl hx
      omega

theorem Tiles.sum : (l.map size).sum = z - a := by
  induction l generalizing a with
  | nil => simp [show a = z from h]
  | cons b l ih =>
    obtain ⟨-, hl⟩ := h
    have := hl.le
    rw [map_cons, sum_cons, ih hl]
    omega

end

theorem Tiles.around (h : Tiles addr size a (l1 ++ mid ++ l2) z) :
    ∃ lo hi, Tiles addr size a l1 lo ∧ Tiles addr size lo mid hi ∧ Tiles addr size hi l2 z := by
  obtain ⟨hi, h1, h2⟩ := tiles_append.1 h
  obtain ⟨lo, h0, h1⟩ := tiles_append.1 h1
  exact ⟨lo, hi, h0, h1, h2⟩

theorem Tiles.dvd {k : ℕ} (h : Tiles addr size a l z) (hl : ∀ x ∈ l, k ∣ size x) (ha : k ∣ a) :
    k ∣ z ∧ ∀ x ∈ l, k ∣ addr x := by
  induction l generalizing a with
  | nil => exact ⟨(show a = z from h) ▸ ha, by simp⟩
  | cons b l ih =>
    obtain ⟨rfl, ht⟩ := h
    obtain ⟨hz, hrest⟩ := ih ht (fun x hx => hl x (.tail _ hx)) (Nat.dvd_add ha (hl b (.head _)))
    refine ⟨hz, fun x hx => ?_⟩
    rcases mem_cons.1 hx with rfl | hx
    · exact ha
    · exact hrest x hx

theorem Tiles.replace {lo hi : ℕ} (h1 : Tiles addr size a l1 lo) (hm : Tiles addr size lo mid' hi)
    (h2 : Tiles addr size hi l2 z) : Tiles addr size a (l1 ++ mid' ++ l2) z :=
  tiles_append.2 ⟨hi, tiles_append.2 ⟨lo, h1, hm⟩, h2⟩

theorem Tiles.eq_of_overlap (h : Tiles addr size a l z) {y : β} (hx : x ∈ l) (hy : y ∈ l)
    (hxy : addr x < addr y + size y) (hyx : addr y < addr x + size x) : x = y := by
  induction l generalizing a with
  | nil => simp at hx
  | cons b l ih =>
    obtain ⟨hb, hl⟩ := h
    rcases mem_cons.1 hx with hxb | hxl <;> rcases mem_cons.1 hy with hyb | hyl
    · rw [hxb, hyb]
    · have := hl.bounds hyl
      rw [hxb] at hxy hyx
      omega
    · have := hl.bounds hxl
      rw [hyb] at hxy hyx
      omega
    · exact ih hl hxl hyl

end Intewell.Tiling
