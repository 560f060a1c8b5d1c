/-
# Bitmaps of non-empty queues

A word whose bit `i`, counted from the most significant one, says that queue `i` holds
something.  The number of leading zeros of the word is then the first queue that does.
-/

import Mathlib.Tactic.Common

namespace Intewell.Bitmap

open BitVec

variable {w : ℕ} {x : BitVec w} {i j : ℕ} {P Q : ℕ → Prop}

/-- The number of leading zeros: the index of the first bit that is set, or the width. -/
def first (x : BitVec w) : ℕ := ((List.range w).find? fun i => x.getMsbD i).getD w

/-- The word with bit `i` set only. -/
def bit (w i : ℕ) : BitVec w := intMin w >>> i

def set (x : BitVec w) (i : ℕ) : BitVec w := x ||| bit w i

def clear (x : BitVec w) (i : ℕ) : BitVec w := x &&& ~~~bit w i

theorem getMsbD_bit (hj : j < w) : (bit w i).getMsbD j = decide (j = i) := by
  simp only [bit, getMsbD_ushiftRight, getMsbD_intMin, hj, decide_true, Bool.true_and]
  by_cases h : j = i
  · simp [h]; omega
  · simp [h]; omega

/-- The bits that are set are those of the queues of `P`. -/
def Marks (x : BitVec w) (P : ℕ → Prop) : Prop := ∀ i < w, x.getMsbD i = true ↔ P i

theorem marks_zero (hP : ∀ i < w, ¬P i) : Marks (0 : BitVec w) P := fun i hi => by simp [hP i hi]

section
variable (h : Marks x P)
include h

theorem Marks.congr (hPQ : ∀ i < w, Q i ↔ P i) : Marks x Q :=
  fun i hi => (h i hi).trans (hPQ i hi).symm

theorem Marks.set (hi : Q i) (hQ : ∀ j, j ≠ i → (Q j ↔ P j)) : Marks (set x i) Q := by
  intro j hj
  rw [Bitmap.set, getMsbD_or, getMsbD_bit hj]
  by_cases he : j = i
  · simp [he, hi]
  · simp [he, h j hj, hQ j he]

theorem Marks.clear (hi : ¬Q i) (hQ : ∀ j, j ≠ i → (Q j ↔ P j)) : Marks (clear x i) Q := by
  intro j hj
  rw [Bitmap.clear, getMsbD_and, getMsbD_not, getMsbD_bit hj]
  by_cases he : j = i
  · simp [he, hi]
  · simp [he, hj, h j hj, hQ j he]

/-- **The leading zeros lead to the first queue that holds something.** -/
theorem Marks.first_eq (hi : i < w) (hP : P i) (hlt : ∀ j < i, ¬P j) : first x = i := by
  have hf : (List.range w).find? (x.getMsbD) = some i := by
    rw [List.find?_range_eq_some]
    refine ⟨(h i hi).2 hP, List.mem_range.2 hi, fun j hj => ?_⟩
    simpa using (not_congr (h j (Nat.lt_trans hj hi))).2 (hlt j hj)
  rw [first, hf, Option.getD_some]

end

end Intewell.Bitmap
