/-
# Words as sets

A word of `w` bits as a set of numbers below `w`, bit `i` from the least significant one for the
number `i`: single elements, and the least one.
-/

import Mathlib.Tactic.Common

namespace Intewell.WordSet

open BitVec

variable {w : ℕ} {x y : BitVec w} {i j : ℕ}

/-- The least element. -/
def least (x : BitVec w) : Option ℕ := (List.range w).find? fun i => x.getLsbD i

theorem getLsbD_bit (hj : j < w) : (1#w <<< i).getLsbD j = decide (j = i) := by
  rw [← twoPow_eq, getLsbD_twoPow]
  by_cases h : j = i
  · subst h
    simp [hj]
  · simp [h, Ne.symm h]

theorem getLsbD_add (hj : j < w) :
    (x ||| 1#w <<< i).getLsbD j = (x.getLsbD j || decide (j = i)) := by
  rw [getLsbD_or, getLsbD_bit hj]

theorem getLsbD_del (hj : j < w) :
    (x &&& ~~~(1#w <<< i)).getLsbD j = (x.getLsbD j && !decide (j = i)) := by
  rw [getLsbD_and, getLsbD_not, getLsbD_bit hj]
  simp [hj]

theorem eq_zero_iff : x = 0 ↔ ∀ i < w, x.getLsbD i = false := by
  constructor
  · rintro rfl i -
    simp
  · intro h
    refine eq_of_getLsbD_eq fun i hi => ?_
    simp [h i hi]

theorem and_bit_ne_zero (hi : i < w) : x &&& 1#w <<< i ≠ 0 ↔ x.getLsbD i = true := by
  rw [ne_eq, eq_zero_iff]
  constructor
  · intro h
    by_contra hx
    refine h fun j hj => ?_
    rw [getLsbD_and, getLsbD_bit hj]
    by_cases hij : j = i
    · subst hij
      simp [hx]
    · simp [hij]
  · intro hx h
    have := h i hi
    rw [getLsbD_and, getLsbD_bit hi, hx] at this
    simp at this

theorem least_eq_some_iff :
    least x = some i ↔ i < w ∧ x.getLsbD i = true ∧ ∀ j < i, x.getLsbD j = false := by
  rw [least, List.find?_range_eq_some]
  simp only [List.mem_range, Bool.not_eq_true']
  tauto

end Intewell.WordSet
