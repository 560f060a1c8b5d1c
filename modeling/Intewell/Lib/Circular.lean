/-
# Positions in a circular buffer

Positions count up for ever, and position `i` of a buffer of `size` cells is the cell
`i % size`.  Two positions less than `size` apart are different cells, so that a write at one of
them leaves what is read at the others.
-/

import Mathlib.Data.Nat.ModEq

namespace Intewell.Circular

open Nat Function List

variable {α : Type*} {size : ℕ} {data : ℕ → α} {a b i j m n : ℕ}

/-- The elements at the `n` positions from `a` on. -/
def span (size : ℕ) (data : ℕ → α) (a n : ℕ) : List α :=
  (range n).map fun i => data ((a + i) % size)

@[simp] theorem span_zero : span size data a 0 = [] := rfl

theorem span_succ : span size data a (n + 1) = span size data a n ++ [data ((a + n) % size)] := by
  simp [span, range_succ]

theorem span_add : span size data a (m + n) = span size data a m ++ span size data (a + m) n := by
  simp [span, range_add, add_assoc, comp_def]

theorem span_split (ha : a ≤ m) (hb : m ≤ b) :
    span size data a (b - a) = span size data a (m - a) ++ span size data m (b - m) := by
  have hsum : b - a = (m - a) + (b - m) := by omega
  rw [hsum, span_add, Nat.add_sub_cancel' ha]

theorem eq_of_mod_eq (hi : a ≤ i) (hi' : i < a + size) (hj : a ≤ j) (hj' : j < a + size)
    (h : i % size = j % size) : i = j := by
  wlog hij : i ≤ j generalizing i j
  · exact (this hj hj' hi hi' h.symm (by omega)).symm
  have hmod : (j - i) % size = 0 := sub_mod_eq_zero_of_mod_eq h.symm
  rw [mod_eq_of_lt (by omega)] at hmod
  omega

/-- A write within the window that has all the positions read, and at none of them. -/
theorem span_update {x : α} (hm : m ≤ a) (ha : a + n ≤ m + size) (hj : m ≤ j)
    (hj' : j < m + size) (hne : j < a ∨ a + n ≤ j) :
    span size (update data (j % size) x) a n = span size data a n := by
  refine map_congr_left fun i hi => ?_
  rw [mem_range] at hi
  refine update_of_ne (fun h => ?_) x data
  have := eq_of_mod_eq (by omega) (by omega) hj hj' h
  omega

/-- The next position of which the cell is the first one. -/
def up (size a : ℕ) : ℕ := a + (size - a % size)

theorem lt_up (h : 0 < size) : a < up size a := by
  have := mod_lt a h
  unfold up
  omega

theorem up_le : up size a ≤ a + size := by
  unfold up
  omega

theorem up_mod (h : 0 < size) : up size a % size = 0 := by
  have hlt := mod_lt a h
  have hdiv := div_add_mod a size
  have hup : up size a = size * (a / size + 1) := by
    unfold up
    rw [mul_add]
    omega
  rw [hup, mul_mod_right]

theorem add_mod_of_le (hi : i < n) (h : a % size + n ≤ size) : (a + i) % size = a % size + i := by
  rw [add_mod, mod_eq_of_lt (by omega : i < size), mod_eq_of_lt (by omega)]

end Intewell.Circular
