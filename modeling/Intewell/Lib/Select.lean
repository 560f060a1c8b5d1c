/-
# Taking the first elements of a kind out of a list

A scan that takes the elements satisfying `p` out of a list and stops after `n` of them: what it
takes (`picked`) and what it leaves (`left`).  A bound that is at least the length of the list is
no bound.
-/

import Mathlib.Data.List.Perm.Basic

namespace Intewell.Select

open List

variable {α : Type*} (p : α → Prop) [DecidablePred p]

/-- The first `n` elements that satisfy `p`. -/
def picked (n : ℕ) (l : List α) : List α := (l.filter (p ·)).take n

/-- What remains, in the same order. -/
def left : ℕ → List α → List α
  | _, [] => []
  | n, a :: l => if p a ∧ 0 < n then left (n - 1) l else a :: left n l

variable {p} {n : ℕ} {a : α} {l : List α}

@[simp] theorem picked_nil : picked p n [] = [] := by simp [picked]

@[simp] theorem left_nil : left p n [] = [] := rfl

theorem picked_cons_of_pos (h : p a) : picked p (n + 1) (a :: l) = a :: picked p n l := by
  simp [picked, h]

theorem picked_cons_of_neg (h : ¬p a) : picked p n (a :: l) = picked p n l := by
  simp [picked, h]

theorem left_cons_of_pos (h : p a) : left p (n + 1) (a :: l) = left p n l := by
  simp [left, h]

theorem left_cons_of_neg (h : ¬p a) : left p n (a :: l) = a :: left p n l := by
  simp [left, h]

@[simp] theorem picked_zero : picked p 0 l = [] := by simp [picked]

@[simp] theorem left_zero : left p 0 l = l := by
  induction l with
  | nil => rfl
  | cons a l ih => simp [left, ih]

theorem of_mem_picked (h : a ∈ picked p n l) : a ∈ l ∧ p a := by
  simpa using mem_filter.1 (mem_of_mem_take h)

theorem picked_append_left_perm (n : ℕ) (l : List α) : (picked p n l ++ left p n l).Perm l := by
  induction l generalizing n with
  | nil => simp
  | cons a l ih =>
    by_cases h : p a
    · cases n with
      | zero => simp
      | succ n =>
        rw [picked_cons_of_pos h, left_cons_of_pos h]
        exact (ih n).cons a
    · rw [picked_cons_of_neg h, left_cons_of_neg h]
      exact perm_middle.trans ((ih n).cons a)

theorem left_sublist (n : ℕ) (l : List α) : (left p n l).Sublist l := by
  induction l generalizing n with
  | nil => simp
  | cons a l ih =>
    by_cases h : p a ∧ 0 < n
    · simpa [left, h] using (ih (n - 1)).cons a
    · simpa [left, h] using ih n

theorem filter_left (n : ℕ) (l : List α) : (left p n l).filter (p ·) = (l.filter (p ·)).drop n := by
  induction l generalizing n with
  | nil => simp
  | cons a l ih =>
    by_cases h : p a
    · cases n with
      | zero => simp
      | succ n => rw [left_cons_of_pos h, ih, filter_cons_of_pos (by simpa), drop_succ_cons]
    · rw [left_cons_of_neg h, filter_cons_of_neg (by simpa), filter_cons_of_neg (by simpa), ih]

/-! ## A bound that 0 takes off

The bound of a scan may be given by a number of which 0 means that there is none. -/

/-- What is taken. -/
def taken (n : ℕ) (l : List α) : List α := if n = 0 then l else l.take n

/-- What is not. -/
def rest (n : ℕ) (l : List α) : List α := if n = 0 then [] else l.drop n

theorem taken_of_pos (h : 0 < n) : taken n l = l.take n := if_neg (Nat.ne_of_gt h)

theorem taken_eq_take (h : n = 0 → l = []) : taken n l = l.take n := by
  rcases Nat.eq_zero_or_pos n with rfl | hn
  · simp [taken, h rfl]
  · exact taken_of_pos hn

theorem rest_eq_drop (h : n = 0 → l = []) : rest n l = l.drop n := by
  rcases Nat.eq_zero_or_pos n with rfl | hn
  · simp [rest, h rfl]
  · exact if_neg (Nat.ne_of_gt hn)

variable {f : α → Prop} [DecidablePred f]

/-- The elements of a second kind, if all of the first `n` are of it. -/
theorem length_filter_of_take (h : ∀ a ∈ l.take n, f a) :
    (l.filter (f ·)).length = (l.take n).length + ((l.drop n).filter (f ·)).length := by
  conv_lhs => rw [← take_append_drop n l]
  rw [filter_append, length_append, filter_eq_self.2 (by simpa using h)]

/-- **When a scan takes as many elements of a second kind as it is asked to.**  The bound must not
be 0, unless there is nothing to take, and what is taken must be of that kind. -/
theorem taken_exact_iff : ((taken n l).length = ((taken n l).filter (f ·)).length ∧
      ((taken n l).filter (f ·)).length = min n (l.filter (f ·)).length) ↔
    (n = 0 → l = []) ∧ ∀ a ∈ l.take n, f a := by
  constructor
  · rintro ⟨h1, h2⟩
    have hf := length_filter_eq_length_iff.1 h1.symm
    rcases Nat.eq_zero_or_pos n with rfl | hn
    · refine ⟨fun _ => eq_nil_of_length_eq_zero ?_, by simp⟩
      change l.length = _ at h1
      rw [h1, h2, Nat.zero_min]
    · rw [taken_of_pos hn] at hf
      exact ⟨fun h => absurd h (Nat.ne_of_gt hn), by simpa using hf⟩
  · rintro ⟨h0, hf⟩
    have hl := length_filter_of_take hf
    have hd : ((l.drop n).filter (f ·)).length ≤ (l.drop n).length := length_filter_le ..
    rw [taken_eq_take h0, filter_eq_self.2 (by simpa using hf)]
    rw [length_drop] at hd
    rw [length_take] at hl ⊢
    omega

/-- The same of two scans, one after the other. -/
theorem taken_rest_exact_iff {m : ℕ} : ((taken n l).length + (taken m (rest n l)).length =
        ((taken n l).filter (f ·)).length + ((taken m (rest n l)).filter (f ·)).length ∧
      ((taken n l).filter (f ·)).length = min n (l.filter (f ·)).length ∧
      ((taken m (rest n l)).filter (f ·)).length =
        min m ((l.filter (f ·)).length - ((taken n l).filter (f ·)).length)) ↔
    (n = 0 → l = []) ∧ (m = 0 → l.drop n = []) ∧ ∀ a ∈ l.take (n + m), f a := by
  rw [take_add]
  simp only [mem_append, or_imp, forall_and]
  -- once the first scan is exact, the second one has what remains of that kind before it
  have hrem : (n = 0 → l = []) → (∀ a ∈ l.take n, f a) →
      (l.filter (f ·)).length - ((taken n l).filter (f ·)).length =
        ((l.drop n).filter (f ·)).length := by
    intro h0 hf
    have hself : (l.take n).filter (f ·) = l.take n := filter_eq_self.2 (by simpa using hf)
    rw [length_filter_of_take hf, taken_eq_take h0, hself, Nat.add_sub_cancel_left]
  constructor
  · rintro ⟨h, h1, h2⟩
    have hw : ((taken n l).filter (f ·)).length ≤ (taken n l).length := length_filter_le ..
    have hm : ((taken m (rest n l)).filter (f ·)).length ≤ (taken m (rest n l)).length :=
      length_filter_le ..
    obtain ⟨h0, hf⟩ := taken_exact_iff.1 ⟨show (taken n l).length = _ by omega, h1⟩
    have h3 : (taken m (rest n l)).length = ((taken m (rest n l)).filter (f ·)).length := by omega
    rw [hrem h0 hf] at h2
    rw [rest_eq_drop h0] at h2 h3
    obtain ⟨h0', hf'⟩ := taken_exact_iff.1 ⟨h3, h2⟩
    exact ⟨h0, h0', hf, hf'⟩
  · rintro ⟨h0, h0', hf, hf'⟩
    obtain ⟨h1, h2⟩ := taken_exact_iff.2 ⟨h0, hf⟩
    obtain ⟨h3, h4⟩ := taken_exact_iff.2 ⟨h0', hf'⟩
    rw [hrem h0 hf, rest_eq_drop h0]
    exact ⟨by omega, h2, h4⟩

end Intewell.Select
