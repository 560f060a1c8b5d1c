/-
# Difference-coded queues

A queue of waiting things may keep, in each node, only the ticks that it waits longer
than the node before it.  Read from an instant `t`, the node then stands for an
absolute instant: `t` plus the differences up to it (`times`).

The three changes such a queue knows are changes of the absolute instants of one
thing: `insert` puts one instant in its place (`times_insert`), `remove` takes one out
(`times_remove`), and `advance` splits the list at an instant (`advance_due`,
`times_advance`).  Nothing else moves.
-/

import Mathlib.Data.List.Sort

namespace Intewell.DeltaQueue

open Prod List

variable {α : Type*}

/-- The instants that the nodes of a queue stand for, read from `t` on. -/
def times : ℕ → List (α × ℕ) → List (α × ℕ)
  | _, [] => []
  | t, (a, d) :: q => (a, t + d) :: times (t + d) q

/-- Insertion of `a`, which waits `w`: past every node at which `stop` does not hold,
with the rest of the waiting time less the node's, and before the first at which it
does, whose difference shrinks. -/
def insert (stop : ℕ → ℕ → Prop) [DecidableRel stop] (a : α) : ℕ → List (α × ℕ) → List (α × ℕ)
  | w, [] => [(a, w)]
  | w, (b, d) :: q =>
    if stop w d then (a, w) :: (b, d - w) :: q else (b, d) :: insert stop a (w - d) q

/-- The first node waits `d` longer. -/
def delay (d : ℕ) : List (α × ℕ) → List (α × ℕ)
  | [] => []
  | (b, e) :: q => (b, e + d) :: q

/-- Removal of `a`: the next node takes over its difference. -/
def remove [DecidableEq α] (a : α) : List (α × ℕ) → List (α × ℕ)
  | [] => []
  | (b, d) :: q => if b = a then delay d q else (b, d) :: remove a q

/-- `n` ticks pass: the nodes that are due, and what is left of the queue. -/
def advance : ℕ → List (α × ℕ) → List α × List (α × ℕ)
  | _, [] => ([], [])
  | n, (a, d) :: q =>
    if n < d then ([], (a, d - n) :: q) else (a :: (advance (n - d) q).1, (advance (n - d) q).2)

/-- A place to stop at is a node that waits at least as long, and is told from the
difference of the two waiting times. -/
structure Stops (stop : ℕ → ℕ → Prop) : Prop where
  le {w d} : stop w d → w ≤ d
  ge {w d} : ¬stop w d → d ≤ w
  add {t w d} : stop (t + w) (t + d) ↔ stop w d

theorem stops_lt : Stops (· < ·) := ⟨fun h => h.le, Nat.le_of_not_lt, Nat.add_lt_add_iff_left⟩

theorem stops_le : Stops (· ≤ ·) := ⟨id, (Nat.le_total _ _).resolve_left,
  Nat.add_le_add_iff_left⟩

variable {t n d : ℕ} {a : α} {x : α × ℕ} {q : List (α × ℕ)}

@[simp] theorem times_nil : times t ([] : List (α × ℕ)) = [] := rfl

@[simp] theorem times_cons : times t ((a, d) :: q) = (a, t + d) :: times (t + d) q := rfl

@[simp] theorem map_fst_times (t : ℕ) (q : List (α × ℕ)) : (times t q).map fst = q.map fst := by
  induction q generalizing t with
  | nil => rfl
  | cons x q ih => rw [times, map_cons, map_cons, ih]

theorem le_of_mem_times (h : x ∈ times t q) : t ≤ x.2 := by
  induction q generalizing t with
  | nil => simp at h
  | cons y q ih =>
    rcases mem_cons.1 h with rfl | h
    · exact Nat.le_add_right t y.2
    · exact le_trans (Nat.le_add_right t y.2) (ih h)

theorem lt_of_mem_times_cons (hn : n < d) (h : x ∈ times t ((a, d) :: q)) : t + n < x.2 := by
  rcases mem_cons.1 h with rfl | h
  · exact Nat.add_lt_add_left hn t
  · have := le_of_mem_times h
    omega

theorem times_add (t s : ℕ) (q : List (α × ℕ)) :
    times (t + s) q = (times t q).map fun x => (x.1, x.2 + s) := by
  induction q generalizing t with
  | nil => rfl
  | cons x q ih =>
    obtain ⟨a, d⟩ := x
    simp only [times_cons, map_cons]
    rw [← ih, Nat.add_right_comm]

theorem times_delay (t d : ℕ) (q : List (α × ℕ)) : times t (delay d q) = times (t + d) q := by
  cases q with
  | nil => rfl
  | cons x q =>
    rw [delay, times_cons, times_cons, show t + (x.2 + d) = t + d + x.2 by omega]

variable {stop : ℕ → ℕ → Prop}

/-- **Insertion puts one instant in its place** and leaves the others. -/
theorem times_insert [DecidableRel stop] (h : Stops stop) (a : α) (t w : ℕ) (q : List (α × ℕ)) :
    times t (insert stop a w q) =
      (times t q).orderedInsert (fun x y => stop x.2 y.2) (a, t + w) := by
  induction q generalizing t w with
  | nil => rfl
  | cons x q ih =>
    obtain ⟨b, d⟩ := x
    by_cases hs : stop w d
    · have : t + w + (d - w) = t + d := by have := h.le hs; omega
      rw [insert, if_pos hs, times_cons, times_cons, times_cons, this]
      exact (if_pos (h.add.2 hs)).symm
    · have : t + d + (w - d) = t + w := by have := h.ge hs; omega
      rw [insert, if_neg hs, times_cons, times_cons, ih, this]
      exact (if_neg fun hs' => hs (h.add.1 hs')).symm

/-- **Removal takes one instant out** and leaves the others. -/
theorem times_remove [DecidableEq α] (a : α) (t : ℕ) (q : List (α × ℕ)) :
    times t (remove a q) = (times t q).eraseP fun x => decide (x.1 = a) := by
  induction q generalizing t with
  | nil => rfl
  | cons x q ih =>
    obtain ⟨b, d⟩ := x
    by_cases hb : b = a
    · simp [remove, hb, times_delay]
    · simp [remove, hb, ih]

theorem mem_times_insert [DecidableRel stop] (h : Stops stop) {w : ℕ} :
    x ∈ times t (insert stop a w q) ↔ x = (a, t + w) ∨ x ∈ times t q := by
  rw [times_insert h, mem_orderedInsert]

theorem keys_insert [DecidableRel stop] (h : Stops stop) (a : α) (w : ℕ) (q : List (α × ℕ)) :
    ((insert stop a w q).map fst).Perm (a :: q.map fst) := by
  rw [← map_fst_times 0, times_insert h, ← map_fst_times 0 q]
  exact (perm_orderedInsert _ _ _).map fst

theorem keys_remove [DecidableEq α] (a : α) (q : List (α × ℕ)) :
    (remove a q).map fst = (q.map fst).erase a := by
  rw [← map_fst_times 0, times_remove, ← map_fst_times 0 q]
  generalize times 0 q = l
  induction l with
  | nil => rfl
  | cons x l ih =>
    by_cases hx : x.1 = a
    · simp [hx]
    · simp [hx, ih]

theorem mem_times_remove [DecidableEq α] (hq : (q.map fst).Nodup) :
    x ∈ times t (remove a q) ↔ x.1 ≠ a ∧ x ∈ times t q := by
  rw [times_remove]
  rw [← map_fst_times t] at hq
  generalize times t q = l at hq
  induction l with
  | nil => simp
  | cons y l ih =>
    obtain ⟨hy, hl⟩ := nodup_cons.1 hq
    by_cases hya : y.1 = a
    · rw [eraseP_cons_of_pos (by simpa using hya), mem_cons]
      refine ⟨fun hx => ⟨fun hxa => hy ?_, .inr hx⟩, ?_⟩
      · rw [hya, ← hxa]
        exact mem_map_of_mem hx
      · rintro ⟨hxa, rfl | hx⟩
        · exact absurd hya hxa
        · exact hx
    · rw [eraseP_cons_of_neg (by simpa using hya), mem_cons, mem_cons, ih hl]
      refine ⟨?_, ?_⟩
      · rintro (rfl | ⟨hxa, hx⟩)
        · exact ⟨hya, .inl rfl⟩
        · exact ⟨hxa, .inr hx⟩
      · rintro ⟨hxa, rfl | hx⟩
        · exact .inl rfl
        · exact .inr ⟨hxa, hx⟩

/-- **The nodes that come due are those whose instants have passed**, in their order. -/
theorem advance_due (t n : ℕ) (q : List (α × ℕ)) :
    (advance n q).1 = ((times t q).filter fun x => x.2 ≤ t + n).map fst := by
  induction q generalizing t n with
  | nil => rfl
  | cons x q ih =>
    obtain ⟨a, d⟩ := x
    by_cases hn : n < d
    · rw [advance, if_pos hn, filter_eq_nil_iff.2 fun x hx => by
        simpa using lt_of_mem_times_cons hn hx]
      rfl
    · have : t + d + (n - d) = t + n := by omega
      rw [advance, if_neg hn, times_cons, filter_cons_of_pos (by simp; omega), ih (t + d), this]
      rfl

/-- **The instants of what is left are the ones still to come.** -/
theorem times_advance (t n : ℕ) (q : List (α × ℕ)) :
    times (t + n) (advance n q).2 = (times t q).filter fun x => t + n < x.2 := by
  induction q generalizing t n with
  | nil => rfl
  | cons x q ih =>
    obtain ⟨a, d⟩ := x
    by_cases hn : n < d
    · rw [advance, if_pos hn, filter_eq_self.2 fun x hx => by
        simpa using lt_of_mem_times_cons hn hx, times_cons, times_cons,
        show t + n + (d - n) = t + d by omega]
    · have : t + d + (n - d) = t + n := by omega
      rw [advance, if_neg hn, times_cons, filter_cons_of_neg (by simp; omega), ← this, ih]

end Intewell.DeltaQueue
