/-
# Matching the events of a history

If in every initial part of a history there are at least as many events of one kind as of
another, then each event of the second kind can be given one of the first that came before it,
in order, so that none is given twice.
-/

import Mathlib.Data.Nat.Nth

namespace Intewell.Matching

open Nat

variable {α : Type*} {p q : α → Bool} {l : List α}

/-- In every initial part there are at least as many events of `p` as of `q`. -/
def Covered (p q : α → Bool) (l : List α) : Prop := ∀ l', l' <+: l → l'.countP q ≤ l'.countP p

theorem covered_nil : Covered p q [] := fun l' h => by
  rw [List.prefix_nil.1 h]
  exact le_rfl

theorem Covered.concat (h : Covered p q l) {a : α}
    (ha : (l ++ [a]).countP q ≤ (l ++ [a]).countP p) : Covered p q (l ++ [a]) := by
  intro l' hl'
  rcases List.prefix_concat_iff.1 hl' with rfl | hl'
  · exact ha
  · exact h l' hl'

/-- The `i`-th event is one of `p`. -/
def At (p : α → Bool) (l : List α) (i : ℕ) : Prop := ((l[i]?).map p).getD false = true

instance : DecidablePred (At p l) := fun _ => inferInstanceAs (Decidable (_ = true))

theorem count_at (p : α → Bool) (l : List α) (n : ℕ) : count (At p l) n = (l.take n).countP p := by
  have hone (o : Option α) : (if (o.map p).getD false = true then 1 else 0) =
    o.toList.countP p := by
    cases o with
    | none => simp
    | some a => by_cases ha : p a = true <;> simp [ha]
  induction n with
  | zero => simp
  | succ n ih =>
    rw [count_succ, ih, List.take_add_one, List.countP_append]
    exact congrArg _ (hone l[n]?)

/-- **A covered history has a matching:** an earlier event of `p` for each of `q`, in order. -/
theorem Covered.exists_matching (h : Covered p q l) (hd : ∀ a, q a = true → p a = false) :
    ∃ f : ℕ → ℕ, (∀ i, At q l i → At p l (f i) ∧ f i < i) ∧
      ∀ i j, At q l i → At q l j → i < j → f i < f j := by
  have hlt (i : ℕ) (hi : At q l i) : count (At q l) i < count (At p l) i := by
    have hnot : ¬At p l i := by
      unfold At at hi ⊢
      cases hn : l[i]? with
      | none => simp
      | some a => simpa [hn] using hd a (by simpa [hn] using hi)
    have hc := h _ (List.take_prefix (i + 1) l)
    rw [← count_at, ← count_at, count_succ, count_succ, if_pos hi, if_neg hnot] at hc
    omega
  have hcard (n i : ℕ) (hn : n < count (At p l) i) (hf : (Set.ofPred (At p l)).Finite) :
      n < hf.toFinset.card := by
    rw [count_eq_card_filter_range] at hn
    refine hn.trans_le (Finset.card_le_card fun j hj => ?_)
    exact hf.mem_toFinset.2 (Finset.mem_filter.1 hj).2
  refine ⟨fun i => nth (At p l) (count (At q l) i), fun i hi => ⟨?_, ?_⟩, fun i j hi hj hij => ?_⟩
  · exact nth_mem _ (hcard _ i (hlt i hi))
  · exact nth_lt_of_lt_count (hlt i hi)
  · refine nth_lt_nth' ?_ (hcard _ j (hlt j hj))
    exact count_strict_mono hi hij

end Intewell.Matching
