/-
# Tables in stock

Unmapping or modifying a part of a block splits it, for which `ptable_alloc` has to supply a
table.  `Supplies A n s` says of the state of the allocator before a call that it has `n`
tables to give, whatever is freed in between; with `MAX_TABLE_LEVEL` of them for each page of
the range no call of `ptable_alloc` fails (`ummapLoop_supplies`).
-/

import Intewell.Mmu.Range

namespace Intewell.Mmu

variable {S : Type} {A : PtAlloc S} {σ σ' : Pt S} {va size n : ℕ} {s : S}

/-- `P n` is kept by `ptable_free`, and by `ptable_alloc` up to one table. -/
structure Stock (A : PtAlloc S) (P : ℕ → S → Prop) : Prop where
  alloc : ∀ n s, P (n + 1) s → ∃ p s', A.alloc s = some (p, s') ∧ P n s'
  free : ∀ n s p, P n s → P n (A.free p s)

/-- At least `n` tables can be allocated. -/
def Supplies (A : PtAlloc S) (n : ℕ) (s : S) : Prop := ∃ P, Stock A P ∧ ∃ m, n ≤ m ∧ P m s

theorem Supplies.mono {m : ℕ} (h : Supplies A n s) (hmn : m ≤ n) : Supplies A m s := by
  obtain ⟨P, hP, k, hk, hs⟩ := h
  exact ⟨P, hP, k, hmn.trans hk, hs⟩

theorem Supplies.free (h : Supplies A n s) (p : ℕ) : Supplies A n (A.free p s) := by
  obtain ⟨P, hP, k, hk, hs⟩ := h
  exact ⟨P, hP, k, hk, hP.free k s p hs⟩

theorem Supplies.alloc (h : Supplies A (n + 1) s) :
    ∃ p s', A.alloc s = some (p, s') ∧ Supplies A n s' := by
  obtain ⟨P, hP, k, hk, hs⟩ := h
  obtain ⟨k, rfl⟩ := Nat.exists_eq_add_one_of_ne_zero (show k ≠ 0 by omega)
  obtain ⟨p, s', ha, hs'⟩ := hP.alloc k s hs
  exact ⟨p, s', ha, P, hP, k, by omega, hs'⟩

end Intewell.Mmu
