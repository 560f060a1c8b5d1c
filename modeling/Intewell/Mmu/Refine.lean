/-
# The page tables refine a partial map

A state of the tables is reachable if it arises from `arm_mmu_init` by calls of
`mmu_map_r`, `mmu_unmap_r` and `arm_mmu_modify` with any arguments and any outcome, while
the rest of the system allocates, frees and writes pages other than the tables.  In
every such state the three calls are the operations on the partial map that they stand
for (`tables_refine_map`).
-/

import Intewell.Mmu.Range

namespace Intewell.Mmu

open Radix Option Function

variable {S : Type} {A : PtAlloc S} {σ σ' : Pt S}

/-- `arm_mmu_init` of a user space: an empty root table. -/
def armMmuInit (A : PtAlloc S) (mem : ℕ → ℕ → Pte) (s : S) : Option (Pt S) :=
  (A.alloc s).map fun (page, s') => Pt.ptableClear ⟨mem, page, s', 0⟩ page

/-- One call on the tables, or anything else that leaves their pages alone. -/
inductive Step (A : PtAlloc S) (σ : Pt S) : Pt S → Prop where
  | map (va pa size : ℕ) (attr : Pte) : Step A σ (mmuMapR A va pa size attr σ).2
  | unmap {ret : ℤ} {σ' : Pt S} (n va size : ℕ) (h : mmuUnmapR A n va size σ = some (ret, σ')) :
      Step A σ σ'
  | modify {ret : ℤ} {σ' : Pt S} (n va size : ℕ) (memAttr : Pte)
      (h : armMmuModify A n va size memAttr σ = some (ret, σ')) : Step A σ σ'
  | other {σ' : Pt S} (hroot : σ'.root = σ.root)
      (hmem : ∀ {h pre p}, Reach next 512 σ.mem σ.root MAX_TABLE_LEVEL h pre p →
        σ'.mem p = σ.mem p ∧ p ∈ A.inUse σ'.alloc) : Step A σ σ'

/-- The states that arise from `arm_mmu_init`. -/
def Reachable (A : PtAlloc S) (σ : Pt S) : Prop :=
  ∃ mem s σ₀, armMmuInit A mem s = some σ₀ ∧ Relation.ReflTransGen (Step A) σ₀ σ

theorem armMmuInit_valid {mem : ℕ → ℕ → Pte} {s : S} (h : armMmuInit A mem s = some σ) :
    Valid A σ := by
  obtain ⟨⟨page, s'⟩, ha, rfl⟩ := map_eq_some_iff.1 h
  have hzero : ∀ i, update mem page (fun _ => 0) page i = (0 : Pte) := by simp
  -- the root has no pointers, so it is the only table
  have honly : ∀ {h pre p}, Reach next 512 (update mem page fun _ => 0) page
      MAX_TABLE_LEVEL h pre p → h = MAX_TABLE_LEVEL ∧ pre = 0 ∧ p = page := by
    intro h pre p hr
    induction hr with
    | root => exact ⟨rfl, rfl, rfl⟩
    | down _ _ hq ih =>
      rw [ih.2.2, hzero, next_of_not_isTable (isTable_of_unused isUsed_zero)] at hq
      exact absurd hq (by simp)
  refine ⟨fun h1 h2 => ?_, fun h1 => ?_, fun h1 i _ => ?_⟩
  · obtain ⟨rfl, rfl, -⟩ := honly h1
    obtain ⟨rfl, rfl, -⟩ := honly h2
    exact ⟨rfl, rfl⟩
  · rw [(honly h1).2.2]
    change page ∈ A.inUse s'
    rw [A.alloc_inUse ha]
    exact Or.inl rfl
  · rw [(honly h1).2.2]
    change EntryOk _ (update mem page (fun _ => 0) page i)
    rw [hzero]
    exact entryOk_unused isUsed_zero _

theorem mapLoop_valid {t count va pa : ℕ} {attr : Pte} (hσ : Valid A σ) (ht : t ≤ 2)
    (hva : va % LEVEL_SIZE t = 0) (hpa : pa % LEVEL_SIZE t = 0) :
    Valid A (mapLoop A t attr count va pa σ).2 := by
  induction count generalizing va pa σ with
  | zero => exact hσ
  | succ count ih =>
    have hone := (mapSingleEntryR_spec attr hσ ht hva hpa).valid
    rw [mapLoop]
    simp only
    split_ifs
    · exact hone
    · exact ih hone (add_level_aligned ht hva) (add_level_aligned ht hpa)

theorem mmuMapR_valid (hσ : Valid A σ) (va pa size : ℕ) (attr : Pte) :
    Valid A (mmuMapR A va pa size attr σ).2 := by
  have ht : GET_MAP_LEVEL va pa size ≤ 2 := by
    unfold GET_MAP_LEVEL
    split_ifs <;> omega
  rw [mmuMapR]
  split_ifs with hpa hva
  · exact hσ
  · exact hσ
  · exact mapLoop_valid hσ ht (by simpa [IS_LEVEL_ALIGN] using hva)
      (by simpa [IS_LEVEL_ALIGN] using hpa)

theorem ummapSingleEntryR_valid {size : ℕ} (va : ℕ) (isUnmap : Bool) (newAttr : Pte)
    (hσ : Valid A σ) (hpos : 0 < size) :
    Valid A (ummapSingleEntryR A va size isUnmap newAttr σ).2 := by
  by_cases hal : va % 4096 = 0 ∧ size % 4096 = 0
  · exact (ummapSingleEntryR_spec isUnmap newAttr hσ hal.1 hal.2 hpos).valid
  · have : IS_LEVEL_ALIGN 0 va = false ∨ IS_LEVEL_ALIGN 0 size = false := by
      rcases not_and_or.1 hal with h | h
      · exact Or.inl (decide_eq_false h)
      · exact Or.inr (decide_eq_false h)
    rw [ummapSingleEntryR]
    rcases this with h | h
    · rwa [if_pos h]
    · rw [if_pos h]
      split_ifs <;> exact hσ

theorem ummapLoop_valid {isUnmap : Bool} {newAttr : Pte} {stop ret : ℤ} {n va size : ℕ}
    (hσ : Valid A σ) (h : ummapLoop A isUnmap newAttr stop n va size σ = some (ret, σ')) :
    Valid A σ' := by
  induction n generalizing va size σ with
  | zero =>
    cases size with
    | zero => exact (Prod.mk.inj (some.inj h)).2 ▸ hσ
    | succ size => exact absurd h (by simp [ummapLoop])
  | succ n ih =>
    cases size with
    | zero => exact (Prod.mk.inj (some.inj h)).2 ▸ hσ
    | succ size =>
      have hone := ummapSingleEntryR_valid va isUnmap newAttr hσ (Nat.succ_pos size)
      rw [ummapLoop] at h
      simp only at h
      split_ifs at h
      · exact (Prod.mk.inj (some.inj h)).2 ▸ hone
      · exact ih hone h

theorem Valid.step (hσ : Valid A σ) (h : Step A σ σ') : Valid A σ' := by
  cases h with
  | map va pa size attr => exact mmuMapR_valid hσ va pa size attr
  | unmap n va size h => exact ummapLoop_valid hσ h
  | modify n va size memAttr h => exact ummapLoop_valid hσ h
  | other hroot hmem =>
    have hwf := WF.congr (fun hr => (hmem hr).1) hσ
    unfold Valid
    rw [hroot]
    exact ⟨hwf.inj, fun hr => (hmem ((reach_congr fun hr => (hmem hr).1).1 hr)).2, hwf.entries⟩

theorem Reachable.valid (h : Reachable A σ) : Valid A σ := by
  obtain ⟨mem, s, σ0, h0, hrun⟩ := h
  induction hrun with
  | refl => exact armMmuInit_valid h0
  | tail _ hstep ih => exact ih.step hstep

/-- **The tables refine a partial map.**  In a reachable state, and for a page-aligned
range of at most `2^48` bytes: `mmu_map_r`, when it returns `0`, has overridden the map on
the range by `va + i ↦ pa + i`; where the range is mapped throughout and no page for a
table was wanting, `mmu_unmap_r` has removed exactly the range and `arm_mmu_modify` has
changed exactly its attributes.  Physical addresses are taken in the 48 bits, and
attributes in the bits, that a descriptor has for them. -/
theorem tables_refine_map (hσ : Reachable A σ) (va pa size n : ℕ) (attr memAttr : Pte)
    (hlt : va < 2 ^ 64) (hva : va % 4096 = 0) (hpa : pa % 4096 = 0) (hs : size % 4096 = 0)
    (hsize : size ≤ 2 ^ 48) (hn : size / 4096 ≤ n) : ((mmuMapR A va pa size attr σ).1 = 0 →
      trans (mmuMapR A va pa size attr σ).2 =
        onRange va size (fun i _ => some ((pa + i) % 2 ^ 48, attr &&& ENTRY_ATTRIB_MASK))
          (trans σ)) ∧ ((∀ v, vaDist va v < size → trans σ v ≠ none) →
      (∃ σ', mmuUnmapR A n va size σ = some (0, σ') ∧
        (σ'.failed = σ.failed → trans σ' = onRange va size (fun _ _ => none) (trans σ))) ∧
      (∃ ret σ', armMmuModify A n va size memAttr σ = some (ret, σ') ∧
        (σ'.failed = σ.failed → ret = 0 ∧
          trans σ' = onRange va size (fun _ t => t.map fun e => (e.1, attr2mmu memAttr))
            (trans σ)))) := by
  have hv := hσ.valid
  refine ⟨fun hret => ?_, fun hmapped => ⟨?_, ?_⟩⟩
  · have hspec := mmuMapR_spec attr hv hlt hva hpa hs hsize
    rcases hspec.result with ⟨-, h⟩ | ⟨h, -⟩
    · rw [hspec.trans_eq, h]
      rfl
    · rw [h] at hret
      exact absurd hret (by decide)
  · obtain ⟨ret, σ', hrun, hres⟩ := ummapLoop_spec true 0 0 hv hlt hva hs hsize hn
    obtain rfl : ret = 0 := by
      obtain ⟨j, -, -, -, -, ⟨-, h⟩ | ⟨-, h, -⟩⟩ := hres.result <;> exact h
    exact ⟨σ', hrun, fun hf => (hres.complete hlt hsize hmapped hf).2⟩
  · obtain ⟨ret, σ', hrun, hres⟩ := ummapLoop_spec false (attr2mmu memAttr) (-1) hv hlt hva hs
      hsize hn
    refine ⟨ret, σ', hrun, fun hf => ?_⟩
    obtain ⟨hret, htr⟩ := hres.complete hlt hsize hmapped hf
    have hch : change false (attr2mmu memAttr) = Option.map fun e => (e.1, attr2mmu memAttr) := by
      funext t
      simp [change, attr2mmu_mask]
    rw [hch] at htr
    exact ⟨hret, htr⟩

/-- An allocator that hands out the pages from some number on, one after the other. -/
def countingAlloc : PtAlloc (ℕ × List ℕ) where
  alloc s :=
    if s.1 < 2 ^ 36 ∧ s.1 * 4096 ∉ s.2 then some (s.1 * 4096, s.1 + 1, s.1 * 4096 :: s.2) else none
  free p s := (s.1, s.2.filter (· ≠ p))
  inUse s := {p | p ∈ s.2}
  alloc_fresh h := by
    split_ifs at h with hc
    cases h
    exact hc.2
  alloc_inUse h := by
    split_ifs at h with hc
    cases h
    ext q
    simp
  alloc_page h := by
    split_ifs at h with hc
    cases h
    omega
  free_inUse := by
    intro s p
    ext q
    simp

/-- An empty address space with its root at page `1`. -/
def emptySpace : Pt (ℕ × List ℕ) := ⟨fun _ _ => 0, 4096, (2, [4096]), 0⟩

theorem emptySpace_reachable : Reachable countingAlloc emptySpace := by
  refine ⟨fun _ _ => 0, (1, []), emptySpace, ?_, Relation.ReflTransGen.refl⟩
  simp [armMmuInit, countingAlloc, Pt.ptableClear, emptySpace]

/-- A 2 MiB block, and a page unmapped inside of it. -/
theorem tables_refine_map_block :
    trans (mmuMapR countingAlloc 0x200000 0x40000000 0x200000 0 emptySpace).2 =
      onRange 0x200000 0x200000
        (fun i _ => some ((0x40000000 + i) % 2 ^ 48, 0 &&& ENTRY_ATTRIB_MASK)) (trans emptySpace) ∧
    ∃ σ', mmuUnmapR countingAlloc 1 0x201000 0x1000
        (mmuMapR countingAlloc 0x200000 0x40000000 0x200000 0 emptySpace).2 = some (0, σ') ∧
      (σ'.failed = (mmuMapR countingAlloc 0x200000 0x40000000 0x200000 0 emptySpace).2.failed →
        trans σ' = onRange 0x201000 0x1000 (fun _ _ => none)
          (trans (mmuMapR countingAlloc 0x200000 0x40000000 0x200000 0 emptySpace).2)) := by
  have hret : (mmuMapR countingAlloc 0x200000 0x40000000 0x200000 0 emptySpace).1 = 0 := by
    decide +kernel
  have hmap := (tables_refine_map emptySpace_reachable 0x200000 0x40000000 0x200000 512 0 0
    (by decide)
    (by decide) (by decide) (by decide) (by decide) (by decide)).1 hret
  have hreach : Reachable countingAlloc
      (mmuMapR countingAlloc 0x200000 0x40000000 0x200000 0 emptySpace).2 := by
    obtain ⟨mem, s, σ0, h0, hrun⟩ := emptySpace_reachable
    exact ⟨mem, s, σ0, h0, hrun.tail (Step.map _ _ _ _)⟩
  refine ⟨hmap, ((tables_refine_map hreach 0x201000 0 0x1000 1 0 0 (by decide) (by decide)
    (by decide) (by decide) (by decide) (by decide)).2 fun v hv => ?_).1⟩
  have hin : vaDist 0x200000 v < 0x200000 := by
    have hrest := vaDist_rest (l := 0x1000) (v := v) (by decide : 0x200000 < 2 ^ 64) (by decide)
    rw [show (0x200000 + 0x1000) % 2 ^ 64 = 0x201000 from rfl] at hrest
    split_ifs at hrest <;> omega
  rw [hmap, onRange, if_pos hin]
  simp

/-- A physical address of more than 48 bits is mapped without an error, to its low 48
bits. -/
theorem mmuMapR_truncates : Reachable countingAlloc emptySpace ∧
    (mmuMapR countingAlloc 0x1000 (2 ^ 48 + 0x5000) 0x1000 0 emptySpace).1 = 0 ∧
    (mmuMapR countingAlloc 0x1000 (2 ^ 48 + 0x5000) 0x1000 0 emptySpace).2.failed = 0 ∧
    mmuV2pR (mmuMapR countingAlloc 0x1000 (2 ^ 48 + 0x5000) 0x1000 0 emptySpace).2 0x1000 =
      0x5000 := ⟨emptySpace_reachable, by decide +kernel, by decide +kernel, by decide +kernel⟩

end Intewell.Mmu
