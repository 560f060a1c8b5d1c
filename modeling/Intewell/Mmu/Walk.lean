/-
# The partial map behind the page tables

`trans σ va` is the physical address and the attributes found by the walk for `va`;
`mmu_v2p_r` and `mmu_get_attr_r` read it off (`mmuV2pR_eq`, `mmuGetAttrR_eq`).  The
tables are the multi-level tables of `Intewell.Lib.Radix` with `512` entries and four
levels; the key of an address is its page number in 48 bits.

`Valid` is the invariant of the tables: no table is used twice, every table is a page
in use, and a block is aligned to its size and never at the root.  Each write of an
operation is one of four: a leaf, a fresh empty table, the table of a block that is
split, and the removal of a table without used entries.
-/

import Intewell.Mmu.Table
import Mathlib.Tactic.IntervalCases

namespace Intewell.Mmu

open Function Nat Radix

/-- The table an entry points to. -/
def next (v : Pte) : Option ℕ := if isTable v then some (entryAddress v) else none

/-- Blocks are below the root and aligned to their size. -/
def EntryOk (h : ℕ) (v : Pte) : Prop :=
  h ≠ 0 → isUsed v = true → isTable v = false → h ≤ 2 ∧ entryAddress v % LEVEL_SIZE h = 0

/-- The page number of an address, in 48 bits. -/
def key (va : ℕ) : ℕ := va / 4096 % 2 ^ 36

/-- What a leaf says about an address. -/
def leafVal (e : ℕ × Pte) (va : ℕ) : Option (ℕ × Pte) :=
  if isUsed e.2 then some (entryAddress e.2 + va % LEVEL_SIZE e.1, entryAttrib e.2) else none

variable {S : Type} {A : PtAlloc S} {σ : Pt S}

/-- The translation of an address: physical address and attributes. -/
def trans (σ : Pt S) (va : ℕ) : Option (ℕ × Pte) :=
  leafVal (walkDown σ.mem va MAX_TABLE_LEVEL σ.root) va

/-- `mmu_v2p_r` returns the physical address, and `0` where there is none. -/
theorem mmuV2pR_eq (σ : Pt S) (va : ℕ) : mmuV2pR σ va = ((trans σ va).map Prod.fst).getD 0 := by
  have hoff (h : ℕ) : va - LEVEL_SIZE_ALIGN h va = va % LEVEL_SIZE h := by
    have := div_add_mod va (LEVEL_SIZE h)
    rw [LEVEL_SIZE_ALIGN, mul_comm]
    omega
  simp only [mmuV2pR, trans, leafVal, hoff]
  split_ifs <;> rfl

/-- `mmu_get_attr_r` returns the attributes, and `0` where there are none. -/
theorem mmuGetAttrR_eq (σ : Pt S) (va : ℕ) :
    mmuGetAttrR σ va = ((trans σ va).map Prod.snd).getD 0 := by
  simp only [mmuGetAttrR, trans, leafVal]
  split_ifs <;> rfl

/-- The tables reached from the root for the addresses with the page number `k`. -/
abbrev TableOn (σ : Pt S) (h k p : ℕ) : Prop :=
  Reach next 512 σ.mem σ.root MAX_TABLE_LEVEL h (k / 512 ^ (h + 1)) p

/-- The invariant of the tables. -/
def Valid (A : PtAlloc S) (σ : Pt S) : Prop :=
  WF next 512 EntryOk (A.inUse σ.alloc) σ.root MAX_TABLE_LEVEL σ.mem

theorem LEVEL_SIZE_pos (h : ℕ) : 0 < LEVEL_SIZE h := Nat.two_pow_pos _

theorem key_lt (va : ℕ) : key va < 2 ^ 36 := mod_lt _ (by decide)

theorem getTableOff_eq {h : ℕ} (hh : h ≤ 3) (va : ℕ) :
    GET_TABLE_OFF h va = key va / 512 ^ h % 512 := by
  unfold GET_TABLE_OFF key LEVEL_SIZE
  interval_cases h <;> norm_num <;> omega

theorem tableOn_root (σ : Pt S) (va : ℕ) : TableOn σ 3 (key va) σ.root := by
  have h0 : key va / 512 ^ (3 + 1) = 0 := div_eq_of_lt (key_lt va)
  unfold TableOn
  rw [h0]
  exact Reach.root

theorem walkDown_eq {h : ℕ} (hh : h ≤ 3) (mem : ℕ → ℕ → Pte) (va p : ℕ) :
    walkDown mem va h p = walk next 512 mem h p (key va) := by
  induction h generalizing p with
  | zero => simp [walkDown, walk, getTableOff_eq]
  | succ h ih =>
    rw [walkDown, walk, getTableOff_eq hh, next]
    split_ifs with ht
    · exact ih (by omega) _
    · rfl

theorem trans_eq (σ : Pt S) (va : ℕ) :
    trans σ va = leafVal (walk next 512 σ.mem MAX_TABLE_LEVEL σ.root (key va)) va := by
  rw [trans, walkDown_eq (show MAX_TABLE_LEVEL ≤ 3 from le_rfl)]

/-- The leaf of an entry, if it is used. -/
def leafOf (e : ℕ × Pte) : Option (ℕ × Pte) := if isUsed e.2 then some e else none

/-- The height and the descriptor of the leaf for a page number, where there is one. -/
def leafAt (σ : Pt S) (k : ℕ) : Option (ℕ × Pte) :=
  leafOf (walk next 512 σ.mem MAX_TABLE_LEVEL σ.root k)

theorem leafVal_eq (e : ℕ × Pte) (va : ℕ) : leafVal e va =
    (leafOf e).map fun e => (entryAddress e.2 + va % LEVEL_SIZE e.1, entryAttrib e.2) := by
  unfold leafVal leafOf
  split_ifs <;> rfl

theorem trans_congr {τ : Pt S} (h : ∀ k < 2 ^ 36, leafAt τ k = leafAt σ k) (va : ℕ) :
    trans τ va = trans σ va := by
  have hk := h (key va) (key_lt va)
  unfold leafAt at hk
  rw [trans_eq, trans_eq, leafVal_eq, leafVal_eq, hk]

/-- The distance from `va` up to `va'`, in the 48 bits of an address that are translated. -/
def vaDist (va va' : ℕ) : ℕ := (va' + 2 ^ 64 - va) % 2 ^ 48

theorem key_div_eq_iff {g va va' : ℕ} (hg : g ≤ 3) (hva : va < 2 ^ 64)
    (hal : va % LEVEL_SIZE g = 0) :
    key va' / 512 ^ g = key va / 512 ^ g ↔ vaDist va va' < LEVEL_SIZE g := by
  unfold key vaDist
  unfold LEVEL_SIZE at *
  interval_cases g <;> norm_num at * <;> omega

theorem key_div_of_le {g h k k' : ℕ} (hgh : g ≤ h) (hk : k' / 512 ^ g = k / 512 ^ g) :
    k' / 512 ^ h = k / 512 ^ h := by
  obtain ⟨d, rfl⟩ := Nat.exists_eq_add_of_le hgh
  rw [pow_add, ← Nat.div_div_eq_div_mul, ← Nat.div_div_eq_div_mul, hk]

section

variable {h p k : ℕ} {v : Pte}

theorem next_of_isTable (hv : isTable v = true) : next v = some (entryAddress v) := if_pos hv

theorem next_of_not_isTable (hv : isTable v = false) : next v = none := by simp [next, hv]

/-- **Writing a leaf**: the keys under the entry read it, the others read what they
read before. -/
theorem Valid.setLeaf (hσ : Valid A σ) (hr : TableOn σ h k p) (hv : h = 0 ∨ isTable v = false)
    (hok : EntryOk h v) : Valid A (σ.entrySet p (k / 512 ^ h % 512) v) ∧
    ∀ k' < 2 ^ 36, walk next 512 (σ.entrySet p (k / 512 ^ h % 512) v).mem MAX_TABLE_LEVEL σ.root
      k' =
      if k' / 512 ^ h = k / 512 ^ h then (h, v)
      else walk next 512 σ.mem MAX_TABLE_LEVEL σ.root k' := by
  refine ⟨WF.write_leaf hσ hr (hv.imp_right next_of_not_isTable) hok, fun k' hk' => ?_⟩
  split_ifs with he
  · have hpre : k' / 512 ^ (h + 1) = k / 512 ^ (h + 1) := key_div_of_le (le_succ h) he
    rw [Pt.entrySet, ← he, hσ.walk_write_eq hr hpre]
    cases h with
    | zero => rfl
    | succ h =>
      rcases hv with hv | hv
      · exact absurd hv (succ_ne_zero h)
      · simp [resume, next_of_not_isTable hv]
  · refine hσ.walk_write_ne (by decide) hr Reach.root (div_eq_of_lt hk') (Or.inl ?_)
    rwa [slot_eq rfl]

/-- **Attaching a fresh table of leaves**: the keys under the entry read its leaves. -/
theorem Valid.attach (hσ : Valid A σ) (hr : TableOn σ (h + 1) k p) {page : ℕ} {s : S}
    (ha : A.alloc σ.alloc = some (page, s)) {f : ℕ → Pte}
    (hf : h = 0 ∨ ∀ i < 512, isTable (f i) = false) (hok : ∀ i < 512, EntryOk h (f i)) {τ : Pt S}
    (hτ : τ = { σ with
      mem := write (update σ.mem page f) p (k / 512 ^ (h + 1) % 512) (TABLE_DESC page)
      alloc := s }) : Valid A τ ∧ TableOn τ h k page ∧
    ∀ k' < 2 ^ 36, walk next 512 τ.mem MAX_TABLE_LEVEL τ.root k' =
      if k' / 512 ^ (h + 1) = k / 512 ^ (h + 1) then (h, f (k' / 512 ^ h % 512))
      else walk next 512 σ.mem MAX_TABLE_LEVEL σ.root k' := by
  have hfresh := A.alloc_fresh ha
  obtain ⟨hal, hlt⟩ := A.alloc_page ha
  have hnext : next (TABLE_DESC page) = some page := by
    rw [next_of_isTable (isTable_TABLE_DESC page), entryAddress_TABLE_DESC hal hlt]
  -- the page is not in use yet, so its contents do not matter
  have hm : ∀ {h' pre q}, Reach next 512 σ.mem σ.root MAX_TABLE_LEVEL h' pre q →
      update σ.mem page f q = σ.mem q := by
    intro h' pre q hq
    have hne : q ≠ page := fun he => hfresh (he ▸ hσ.used hq)
    rw [update_of_ne hne]
  have hσ1 : WF next 512 EntryOk (A.inUse σ.alloc) σ.root MAX_TABLE_LEVEL
      (update σ.mem page f) := WF.congr hm hσ
  have hr1 := (reach_congr hm).2 hr
  have hpage : update σ.mem page f page = f := update_self _ _ _
  have hokT : EntryOk (h + 1) (TABLE_DESC page) := fun _ _ ht =>
    absurd (isTable_TABLE_DESC page) (by simp [ht])
  have hv : Valid A τ := by
    have := hσ1.attach hr1 (i := k / 512 ^ (h + 1) % 512) hfresh hnext hokT
      (by rw [hpage]; exact hf.imp_right fun h i hi => next_of_not_isTable (h i hi))
      (by rw [hpage]; exact hok)
    rw [← A.alloc_inUse ha] at this
    rw [hτ]
    exact this
  have hon : TableOn τ h k page := by
    -- the new table is the one on the walks under the pointer
    have := Reach.down (hσ1.reach_write hr1 hr1 le_rfl)
      (mod_lt (k / 512 ^ (h + 1)) (by decide : 0 < 512))
      (by rw [write_self, hnext])
    rw [slot_eq rfl] at this
    rw [hτ]
    exact this
  refine ⟨hv, hon, fun k' hk' => ?_⟩
  split_ifs with he
  · rw [hon.walk_eq he, walk_eq_resume]
    have hne : page ≠ p := fun hp => hfresh (hp ▸ hσ.used hr)
    have hentry : τ.mem page (k' / 512 ^ h % 512) = f (k' / 512 ^ h % 512) := by
      rw [hτ]
      simp only [write_table_ne _ _ _ hne, hpage]
    rw [hentry]
    cases h with
    | zero => rfl
    | succ h =>
      rcases hf with hf | hf
      · exact absurd hf (succ_ne_zero h)
      · simp [resume, next_of_not_isTable (hf _ (mod_lt _ (by decide)))]
  · rw [hτ]
    simp only
    rw [hσ1.walk_write_ne (by decide) hr1 Reach.root (div_eq_of_lt hk')
      (Or.inl (by rwa [slot_eq rfl]))]
    exact walk_congr hm (by decide) Reach.root

end

end Intewell.Mmu
