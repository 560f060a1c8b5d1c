/-
# Undoing a mapping

`mm_region_map` undoes a mapping by unmapping its whole range.  A range that `mmu_map_r` has
just mapped consists of leaves of one size, aligned to it, so `mmu_unmap_r` splits no block,
allocates no table and does not stop before the end (`unmap_after_map`).  What the range
translated to before it was mapped is lost.  `map_found_unmapped` says so of what the callers of
`mmu_v2p_r` and `mmu_get_attr_r` see.
-/

import Intewell.Mmu.Refine

namespace Intewell.Mmu

open Nat Radix

variable {S : Type} {A : PtAlloc S} {σ : Pt S} {t va pa size : ℕ} {attr : Pte}

/-- The page has a leaf of height `t`. -/
def HasLeaf (t : ℕ) (σ : Pt S) (k : ℕ) : Prop := ∃ d, leafAt σ k = some (t, d)

theorem EntryMapped.hasLeaf {ret : ℤ} {σ' : Pt S}
    (h : EntryMapped A t va (leafDesc t attr pa) σ ret σ') (hret : ret = 0) {k : ℕ}
    (hk : k < 2 ^ 36) :
    (k / 512 ^ t = key va / 512 ^ t → HasLeaf t σ' k) ∧ (HasLeaf t σ k → HasLeaf t σ' k) := by
  have hleaf := h.ok hret k hk
  rw [leafOf, if_pos (isUsed_leafDesc t attr pa)] at hleaf
  refine ⟨fun hu => ⟨_, by rw [hleaf, if_pos hu]⟩, fun hold => ?_⟩
  obtain ⟨d, hd⟩ := hold
  unfold HasLeaf
  rw [hleaf]
  split_ifs
  · exact ⟨_, rfl⟩
  · exact ⟨d, hd⟩

theorem mapLoop_hasLeaf {count : ℕ} (hσ : Valid A σ) (ht : t ≤ 2) (hlt : va < 2 ^ 64)
    (hva : va % LEVEL_SIZE t = 0) (hpa : pa % LEVEL_SIZE t = 0)
    (hsize : count * LEVEL_SIZE t ≤ 2 ^ 48) (hret : (mapLoop A t attr count va pa σ).1 = 0) :
    (∀ v, vaDist va v < count * LEVEL_SIZE t →
      HasLeaf t (mapLoop A t attr count va pa σ).2 (key v)) ∧
    ∀ k < 2 ^ 36, HasLeaf t σ k → HasLeaf t (mapLoop A t attr count va pa σ).2 k := by
  induction count generalizing va pa σ with
  | zero => exact ⟨fun v hv => by omega, fun k _ h => h⟩
  | succ count ih =>
    have hone := mapSingleEntryR_spec attr hσ ht hva hpa
    have hpos := LEVEL_SIZE_pos t
    rw [succ_mul] at hsize ⊢
    rw [mapLoop] at hret ⊢
    generalize mapSingleEntryR A t va pa attr σ = r at hone hret
    obtain ⟨ret, τ⟩ := r
    simp only at hone hret ⊢
    rcases hone.ret_cases with rfl | rfl
    · rw [if_neg (by simp)] at hret ⊢
      obtain ⟨hrest, hkeep⟩ := ih hone.valid (mod_lt (va + LEVEL_SIZE t) (by decide))
        (add_level_aligned ht hva) (add_level_aligned ht hpa) (by omega) hret
      refine ⟨fun v hv => ?_, fun k hk h => hkeep k hk ((hone.hasLeaf rfl hk).2 h)⟩
      by_cases hfirst : vaDist va v < LEVEL_SIZE t
      · exact hkeep _ (key_lt v) ((hone.hasLeaf rfl (key_lt v)).1
          ((key_div_eq_iff (by omega) hlt hva).2 hfirst))
      · refine hrest v ?_
        rw [vaDist_rest hlt (by omega), if_pos (by omega)]
        omega
    · rw [if_pos (by simp)] at hret
      exact absurd hret (by simp)

theorem HasLeaf.height {k h p : ℕ} (hleaf : HasLeaf t σ k) (hon : TableOn σ h k p)
    (hv : h = 0 ∨ isTable (σ.mem p (k / 512 ^ h % 512)) = false) :
    isUsed (σ.mem p (k / 512 ^ h % 512)) = true ∧ h = t := by
  obtain ⟨d, hd⟩ := hleaf
  rw [leafAt, walk_leaf hon hv rfl, leafOf] at hd
  split_ifs at hd with hu
  exact ⟨hu, (Prod.mk.inj (Option.some.inj hd)).1⟩

/-- **A leaf that is unmapped as a whole** takes no table, and no other leaf changes. -/
theorem ummapDown_whole (size : ℕ) (newAttr : Pte) (hσ : Valid A σ) {h p : ℕ} {above : List ℕ}
    (hp : PathTo σ (key va) h p above) (hh : h ≤ 3) (hleaf : HasLeaf t σ (key va)) (ht : t ≤ 2)
    (hal : va % LEVEL_SIZE t = 0) (hsize : LEVEL_SIZE t ≤ size) :
    (ummapDown A va size true newAttr h p above σ).1 = LEVEL_SIZE t ∧
    (ummapDown A va size true newAttr h p above σ).2.failed = σ.failed ∧
    ∀ k < 2 ^ 36, leafAt (ummapDown A va size true newAttr h p above σ).2 k =
      if k / 512 ^ t = key va / 512 ^ t then none else leafAt σ k := by
  have hoff : GET_TABLE_OFF h va = key va / 512 ^ h % 512 := getTableOff_eq hh va
  have hgone : ∀ n value, leafOf (n, newDesc true newAttr n value) = none := fun n value =>
    leafOf_unused isUsed_zero
  induction h generalizing p above with
  | zero =>
    obtain ⟨hu, rfl⟩ := hleaf.height (hp.tableOn (key_lt va)) (.inl rfl)
    rw [ummapDown]
    simp only [hoff]
    rw [if_neg (by rw [hu]; decide)]
    obtain ⟨h1, -, -, h4, h5⟩ := ummapLeaf_leafAt hσ hp ht rfl hu (.inl rfl) true newAttr
    exact ⟨h1, h4, fun k hk => by rw [h5 k hk, hgone]⟩
  | succ h ih =>
    rw [ummapDown]
    simp only [hoff]
    cases htab : isTable (σ.mem p (key va / 512 ^ (h + 1) % 512)) with
    | true =>
      rw [if_neg (by simp [isUsed_of_isTable htab]), if_pos rfl]
      exact ih ⟨hh, htab, rfl, hp⟩ (by omega) (getTableOff_eq (by omega) va)
    | false =>
      obtain ⟨hu, rfl⟩ := hleaf.height (hp.tableOn (key_lt va)) (.inr htab)
      have hal' : IS_LEVEL_ALIGN (h + 1) va = true := decide_eq_true hal
      rw [if_neg (by simp [hu]), if_neg (by simp), if_neg (by simp [hal', hsize])]
      obtain ⟨h1, -, -, h4, h5⟩ := ummapLeaf_leafAt hσ hp ht rfl hu (.inr htab) true newAttr
      exact ⟨h1, h4, fun k hk => by rw [h5 k hk, hgone]⟩

/-- **A range of leaves that are unmapped as a whole.** -/
theorem ummapLoop_whole {n count : ℕ} (hσ : Valid A σ) (ht : t ≤ 2) (hlt : va < 2 ^ 64)
    (hva : va % LEVEL_SIZE t = 0) (hsize : count * LEVEL_SIZE t ≤ 2 ^ 48) (hn : count ≤ n)
    (hleaf : ∀ v, vaDist va v < count * LEVEL_SIZE t → HasLeaf t σ (key v)) :
    ∃ σ', ummapLoop A true 0 0 n va (count * LEVEL_SIZE t) σ = some (0, σ') ∧
      σ'.failed = σ.failed := by
  induction count generalizing n va σ with
  | zero =>
    refine ⟨σ, ?_, rfl⟩
    rw [zero_mul]
    cases n <;> rfl
  | succ count ih =>
    obtain ⟨n, rfl⟩ := exists_eq_add_one_of_ne_zero (show n ≠ 0 by omega)
    have hpos := LEVEL_SIZE_pos t
    have hL : LEVEL_SIZE t % 4096 = 0 := page_dvd_LEVEL_SIZE (mod_self _)
    have hva0 : IS_LEVEL_ALIGN 0 va = true := decide_eq_true (page_dvd_LEVEL_SIZE hva)
    rw [succ_mul] at hsize hleaf ⊢
    set total := count * LEVEL_SIZE t + LEVEL_SIZE t with htotal
    have hs : total % 4096 = 0 := by
      refine page_dvd_LEVEL_SIZE (h := t) ?_
      rw [htotal, ← succ_mul, mul_mod_left]
    have hs0 : IS_LEVEL_ALIGN 0 total = true := decide_eq_true hs
    have hfirst : HasLeaf t σ (key va) := hleaf va (by unfold vaDist; omega)
    have hspec := ummapSingleEntryR_spec true 0 hσ (page_dvd_LEVEL_SIZE hva) hs (by omega)
    have hroot : PathTo σ (key va) MAX_TABLE_LEVEL σ.root [] := ⟨rfl, rfl⟩
    obtain ⟨hdone, hfailed, hkeep⟩ := ummapDown_whole total 0 hσ hroot
      le_rfl hfirst ht hva (by omega)
    have hcall : ummapSingleEntryR A va total true 0 σ =
        ummapDown A va total true 0 MAX_TABLE_LEVEL σ.root [] σ := by
      rw [ummapSingleEntryR, if_neg (by simp [hva0]), if_neg (by simp [hs0])]
    obtain ⟨size, hsz⟩ := exists_eq_add_one_of_ne_zero (show total ≠ 0 by omega)
    rw [hsz, ummapLoop, ← hsz, hcall]
    rw [hcall] at hspec
    generalize ummapDown A va total true 0 MAX_TABLE_LEVEL σ.root []
      σ = r at hdone hfailed hkeep hspec
    obtain ⟨done, τ⟩ := r
    simp only at hdone hfailed hkeep hspec ⊢
    subst hdone
    rw [if_neg hpos.ne', show (total + 2 ^ 64 - LEVEL_SIZE t) % 2 ^ 64 =
      count * LEVEL_SIZE t by omega]
    obtain ⟨σ', hrun, hf⟩ := ih hspec.valid (mod_lt (va + LEVEL_SIZE t) (by decide))
      (add_level_aligned ht hva) (by omega) (show count ≤ n by omega) fun v hv => by
        have hfar : LEVEL_SIZE t ≤ vaDist va v ∧ vaDist va v < total := by
          rw [vaDist_rest hlt (by omega)] at hv
          split_ifs at hv with hge
          · omega
          · omega
        obtain ⟨d, hd⟩ := hleaf v hfar.2
        refine ⟨d, ?_⟩
        rw [hkeep _ (key_lt v), if_neg, hd]
        rw [key_div_eq_iff (by omega) hlt hva]
        omega
    exact ⟨σ', hrun, hf.trans hfailed⟩

/-- **What `mmu_map_r` has mapped, `mmu_unmap_r` unmaps.** -/
theorem unmap_after_map {n : ℕ} (hσ : Valid A σ) (hlt : va < 2 ^ 64) (hva : va % 4096 = 0)
    (hpa : pa % 4096 = 0) (hs : size % 4096 = 0) (hsize : size ≤ 2 ^ 48) (hn : size / 4096 ≤ n)
    (hret : (mmuMapR A va pa size attr σ).1 = 0) :
    ∃ σ', mmuUnmapR A n va size (mmuMapR A va pa size attr σ).2 = some (0, σ') ∧ Valid A σ' ∧
      trans σ' = onRange va size (fun _ _ => none) (trans σ) := by
  obtain ⟨ht, hva', hpa', hs'⟩ := GET_MAP_LEVEL_spec hva hpa hs
  set t := GET_MAP_LEVEL va pa size with hlevel
  have hspec := mmuMapR_spec attr hσ hlt hva hpa hs hsize
  have hcount := Nat.div_mul_cancel (Nat.dvd_of_mod_eq_zero hs')
  have hmapped : trans (mmuMapR A va pa size attr σ).2 =
      onRange va size (mapped pa attr) (trans σ) := by
    rcases hspec.result with ⟨-, h⟩ | ⟨h, -⟩
    · rw [hspec.trans_eq, h]
    · rw [h] at hret
      exact absurd hret (by decide)
  have hloop : mmuMapR A va pa size attr σ = mapLoop A t attr (size / LEVEL_SIZE t) va pa σ := by
    rw [mmuMapR, if_neg (by simp [IS_LEVEL_ALIGN, ← hlevel, hpa']),
      if_neg (by simp [IS_LEVEL_ALIGN, ← hlevel, hva'])]
  rw [hloop] at hret hmapped ⊢
  obtain ⟨hleaf, -⟩ := mapLoop_hasLeaf hσ ht hlt hva' hpa' (by rw [hcount]; exact hsize) hret
  have hvalid : Valid A (mapLoop A t attr (size / LEVEL_SIZE t) va pa σ).2 := hloop ▸ hspec.valid
  generalize (mapLoop A t attr (size / LEVEL_SIZE t) va pa σ).2 = τ at hmapped hleaf hvalid ⊢
  have hle : size / LEVEL_SIZE t ≤ n := by
    have hpage : 2 ^ 12 ≤ LEVEL_SIZE t :=
      Nat.pow_le_pow_right (by decide) (Nat.le_add_right 12 _)
    exact (div_le_div_left hpage (by decide)).trans hn
  obtain ⟨σ', hrun, hfailed⟩ := ummapLoop_whole hvalid ht hlt hva' (by rw [hcount]; exact hsize) hle
    hleaf
  rw [hcount] at hrun
  obtain ⟨ret', σ'', hrun', hchanged⟩ := ummapLoop_spec true 0 0 hvalid hlt hva hs hsize hn
  cases hrun.symm.trans hrun'
  refine ⟨σ', hrun, hchanged.valid, ?_⟩
  obtain ⟨-, htr⟩ := hchanged.complete hlt hsize (fun v hv => by
    rw [hmapped, onRange, if_pos hv]
    simp [mapped]) hfailed
  rw [htr, hmapped]
  funext v
  simp only [onRange]
  split_ifs <;> rfl

/-- **What is mapped is found, and unmapped again.**  After `mmu_map_r` has mapped a range,
`mmu_v2p_r` and `mmu_get_attr_r` return its physical addresses and its attributes in the range, and
outside what they returned before; `mmu_unmap_r` of the range then needs no table, and nothing of it
is left. -/
theorem map_found_unmapped (hσ : Reachable A σ) (va pa size n : ℕ) (attr : Pte) (hlt : va < 2 ^ 64)
    (hva : va % 4096 = 0) (hpa : pa % 4096 = 0) (hs : size % 4096 = 0) (hsize : size ≤ 2 ^ 48)
    (hn : size / 4096 ≤ n) (hret : (mmuMapR A va pa size attr σ).1 = 0) :
    (∀ v, mmuV2pR (mmuMapR A va pa size attr σ).2 v =
        (if vaDist va v < size then (pa + vaDist va v) % 2 ^ 48 else mmuV2pR σ v) ∧
      mmuGetAttrR (mmuMapR A va pa size attr σ).2 v =
        if vaDist va v < size then attr &&& ENTRY_ATTRIB_MASK else mmuGetAttrR σ v) ∧
    ∃ σ', mmuUnmapR A n va size (mmuMapR A va pa size attr σ).2 = some (0, σ') ∧
      ∀ v, mmuV2pR σ' v = (if vaDist va v < size then 0 else mmuV2pR σ v) ∧
        mmuGetAttrR σ' v = if vaDist va v < size then 0 else mmuGetAttrR σ v := by
  obtain ⟨σ', hunmap, -, htrans⟩ := unmap_after_map hσ.valid hlt hva hpa hs hsize hn hret
  have hspec := mmuMapR_spec attr hσ.valid hlt hva hpa hs hsize
  rcases hspec.result with ⟨-, hj⟩ | ⟨h, -⟩
  · have hmap := hspec.trans_eq
    rw [hj] at hmap
    refine ⟨fun v => ?_, σ', hunmap, fun v => ?_⟩
    · rw [mmuV2pR_eq, mmuGetAttrR_eq, mmuV2pR_eq, mmuGetAttrR_eq, hmap, onRange]
      split_ifs
      · rw [mapped, Option.map_some, Option.map_some, Option.getD_some, Option.getD_some]
        exact ⟨rfl, rfl⟩
      · exact ⟨rfl, rfl⟩
    · rw [mmuV2pR_eq, mmuGetAttrR_eq, mmuV2pR_eq, mmuGetAttrR_eq, htrans, onRange]
      split_ifs <;> exact ⟨rfl, rfl⟩
  · exact absurd (h.symm.trans hret) (by decide)

theorem map_found_unmapped_page :
    mmuV2pR (mmuMapR countingAlloc 0x1000 0x5000 0x1000 0 emptySpace).2 0x1234 = 0x5234 ∧
    ∃ σ', mmuUnmapR countingAlloc 1 0x1000 0x1000
        (mmuMapR countingAlloc 0x1000 0x5000 0x1000 0 emptySpace).2 = some (0, σ') ∧
      mmuV2pR σ' 0x1234 = 0 := by
  obtain ⟨hfound, σ', hunmap, hgone⟩ :=
    map_found_unmapped emptySpace_reachable 0x1000 0x5000 0x1000 1
    0 (by decide) (by decide) (by decide) (by decide) (by decide) (by decide) (by decide +kernel)
  exact ⟨(hfound 0x1234).1, σ', hunmap, (hgone 0x1234).1⟩

end Intewell.Mmu
