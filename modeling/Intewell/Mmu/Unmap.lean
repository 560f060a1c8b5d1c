/-
# `ummap_single_entry_r`

The walk to the leaf of an address splits the blocks on its way that are not to be
changed as a whole; the leaf is then cleared or rewritten (`ummapDown_spec`).
-/

import Intewell.Mmu.Single

namespace Intewell.Mmu

open Radix Function Nat

variable {S : Type} {A : PtAlloc S} {σ : Pt S} {h p k : ℕ}

/-- What `ummap_single_entry_r` makes of a translation. -/
def change (isUnmap : Bool) (newAttr : Pte) (t : Option (ℕ × Pte)) : Option (ℕ × Pte) :=
  if isUnmap then none else t.map fun e => (e.1, newAttr &&& ENTRY_ATTRIB_MASK)

/-- What a call has done: nothing, at an address that is not mapped or for want of a page,
or changed one leaf, not larger than the range asked for. -/
structure EntryChanged (A : PtAlloc S) (va size : ℕ) (isUnmap : Bool) (newAttr : Pte) (σ : Pt S)
    (done : ℕ) (σ' : Pt S) : Prop where
  valid : Valid A σ'
  root : σ'.root = σ.root
  failed_le : σ.failed ≤ σ'.failed
  result : (done = 0 ∧ (∀ va', trans σ' va' = trans σ va') ∧
      (σ.failed < σ'.failed ∨ trans σ va = none)) ∨
    ∃ g ≤ 2, done = LEVEL_SIZE g ∧ va % LEVEL_SIZE g = 0 ∧ LEVEL_SIZE g ≤ size ∧
      (∀ va', key va' / 512 ^ g = key va / 512 ^ g → trans σ va' ≠ none) ∧
      ∀ va', trans σ' va' =
        if key va' / 512 ^ g = key va / 512 ^ g then change isUnmap newAttr (trans σ va')
        else trans σ va'

variable {isUnmap : Bool} {newAttr : Pte}

/-- What `ummap_single_entry_r` writes over a leaf. -/
def newDesc (isUnmap : Bool) (newAttr : Pte) (h : ℕ) (value : Pte) : Pte :=
  if isUnmap then 0 else leafDesc h newAttr (entryAddress value)

variable {above : List ℕ}

section
variable {va : ℕ} {value : Pte} (hσ : Valid A σ) (hp : PathTo σ (key va) h p above) (hh : h ≤ 2)
  (hval : σ.mem p (key va / 512 ^ h % 512) = value) (hu : isUsed value = true)
  (ht : h = 0 ∨ isTable value = false)
include hσ hp hh hval hu ht

/-- **A leaf is cleared or rewritten**, and no other leaf changes. -/
theorem ummapLeaf_leafAt (isUnmap : Bool) (newAttr : Pte) :
    (ummapLeaf A va isUnmap newAttr h p above value σ).1 = LEVEL_SIZE h ∧
    Valid A (ummapLeaf A va isUnmap newAttr h p above value σ).2 ∧
    (ummapLeaf A va isUnmap newAttr h p above value σ).2.root = σ.root ∧
    (ummapLeaf A va isUnmap newAttr h p above value σ).2.failed = σ.failed ∧
    ∀ k' < 2 ^ 36, leafAt (ummapLeaf A va isUnmap newAttr h p above value σ).2 k' =
      if k' / 512 ^ h = key va / 512 ^ h then leafOf (h, newDesc isUnmap newAttr h value)
      else leafAt σ k' := by
  have hon := hp.tableOn (key_lt va)
  have hoff : GET_TABLE_OFF h va = key va / 512 ^ h % 512 := getTableOff_eq (by omega) va
  set i := key va / 512 ^ h % 512
  -- the state after the entry has been written, whatever is written
  have hset : ∀ v : Pte, (h = 0 ∨ isTable v = false) → EntryOk h v → Valid A (σ.entrySet p i v) ∧
      ∀ k' < 2 ^ 36, leafAt (σ.entrySet p i v) k' =
        if k' / 512 ^ h = key va / 512 ^ h then leafOf (h, v) else leafAt σ k' := by
    intro v hv hok
    obtain ⟨hvalid, hwalk⟩ := hσ.setLeaf hon hv hok
    refine ⟨hvalid, fun k' hk' => ?_⟩
    rw [leafAt, show (σ.entrySet p i v).root = σ.root from rfl, hwalk _ hk']
    split_ifs <;> rfl
  unfold ummapLeaf
  rw [hoff]
  cases isUnmap with
  | true =>
    obtain ⟨hv, hleaf⟩ := hset 0 (.inr (isTable_of_unused isUsed_zero))
      (entryOk_unused isUsed_zero h)
    simp only [if_true, newDesc]
    split_ifs with hc
    · have habove : above ≠ [] := by
        rintro rfl
        have : h = 3 := hp.1
        omega
      have hpath : PathTo ((σ.entrySet p i 0).ptableFree A p) (key va) h p above :=
        hp.congr rfl fun r hr => write_table_ne _ _ _ (hp.ne_above (key_lt va) hσ hr)
      have hwf : WF next 512 EntryOk (insert p (A.inUse ((σ.entrySet p i 0).ptableFree A p).alloc))
          σ.root MAX_TABLE_LEVEL (σ.entrySet p i 0).mem := by
        refine WF.mono hv fun r hr => ?_
        rw [Pt.ptableFree, A.free_inUse]
        by_cases hrp : r = p
        · exact .inl hrp
        · exact .inr ⟨hr, hrp⟩
      obtain ⟨h1, h2, h3, h4⟩ := releaseUp_spec hwf hpath habove fun j => ptableValidNum_eq_zero hc
      exact ⟨rfl, h1, h2, h3, fun k' hk' => (h4 k' hk').trans (hleaf k' hk')⟩
    · exact ⟨rfl, hv, rfl, rfl, hleaf⟩
  | false =>
    have haddr : entryAddress value % LEVEL_SIZE h = 0 := by
      rcases Nat.eq_zero_or_pos h with rfl | hpos
      · exact (entryAddress_lt value).2
      · exact (hval ▸ hσ.entries hon _ (mod_lt _ (by decide)) hpos.ne' (hval ▸ hu)
          (hval ▸ ht.resolve_left hpos.ne')).2
    obtain ⟨hv, hleaf⟩ := hset (leafDesc h newAttr (entryAddress value))
      ((Nat.eq_zero_or_pos h).imp_right fun hpos => isTable_leafDesc hpos.ne' _ _)
      (entryOk_leafDesc _ hh haddr)
    exact ⟨rfl, hv, rfl, rfl, hleaf⟩

theorem ummapLeaf_spec {size : ℕ} (hal : va % LEVEL_SIZE h = 0) (hsize : LEVEL_SIZE h ≤ size) :
    EntryChanged A va size isUnmap newAttr σ (ummapLeaf A va isUnmap newAttr h p above value σ).1
      (ummapLeaf A va isUnmap newAttr h p above value σ).2 := by
  have hon := hp.tableOn (key_lt va)
  have hwas : ∀ va', key va' / 512 ^ h = key va / 512 ^ h →
    trans σ va' = leafVal (h, value) va' := by
    intro va' he
    rw [trans_eq, walk_leaf hon (by rw [hval]; exact ht) he, hval]
  have hmapped : ∀ va', key va' / 512 ^ h = key va / 512 ^ h → trans σ va' ≠ none := by
    intro va' he
    rw [hwas va' he, leafVal, if_pos hu]
    simp
  obtain ⟨h1, h2, h3, h4, hleaf⟩ := ummapLeaf_leafAt hσ hp hh hval hu ht isUnmap newAttr
  refine ⟨h2, h3, h4.ge, .inr ⟨h, hh, h1, hal, hsize, hmapped, fun va' => ?_⟩⟩
  have hk := hleaf (key va') (key_lt va')
  unfold leafAt at hk
  rw [trans_eq, leafVal_eq, hk]
  split_ifs with he
  · rw [← leafVal_eq, hwas va' he]
    cases isUnmap with
    | true => exact leafVal_unused isUsed_zero va'
    | false =>
      simp only [newDesc, Bool.false_eq_true, if_false]
      rw [leafVal_leafDesc _ (entryAddress_lt value).2, mod_eq_of_lt (entryAddress_lt value).1,
        leafVal, if_pos hu]
      simp [change]
  · rw [trans_eq, leafVal_eq]

end

/-- **The loop of `ummap_single_entry_r`.** -/
theorem ummapDown_spec (hσ : Valid A σ) {va size : ℕ} (hp : PathTo σ (key va) h p above)
    (hh : h ≤ 3) (hal : va % 4096 = 0) (hsize : 4096 ≤ size) :
    EntryChanged A va size isUnmap newAttr σ (ummapDown A va size isUnmap newAttr h p above σ).1
      (ummapDown A va size isUnmap newAttr h p above σ).2 := by
  induction h generalizing p above σ with
  | zero =>
    have hon := hp.tableOn (key_lt va)
    have hoff : GET_TABLE_OFF 0 va = key va / 512 ^ 0 % 512 := getTableOff_eq (by omega) va
    rw [ummapDown]
    simp only [hoff]
    split_ifs with hu
    · refine ⟨hσ, rfl, le_rfl, .inl ⟨rfl, fun _ => rfl, .inr ?_⟩⟩
      rw [trans_eq, walk_leaf hon (.inl rfl) rfl, leafVal_unused hu]
    · exact ummapLeaf_spec hσ hp (by omega) rfl (by simpa using hu) (.inl rfl) hal hsize
  | succ h ih =>
    have hon := hp.tableOn (key_lt va)
    have hoff : GET_TABLE_OFF (h + 1) va = key va / 512 ^ (h + 1) % 512 := getTableOff_eq hh va
    set i := key va / 512 ^ (h + 1) % 512
    rw [ummapDown]
    simp only [hoff]
    by_cases hu : isUsed (σ.mem p i) = false
    · rw [if_pos hu]
      refine ⟨hσ, rfl, le_rfl, .inl ⟨rfl, fun _ => rfl, .inr ?_⟩⟩
      rw [trans_eq, walk_leaf hon (.inr (isTable_of_unused hu)) rfl, leafVal_unused hu]
    rw [if_neg hu]
    have hu' : isUsed (σ.mem p i) = true := by simpa using hu
    cases ht : isTable (σ.mem p i) with
    | true =>
      simp only [if_true]
      exact ih hσ ⟨hh, ht, rfl, hp⟩ (by omega)
    | false =>
      have hok := hσ.entries hon _ (mod_lt _ (by decide)) (succ_ne_zero h) hu' ht
      simp only [Bool.false_eq_true, if_false, isBlock_of_isUsed hu' ht, true_and]
      split_ifs with hc
      · simp only [Pt.ptableAlloc]
        cases ha : A.alloc σ.alloc with
        | none =>
          exact ⟨hσ, rfl, le_succ _, .inl ⟨rfl, fun _ => rfl, .inl (lt_succ_self _)⟩⟩
        | some ps =>
          obtain ⟨page, s⟩ := ps
          simp only
          set τ := (((Pt.ptableClear { σ with alloc := s } page).ptableFill page h
            (entryAttrib (σ.mem p i)) (entryAddress (σ.mem p i))).entrySet p i
              (TABLE_DESC page)) with hτ
          have hτ' : τ = { σ with
              mem := write (update σ.mem page fun j =>
                leafDesc h (entryAttrib (σ.mem p i)) (entryAddress (σ.mem p i) + j * LEVEL_SIZE h))
                p i (TABLE_DESC page)
              alloc := s } := by
            rw [hτ]
            simp only [Pt.ptableClear, Pt.ptableFill, Pt.entrySet, update_idem]
          obtain ⟨hv, hon', hsame⟩ := hσ.splitBlock hon rfl hu' ht ha hτ'
          have hfresh := A.alloc_fresh ha
          obtain ⟨hpal, hplt⟩ := A.alloc_page ha
          have hentry : τ.mem p i = TABLE_DESC page := by
            rw [hτ']
            exact write_self _ _ _ _
          have hpath : PathTo τ (key va) h page (p :: above) := by
            refine ⟨hh, by rw [hentry]; exact isTable_TABLE_DESC page,
              by rw [hentry]; exact entryAddress_TABLE_DESC hpal hplt, hp.congr (by rw [hτ']) ?_⟩
            intro q hq
            obtain ⟨g, -, hqon⟩ := hp.above_tableOn (key_lt va) hq
            have hqp : q ≠ page := fun he => hfresh (he ▸ hσ.used hqon)
            rw [hτ']
            simp only [write_table_ne _ _ _ (hp.ne_above (key_lt va) hσ hq), update_of_ne hqp]
          -- the step before the call has changed no translation
          obtain ⟨h1, h2, h3, h4⟩ := ih hv hpath (by omega)
          have hfailed : τ.failed = σ.failed := by rw [hτ']
          rw [funext hsame, hfailed] at h4
          exact ⟨h1, h2.trans (by rw [hτ']), hfailed ▸ h3, h4⟩
      · rw [not_or, not_lt] at hc
        refine ummapLeaf_spec hσ hp hok.1 rfl hu' (.inr ht) ?_ hc.1
        simpa [IS_LEVEL_ALIGN] using hc.2

end Intewell.Mmu
