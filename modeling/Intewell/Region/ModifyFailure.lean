/-
# What a failed `mm_region_modify` leaves behind

`mm_region_modify` first changes the page table and takes the old region out; then it allocates the
pieces of it that stay.  Where one of these allocations fails, the old region is gone.  So a failed
call changes nothing exactly if no region holds both ends of the request, or the request is no
unmapping and the allocation of the region for it, which comes first, has failed
(`modify_failure_iff`).
-/

import Intewell.Region.Munmap

namespace Intewell.Region

open Option ColorTree CTree Mmu

variable {S : Type} {C : Config S} {mm mm' : Mm S} {R W : MmRegion} {ret : ℤ} {isUnmap : Bool}

/-- The regions, every translation and the references of the page groups are the same. -/
structure Kept (mm mm' : Mm S) : Prop where
  regions : ∀ x, x ∈ mm'.regions ↔ x ∈ mm.regions
  trans : ∀ v, Mmu.trans mm'.pt v = Mmu.trans mm.pt v
  calls : mm'.calls = mm.calls

/-- The old region is out of the tree, unless the request takes its place. -/
theorem modifyMiddle_removes {b : Bool} (hmm : Ordered mm) (hR : R ∈ mm.regions)
    (h : modifyMiddle C W R isUnmap mm = some (b, mm')) :
    (b = false ∧ (isUnmap = false ∧ C.mallocOk mm.mallocs = false) ∧
      mm' = { mm with mallocs := mm.mallocs + 1 }) ∨
    b = true ∧ ¬(isUnmap = false ∧ C.mallocOk mm.mallocs = false) ∧ Balanced mm' ∧
      (R ∈ mm'.regions → isUnmap = false ∧ R.virtualAddress = W.virtualAddress ∧
        R.stop = W.stop) := by
  unfold modifyMiddle at h
  cases isUnmap with
  | true =>
    rw [if_pos rfl] at h
    obtain ⟨⟨ret, pt⟩, -, h⟩ := bind_eq_some_iff.1 h
    have hmm1 : Ordered { mm with pt := pt } := hmm.congr rfl rfl
    obtain ⟨mm1, hrem, hord, hremoved⟩ := remove_spec hmm1 hR
    simp only [hrem, map_some] at h
    cases h
    exact .inr ⟨rfl, by simp, hord.bal, fun hin => absurd rfl ((hremoved.mem_iff hmm1).1 hin).2⟩
  | false =>
    simp only [Bool.false_eq_true, if_false, malloc] at h
    cases hm : C.mallocOk mm.mallocs with
    | false =>
      simp only [hm, Bool.false_eq_true, if_false] at h
      cases h
      exact .inl ⟨rfl, ⟨rfl, rfl⟩, rfl⟩
    | true =>
      simp only [hm, if_true] at h
      obtain ⟨⟨ret, pt⟩, -, h⟩ := bind_eq_some_iff.1 h
      have hmm1 : Ordered { mm with mallocs := mm.mallocs + 1, pt := pt } := hmm.congr rfl rfl
      obtain ⟨mm1, hrem, hord, hremoved⟩ := remove_spec hmm1 hR
      simp only [hrem, bind_some] at h
      obtain ⟨⟨ret1, mm2⟩, hins, he⟩ := map_eq_some_iff.1 h
      cases he
      obtain ⟨ret2, mm3, he, hbal, -, hnew⟩ := insert_mem hord.bal _
      cases hins.symm.trans he
      refine .inr ⟨rfl, by simp, hbal, fun hin => ?_⟩
      rcases hnew R hin with heq | hin
      · exact ⟨rfl, by rw [heq], by rw [heq]; rfl⟩
      · exact absurd rfl ((hremoved.mem_iff hmm1).1 hin).2

/-- **A request that one region holds both ends of** takes that region out, unless its own
allocation fails or it succeeds with an equal one. -/
theorem mmRegionModify_cases (hmm : Ordered mm) (hR : R ∈ mm.regions)
    (hfirst : R.Contains W.virtualAddress) (hlast : R.Contains (sub64 W.stop 1))
    (h : mmRegionModify C W isUnmap mm = some (ret, mm')) :
    ((isUnmap = false ∧ C.mallocOk mm.mallocs = false) ∧
      mm' = { mm with mallocs := mm.mallocs + 1 }) ∨
    ¬(isUnmap = false ∧ C.mallocOk mm.mallocs = false) ∧
      (R ∈ mm'.regions → ret = 0 ∧ isUnmap = false) := by
  have hRp := hmm.proper R hR
  have hRb := hRp.bound
  have hf := hfirst.1
  have hf' := hfirst.2
  -- the end of the request is behind the start of the region
  have hend : R.virtualAddress < W.stop := by
    have h1 := hlast.1
    have h2 := hlast.2
    have hstop : W.stop < 2 ^ 64 := Nat.mod_lt _ (by decide)
    unfold sub64 at h1 h2
    omega
  unfold mmRegionModify at h
  simp only [(lookup_iff hmm).2 ⟨hR, hfirst⟩, (lookup_iff hmm).2 ⟨hR, hlast⟩, ne_eq,
    not_true_eq_false,
    if_false] at h
  obtain ⟨⟨b1, mm1⟩, hmid, h⟩ := bind_eq_some_iff.1 h
  obtain ⟨rfl, hno, rfl⟩ | ⟨rfl, hok, hbal1, hsame⟩ := modifyMiddle_removes hmm hR hmid
  · cases h
    exact .inl ⟨hno, rfl⟩
  refine .inr ⟨hok, ?_⟩
  by_cases hin1 : R ∈ mm1.regions
  · obtain ⟨hu, hva, hst⟩ := hsame hin1
    have hsub {a : ℕ} (ha : a < 2 ^ 64) : sub64 a a / PAGE_SIZE = 0 := by
      rw [sub64_of_le le_rfl ha, Nat.sub_self, Nat.zero_div]
    have hleft : modifyPiece C (leftPiece R W.virtualAddress) mm1 = some (true, mm1) := by
      refine if_pos ?_
      rw [leftPiece, ← hva]
      exact hsub (by omega)
    have hright : modifyPiece C (rightPiece R W.stop) mm1 = some (true, mm1) := by
      refine if_pos ?_
      rw [rightPiece, ← hst]
      exact hsub (Nat.mod_lt _ (by decide))
    obtain ⟨⟨b2, mm2⟩, hl, h⟩ := bind_eq_some_iff.1 h
    cases hl.symm.trans hleft
    obtain ⟨⟨b3, mm3⟩, hr, h⟩ := map_eq_some_iff.1 h
    cases hr.symm.trans hright
    cases h
    exact fun _ => ⟨rfl, hu⟩
  · -- no piece is the old region
    refine fun hin => absurd hin ?_
    obtain ⟨b2, mm2, hleft, hbal2, -, hnew2⟩ :=
      modifyPiece_mem (C := C) (leftPiece R W.virtualAddress) hbal1
    have hno2 : R ∉ mm2.regions := fun hin => by
      obtain hin | ⟨i, he⟩ := hnew2 R hin
      · exact hin1 hin
      have hfin : (leftPiece R W.virtualAddress i).finish ≤ W.virtualAddress := by
        change R.virtualAddress + sub64 W.virtualAddress R.virtualAddress / 4096 * 4096 ≤ _
        rw [sub64_of_le hf (by omega)]
        omega
      rw [← he] at hfin
      omega
    simp only [hleft, bind_some] at h
    cases b2 with
    | false =>
      cases h
      exact hno2
    | true =>
      obtain ⟨b3, mm3, hright, -, -, hnew3⟩ := modifyPiece_mem (C := C) (rightPiece R W.stop) hbal2
      have hno3 : R ∉ mm3.regions := fun hin => by
        obtain hin | ⟨i, he⟩ := hnew3 R hin
        · exact hno2 hin
        · have hva : R.virtualAddress = W.stop := congrArg MmRegion.virtualAddress he
          omega
      simp only [hright, map_some] at h
      cases b3 with
      | false =>
        cases h
        exact hno3
      | true =>
        cases h
        split_ifs <;> exact hno3

/-- **When a failed `mm_region_modify` has changed nothing.**  For every request and every outcome
of `malloc`. -/
theorem modify_failure_iff (hmm : Ordered mm) (h : mmRegionModify C W isUnmap mm = some (-1, mm')) :
    Kept mm mm' ↔ (∀ R ∈ mm.regions, R.Contains W.virtualAddress → ¬R.Contains (sub64 W.stop 1)) ∨
        isUnmap = false ∧ C.mallocOk mm.mallocs = false := by
  by_cases hex : ∃ R ∈ mm.regions, R.Contains W.virtualAddress ∧ R.Contains (sub64 W.stop 1)
  · obtain ⟨R, hR, hfirst, hlast⟩ := hex
    obtain ⟨hno, rfl⟩ | ⟨hok, hgone⟩ := mmRegionModify_cases hmm hR hfirst hlast h
    · exact iff_of_true ⟨fun _ => Iff.rfl, fun _ => rfl, rfl⟩ (.inr hno)
    · refine iff_of_false (fun hk => ?_) (not_or.2 ⟨fun hall => hall R hR hfirst hlast, hok⟩)
      exact absurd (hgone ((hk.regions R).2 hR)).1 (by decide)
  · have hall : ∀ R ∈ mm.regions, R.Contains W.virtualAddress → ¬R.Contains (sub64 W.stop 1) :=
      fun R hR hfirst hlast => hex ⟨R, hR, hfirst, hlast⟩
    have hrefused : mmRegionModify C W isUnmap mm = some (-1, mm) :=
      mmRegionModify_refused fun R h1 h2 =>
      hall R ((lookup_iff hmm).1 h1).1 ((lookup_iff hmm).1 h1).2 ((lookup_iff hmm).1 h2).2
    cases h.symm.trans hrefused
    exact iff_of_true ⟨fun _ => Iff.rfl, fun _ => rfl, rfl⟩ (.inl hall)

/-- `mprotect` of the second page of three, and there is no memory for the region of the page. -/
theorem modify_failure_threePages : ∃ mm mm', mapAll (Mm.new emptySpace) [threePages] = some mm ∧
    mm.regions = [threePages] ∧
    mmRegionModify { smallConfig with mallocOk := fun _ => false }
      (mprotectRegion smallConfig 0x11000 0x1000 PROT_READ mm.pt) false mm = some (-1, mm') ∧
    Kept mm mm' := by
  obtain ⟨mm, hmm, hreg, hord, -⟩ := mapped_threePages
  have hcall : ((mapAll (Mm.new emptySpace) [threePages]).bind fun mm =>
      (mmRegionModify { smallConfig with mallocOk := fun _ => false }
        (mprotectRegion smallConfig 0x11000 0x1000 PROT_READ mm.pt) false mm).map Prod.fst) =
      some (-1) := by decide +kernel
  rw [hmm] at hcall
  obtain ⟨⟨ret, mm'⟩, hcall, rfl⟩ := map_eq_some_iff.1 hcall
  exact ⟨mm, mm', hmm, hreg, hcall, (modify_failure_iff hord hcall).2 (.inr ⟨rfl, rfl⟩)⟩

/-- The second page of three is unmapped, and there is no memory for the first one: none of the
three is in a region any more, and the second is not translated. -/
theorem modify_failure_loses : ((mapAll (Mm.new emptySpace) [threePages]).bind fun mm =>
      (mmRegionModify { smallConfig with mallocOk := fun _ => false } (munmapRegion 0x11000 0x1000)
        true
        mm).map fun (ret, mm') =>
          (mm.regions, ret, mm'.regions, mmuV2pR mm.pt 0x11000, mmuV2pR mm'.pt 0x11000)) =
    some ([threePages], -1, [], 0x40001000, 0) := by
  decide +kernel

end Intewell.Region
