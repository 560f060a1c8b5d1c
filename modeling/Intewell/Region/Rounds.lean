/-
# The rounds of the range loops

`mmu_unmap_r` and `arm_mmu_modify` repeat `ummap_single_entry_r` until the size is used
up.  On a range that begins at a page boundary every round takes off the leaf at the
current address, so that there are at most as many rounds as pages.  `ummap_single_entry_r`
answers `-1` at an address inside a page; the loops then go one byte back and make the
range one byte longer, and do so in every round that follows (`ummapLoop_unaligned`).
Which of the two happens depends on the first address alone (`range_loops_iff`).
-/

import Intewell.Region.Run

namespace Intewell.Region

open Mmu

variable {S : Type} {A : PtAlloc S} {isUnmap : Bool} {newAttr : Pte} {σ : Pt S} {va size : ℕ}

/-- After `k` rounds that did not end the loop it stands at the address `va'`, with the size
`size'` left. -/
inductive Rounds (A : PtAlloc S) (isUnmap : Bool) (newAttr : Pte) (va size : ℕ) (σ : Pt S) :
    ℕ → ℕ → ℕ → Pt S → Prop where
  | start : Rounds A isUnmap newAttr va size σ 0 va size σ
  | next {k va' size' done : ℕ} {σ' σ'' : Pt S}
      (h : Rounds A isUnmap newAttr va size σ k va' size' σ') (hsize : size' ≠ 0)
      (hone : ummapSingleEntryR A va' size' isUnmap newAttr σ' = (done, σ'')) (hdone : done ≠ 0) :
      Rounds A isUnmap newAttr va size σ (k + 1) ((va' + done) % 2 ^ 64)
        ((size' + 2 ^ 64 - done) % 2 ^ 64) σ''

/-- The loop ends after at most one round for each page.  Every round that does not end it
has done a leaf that begins at the current address and fits into the size left; the
address has moved forward from the first one by what the size has shrunk. -/
structure Progress (A : PtAlloc S) (isUnmap : Bool) (newAttr : Pte) (va size : ℕ) (σ : Pt S) :
    Prop where
  ends : ∀ stop, (ummapLoop A isUnmap newAttr stop (size / 4096) va size σ).isSome
  leaf : ∀ {k va' size' done σ' σ''}, Rounds A isUnmap newAttr va size σ k va' size' σ' →
    size' ≠ 0 → ummapSingleEntryR A va' size' isUnmap newAttr σ' = (done, σ'') → done ≠ 0 →
    ∃ g ≤ 2, done = LEVEL_SIZE g ∧ va' % LEVEL_SIZE g = 0 ∧ done ≤ size' ∧ trans σ' va' ≠ none
  forward : ∀ {k va' size' σ'}, Rounds A isUnmap newAttr va size σ k va' size' σ' →
    k ≤ size / 4096 ∧ size' ≤ size ∧ va' = (va + (size - size')) % 2 ^ 64

section
variable (hσ : Valid A σ)
include hσ

section
variable (hva : va % 4096 = 0) (hs : size % 4096 = 0) (hsize : size ≠ 0) {done : ℕ} {σ' : Pt S}
  (hone : ummapSingleEntryR A va size isUnmap newAttr σ = (done, σ'))
include hva hs hsize hone

/-- A round on a page-aligned range takes off a leaf, or ends the loop. -/
theorem round_aligned :
    Valid A σ' ∧ (done ≠ 0 → ∃ g ≤ 2, done = LEVEL_SIZE g ∧ va % LEVEL_SIZE g = 0 ∧ done ≤ size ∧
      trans σ va ≠ none) := by
  have hspec := ummapSingleEntryR_spec isUnmap newAttr hσ hva hs (Nat.pos_of_ne_zero hsize)
  rw [hone] at hspec
  refine ⟨hspec.valid, fun hdone => ?_⟩
  rcases hspec.result with ⟨h0, -⟩ | ⟨g, hg, rfl, hal, hle, hmapped, -⟩
  · exact absurd h0 hdone
  · exact ⟨g, hg, rfl, hal, hle, hmapped va rfl⟩

theorem round_pages (hdone : done ≠ 0) : Valid A σ' ∧ done % 4096 = 0 ∧ done ≤ size := by
  obtain ⟨hv, hround⟩ := round_aligned hσ hva hs hsize hone
  obtain ⟨g, -, rfl, -, hle, -⟩ := hround hdone
  exact ⟨hv, page_dvd_LEVEL_SIZE (Nat.mod_self _), hle⟩

end

theorem rounds_aligned (hlt : va < 2 ^ 64) (hva : va % 4096 = 0) (hs : size % 4096 = 0)
    (hsize : size < 2 ^ 64) {k va' size' : ℕ} {σ' : Pt S}
    (h : Rounds A isUnmap newAttr va size σ k va' size' σ') :
    Valid A σ' ∧ va' % 4096 = 0 ∧ size' % 4096 = 0 ∧ size' + k * 4096 ≤ size ∧
      va' = (va + (size - size')) % 2 ^ 64 := by
  induction h with
  | start => exact ⟨hσ, hva, hs, by omega, by omega⟩
  | @next k va' size' done σ' σ'' _ hne hone hdone ih =>
    obtain ⟨hv, hva', hs', hle, heq⟩ := ih
    obtain ⟨hv', hL, hle'⟩ := round_pages hv hva' hs' hne hone hdone
    exact ⟨hv', by omega, by omega, by omega, by omega⟩

/-- On a page-aligned range there are at most as many rounds as pages. -/
theorem ummapLoop_isSome {stop : ℤ} {n : ℕ} (hva : va % 4096 = 0) (hs : size % 4096 = 0)
    (hsize : size < 2 ^ 64) (hn : size / 4096 ≤ n) :
    (ummapLoop A isUnmap newAttr stop n va size σ).isSome := by
  induction n generalizing va size σ with
  | zero =>
    obtain rfl : size = 0 := by omega
    rfl
  | succ n ih =>
    cases size with
    | zero => rfl
    | succ size =>
      rw [ummapLoop]
      generalize hone : ummapSingleEntryR A va (size + 1) isUnmap newAttr σ = r
      obtain ⟨done, σ'⟩ := r
      simp only
      split_ifs with hdone
      · rfl
      · obtain ⟨hv, hL, hle⟩ := round_pages hσ hva hs (Nat.succ_ne_zero size) hone hdone
        exact ih hv (by omega) (by omega) (by omega) (by omega)

/-- **A range of pages that begins at a page boundary.** -/
theorem progress_aligned (hlt : va < 2 ^ 64) (hva : va % 4096 = 0) (hs : size % 4096 = 0)
    (hsize : size < 2 ^ 64) : Progress A isUnmap newAttr va size σ where
  ends _ := ummapLoop_isSome hσ hva hs hsize le_rfl
  leaf h hne hone hdone := by
    obtain ⟨hv, hva', hs', -⟩ := rounds_aligned hσ hlt hva hs hsize h
    exact (round_aligned hv hva' hs' hne hone).2 hdone
  forward h := by
    obtain ⟨-, -, -, hle, heq⟩ := rounds_aligned hσ hlt hva hs hsize h
    exact ⟨by omega, by omega, heq⟩

end

theorem ummapSingleEntryR_unaligned (h : va % 4096 ≠ 0 ∨ size % 4096 ≠ 0) :
    ummapSingleEntryR A va size isUnmap newAttr σ = (2 ^ 64 - 1, σ) := by
  have halign (a : ℕ) : IS_LEVEL_ALIGN 0 a = false ↔ a % 4096 ≠ 0 := decide_eq_false_iff_not
  rw [ummapSingleEntryR]
  by_cases hva : va % 4096 = 0
  · rw [if_neg (mt (halign va).1 (not_not.2 hva)),
      if_pos ((halign size).2 (h.resolve_left (not_not.2 hva)))]
  · rw [if_pos ((halign va).2 hva)]

theorem size_mod (r : MmRegion) : r.size % 4096 = 0 ∧ r.size < 2 ^ 64 := by
  unfold MmRegion.size PAGE_SIZE
  omega

/-- The loop on a region makes progress exactly if the region begins at a page boundary or
has no pages. -/
theorem progress_iff (hσ : Valid A σ) (r : MmRegion) (hlt : r.virtualAddress < 2 ^ 64) :
    Progress A isUnmap newAttr r.virtualAddress r.size σ ↔
      r.virtualAddress % 4096 = 0 ∨ r.size = 0 := by
  obtain ⟨hs, hsize⟩ := size_mod r
  constructor
  · intro h
    by_contra hno
    rw [not_or] at hno
    obtain ⟨g, hg, hdone, -⟩ := h.leaf Rounds.start hno.2
      (ummapSingleEntryR_unaligned (Or.inl hno.1)) (by decide)
    unfold LEVEL_SIZE at hdone
    interval_cases g <;> norm_num at hdone
  · rintro (h | h)
    · exact progress_aligned hσ hlt h hs hsize
    · have hstop : ∀ {k va' size' σ'},
          Rounds A isUnmap newAttr r.virtualAddress r.size σ k va' size' σ' →
            k = 0 ∧ va' = r.virtualAddress ∧ size' = 0 := by
        intro k va' size' σ' hr
        induction hr with
        | start => exact ⟨rfl, rfl, h⟩
        | next _ hne _ _ ih => exact absurd ih.2.2 hne
      refine ⟨fun _ => ?_, fun hr => absurd (hstop hr).2.2, fun hr => ?_⟩
      · rw [h]
        rfl
      · obtain ⟨rfl, rfl, rfl⟩ := hstop hr
        omega

/-- **When the range loops end in time.**  On the tables of a reachable state the loop over
a region ends after at most one round for each page, each round doing the leaf at the
current address and moving forward by it, exactly if the region begins at a page boundary
or has no pages.  So do the regions of `munmap`, which checks the address; the region of
`mprotect` exactly if its address is page-aligned or it has no pages; and of the regions
that `mremap` unmaps, the whole old range always, and the end cut off by a smaller length
exactly if the new length is a multiple of the page size or that end has no pages. -/
theorem range_loops_iff (C : Config S) (hσ : Reachable C.A σ) (isUnmap : Bool) (newAttr : Pte) :
    (∀ r : MmRegion, r.virtualAddress < 2 ^ 64 →
      (Progress C.A isUnmap newAttr r.virtualAddress r.size σ ↔
        r.virtualAddress % PAGE_SIZE = 0 ∨ r.size = 0)) ∧
    (∀ addr len, addr < 2 ^ 64 → addr % PAGE_SIZE = 0 →
      Progress C.A isUnmap newAttr (munmapRegion addr len).virtualAddress
        (munmapRegion addr len).size σ) ∧ (∀ addr len prot, addr < 2 ^ 64 →
      (Progress C.A isUnmap newAttr (mprotectRegion C addr len prot σ).virtualAddress
          (mprotectRegion C addr len prot σ).size σ ↔ addr % PAGE_SIZE = 0 ∨ PAGE_ALIGN len = 0)) ∧
    (∀ addr oldLen newLen, addr % PAGE_SIZE = 0 → newLen < oldLen → oldLen < 2 ^ 64 →
      (Progress C.A isUnmap newAttr
          (munmapRegion ((addr + newLen) % 2 ^ 64) (oldLen - newLen)).virtualAddress
          (munmapRegion ((addr + newLen) % 2 ^ 64) (oldLen - newLen)).size σ ↔
        newLen % PAGE_SIZE = 0 ∨ PAGE_ALIGN (oldLen - newLen) = 0)) := by
  have hv := hσ.valid
  have hsize (id pa len va : ℕ) (attr : Pte) :
      MmRegion.size { mmRegionInit id attr pa len with virtualAddress := va } = PAGE_ALIGN len := by
    unfold MmRegion.size mmRegionInit PAGE_ALIGN PAGE_SIZE
    simp only
    omega
  refine ⟨progress_iff hv, fun addr len hlt hal => ?_, fun addr len prot hlt => ?_,
    fun addr oldLen newLen hal hle hlt => ?_⟩
  · exact (progress_iff hv (munmapRegion addr len) hlt).2 (Or.inl hal)
  · refine (progress_iff hv (mprotectRegion C addr len prot σ) hlt).trans ?_
    rw [show (mprotectRegion C addr len prot σ).size = PAGE_ALIGN len from hsize 0 _ len addr 0]
    rfl
  · refine (progress_iff hv (munmapRegion ((addr + newLen) % 2 ^ 64) (oldLen - newLen))
      (Nat.mod_lt _ (by decide))).trans ?_
    rw [show (munmapRegion ((addr + newLen) % 2 ^ 64) (oldLen - newLen)).size =
      PAGE_ALIGN (oldLen - newLen) from hsize 0 0 _ _ 0]
    refine or_congr ?_ Iff.rfl
    change (addr + newLen) % 2 ^ 64 % 4096 = 0 ↔ newLen % 4096 = 0
    unfold PAGE_SIZE at hal
    omega

/-- Three mapped pages: `munmap` of them takes at most three rounds, and `mprotect` of the last two
does not make progress where it begins inside the second. -/
theorem range_loops_iff_threePages : ∃ mm, mapAll (Mm.new emptySpace) [threePages] = some mm ∧
    mmuV2pR mm.pt 0x10000 = 0x40000000 ∧ mmuV2pR mm.pt 0x12000 = 0x40002000 ∧
    Progress countingAlloc true 0 (munmapRegion 0x10000 0x3000).virtualAddress
      (munmapRegion 0x10000 0x3000).size mm.pt ∧
    ¬Progress countingAlloc false 0 (mprotectRegion smallConfig 0x11800 0x1000 PROT_READ
      mm.pt).virtualAddress
      (mprotectRegion smallConfig 0x11800 0x1000 PROT_READ mm.pt).size mm.pt := by
  obtain ⟨mm, hmm, -, -, hpt⟩ := mapped_threePages
  have htrans : ((mapAll (Mm.new emptySpace) [threePages]).map fun mm =>
      (mmuV2pR mm.pt 0x10000, mmuV2pR mm.pt 0x12000)) = some (0x40000000, 0x40002000) := by
    decide +kernel
  rw [hmm] at htrans
  obtain ⟨hfirst, hlast⟩ := Prod.mk.inj (Option.some.inj htrans)
  refine ⟨mm, hmm, hfirst, hlast,
    (range_loops_iff smallConfig hpt true 0).2.1 0x10000 0x3000 (by decide) (by decide), fun hp =>
    ?_⟩
  have := ((range_loops_iff smallConfig hpt false 0).2.2.1 0x11800 0x1000 PROT_READ (by decide)).1
    hp
  revert this
  decide

/-- `mprotect` of one page from the middle of a page on, inside a region of two pages: the
region found at both ends is the same, the region of the call begins inside a page, and its
loop has not ended after the one round allowed but has gone one byte back. -/
theorem mprotect_goes_back :
    ((mmRegionMap smallConfig { pageAt 1 0x10000 with regionPageCount := 2 }
        (Mm.new emptySpace)).map fun (_, _, mm) =>
      let r := mprotectRegion smallConfig 0x10800 0x1000 PROT_READ mm.pt
      ((va2regionRbtree mm.tree r.virtualAddress).map MmRegion.id,
        (va2regionRbtree mm.tree (r.stop - 1)).map MmRegion.id, r.virtualAddress, r.size,
        (ummapSingleEntryR countingAlloc r.virtualAddress r.size false (attr2mmu r.memAttr)
          mm.pt).1,
        (armMmuModify countingAlloc (r.size / PAGE_SIZE) r.virtualAddress r.size r.memAttr
          mm.pt).isSome)) =
    some (some 1, some 1, 0x10800, 0x1000, 2 ^ 64 - 1, false) := by
  decide +kernel

end Intewell.Region
