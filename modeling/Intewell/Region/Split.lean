/-
# What the pages of a split region refer to

`mm_region_modify` clones the pieces of a region from the region itself and adapts their
address, length, physical address and file offset.  The addresses and the physical
addresses of the pieces are right.  The file offset is not: the piece before the request
gets the offset of the request, the piece in the middle keeps the offset of the whole
region, and the piece behind the request has the offset rounded down to a page
(`modify_keeps_pages_iff`).
-/

import Intewell.Region.Modify

namespace Intewell.Region

open ColorTree CTree Mmu MmRegion

variable {S : Type} {C : Config S} {mm mm' : Mm S} {W R x : MmRegion} {isUnmap : Bool}

/-- The physical address of an address of a region. -/
def MmRegion.physAt (r : MmRegion) (v : ℕ) : ℕ :=
  (r.physicalAddress + (v - r.virtualAddress)) % 2 ^ 64

/-- The position in the file of an address of a region. -/
def MmRegion.fileAt (r : MmRegion) (v : ℕ) : ℕ := (r.offset + (v - r.virtualAddress)) % 2 ^ 64

/-- What a request on a part of a region has to keep.  Every address that stays mapped is in
exactly one region, with the physical address and the file position it had; the attributes
change on the request only; an unmapped address is in no region; the other regions are the
ones there were; no translation outside the request changes, and on a request that was
mapped throughout all of them do, if no table is missing. -/
structure KeepsPages (W R : MmRegion) (isUnmap : Bool) (mm mm' : Mm S) : Prop where
  covered : ∀ v, R.Contains v → (W.Contains v → isUnmap = false) →
    ∃! x, x ∈ mm'.regions ∧ x.Contains v
  same : ∀ v x, R.Contains v → x ∈ mm'.regions → x.Contains v →
    x.physAt v = R.physAt v ∧ x.flags = R.flags ∧
      (R.flags.isFile = true → x.fileAt v = R.fileAt v) ∧
      (W.Contains v → isUnmap = false ∧ x.memAttr = W.memAttr) ∧
      (¬W.Contains v → x.memAttr = R.memAttr)
  others : ∀ x, x ∈ mm.regions ∧ x ≠ R ↔ x ∈ mm'.regions ∧ ¬Overlap x R
  outside : ∀ v, W.size ≤ vaDist W.virtualAddress v → trans mm'.pt v = trans mm.pt v
  inside : mm'.pt.failed = mm.pt.failed →
    (∀ v, vaDist W.virtualAddress v < W.size → trans mm.pt v ≠ none) →
    ∀ v, vaDist W.virtualAddress v < W.size →
      trans mm'.pt v = change isUnmap (newAttr W isUnmap) (trans mm.pt v)

/-- The pieces of the region after a modification that succeeded. -/
theorem Modified.cases {i0 i1 i2 : ℕ}
    (h : Modified C W R isUnmap (pieces W R isUnmap i0 i1 i2) mm mm')
    (hmm : Ordered mm) (hR : R ∈ mm.regions) (hov : Overlap x R) :
    x ∈ mm'.regions ↔ (W.finish ≠ R.finish ∧ x = rightPiece R W.finish i2) ∨
      (W.virtualAddress ≠ R.virtualAddress ∧ x = leftPiece R W.virtualAddress i1) ∨
      (isUnmap = false ∧ x = middlePiece W R i0) := by
  have hno : ¬(x ∈ mm.regions ∧ x ≠ R) := fun hx => hx.2 (hmm.disjoint hx.1 hR hov)
  rw [h.mem x, or_iff_left hno, pieces]
  cases isUnmap <;> split_ifs <;> simp_all

/-- A request that keeps what the pages of a mapped file refer to. -/
def OffsetsKept (W R : MmRegion) : Prop :=
  R.flags.isFile = true → W.virtualAddress = R.virtualAddress ∧
    (W.finish = R.finish ∨ R.offset % PAGE_SIZE = 0)

theorem overlap_of_contains {v : ℕ} (hx : x.Contains v) (hR : R.Contains v) : Overlap x R :=
  ⟨hx.1.trans_lt hR.2, hR.1.trans_lt hx.2⟩

section
variable {i0 i1 i2 v : ℕ} (h : Modified C W R isUnmap (pieces W R isUnmap i0 i1 i2) mm mm')
  (hmm : Ordered mm) (hR : R ∈ mm.regions) (hsub : SubRange W R)
include h hmm hR hsub

theorem Modified.others_iff (x : MmRegion) :
    x ∈ mm.regions ∧ x ≠ R ↔ x ∈ mm'.regions ∧ ¬Overlap x R := by
  have hRp := hmm.proper R hR
  refine ⟨fun hx => ⟨(h.mem x).2 (.inr hx), fun hov => hx.2 (hmm.disjoint hx.1 hR hov)⟩, ?_⟩
  rintro ⟨hx, hno⟩
  refine ((h.mem x).1 hx).resolve_left fun hp => hno ?_
  have hRf := hRp.lt_finish
  have hl := hsub.left
  have hr := hsub.right
  have hlf := hsub.left_finish hRp i1
  have hrf := hsub.right_finish hRp i2
  unfold pieces at hp
  simp only [List.mem_append] at hp
  rcases hp with hp | hp | hp
  · split_ifs at hp with hne
    · simp at hp
    · obtain rfl : x = rightPiece R W.finish i2 := by simpa using hp
      exact ⟨lt_of_le_of_ne hr hne, by rw [hrf]; exact hRf⟩
  · split_ifs at hp with hne
    · simp at hp
    · obtain rfl : x = leftPiece R W.virtualAddress i1 := by simpa using hp
      exact ⟨hRf, by rw [hlf]; omega⟩
  · split_ifs at hp with hu
    · simp at hp
    · obtain rfl : x = middlePiece W R i0 := by simpa using hp
      exact ⟨hsub.lt_finish, hsub.lt_last⟩

theorem Modified.covers (hRv : R.Contains v) (hv : W.Contains v → isUnmap = false) :
    ∃ x, x ∈ mm'.regions ∧ x.Contains v := by
  have hRp := hmm.proper R hR
  have hlf := hsub.left_finish hRp i1
  have hrf := hsub.right_finish hRp i2
  by_cases h1 : v < W.virtualAddress
  · have hxv : (leftPiece R W.virtualAddress i1).Contains v := ⟨hRv.1, by rw [hlf]; exact h1⟩
    have hne : W.virtualAddress ≠ R.virtualAddress := by
      have := hRv.1
      omega
    exact ⟨_, (h.cases hmm hR (overlap_of_contains hxv hRv)).2 (.inr (.inl ⟨hne, rfl⟩)), hxv⟩
  by_cases h2 : v < W.finish
  · have hxv : (middlePiece W R i0).Contains v := ⟨not_lt.1 h1, h2⟩
    have hu := hv ⟨not_lt.1 h1, h2⟩
    exact ⟨_, (h.cases hmm hR (overlap_of_contains hxv hRv)).2 (.inr (.inr ⟨hu, rfl⟩)), hxv⟩
  · have hxv : (rightPiece R W.finish i2).Contains v := ⟨not_lt.1 h2, by rw [hrf]; exact hRv.2⟩
    have hne : W.finish ≠ R.finish := by
      have := hRv.2
      omega
    exact ⟨_, (h.cases hmm hR (overlap_of_contains hxv hRv)).2 (.inl ⟨hne, rfl⟩), hxv⟩

theorem Modified.physAt_eq
    (hpa : isUnmap = false → W.physicalAddress % 2 ^ 64 = R.physAt W.virtualAddress)
    (hx : x ∈ mm'.regions) (hRv : R.Contains v) (hxv : x.Contains v) : x.physAt v = R.physAt v := by
  have hl := hsub.left
  have hW := W.le_finish
  rcases (h.cases hmm hR (overlap_of_contains hxv hRv)).1 hx with ⟨-, rfl⟩ | ⟨-, rfl⟩ | ⟨hu, rfl⟩
  · have hv : W.finish ≤ v := hxv.1
    simp only [physAt, rightPiece, sub64_of_le (hl.trans hW) (hsub.bound (hmm.proper R hR))]
    omega
  · rfl
  · have hv : W.virtualAddress ≤ v := hxv.1
    have hpa := hpa hu
    simp only [physAt, middlePiece] at hpa ⊢
    omega

end

theorem Modified.changed {new : List MmRegion} (h : Modified C W R isUnmap new mm mm')
    (hpt : Valid C.A mm.pt) (hsub : SubRange W R) (hR : Proper R)
    (hcount : R.regionPageCount ≤ 2 ^ 36) :
    W.size ≤ 2 ^ 48 ∧ ∃ stop ret, RangeChanged C.A W.virtualAddress W.size isUnmap
      (newAttr W isUnmap) stop mm.pt ret mm'.pt := by
  have hb := hsub.bound hR
  have hl := hsub.left
  have hr := hsub.right
  have hsize : W.size ≤ 2 ^ 48 := by
    unfold size
    unfold finish PAGE_SIZE at *
    omega
  obtain ⟨stop, ret, hloop⟩ := h.pt
  obtain ⟨ret', σ', hloop', hchanged⟩ := ummapLoop_spec (n := ROUNDS) isUnmap (newAttr W isUnmap)
    stop hpt (W.le_finish.trans_lt hb) hsub.aligned.2 (size_mod W).1 hsize (by unfold ROUNDS; omega)
  cases hloop.symm.trans hloop'
  exact ⟨hsize, stop, ret, hchanged⟩

/-- **What a split keeps.**  Let a request of whole pages lie in a region, and let
`mm_region_modify` return `0`.  Every address of the region keeps what it refers to exactly
if a request that changes attributes names the physical address of its first page, and the
region maps no file, or the request begins at the start of the region and also ends at its
end or the offset of the region is a multiple of the page size. -/
theorem modify_keeps_pages_iff (isUnmap : Bool) (hmm : Ordered mm) (hpt : Valid C.A mm.pt)
    (hR : R ∈ mm.regions) (hsub : SubRange W R) (hpages : 1 ≤ W.regionPageCount)
    (hcount : R.regionPageCount ≤ 2 ^ 36) (h : mmRegionModify C W isUnmap mm = some (0, mm')) :
    KeepsPages W R isUnmap mm mm' ↔
      (isUnmap = false → W.physicalAddress % 2 ^ 64 = R.physAt W.virtualAddress) ∧
        OffsetsKept W R := by
  have hRp := hmm.proper R hR
  have hRf := hRp.lt_finish
  have hWb := hsub.bound hRp
  have hWf : W.virtualAddress < W.finish := Proper.lt_finish ⟨hpages, hWb⟩
  have hl := hsub.left
  have hr := hsub.right
  obtain ⟨i0, i1, i2, hmod⟩ : ∃ i0 i1 i2,
      Modified C W R isUnmap (pieces W R isUnmap i0 i1 i2) mm mm' := by
    obtain ⟨ret, mm'', he, ⟨-, hmod, -⟩ | ⟨rfl, -⟩⟩ :=
      mmRegionModify_spec isUnmap hmm hpt hR hsub fun _ => hpages
    · cases h.symm.trans he
      exact hmod
    · exact absurd (Prod.mk.inj (Option.some.inj (h.symm.trans he))).1 (by decide)
  have hlf := hsub.left_finish hRp i1
  have hrf := hsub.right_finish hRp i2
  have hd1 := sub64_of_le hl (hWf.trans hWb)
  have hd2 := sub64_of_le (hl.trans hWf.le) hWb
  have hin := fun {v : ℕ} {x : MmRegion} (hRv : R.Contains v) (hxv : x.Contains v) =>
    (hmod.cases hmm hR (overlap_of_contains hxv hRv)).2
  constructor
  · -- the first address of a piece shows its physical address and its offset
    intro hk
    refine ⟨fun hu => ?_, fun hfile => ?_⟩
    · have hRv : R.Contains W.virtualAddress := ⟨hl, by omega⟩
      have hxv : (middlePiece W R i0).Contains W.virtualAddress := ⟨le_rfl, hWf⟩
      have hsame := (hk.same _ _ hRv (hin hRv hxv (.inr (.inr ⟨hu, rfl⟩))) hxv).1
      simpa [physAt, middlePiece] using hsame
    by_contra hcon
    rw [not_and_or, not_or] at hcon
    by_cases hva : W.virtualAddress = R.virtualAddress
    · obtain ⟨hne, hoff'⟩ := hcon.resolve_left (not_not.2 hva)
      have hRv : R.Contains W.finish := ⟨by omega, by omega⟩
      have hxv : (rightPiece R W.finish i2).Contains W.finish := ⟨le_rfl, by omega⟩
      have hsame := (hk.same _ _ hRv (hin hRv hxv (.inl ⟨hne, rfl⟩)) hxv).2.2.1 hfile
      simp only [fileAt, rightPiece, pieceOffset, hfile, if_true, hd2, PAGE_ALIGN_DOWN,
        PAGE_SIZE] at hsame hoff'
      omega
    · have hRv : R.Contains R.virtualAddress := ⟨le_rfl, hRf⟩
      have hxv : (leftPiece R W.virtualAddress i1).Contains R.virtualAddress :=
        ⟨le_rfl, by rw [hlf]; omega⟩
      have hsame := (hk.same _ _ hRv (hin hRv hxv (.inr (.inl ⟨hva, rfl⟩))) hxv).2.2.1 hfile
      have hal := hsub.aligned
      simp only [fileAt, leftPiece, pieceOffset, hfile, if_true, hd1, PAGE_ALIGN_DOWN,
        PAGE_SIZE] at hsame
      omega
  · rintro ⟨hpa, hkept⟩
    obtain ⟨hsize, stop, ret, hchanged⟩ := hmod.changed hpt hsub hRp hcount
    refine ⟨fun v hRv hv => ?_, fun v x hRv hx hxv =>
      ⟨hmod.physAt_eq hmm hR hsub hpa hx hRv hxv, ?_⟩,
      hmod.others_iff hmm hR hsub, fun v hv => ?_, fun hf hm v hv => ?_⟩
    · obtain ⟨x, hx, hxv⟩ := hmod.covers hmm hR hsub hRv hv
      exact ⟨x, ⟨hx, hxv⟩, fun y hy => hmod.ordered.unique hy.1 hx hy.2 hxv⟩
    · rcases (hmod.cases hmm hR (overlap_of_contains hxv hRv)).1 hx with
        ⟨hne, rfl⟩ | ⟨hne, rfl⟩ | ⟨hu, rfl⟩
      · have hv1 : W.finish ≤ v := hxv.1
        refine ⟨rfl, fun hfile => ?_, fun hWv => absurd hWv.2 (not_lt.2 hv1), fun _ => rfl⟩
        have ho := (hkept hfile).2.resolve_left hne
        simp only [fileAt, rightPiece, pieceOffset, hfile, if_true, hd2, PAGE_ALIGN_DOWN,
          PAGE_SIZE] at ho ⊢
        omega
      · have hv2 : v < W.virtualAddress := hlf ▸ hxv.2
        exact ⟨rfl, fun hfile => absurd (hkept hfile).1 hne,
          fun hWv => absurd hWv.1 (not_le.2 hv2), fun _ => rfl⟩
      · have hWv : W.Contains v := hxv
        refine ⟨rfl, fun hfile => ?_, fun _ => ⟨hu, rfl⟩, absurd hWv⟩
        simp only [fileAt, middlePiece, (hkept hfile).1]
    · obtain ⟨j, hj, -, htr, -⟩ := hchanged.result
      rw [htr, onRange, if_neg (by omega)]
    · obtain ⟨-, htr⟩ := hchanged.complete (hWf.trans hWb) hsize hm hf
      rw [htr, onRange, if_pos hv]

/-- Unmapping the first page of the file leaves the rest of it where it was. -/
theorem modify_keeps_pages_first : ∃ mm mm', mapAll (Mm.new emptySpace) [threePages] = some mm ∧
      mmRegionModify smallConfig (munmapRegion 0x10000 0x1000) true mm = some (0, mm') ∧
      KeepsPages (munmapRegion 0x10000 0x1000) threePages true mm mm' := by
  obtain ⟨mm, hmm, hreg, hord, hpt⟩ := mapped_threePages
  have hpt := hpt.valid
  have hR : threePages ∈ mm.regions := by simp [hreg]
  have hsub : SubRange (munmapRegion 0x10000 0x1000) threePages :=
    ⟨by decide, by decide, by decide, .inl (by decide)⟩
  obtain ⟨ret, mm', hmod, ⟨rfl, -⟩ | ⟨-, ⟨n, hn⟩, -⟩⟩ :=
    mmRegionModify_spec true hord hpt hR hsub (by simp)
  swap
  · cases hn
  refine ⟨mm, mm', hmm, hmod, ?_⟩
  exact (modify_keeps_pages_iff true hord hpt hR hsub (by decide) (by decide) hmod).2
    ⟨by simp, fun _ => ⟨rfl, .inr rfl⟩⟩

/-- Unmapping the second page of three pages of a file: the first page was at position `0` of
the file, and is at position `0x1000` afterwards. -/
theorem modify_moves_offset : ((mapAll (Mm.new emptySpace) [threePages]).bind fun mm =>
      (mmRegionModify smallConfig (munmapRegion 0x11000 0x1000) true mm).map fun (ret, mm') =>
        (ret, (va2regionRbtree mm.tree 0x10000).map fun r => r.fileAt 0x10000,
          (va2regionRbtree mm'.tree 0x10000).map fun r => r.fileAt 0x10000)) =
    some (0, some 0, some 0x1000) := by
  decide +kernel

end Intewell.Region
