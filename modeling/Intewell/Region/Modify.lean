/-
# What `mm_region_modify` does to the regions

A request inside one region takes that region out and links up to three pieces of it: the
middle piece with the new attributes, unless the request unmaps; the piece before the
request; and the piece behind it.  None of them can meet another region, so all of them are
linked (`mmRegionModify_spec`), unless `malloc` fails on the way; then the rest of the
pieces is missing.  A request that does not lie in one region changes nothing
(`mmRegionModify_refused`).
-/

import Intewell.Region.Rounds

namespace Intewell.Region

open MmRegion List ColorTree CTree Mmu

variable {S : Type} {C : Config S} {mm mm0 mm1 mm' : Mm S} {W R p : MmRegion} {isUnmap : Bool}
  {new : List MmRegion}

/-- A request that lies in a region, page boundary on page boundary.  A request without pages
lies in the region if it is a place between two pages of the region. -/
structure SubRange (W R : MmRegion) : Prop where
  aligned : R.virtualAddress % 4096 = 0 ∧ W.virtualAddress % 4096 = 0
  left : R.virtualAddress ≤ W.virtualAddress
  right : W.finish ≤ R.finish
  inner : 1 ≤ W.regionPageCount ∨
    R.virtualAddress < W.virtualAddress ∧ W.virtualAddress < R.finish

theorem SubRange.bound (h : SubRange W R) (hR : Proper R) : W.finish < 2 ^ 64 :=
  h.right.trans_lt hR.bound

theorem MmRegion.le_finish (r : MmRegion) : r.virtualAddress ≤ r.finish := Nat.le_add_right _ _

theorem SubRange.lt_finish (h : SubRange W R) : W.virtualAddress < R.finish := by
  have := h.right
  have := h.inner
  unfold finish PAGE_SIZE at *
  omega

theorem SubRange.lt_last (h : SubRange W R) : R.virtualAddress < W.finish := by
  have := h.left
  have := h.inner
  unfold finish PAGE_SIZE at *
  omega

/-- The region `old` has been taken out, and the regions `new` linked. -/
structure Replaced (old : MmRegion) (new : List MmRegion) (mm mm' : Mm S) : Prop where
  ordered : Ordered mm'
  mem : ∀ x, x ∈ mm'.regions ↔ x ∈ new ∨ (x ∈ mm.regions ∧ x ≠ old)

theorem Replaced.congr (h : Replaced R new mm0 mm) (ht : mm'.tree = mm.tree)
    (hl : mm'.list = mm.list) : Replaced R new mm0 mm' where
  ordered := h.ordered.congr ht hl
  mem x := by
    rw [Mm.regions, ht]
    exact h.mem x

theorem Removed.replaced (h : Removed R mm1 mm') (hmm : Ordered mm1) (ht : mm1.tree = mm.tree)
    (hord : Ordered mm') : Replaced R [] mm mm' := by
  refine ⟨hord, fun x => ?_⟩
  rw [h.mem_iff hmm, Mm.regions, ht]
  simp [Mm.regions]

/-- A region inside the one taken out that meets none of the new ones is linked. -/
theorem Replaced.link (hmm : Ordered mm0) (hR : R ∈ mm0.regions) (h : Replaced R new mm0 mm)
    (hp : Proper p) (hleft : R.virtualAddress ≤ p.virtualAddress) (hright : p.finish ≤ R.finish)
    (hno : ∀ x ∈ new, ¬Overlap x p) :
    ∃ mm', mmRegionInsertRbtree p mm = some (0, mm') ∧ Replaced R (p :: new) mm0 mm' ∧
      Linked p mm mm' := by
  have hfree : ∀ x ∈ mm.regions, ¬Overlap x p := by
    intro x hx hov
    rcases (h.mem x).1 hx with hx | ⟨hx, hne⟩
    · exact hno x hx hov
    · exact hne (hmm.disjoint hx hR ⟨hov.1.trans_le hright, hleft.trans_lt hov.2⟩)
  rcases insert_spec h.ordered hp with ⟨⟨x, hx, hov⟩, -⟩ | ⟨-, mm', he, hord, hlinked⟩
  · exact absurd hov (hfree x hx)
  · refine ⟨mm', he, ⟨hord, fun x => ?_⟩, hlinked⟩
    rw [hlinked.mem_iff, h.mem x, mem_cons, or_assoc]

section

/-- The region for the request itself, if it does not unmap. -/
def middlePiece (W R : MmRegion) (id : ℕ) : MmRegion :=
  { R with
    id := id
    isNeedFree := true
    regionPageCount := W.regionPageCount
    virtualAddress := W.virtualAddress
    physicalAddress := W.physicalAddress
    memAttr := W.memAttr
    mapMin := W.virtualAddress }

/-- The pieces that replace the region, with the names `malloc` gives them. -/
def pieces (W R : MmRegion) (isUnmap : Bool) (i₀ i₁ i₂ : ℕ) : List MmRegion :=
  (if W.finish = R.finish then [] else [rightPiece R W.finish i₂]) ++
    ((if W.virtualAddress = R.virtualAddress then [] else [leftPiece R W.virtualAddress i₁]) ++
      (if isUnmap then [] else [middlePiece W R i₀]))

/-- The calls of the page allocator for a page group that is given back. -/
def groupCalls (W R : MmRegion) (isUnmap : Bool) : List PageCall :=
  if R.isPageFree then
    (if W.virtualAddress = R.virtualAddress then []
      else [.refInc R.physicalAddress R.pageOrder]) ++
    (if W.finish = R.finish then []
      else [.refInc (rightPiece R W.finish 0).physicalAddress R.pageOrder]) ++
    (if isUnmap then [.free R.physicalAddress R.pageOrder] else [])
  else []

theorem sub64_of_le {a b : ℕ} (h : b ≤ a) (ha : a < 2 ^ 64) : sub64 a b = a - b := by
  unfold sub64
  omega

section
variable (h : SubRange W R) (hR : Proper R)
include h hR

theorem SubRange.left_count (i : ℕ) :
    (leftPiece R W.virtualAddress i).regionPageCount * 4096 =
    W.virtualAddress - R.virtualAddress := by
  have hW := h.bound hR
  have := h.aligned
  unfold finish at hW
  change sub64 W.virtualAddress R.virtualAddress / 4096 * 4096 = _
  rw [sub64_of_le h.left (by omega)]
  omega

theorem SubRange.right_count (i : ℕ) :
    (rightPiece R W.finish i).regionPageCount * 4096 = R.finish - W.finish := by
  have := h.aligned
  have hr := h.right
  change sub64 R.stop W.finish / 4096 * 4096 = _
  rw [hR.stop_eq, sub64_of_le h.right hR.bound]
  unfold finish PAGE_SIZE at *
  omega

theorem SubRange.left_finish (i : ℕ) :
    (leftPiece R W.virtualAddress i).finish = W.virtualAddress := by
  have := h.left_count hR i
  have := h.left
  change R.virtualAddress + (leftPiece R W.virtualAddress i).regionPageCount * 4096 = _
  omega

theorem SubRange.right_finish (i : ℕ) : (rightPiece R W.finish i).finish = R.finish := by
  have := h.right_count hR i
  have := h.right
  change W.finish + (rightPiece R W.finish i).regionPageCount * 4096 = _
  omega

theorem SubRange.left_none (i : ℕ) :
    (leftPiece R W.virtualAddress i).regionPageCount = 0 ↔ W.virtualAddress = R.virtualAddress := by
  have := h.left_count hR i
  have := h.left
  omega

theorem SubRange.right_none (i : ℕ) :
    (rightPiece R W.finish i).regionPageCount = 0 ↔ W.finish = R.finish := by
  have := h.right_count hR i
  have := h.right
  omega

end

/-- There is room for `p` in the place of `R`, beside the pieces `new`. -/
structure Room (R : MmRegion) (new : List MmRegion) (p : MmRegion) : Prop where
  proper : Proper p
  left : R.virtualAddress ≤ p.virtualAddress
  right : p.finish ≤ R.finish
  apart : ∀ x ∈ new, ¬Overlap x p

/-- What `modifyPiece` does where the piece fits. -/
theorem modifyPiece_spec (piece : ℕ → MmRegion) (hmm : Ordered mm0) (hR : R ∈ mm0.regions)
    (h : Replaced R new mm0 mm) (hcount : ∀ i,
      (piece i).regionPageCount = (piece 0).regionPageCount)
    (hfit : (piece 0).regionPageCount ≠ 0 → ∀ i, Room R new (piece i)) :
    ∃ i b mm', modifyPiece C piece mm = some (b, mm') ∧ mm'.pt = mm.pt ∧
      (b = true ∧ Replaced R ((if (piece i).regionPageCount = 0 then [] else [piece i]) ++ new) mm0
        mm' ∧
          mm'.calls = mm.calls ++ (if (piece i).regionPageCount = 0 ∨
            (piece i).isPageFree = false then []
            else [.refInc (piece i).physicalAddress (piece i).pageOrder]) ∨
        b = false ∧ (∃ n, C.mallocOk n = false) ∧ Replaced R new mm0 mm' ∧
          mm'.calls = mm.calls) := by
  unfold modifyPiece
  by_cases hzero : (piece 0).regionPageCount = 0
  · refine ⟨0, true, mm, if_pos hzero, rfl, .inl ⟨rfl, ?_, ?_⟩⟩
    · rwa [if_pos hzero]
    · rw [if_pos (.inl hzero), append_nil]
  · rw [if_neg hzero]
    simp only [malloc]
    cases hm : C.mallocOk mm.mallocs with
    | false =>
      exact ⟨0, false, { mm with mallocs := mm.mallocs + 1 }, rfl, rfl,
        .inr ⟨rfl, ⟨_, hm⟩, h.congr rfl rfl, rfl⟩⟩
    | true =>
      have hne : (piece mm.mallocs).regionPageCount ≠ 0 := (hcount mm.mallocs).symm ▸ hzero
      obtain ⟨hp, hl, hr, hno⟩ := hfit hzero mm.mallocs
      have hlink (mm1 : Mm S) (ht : mm1.tree = mm.tree) (hli : mm1.list = mm.list) :=
        (h.congr ht hli).link hmm hR hp hl hr hno
      cases hfree : (piece mm.mallocs).isPageFree with
      | false =>
        obtain ⟨mm', he, hrep, hlinked⟩ := hlink { mm with mallocs := mm.mallocs + 1 } rfl rfl
        refine ⟨mm.mallocs, true, mm', by simp [insertPiece, hfree, he], hlinked.rest.1,
          .inl ⟨rfl, ?_, ?_⟩⟩
        · rwa [if_neg hne]
        · rw [if_pos (.inr hfree), hlinked.rest.2.2, append_nil]
      | true =>
        obtain ⟨mm', he, hrep, hlinked⟩ := hlink (Mm.call { mm with mallocs := mm.mallocs + 1 }
          (.refInc (piece mm.mallocs).physicalAddress (piece mm.mallocs).pageOrder)) rfl rfl
        refine ⟨mm.mallocs, true, mm', by simp [insertPiece, hfree, he], hlinked.rest.1,
          .inl ⟨rfl, ?_, ?_⟩⟩
        · rwa [if_neg hne]
        · rw [if_neg (by simp [hne, hfree]), hlinked.rest.2.2]
          rfl

end

/-- The attributes `arm_mmu_modify` gives the range of a request. -/
def newAttr (W : MmRegion) (isUnmap : Bool) : Pte := if isUnmap then 0 else attr2mmu W.memAttr

/-- The region `R` is replaced by the pieces `new`, and the loop over the request has run. -/
structure Modified (C : Config S) (W R : MmRegion) (isUnmap : Bool) (new : List MmRegion)
    (mm mm' : Mm S) : Prop extends Replaced R new mm mm' where
  pt : ∃ stop ret, ummapLoop C.A isUnmap (newAttr W isUnmap) stop ROUNDS W.virtualAddress W.size
    mm.pt =
    some (ret, mm'.pt)

theorem SubRange.loop (isUnmap : Bool) (stop : ℤ) (h : SubRange W R) (hpt : Valid C.A mm.pt) :
    ∃ ret σ, ummapLoop C.A isUnmap (newAttr W isUnmap) stop ROUNDS W.virtualAddress W.size mm.pt =
      some (ret, σ) := by
  obtain ⟨hs, hlt⟩ := size_mod W
  have hsome : (ummapLoop C.A isUnmap (newAttr W isUnmap) stop ROUNDS W.virtualAddress W.size
      mm.pt).isSome :=
    ummapLoop_isSome hpt h.aligned.2 hs hlt (by unfold ROUNDS; omega)
  obtain ⟨⟨ret, σ⟩, he⟩ := Option.isSome_iff_exists.1 hsome
  exact ⟨ret, σ, he⟩

/-- The part between the borders. -/
theorem modifyMiddle_spec (isUnmap : Bool) (hmm : Ordered mm) (hpt : Valid C.A mm.pt)
    (hR : R ∈ mm.regions) (h : SubRange W R) (hpages : isUnmap = false → 1 ≤ W.regionPageCount) :
    ∃ i b mm', modifyMiddle C W R isUnmap mm = some (b, mm') ∧ mm'.calls = mm.calls ∧
      (b = true ∧ Modified C W R isUnmap (if isUnmap then [] else [middlePiece W R i]) mm mm' ∨
        b = false ∧ isUnmap = false ∧ (∃ n, C.mallocOk n = false) ∧
          mm' = { mm with mallocs := mm.mallocs + 1 }) := by
  have hRp := hmm.proper R hR
  unfold modifyMiddle
  cases isUnmap with
  | true =>
    obtain ⟨ret, σ, he⟩ := h.loop true 0 hpt
    have hmm1 : Ordered { mm with pt := σ } := hmm.congr rfl rfl
    obtain ⟨mm', hrem, hord, hremoved⟩ := remove_spec hmm1 hR
    refine ⟨0, true, mm', ?_, hremoved.rest.2.2.1, .inl ⟨rfl, ⟨?_, ?_⟩⟩⟩
    · rw [if_pos rfl, armMmuUnmap, mmuUnmapR, show (0 : Pte) = newAttr W true from rfl, he]
      simp only [Option.bind_some, hrem, Option.map_some]
    · exact hremoved.replaced hmm1 rfl hord
    · exact ⟨0, ret, hremoved.rest.1.symm ▸ he⟩
  | false =>
    simp only [Bool.false_eq_true, if_false, malloc]
    cases hm : C.mallocOk mm.mallocs with
    | false => exact ⟨0, false, _, rfl, rfl, .inr ⟨rfl, trivial, ⟨_, hm⟩, rfl⟩⟩
    | true =>
      obtain ⟨ret, σ, he⟩ := h.loop false (-1) hpt
      have hmm1 : Ordered { mm with pt := σ, mallocs := mm.mallocs + 1 } := hmm.congr rfl rfl
      obtain ⟨mm1, hrem, hord, hremoved⟩ := remove_spec hmm1 hR
      have hrep : Replaced R [] mm mm1 := hremoved.replaced hmm1 rfl hord
      obtain ⟨mm', hins, hrep', hlinked⟩ := hrep.link hmm hR
        (p := middlePiece W R mm.mallocs) ⟨hpages rfl, h.bound hRp⟩ h.left h.right (by simp)
      have hsize : size { R with
          id := mm.mallocs
          isNeedFree := true
          regionPageCount := W.regionPageCount
          virtualAddress := W.virtualAddress
          physicalAddress := W.physicalAddress
          memAttr := W.memAttr
          mapMin := W.virtualAddress } = W.size := rfl
      refine ⟨mm.mallocs, true, mm', ?_, ?_, .inl ⟨rfl, ⟨hrep', -1, ret, ?_⟩⟩⟩
      · simp only [if_true, armMmuModify, hsize]
        rw [show attr2mmu W.memAttr = newAttr W false from rfl, he]
        simp only [Option.bind_some, hrem]
        change Option.map _ (mmRegionInsertRbtree (middlePiece W R mm.mallocs) mm1) = _
        rw [hins]
        rfl
      · rw [hlinked.rest.2.2, hremoved.rest.2.2.1]
      · rw [hlinked.rest.1, hremoved.rest.1]
        exact he

/-- **`mm_region_modify`** of a request that does not lie in one region. -/
theorem mmRegionModify_refused (h : ∀ R, va2regionRbtree mm.tree W.virtualAddress = some R →
      va2regionRbtree mm.tree (sub64 W.stop 1) ≠ some R) :
    mmRegionModify C W isUnmap mm = some (-1, mm) := by
  unfold mmRegionModify
  simp only
  cases hR : va2regionRbtree mm.tree W.virtualAddress with
  | none => split_ifs <;> rfl
  | some R => rw [if_pos (h R hR).symm]

section
variable (h : SubRange W R) (hR : Proper R) (isUnmap : Bool)
include h hR

/-- The piece before the request ends where the middle piece begins. -/
theorem SubRange.left_fits (i0 : ℕ) (hne : (leftPiece R W.virtualAddress 0).regionPageCount ≠ 0)
    (i : ℕ) : Room R (if isUnmap then [] else [middlePiece W R i0])
      (leftPiece R W.virtualAddress i) := by
  have hf := h.left_finish hR i
  have hW := h.lt_finish
  have hb := hR.bound
  refine ⟨⟨Nat.one_le_iff_ne_zero.2 hne, by omega⟩, le_rfl, by omega, fun x hx hov => ?_⟩
  cases isUnmap with
  | true => simp at hx
  | false =>
    obtain rfl : x = middlePiece W R i0 := by simpa using hx
    exact absurd hov.1 (by rw [hf]; exact lt_irrefl _)

/-- The piece behind the request begins where the middle piece ends. -/
theorem SubRange.right_fits (i0 i1 : ℕ) (hne : (rightPiece R W.finish 0).regionPageCount ≠ 0)
    (i : ℕ) : Room R ((if (leftPiece R W.virtualAddress i1).regionPageCount = 0 then []
        else [leftPiece R W.virtualAddress i1]) ++ if isUnmap then [] else [middlePiece W R i0])
      (rightPiece R W.finish i) := by
  have hf := h.right_finish hR i
  have hb := hR.bound
  refine ⟨⟨Nat.one_le_iff_ne_zero.2 hne, by omega⟩, h.left.trans W.le_finish, by omega,
    fun x hx hov => ?_⟩
  rcases mem_append.1 hx with hx | hx
  · split_ifs at hx with hz
    · simp at hx
    · obtain rfl : x = leftPiece R W.virtualAddress i1 := by simpa using hx
      have hlf := h.left_finish hR i1
      have hWf := W.le_finish
      have := hov.2
      change W.finish < _ at this
      omega
  · cases isUnmap with
    | true => simp at hx
    | false =>
      obtain rfl : x = middlePiece W R i0 := by simpa using hx
      exact absurd hov.2 (lt_irrefl _)

theorem SubRange.groupCalls_eq (i1 i2 : ℕ) :
    (if (leftPiece R W.virtualAddress i1).regionPageCount = 0 ∨ R.isPageFree = false then []
      else [.refInc R.physicalAddress R.pageOrder]) ++
    ((if (rightPiece R W.finish i2).regionPageCount = 0 ∨ R.isPageFree = false then []
      else [.refInc (rightPiece R W.finish i2).physicalAddress R.pageOrder]) ++
    if isUnmap = true ∧ R.isPageFree = true then [.free R.physicalAddress R.pageOrder] else []) =
      groupCalls W R isUnmap := by
  rw [if_congr (or_congr_left (h.left_none hR i1)) rfl rfl,
    if_congr (or_congr_left (h.right_none hR i2)) rfl rfl]
  cases hfree : R.isPageFree <;> simp [groupCalls, hfree, rightPiece]

end

/-- **`mm_region_modify`** of a request inside a region. -/
theorem mmRegionModify_spec (isUnmap : Bool) (hmm : Ordered mm) (hpt : Valid C.A mm.pt)
    (hR : R ∈ mm.regions) (h : SubRange W R) (hpages : isUnmap = false → 1 ≤ W.regionPageCount) :
    ∃ ret mm', mmRegionModify C W isUnmap mm = some (ret, mm') ∧
      (ret = 0 ∧ (∃ i0 i1 i2, Modified C W R isUnmap (pieces W R isUnmap i0 i1 i2) mm mm') ∧
          mm'.calls = mm.calls ++ groupCalls W R isUnmap ∨ ret = -1 ∧ (∃ n, C.mallocOk n = false) ∧
          (isUnmap = false ∧ mm' = { mm with mallocs := mm.mallocs + 1 } ∨
            ∃ i0 i1 i2, ∃ new ⊆ pieces W R isUnmap i0 i1 i2,
              Modified C W R isUnmap new mm mm')) := by
  have hRp := hmm.proper R hR
  have hWb := h.bound hRp
  have hstop : W.stop = W.finish := Nat.mod_eq_of_lt hWb
  have hr := h.right
  have hlast := h.lt_last
  have hfirst : va2regionRbtree mm.tree W.virtualAddress = some R :=
    (lookup_iff hmm).2 ⟨hR, h.left, h.lt_finish⟩
  have hlast : va2regionRbtree mm.tree (sub64 W.stop 1) = some R := by
    rw [hstop, sub64_of_le (by omega) hWb]
    exact (lookup_iff hmm).2 ⟨hR, by omega, by omega⟩
  unfold mmRegionModify
  simp only [hfirst, hlast, ne_eq, not_true_eq_false, if_false]
  rw [hstop]
  obtain ⟨i0, b, mm1, he, hcalls, ⟨rfl, hmod⟩ | ⟨rfl, rfl, hm, rfl⟩⟩ :=
    modifyMiddle_spec isUnmap hmm hpt hR h hpages
  swap
  · exact ⟨-1, _, by rw [he]; rfl, .inr ⟨rfl, hm, .inl ⟨rfl, rfl⟩⟩⟩
  rw [he, Option.bind_some]
  simp only
  -- the piece before the request ends where the middle piece begins
  have hleft := modifyPiece_spec (C := C) (leftPiece R W.virtualAddress) hmm hR hmod.toReplaced
    (fun _ => rfl) (h.left_fits hRp isUnmap i0)
  obtain ⟨i1, b, mm2, he, hpt2, ⟨rfl, hrep, hcalls2⟩ | ⟨rfl, hm, hrep, hcalls2⟩⟩ := hleft
  swap
  · refine ⟨-1, mm2, by rw [he]; rfl, .inr ⟨rfl, hm, .inr ⟨i0, 0, 0, _, ?_, hrep, ?_⟩⟩⟩
    · exact fun x hx => mem_append_right _ (mem_append_right _ hx)
    · rw [hpt2]
      exact hmod.pt
  rw [he, Option.bind_some]
  simp only
  -- the piece behind the request begins where the middle piece ends
  have hright := modifyPiece_spec (C := C) (rightPiece R W.finish) hmm hR hrep
    (fun _ => rfl) (h.right_fits hRp isUnmap i0 i1)
  obtain ⟨i2, b, mm3, he, hpt3, ⟨rfl, hrep3, hcalls3⟩ | ⟨rfl, hm, hrep3, hcalls3⟩⟩ := hright
  · have hpieces : (if (rightPiece R W.finish i2).regionPageCount = 0 then []
        else [rightPiece R W.finish i2]) ++
          ((if (leftPiece R W.virtualAddress i1).regionPageCount = 0 then []
            else [leftPiece R W.virtualAddress i1]) ++
            (if isUnmap then [] else [middlePiece W R i0])) = pieces W R isUnmap i0 i1 i2 := by
      unfold pieces
      rw [if_congr (h.right_none hRp i2) rfl rfl, if_congr (h.left_none hRp i1) rfl rfl]
    rw [hpieces] at hrep3
    rw [he, Option.map_some]
    refine ⟨0, _, rfl, .inl ⟨rfl, ⟨i0, i1, i2, ?_, ?_⟩, ?_⟩⟩
    · split_ifs
      · exact hrep3.congr rfl rfl
      · exact hrep3
    · have hsame : mm3.pt = mm1.pt := hpt3.trans hpt2
      split_ifs
      · exact hsame.symm ▸ hmod.pt
      · exact hsame.symm ▸ hmod.pt
    · rw [hcalls2, hcalls] at hcalls3
      rw [← h.groupCalls_eq hRp isUnmap i1 i2, ← append_assoc, ← append_assoc]
      by_cases hu : isUnmap = true ∧ R.isPageFree = true
      · rw [if_pos hu, if_pos hu]
        exact congrArg (· ++ [_]) hcalls3
      · rw [if_neg hu, if_neg hu, append_nil]
        exact hcalls3
  · rw [he, Option.map_some]
    refine ⟨-1, mm3, rfl, .inr ⟨rfl, hm, .inr ⟨i0, i1, 0, _, ?_, hrep3, ?_⟩⟩⟩
    · rw [if_congr (h.left_none hRp i1) rfl rfl]
      exact fun x => mem_append_right _
    · rw [hpt3, hpt2]
      exact hmod.pt

end Intewell.Region
