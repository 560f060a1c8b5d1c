/-
# Whole runs of the region calls

`mm_region_map`, `mm_region_unmap` and `mm_region_modify` change the tree and the list by
linking regions and taking regions out only, whatever the page tables, the page allocator
and `malloc` answer, and the tables by the calls of the page-table code only (`Extends`).
-/

import Intewell.Region.Ordered
import Intewell.Mmu.Refine

namespace Intewell.Region

open Prod Relation List
open Option (bind_eq_some_iff map_eq_some_iff)
open ColorTree CTree Mmu

variable {S : Type} {C : Config S} {mm mm1 mm2 : Mm S} {r : MmRegion}

/-- The regions linked so far are proper, and then the tree is ordered; and the list with
it, as long as there was no right child among them. -/
def LinksOk (mm : Mm S) : Prop :=
  (∀ e ∈ mm.links, Proper e.1) →
    Ordered mm ∧ ((∀ e ∈ mm.links, e.2 ≠ some Side.right) → mm.list = mm.regions)

/-- One state follows from another by links and removals, and by calls on its tables. -/
structure Extends (C : Config S) (mm mm' : Mm S) : Prop where
  links : mm.links <+: mm'.links
  ok : LinksOk mm → LinksOk mm'
  pt : ReflTransGen (Mmu.Step C.A) mm.pt mm'.pt

namespace Extends

theorem trans (h1 : Extends C mm mm1) (h2 : Extends C mm1 mm2) : Extends C mm mm2 :=
  ⟨h1.links.trans h2.links, fun h => h2.ok (h1.ok h), h1.pt.trans h2.pt⟩

theorem congr (ht : mm1.tree = mm.tree) (hl : mm1.list = mm.list) (hlinks : mm1.links = mm.links)
    (hpt : ReflTransGen (Mmu.Step C.A) mm.pt mm1.pt) : Extends C mm mm1 := by
  refine ⟨hlinks ▸ prefix_rfl, fun h hp => ?_, hpt⟩
  rw [hlinks] at hp ⊢
  obtain ⟨h1, h2⟩ := h hp
  refine ⟨h1.congr ht hl, fun hs => ?_⟩
  rw [hl, h2 hs, Mm.regions, Mm.regions, ht]

theorem refl (mm : Mm S) : Extends C mm mm := congr rfl rfl rfl .refl

variable {ret : ℤ}

theorem insert (h : mmRegionInsertRbtree r mm = some (ret, mm1)) : Extends C mm mm1 := by
  cases hk : link (linkDir r) mm.tree [] with
  | none =>
    have he : mmRegionInsertRbtree r mm = some (-1, mm) := by simp [mmRegionInsertRbtree, hk]
    rw [he] at h
    cases h
    exact refl mm
  | some k =>
    have hlinks : mm1.links = mm.links ++ [(r, k.head?.map Crumb.side)] := by
      simp only [mmRegionInsertRbtree, hk] at h
      obtain ⟨tree, -, he⟩ := map_eq_some_iff.1 h
      cases he
      rfl
    have hpt : mm1.pt = mm.pt := by
      simp only [mmRegionInsertRbtree, hk] at h
      obtain ⟨tree, -, he⟩ := map_eq_some_iff.1 h
      cases he
      rfl
    refine ⟨⟨_, hlinks.symm⟩, fun hok hp => ?_, hpt ▸ .refl⟩
    rw [hlinks] at hp ⊢
    obtain ⟨hord, hlist⟩ := hok fun e he => hp e (mem_append_left _ he)
    have hr : Proper r := hp (r, _) (mem_append_right _ (.head _))
    rcases insert_spec hord hr with ⟨⟨x, hx, hov⟩, he⟩ | ⟨-, mm', he, hord', hlinked⟩
    · rw [he] at h
      cases h
      exact absurd hlinks (by simp)
    · rw [he] at h
      cases h
      refine ⟨hord', fun hs => ?_⟩
      obtain ⟨s, hs', hiff⟩ := hlinked.links
      have hside : s = k.head?.map Crumb.side := by
        have := hs'.symm.trans hlinks
        simpa using this
      rw [hiff (hlist fun e he => hs e (mem_append_left _ he)), hside]
      exact hs (r, _) (mem_append_right _ (.head _))

theorem remove (hr : r ∈ mm.regions) (h : mmRegionRemoveRbtree r mm = some mm1) :
    Extends C mm mm1 := by
  have hlinks : mm1.links = mm.links := by
    obtain ⟨tree, -, rfl⟩ := map_eq_some_iff.1 h
    rfl
  have hpt : mm1.pt = mm.pt := by
    obtain ⟨tree, -, rfl⟩ := map_eq_some_iff.1 h
    rfl
  refine ⟨hlinks ▸ prefix_rfl, fun hok hp => ?_, hpt ▸ .refl⟩
  rw [hlinks] at hp ⊢
  obtain ⟨hord, hlist⟩ := hok hp
  obtain ⟨mm', he, hord', hrem⟩ := remove_spec hord hr
  rw [he] at h
  cases h
  exact ⟨hord', fun hs => hrem.list (hlist hs)⟩

end Extends

theorem modifyMiddle_extends {region old : MmRegion} {isUnmap b : Bool} (hold : old ∈ mm.regions)
    (h : modifyMiddle C region old isUnmap mm = some (b, mm1)) : Extends C mm mm1 := by
  unfold modifyMiddle at h
  cases isUnmap with
  | true =>
    simp only [if_true, bind_eq_some_iff, map_eq_some_iff, mk.injEq] at h
    obtain ⟨⟨ret, pt⟩, hloop, mm', hrem, -, rfl⟩ := h
    have h0 : Extends C mm { mm with pt := pt } := .congr rfl rfl rfl (.single (.unmap _ _ _ hloop))
    exact h0.trans (.remove hold hrem)
  | false =>
    simp only [Bool.false_eq_true, if_false, malloc] at h
    cases hm : C.mallocOk mm.mallocs with
    | false =>
      simp only [hm, Bool.false_eq_true, if_false] at h
      cases h
      exact .congr rfl rfl rfl .refl
    | true =>
      simp only [hm, if_true, bind_eq_some_iff, map_eq_some_iff, mk.injEq] at h
      obtain ⟨⟨ret, pt⟩, hloop, mm', hrem, ⟨ret', mm''⟩, hins, -, rfl⟩ := h
      have h0 : Extends C mm { mm with pt := pt, mallocs := mm.mallocs + 1 } :=
        .congr rfl rfl rfl (.single (.modify _ _ _ _ hloop))
      have h1 : Extends C { mm with pt := pt, mallocs := mm.mallocs + 1 } mm' := .remove hold hrem
      exact h0.trans (h1.trans (.insert hins))

theorem modifyPiece_extends {piece : ℕ → MmRegion} {b : Bool}
    (h : modifyPiece C piece mm = some (b, mm1)) : Extends C mm mm1 := by
  unfold modifyPiece at h
  split_ifs at h
  · cases h
    exact .refl mm
  · simp only [malloc] at h
    cases hm : C.mallocOk mm.mallocs with
    | false =>
      simp only [hm, Bool.false_eq_true, if_false] at h
      cases h
      exact .congr rfl rfl rfl .refl
    | true =>
      simp only [hm, if_true, insertPiece, map_eq_some_iff, mk.injEq] at h
      obtain ⟨mm', ⟨⟨ret, mm''⟩, hins, rfl⟩, -, rfl⟩ := h
      refine Extends.trans ?_ (.insert hins)
      split_ifs <;> exact .congr rfl rfl rfl .refl

/-- **`mm_region_modify`.** -/
theorem mmRegionModify_extends {isUnmap : Bool}
    (h : mmRegionModify C r isUnmap mm = some (ret, mm1)) : Extends C mm mm1 := by
  unfold mmRegionModify at h
  simp only at h
  split_ifs at h
  · cases h
    exact .refl mm
  · cases hold : va2regionRbtree mm.tree r.virtualAddress with
    | none =>
      simp only [hold, Option.some.injEq, mk.injEq] at h
      exact h.2 ▸ .refl mm
    | some old =>
      simp only [hold, bind_eq_some_iff] at h
      obtain ⟨⟨b, mm'⟩, hmid, h⟩ := h
      have hE := modifyMiddle_extends (mem_of_search hold) hmid
      cases b with
      | false => exact (mk.inj (Option.some.inj h)).2 ▸ hE
      | true =>
        simp only [bind_eq_some_iff] at h
        obtain ⟨⟨b, mm''⟩, hleft, h⟩ := h
        replace hE := hE.trans (modifyPiece_extends hleft)
        cases b with
        | false => exact (mk.inj (Option.some.inj h)).2 ▸ hE
        | true =>
          obtain ⟨⟨b, mm3⟩, hright, h⟩ := map_eq_some_iff.1 h
          replace hE := hE.trans (modifyPiece_extends hright)
          cases b with
          | false => exact (mk.inj h).2 ▸ hE
          | true =>
            cases h
            refine hE.trans ?_
            split_ifs <;> exact .congr rfl rfl rfl .refl

/-- **`mm_region_map`.** -/
theorem mmRegionMap_extends {r' : MmRegion} (h : mmRegionMap C r mm = some (ret, r', mm1)) :
    Extends C mm mm1 := by
  obtain ⟨⟨r1, mm'⟩, hfix, h⟩ := bind_eq_some_iff.1 h
  have hE : Extends C mm mm' := by
    unfold mapFixed at hfix
    split_ifs at hfix
    · obtain ⟨⟨ret', mm''⟩, hmod, he⟩ := map_eq_some_iff.1 hfix
      cases he
      exact mmRegionModify_extends hmod
    · cases hfix
      exact .refl mm
  refine hE.trans ?_
  simp only [mapLink, bind_eq_some_iff] at h
  obtain ⟨⟨ret1, r2, pt⟩, hmap, h⟩ := h
  have h0 : Extends C mm' { mm' with pt := pt } := by
    obtain ⟨va, -, he⟩ := map_eq_some_iff.1 hmap
    obtain ⟨-, -, rfl⟩ : _ ∧ _ ∧ _ := by simpa using he
    exact .congr rfl rfl rfl (.single (.map _ _ _ _))
  simp only at h
  split_ifs at h
  · obtain ⟨-, -, rfl⟩ : _ ∧ _ ∧ _ := by simpa using h
    exact h0
  · obtain ⟨⟨ret2, mm2⟩, hins, h⟩ := bind_eq_some_iff.1 h
    replace h0 := h0.trans (.insert hins)
    simp only at h
    split_ifs at h
    · obtain ⟨⟨ret3, pt'⟩, hloop, he⟩ := map_eq_some_iff.1 h
      obtain ⟨-, -, rfl⟩ : _ ∧ _ ∧ _ := by simpa using he
      exact h0.trans (.congr rfl rfl rfl (.single (.unmap _ _ _ hloop)))
    · obtain ⟨-, -, rfl⟩ : _ ∧ _ ∧ _ := by simpa using h
      exact h0

/-- **`mm_region_unmap`.** -/
theorem mmRegionUnmap_extends (hr : r ∈ mm.regions) (h : mmRegionUnmap C r mm = some (ret, mm1)) :
    Extends C mm mm1 := by
  simp only [mmRegionUnmap, bind_eq_some_iff, map_eq_some_iff, mk.injEq] at h
  obtain ⟨⟨ret', pt⟩, hloop, mm', hrem, -, rfl⟩ := h
  have h0 : Extends C mm { mm with pt := pt } := .congr rfl rfl rfl (.single (.unmap _ _ _ hloop))
  have h1 : Extends C mm mm' := by
    refine h0.trans ?_
    split_ifs at hrem
    · exact .remove hr hrem
    · exact Option.some.inj hrem ▸ .refl _
  refine h1.trans ?_
  split_ifs <;> exact .congr rfl rfl rfl .refl

/-- One call on an address space, with any result. -/
inductive Step (C : Config S) (mm : Mm S) : Mm S → Prop where
  | map {ret : ℤ} {r' : MmRegion} {mm' : Mm S} (r : MmRegion)
      (h : mmRegionMap C r mm = some (ret, r', mm')) : Step C mm mm'
  | unmap {ret : ℤ} {mm' : Mm S} (r : MmRegion) (hr : r ∈ mm.regions)
      (h : mmRegionUnmap C r mm = some (ret, mm')) : Step C mm mm'
  | modify {ret : ℤ} {mm' : Mm S} (r : MmRegion) (isUnmap : Bool)
      (h : mmRegionModify C r isUnmap mm = some (ret, mm')) : Step C mm mm'

/-- An address space as `mm_init` leaves it: no regions. -/
def Mm.new (pt : Pt S) : Mm S := ⟨.nil, [], pt, 0, [], []⟩

theorem Step.extends (h : Step C mm mm1) : Extends C mm mm1 := by
  cases h with
  | map r h => exact mmRegionMap_extends h
  | unmap r hr h => exact mmRegionUnmap_extends hr h
  | modify r isUnmap h => exact mmRegionModify_extends h

theorem linksOk_new (pt : Pt S) : LinksOk (Mm.new pt) := fun _ =>
  ⟨⟨⟨0, .nil⟩, by simp [Mm.regions, Mm.new, toList], by simp [Mm.regions, Mm.new, toList],
    List.Perm.refl _⟩, fun _ => rfl⟩

theorem linksOk_of_run {pt : Pt S} (h : ReflTransGen (Step C) (Mm.new pt) mm) : LinksOk mm := by
  induction h with
  | refl => exact linksOk_new pt
  | tail _ hstep ih => exact hstep.extends.ok ih

theorem reachable_of_run {pt : Pt S} (hpt : Reachable C.A pt)
    (h : ReflTransGen (Step C) (Mm.new pt) mm) : Reachable C.A mm.pt := by
  obtain ⟨mem, s, σ0, h0, hrun⟩ := hpt
  have hext : Extends C (Mm.new pt) mm := by
    induction h with
    | refl => exact .refl _
    | tail _ hstep ih => exact ih.trans hstep.extends
  exact ⟨mem, s, σ0, h0, hrun.trans hext.pt⟩

/-- **The regions of every run are in order.**  Let an address space arise from an empty
one by any calls of `mm_region_map`, `mm_region_unmap` and `mm_region_modify`, and let the
regions linked on the way have pages and end below `2^64`.  Then the regions in the tree
are ordered by address and disjoint, `va2region_rbtree` returns the region that contains
an address and agrees with `va2region_r`, and linking and removing follow no null pointer.
If no region was linked as a right child, the list is the traversal of the tree, and the
next region linked keeps it so exactly if it is no right child. -/
theorem regions_runs {pt : Pt S} (hrun : ReflTransGen (Step C) (Mm.new pt) mm)
    (hproper : ∀ e ∈ mm.links, Proper e.1) :
    mm.regions.Pairwise (fun a b => a.finish ≤ b.virtualAddress) ∧
    (∀ v r, va2regionRbtree mm.tree v = some r ↔ r ∈ mm.regions ∧ r.Contains v) ∧
    (∀ v, va2regionR mm.list v = va2regionRbtree mm.tree v) ∧
    ((∀ r, (mmRegionInsertRbtree r mm).isSome) ∧
      ∀ r ∈ mm.regions, (mmRegionRemoveRbtree r mm).isSome) ∧
    ((∀ e ∈ mm.links, e.2 ≠ some Side.right) → mm.list = mm.regions ∧
      ∀ r mm', Proper r → mmRegionInsertRbtree r mm = some (0, mm') →
        (mm'.list = mm'.regions ↔ ∃ s, mm'.links = mm.links ++ [(r, s)] ∧
          s ≠ some Side.right)) := by
  obtain ⟨hord, hlist⟩ := linksOk_of_run hrun hproper
  refine ⟨hord.sorted, fun v r => lookup_iff hord, va2regionR_eq hord,
    ⟨fun r => ?_, fun r hr => ?_⟩, fun hs => ⟨hlist hs, fun r mm' hr h => ?_⟩⟩
  · obtain ⟨ret, mm', he, -⟩ := insert_mem hord.bal r
    rw [he]
    rfl
  · obtain ⟨mm', he, -⟩ := remove_spec hord hr
    rw [he]
    rfl
  rcases insert_spec hord hr with ⟨-, he⟩ | ⟨-, mm'', he, -, hlinked⟩
  · rw [he] at h
    exact absurd (Prod.mk.inj (Option.some.inj h)).1 (by decide)
  · rw [he] at h
    cases h
    obtain ⟨s, hs', hiff⟩ := hlinked.links
    rw [hiff (hlist hs)]
    refine ⟨fun hne => ⟨s, hs', hne⟩, ?_⟩
    rintro ⟨s', hs'', hne⟩
    obtain rfl : s = s' := by simpa using hs'.symm.trans hs''
    exact hne

/-- A user space over the tables of `emptySpace`, in which `malloc` succeeds. -/
def smallConfig : Config (ℕ × List ℕ) := ⟨countingAlloc, true, 0, 0, fun _ => true⟩

/-- One page at an address. -/
def pageAt (id va : ℕ) : MmRegion :=
  { mmRegionInit id 0 0x40000000 0x1000 with virtualAddress := va }

/-- The address space with the pages at the addresses mapped one after the other. -/
def mapAll (mm : Mm (ℕ × List ℕ)) : List MmRegion → Option (Mm (ℕ × List ℕ))
  | [] => some mm
  | r :: rs => (mmRegionMap smallConfig r mm).bind fun (_, _, mm) => mapAll mm rs

theorem mapAll_run {mm0 mm mm' : Mm (ℕ × List ℕ)} {rs : List MmRegion}
    (h0 : ReflTransGen (Step smallConfig) mm0 mm) (h : mapAll mm rs = some mm') :
    ReflTransGen (Step smallConfig) mm0 mm' := by
  induction rs generalizing mm with
  | nil => exact Option.some.inj h ▸ h0
  | cons r rs ih =>
    obtain ⟨⟨ret, r', mm1⟩, hmap, h⟩ := bind_eq_some_iff.1 h
    exact ih (h0.tail (Step.map r hmap)) h

theorem mapAll_twoPages :
    ((mapAll (Mm.new emptySpace) [pageAt 2 0x20000, pageAt 1 0x10000]).map fun mm => mm.links) =
    some [(pageAt 2 0x20000, none), (pageAt 1 0x10000, some .left)] := by
  decide +kernel

/-- Two pages, the second below the first: a left child, and the list is in order. -/
theorem regions_runs_twoPages :
    ∃ mm, mapAll (Mm.new emptySpace) [pageAt 2 0x20000, pageAt 1 0x10000] = some mm ∧
      mm.list = mm.regions := by
  obtain ⟨mm, hmm, hlinks⟩ := map_eq_some_iff.1 mapAll_twoPages
  have hproper : ∀ e ∈ mm.links, Proper e.1 := by
    rw [hlinks]
    intro e he
    simp only [mem_cons, not_mem_nil, or_false] at he
    rcases he with rfl | rfl
    · exact ⟨by decide, by decide⟩
    · exact ⟨by decide, by decide⟩
  obtain ⟨-, -, -, -, h⟩ := regions_runs (mapAll_run .refl hmm) hproper
  refine ⟨mm, hmm, (h ?_).1⟩
  rw [hlinks]
  decide

/-- Two pages, the second above the first: it is linked as a right child, and put before
the first on the list. -/
theorem list_out_of_order :
    ((mapAll (Mm.new emptySpace) [pageAt 1 0x10000, pageAt 2 0x20000]).map fun mm =>
      (mm.regions, mm.list)) =
    some ([pageAt 1 0x10000, pageAt 2 0x20000], [pageAt 2 0x20000, pageAt 1 0x10000]) := by
  decide +kernel

/-- Three pages of a file from its start on. -/
def threePages : MmRegion :=
  { pageAt 1 0x10000 with regionPageCount := 3, flags := ⟨false, false, false, true⟩ }

theorem mapAll_threePages :
    ((mapAll (Mm.new emptySpace) [threePages]).map fun mm => (mm.links, mm.regions)) =
    some ([(threePages, none)], [threePages]) := by
  decide +kernel

theorem mapped_threePages : ∃ mm, mapAll (Mm.new emptySpace) [threePages] = some mm ∧
    mm.regions = [threePages] ∧ Ordered mm ∧ Reachable smallConfig.A mm.pt := by
  obtain ⟨mm, hmm, he⟩ := map_eq_some_iff.1 mapAll_threePages
  obtain ⟨hlinks, hreg⟩ := Prod.mk.inj he
  have hrun := mapAll_run .refl hmm
  refine ⟨mm, hmm, hreg, (linksOk_of_run hrun ?_).1, reachable_of_run emptySpace_reachable hrun⟩
  rw [hlinks]
  rintro e he
  obtain rfl : e = (threePages, none) := by simpa using he
  exact ⟨by decide, by decide⟩

end Intewell.Region
