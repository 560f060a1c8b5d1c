/-
# The order of the regions

The regions of an address space are in a red-black tree, from left to right in the order
of their addresses and without overlap (`Ordered`).  `mm_region_insert_rbtree` either finds
a region that the new one overlaps and does nothing, or puts it in its place
(`insert_spec`); `mm_region_remove_rbtree` takes one region out (`remove_spec`); and
`va2region_rbtree` and `va2region_r` find the one region that contains an address
(`lookup_iff`, `va2regionR_eq`).

The list holds the regions of the tree.  It is in their order as long as every region
was linked into an empty tree or as a left child: `list_add` is `list_add_tail`, so a
region linked as a right child is put before its parent too.
-/

import Intewell.Region.Basic
import Mathlib.Data.List.Pairwise

namespace Intewell.Region

open ColorTree CTree Mmu
open List hiding after

/-- The end of a region, not reduced modulo `2^64`. -/
def MmRegion.finish (r : MmRegion) : ℕ := r.virtualAddress + r.regionPageCount * PAGE_SIZE

/-- A region with at least one page that ends below `2^64`. -/
structure Proper (r : MmRegion) : Prop where
  pages : 1 ≤ r.regionPageCount
  bound : r.finish < 2 ^ 64

/-- Two regions share an address. -/
def Overlap (a b : MmRegion) : Prop := a.virtualAddress < b.finish ∧ b.virtualAddress < a.finish

theorem Proper.lt_finish {r : MmRegion} (h : Proper r) : r.virtualAddress < r.finish := by
  have := h.pages
  unfold MmRegion.finish PAGE_SIZE
  omega

theorem Proper.stop_eq {r : MmRegion} (h : Proper r) : r.stop = r.finish := Nat.mod_eq_of_lt h.bound

variable {S : Type} {mm mm' : Mm S} {r : MmRegion}

/-- The regions in the order of the tree. -/
def Mm.regions (mm : Mm S) : List MmRegion := mm.tree.toList

/-- The invariant of the tree and the list. -/
structure Ordered (mm : Mm S) : Prop where
  bal : ∃ m, Bal mm.tree .black m
  proper : ∀ r ∈ mm.regions, Proper r
  sorted : mm.regions.Pairwise fun a b => a.finish ≤ b.virtualAddress
  perm : mm.list.Perm mm.regions

theorem Ordered.nodup (h : Ordered mm) : mm.regions.Nodup := by
  refine h.sorted.imp_of_mem fun {a b} ha _ hab he => ?_
  subst he
  exact absurd hab (not_le.2 (h.proper a ha).lt_finish)

theorem Ordered.disjoint (h : Ordered mm) {a b : MmRegion} (ha : a ∈ mm.regions)
    (hb : b ∈ mm.regions) (hab : Overlap a b) : a = b := by
  by_contra hne
  have hs : mm.regions.Pairwise fun a b => a.finish ≤ b.virtualAddress ∨
      b.finish ≤ a.virtualAddress := h.sorted.imp .inl
  have : Std.Symm fun a b : MmRegion => a.finish ≤ b.virtualAddress ∨
    b.finish ≤ a.virtualAddress := ⟨fun _ _ => Or.symm⟩
  have := hs.forall ha hb hne
  have := hab.1
  have := hab.2
  omega

/-- The address spaces that differ in tables, allocations and calls only. -/
theorem Ordered.congr (h : Ordered mm) (ht : mm'.tree = mm.tree) (hl : mm'.list = mm.list) :
    Ordered mm' := by
  obtain ⟨h1, h2, h3, h4⟩ := h
  have hreg : mm'.regions = mm.regions := congrArg toList ht
  exact ⟨ht ▸ h1, hreg ▸ h2, hreg ▸ h3, by rw [hl, hreg]; exact h4⟩

section

section
variable (hr : Proper r) {x : MmRegion} (hx : Proper x)
include hr hx

theorem linkDir_none : linkDir r x = none ↔ Overlap x r := by
  unfold linkDir Overlap
  rw [hr.stop_eq, hx.stop_eq]
  split_ifs with h1 h2
  · exact iff_of_true rfl h1.symm
  · exact iff_of_false (by simp) fun h => h1 h.symm
  · exact iff_of_false (by simp) fun h => h1 h.symm

theorem linkDir_apart : (linkDir r x = some .left → r.finish ≤ x.virtualAddress) ∧
    (linkDir r x = some .right → x.finish ≤ r.virtualAddress) := by
  have := hx.lt_finish
  have := hr.lt_finish
  unfold linkDir
  rw [hr.stop_eq, hx.stop_eq]
  constructor <;> intro h <;> split_ifs at h <;> first | omega | simp at h

end

theorem perm_listLink (r : MmRegion) (k : List (Crumb MmRegion)) (l : List MmRegion) :
    (listLink r k l).Perm (r :: l) := by
  have hmid : ∀ head, (listAddTail r head l).Perm (r :: l) := fun head => by
    exact perm_middle.trans (by rw [takeWhile_append_dropWhile])
  unfold listLink
  split
  · exact perm_append_singleton r l
  · split
    · exact hmid _
    · exact hmid _

theorem listAddTail_middle {head : MmRegion} {pre : List MmRegion} (post : List MmRegion)
    (h : head ∉ pre) : listAddTail r head (pre ++ head :: post) = pre ++ r :: head :: post := by
  have hpre : ∀ x ∈ pre, decide (x ≠ head) = true := fun x hx =>
    decide_eq_true fun he => h (he ▸ hx)
  unfold listAddTail
  rw [takeWhile_append_of_pos hpre, dropWhile_append_of_pos hpre]
  simp

/-- What linking a region does: it stands in its place in the tree, and the list stays in
order exactly where the link was not a right child. -/
structure Linked (r : MmRegion) (mm mm' : Mm S) : Prop where
  regions : ∃ pre post, mm.regions = pre ++ post ∧ mm'.regions = pre ++ r :: post
  rest : mm'.pt = mm.pt ∧ mm'.mallocs = mm.mallocs ∧ mm'.calls = mm.calls
  links : ∃ s, mm'.links = mm.links ++ [(r, s)] ∧
    (mm.list = mm.regions → (mm'.list = mm'.regions ↔ s ≠ some .right))

theorem Linked.mem_iff (h : Linked r mm mm') {x : MmRegion} :
    x ∈ mm'.regions ↔ x = r ∨ x ∈ mm.regions := by
  obtain ⟨pre, post, h1, h2⟩ := h.regions
  rw [h1, h2]
  simp only [mem_append, mem_cons]
  tauto

/-- The list after a link into an ordered list. -/
theorem listLink_eq_iff {k : List (Crumb MmRegion)} {l : List MmRegion}
    (hl : l = before k ++ after k) (hnodup : l.Nodup) (hr : r ∉ l) :
    listLink r k l = before k ++ r :: after k ↔ k.head?.map Crumb.side ≠ some .right := by
  match k with
  | [] =>
    obtain rfl : l = [] := hl
    simp [listLink, before, after]
  | ⟨.left, c, p, u⟩ :: k =>
    have hp : p ∉ before k := by
      intro h
      rw [hl] at hnodup
      exact (nodup_append.1 hnodup).2.2 p h p (by simp [after]) rfl
    have := listAddTail_middle (r := r) (u.toList ++ after k) hp
    rw [hl]
    simpa [listLink, before, after] using this
  | ⟨.right, c, p, u⟩ :: k =>
    have hl' : l = (before k ++ u.toList) ++ p :: after k := by
      rw [hl]
      simp [before, after]
    have hp : p ∉ before k ++ u.toList := by
      intro h
      rw [hl'] at hnodup
      exact (nodup_append.1 hnodup).2.2 p h p (by simp) rfl
    have hrp : r ≠ p := by
      rintro rfl
      exact hr (by simp [hl'])
    have hmid := listAddTail_middle (r := r) (after k) hp
    rw [← hl'] at hmid
    constructor
    · intro h
      simp only [listLink, listAdd, hmid, before, after, append_assoc, append_cancel_left_eq,
        cons_append, nil_append, cons.injEq] at h
      exact absurd h.1 hrp
    · exact absurd rfl

/-- A red-black tree, whatever the order of its regions. -/
def Balanced (mm : Mm S) : Prop := ∃ m, Bal mm.tree .black m

theorem insert_cases (h : Balanced mm) (r : MmRegion) :
    (link (linkDir r) mm.tree [] = none ∧ mmRegionInsertRbtree r mm = some (-1, mm)) ∨
    ∃ k tree, link (linkDir r) mm.tree [] = some k ∧ mm.regions = before k ++ after k ∧
      tree.toList = before k ++ r :: after k ∧ (∃ m, Bal tree .black m) ∧
      mmRegionInsertRbtree r mm = some (0, { mm with
        tree := tree
        list := listLink r k mm.list
        links := mm.links ++ [(r, k.head?.map Crumb.side)] }) := by
  unfold mmRegionInsertRbtree
  cases hk : link (linkDir r) mm.tree [] with
  | none => exact .inl ⟨rfl, rfl⟩
  | some k =>
    obtain ⟨m, hm⟩ := h
    have hplug : plug .nil k = mm.tree := plug_link hk
    obtain ⟨tree, htree, hlist, hbal⟩ := RBTree.insertAt_spec (hplug ▸ hm)
    refine .inr ⟨k, tree, rfl, ?_, hlist, hbal, by simp [htree]⟩
    rw [Mm.regions, ← hplug, toList_plug]
    simp [toList]

theorem insert_mem (h : Balanced mm) (r : MmRegion) :
    ∃ ret mm', mmRegionInsertRbtree r mm = some (ret, mm') ∧ Balanced mm' ∧
      (∀ x ∈ mm.regions, x ∈ mm'.regions) ∧ ∀ x ∈ mm'.regions, x = r ∨ x ∈ mm.regions := by
  obtain ⟨-, he⟩ | ⟨k, tree, -, hreg, hlist, hbal, he⟩ := insert_cases h r
  · exact ⟨-1, mm, he, h, fun _ hx => hx, fun _ hx => .inr hx⟩
  · refine ⟨0, _, he, hbal, ?_⟩
    simp only [Mm.regions, hlist] at hreg ⊢
    rw [hreg]
    simp only [mem_append, mem_cons]
    exact ⟨fun x hx => by tauto, fun x hx => by tauto⟩

/-- **`mm_region_insert_rbtree`** of a proper region. -/
theorem insert_spec (h : Ordered mm) (hr : Proper r) :
    ((∃ x ∈ mm.regions, Overlap x r) ∧ mmRegionInsertRbtree r mm = some (-1, mm)) ∨
    ((∀ x ∈ mm.regions, ¬Overlap x r) ∧ ∃ mm', mmRegionInsertRbtree r mm = some (0, mm') ∧
      Ordered mm' ∧ Linked r mm mm') := by
  obtain ⟨hk, he⟩ | ⟨k, tree, hk, hreg, hlist, hbal, he⟩ := insert_cases h.bal r
  · obtain ⟨x, hx, hd⟩ := link_eq_none hk
    exact .inl ⟨⟨x, hx, (linkDir_none hr (h.proper x hx)).1 hd⟩, he⟩
  · -- the place is between the regions before and the regions after the new one
    obtain ⟨hlo, hhi⟩ := link_between (fun x => x.finish ≤ r.virtualAddress)
      (fun x => r.finish ≤ x.virtualAddress)
      (fun {x y} hxy hy => hxy.trans ((Nat.le_add_right _ _).trans hy))
      (fun {x y} hxy hx => hx.trans ((Nat.le_add_right _ _).trans hxy))
      (fun x hx => (linkDir_apart hr (h.proper x hx)).1)
      (fun x hx => (linkDir_apart hr (h.proper x hx)).2)
      h.sorted hk
    replace hlo := hlo (by simp [before])
    replace hhi := hhi (by simp [after])
    have hno : ∀ x ∈ mm.regions, ¬Overlap x r := by
      intro x hx hov
      rw [hreg] at hx
      rcases mem_append.1 hx with hx | hx
      · exact absurd hov.2 (not_lt.2 (hlo x hx))
      · exact absurd hov.1 (not_lt.2 (hhi x hx))
    have hnot : r ∉ mm.regions := fun hx => hno r hx ⟨hr.lt_finish, hr.lt_finish⟩
    refine .inr ⟨hno, _, he, ⟨hbal, ?_, ?_, ?_⟩,
      ⟨_, _, hreg, hlist⟩, ⟨rfl, rfl, rfl⟩, _, rfl, fun hl => ?_⟩
    · intro x hx
      simp only [Mm.regions, hlist, mem_append, mem_cons] at hx
      rcases hx with hx | rfl | hx
      · exact h.proper x (by simp [hreg, hx])
      · exact hr
      · exact h.proper x (by simp [hreg, hx])
    · have hs := h.sorted
      rw [hreg, pairwise_append] at hs
      simp only [Mm.regions, hlist]
      rw [pairwise_append, pairwise_cons]
      refine ⟨hs.1, ⟨hhi, hs.2.1⟩, fun x hx y hy => ?_⟩
      rcases mem_cons.1 hy with rfl | hy
      · exact hlo x hx
      · exact hs.2.2 x hx y hy
    · refine (perm_listLink r k mm.list).trans ?_
      simp only [Mm.regions, hlist]
      refine (List.Perm.cons r h.perm).trans ?_
      rw [hreg]
      exact perm_middle.symm
    · simp only [Mm.regions, hlist]
      rw [hl]
      exact listLink_eq_iff hreg h.nodup hnot

end

/-- What taking a region out does. -/
structure Removed (r : MmRegion) (mm mm' : Mm S) : Prop where
  regions : ∃ pre post, mm.regions = pre ++ r :: post ∧ mm'.regions = pre ++ post
  rest : mm'.pt = mm.pt ∧ mm'.mallocs = mm.mallocs ∧ mm'.calls = mm.calls ∧ mm'.links = mm.links
  list : mm.list = mm.regions → mm'.list = mm'.regions

/-- **`mm_region_remove_rbtree`** of a region of the tree. -/
theorem remove_spec (h : Ordered mm) (hr : r ∈ mm.regions) :
    ∃ mm', mmRegionRemoveRbtree r mm = some mm' ∧ Ordered mm' ∧ Removed r mm mm' := by
  obtain ⟨m, hm⟩ := h.bal
  obtain ⟨tree, pre, a, post, htree, -, ha, hpre, hpost, hbal⟩ :=
    RBTree.erase_next_spec (p := (· = r)) hm ⟨r, hr, by simp⟩
  obtain rfl : a = r := by simpa using ha
  have hreg : mm.regions = pre ++ a :: post := hpre
  have hnot : a ∉ pre := by
    have hn := h.nodup
    rw [hreg] at hn
    exact fun hin => (nodup_append.1 hn).2.2 a hin a (by simp) rfl
  have herase : (pre ++ a :: post).erase a = pre ++ post := by
    rw [erase_append_right _ hnot, erase_cons_head]
  have hsub : (pre ++ post).Sublist (pre ++ a :: post) :=
    (List.Sublist.refl pre).append (sublist_cons_self a post)
  refine ⟨{ mm with tree := tree, list := mm.list.erase a },
    by rw [mmRegionRemoveRbtree, htree]; rfl,
    ⟨hbal, ?_, ?_, ?_⟩, ⟨pre, post, hreg, hpost⟩, ⟨rfl, rfl, rfl, rfl⟩, fun hl => ?_⟩
  · intro x hx
    exact h.proper x (hreg ▸ hsub.subset (hpost ▸ hx))
  · have hs := h.sorted
    rw [hreg] at hs
    simp only [Mm.regions, hpost]
    exact hs.sublist hsub
  · simp only [Mm.regions, hpost]
    rw [← herase, ← hreg]
    exact h.perm.erase a
  · simp only [Mm.regions, hpost]
    rw [hl, hreg, herase]

theorem Removed.mem_iff (hr : Removed r mm mm') (h : Ordered mm) {x : MmRegion} :
    x ∈ mm'.regions ↔ x ∈ mm.regions ∧ x ≠ r := by
  obtain ⟨pre, post, h1, h2⟩ := hr.regions
  have hn := h.nodup
  rw [h1] at hn
  obtain ⟨-, hn2, hn3⟩ := nodup_append.1 hn
  have hpost := (nodup_cons.1 hn2).1
  rw [h1, h2]
  simp only [mem_append, mem_cons]
  constructor
  · rintro (hx | hx)
    · exact ⟨.inl hx, hn3 x hx r (by simp)⟩
    · exact ⟨.inr (.inr hx), fun he => hpost (he ▸ hx)⟩
  · rintro ⟨hx | hx | hx, hne⟩
    · exact .inl hx
    · exact absurd hx hne
    · exact .inr hx

section

/-- The address lies in the region. -/
def MmRegion.Contains (r : MmRegion) (v : ℕ) : Prop := r.virtualAddress ≤ v ∧ v < r.finish

section
variable (h : Ordered mm)
include h

theorem Ordered.unique {a b : MmRegion} {v : ℕ} (ha : a ∈ mm.regions) (hb : b ∈ mm.regions)
    (hva : a.Contains v) (hvb : b.Contains v) : a = b :=
  h.disjoint ha hb ⟨hva.1.trans_lt hvb.2, hvb.1.trans_lt hva.2⟩

theorem va2regionR_iff {v : ℕ} : va2regionR mm.list v = some r ↔ r ∈ mm.regions ∧ r.Contains v := by
  have hstop : ∀ x ∈ mm.list, x.stop = x.finish := fun x hx =>
    (h.proper x (h.perm.mem_iff.1 hx)).stop_eq
  unfold va2regionR
  constructor
  · intro hf
    have hin := mem_of_find?_eq_some hf
    have hp : r.virtualAddress ≤ v ∧ v < r.stop := by simpa using find?_some hf
    exact ⟨h.perm.mem_iff.1 hin, hp.1, hstop r hin ▸ hp.2⟩
  · rintro ⟨hr, hc⟩
    have hin := h.perm.mem_iff.2 hr
    cases hf : mm.list.find? fun r => decide (r.virtualAddress ≤ v ∧ v < r.stop) with
    | none =>
      have hnot := find?_eq_none.1 hf r hin
      exact absurd (decide_eq_true ⟨hc.1, (hstop r hin).symm ▸ hc.2⟩) hnot
    | some x =>
      have hx := mem_of_find?_eq_some hf
      have hp : x.virtualAddress ≤ v ∧ v < x.stop := by simpa using find?_some hf
      rw [h.unique (h.perm.mem_iff.1 hx) hr ⟨hp.1, hstop x hx ▸ hp.2⟩ hc]

/-- **`va2region_rbtree`** finds the region that contains the address. -/
theorem lookup_iff {v : ℕ} :
    va2regionRbtree mm.tree v = some r ↔ r ∈ mm.regions ∧ r.Contains v := by
  have hs : mm.tree.toList.Pairwise fun a b =>
      (Proper a ∧ Proper b) ∧ a.finish ≤ b.virtualAddress :=
    h.sorted.imp_of_mem fun ha hb hab => ⟨⟨h.proper _ ha, h.proper _ hb⟩, hab⟩
  have hfind : va2regionRbtree mm.tree v = mm.regions.find? fun a =>
      (if v < a.virtualAddress then some Side.left
        else if a.stop ≤ v then some .right else none) = none := by
    refine search_eq_find hs ?_ ?_
    · rintro x y ⟨⟨hx, -⟩, hxy⟩ hd
      have := hx.lt_finish
      split_ifs at hd ⊢ <;> first | rfl | omega | simp at hd
    · rintro x y ⟨⟨hx, -⟩, hxy⟩ hd
      have := hx.lt_finish
      have := hx.stop_eq
      split_ifs at hd ⊢ <;> first | rfl | omega | simp at hd
  rw [hfind]
  constructor
  · intro hf
    have hin := mem_of_find?_eq_some hf
    have hp := find?_some hf
    have := (h.proper r hin).stop_eq
    refine ⟨hin, ?_⟩
    unfold MmRegion.Contains
    simp only [decide_eq_true_eq] at hp
    split_ifs at hp
    omega
  · rintro ⟨hr, hc⟩
    have hstop := (h.proper r hr).stop_eq
    cases hf : mm.regions.find? fun a =>
        decide ((if v < a.virtualAddress then some Side.left
          else if a.stop ≤ v then some .right else none) = none) with
    | none =>
      have hnot := find?_eq_none.1 hf r hr
      rw [if_neg (not_lt.2 hc.1), if_neg (not_le.2 (hstop.symm ▸ hc.2))] at hnot
      exact absurd (decide_eq_true rfl) hnot
    | some x =>
      have hx := mem_of_find?_eq_some hf
      have hp := find?_some hf
      have := (h.proper x hx).stop_eq
      simp only [decide_eq_true_eq] at hp
      split_ifs at hp
      rw [h.unique hx hr ⟨by omega, by omega⟩ hc]

theorem va2regionR_eq (v : ℕ) : va2regionR mm.list v = va2regionRbtree mm.tree v := by
  ext r
  rw [va2regionR_iff h, lookup_iff h]

end

end

end Intewell.Region
