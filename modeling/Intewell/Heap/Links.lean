/-
# The links of the free list

The nodes of the free list are the free blocks and the two sentinels
`&hcb->start` and `&hcb->final`, of which only `next` and only `previous` is used.
The words of the links of different nodes do not overlap, so that a write to one
link is a change of `next` or `previous` at one node.
-/

import Intewell.Heap.Layout
import Mathlib.Data.List.Nodup

namespace Intewell.Heap

open List.Sublist (refl)
open List Bytes
open Bytes (Mem load store)
open Linked (Seg)

theorem load_store_word {m : Mem} {a v : ℕ} (hv : v < 2 ^ 64) : load 8 (store 8 m a v) a = v :=
  load_store m (by simpa using hv)

theorem load_word_lt (m : Mem) (a : ℕ) : load 8 m a < 2 ^ 64 := by
  simpa using load_lt m 8 a

theorem next_lt (m : Mem) (a : ℕ) : next m a < 2 ^ 64 := load_word_lt m _

theorem previous_lt (m : Mem) (a : ℕ) : previous m a < 2 ^ 64 := load_word_lt m _

/-- The free list, if no link of its nodes has changed. -/
theorem seg_congr {hcb : ℕ} {fl : List ℕ} {m m' : Mem} {P : ℕ → Prop}
    (h : Seg (next m) (previous m) hcb fl (hcb + 8)) (hP : ∀ z ∈ fl, P z)
    (hnext : ∀ z, P z ∨ z = hcb → next m' z = next m z)
    (hprev : ∀ z, P z ∨ z = hcb + 8 → previous m' z = previous m z) :
    Seg (next m') (previous m') hcb fl (hcb + 8) :=
  h.congr (fun z hz => hnext z ((mem_cons.1 hz).symm.imp_left (hP z))) fun z hz =>
    hprev z ((mem_append.1 hz).imp (hP z) mem_singleton.1)

theorem erase_middle {f1 f2 : List ℕ} {c : ℕ} (hnd : (f1 ++ c :: f2).Nodup) :
    (f1 ++ c :: f2).erase c = f1 ++ f2 := by
  have hno : c ∉ f1 ++ f2 := (nodup_cons.1 (nodup_middle.1 hnd)).1
  rw [erase_append_right _ fun hc => hno (mem_append_left _ hc), erase_cons_head]

theorem mem_without {f1 f2 : List ℕ} {c z : ℕ} (hnd : (f1 ++ c :: f2).Nodup) :
    z ∈ f1 ++ f2 ↔ z ∈ f1 ++ c :: f2 ∧ z ≠ c := by
  rw [← erase_middle hnd, hnd.mem_erase_iff, and_comm]

/-- The nodes of a free list and its sentinels are apart. -/
structure Nodes (hcb : ℕ) (fl : List ℕ) : Prop where
  nodup : fl.Nodup
  apart : ∀ x ∈ fl, ∀ y ∈ fl, x ≠ y → x + 32 ≤ y ∨ y + 32 ≤ x
  control : ∀ x ∈ fl, x + 32 ≤ hcb ∨ hcb + 40 ≤ x

theorem Inv.nodes {hcb lo hi : ℕ} {s : State} {l : List Blk} {fl : List ℕ}
    (h : Inv hcb lo hi s l fl) : Nodes hcb fl where
  nodup := h.nodup
  apart _ hx _ hy := h.node_apart hx hy
  control x hx := by
    have := h.node_bounds hx
    have := h.area.apart
    omega

namespace Nodes

variable {hcb x y z v : ℕ} {fl f1 f2 : List ℕ} {m : Mem} {a c : ℕ}

section
variable (h : Nodes hcb fl)
include h

theorem all_nodup : (hcb :: fl ++ [hcb + 8]).Nodup := by
  have hno : hcb ∉ fl := fun hmem => by
    have := h.control hcb hmem
    omega
  have hno' : ∀ x ∈ fl, x ≠ hcb + 8 := fun x hmem => by
    have := h.control x hmem
    omega
  simp only [cons_append, nodup_cons, mem_append, mem_singleton, nodup_append,
    h.nodup, not_mem_nil, not_false_eq_true, nodup_nil, and_true, true_and]
  exact ⟨by simp [hno], fun x hx y hy => hy ▸ hno' x hx⟩

theorem mono {fl' : List ℕ} (hsub : fl'.Sublist fl) : Nodes hcb fl' :=
  ⟨h.nodup.sublist hsub, fun x hx y hy => h.apart x (hsub.subset hx) y (hsub.subset hy),
    fun x hx => h.control x (hsub.subset hx)⟩

theorem next_setNext (hx : x ∈ hcb :: fl) (hz : z ∈ hcb :: fl) (hv : v < 2 ^ 64) :
    next (setNext m x v) z = if z = x then v else next m z := by
  split_ifs with heq
  · rw [heq]
    exact load_store_word hv
  · refine load_store_of_disjoint _ _ ?_
    rcases mem_cons.1 hx with hx | hx <;> rcases mem_cons.1 hz with hz | hz
    · exact absurd (hz.trans hx.symm) heq
    · have := h.control z hz
      omega
    · have := h.control x hx
      omega
    · have := h.apart z hz x hx heq
      omega

theorem next_setPrevious (hy : y ∈ fl ++ [hcb + 8]) (hz : z ∈ hcb :: fl) :
    next (setPrevious m y v) z = next m z := by
  refine load_store_of_disjoint _ _ ?_
  rcases mem_append.1 hy with hy | hy <;> rcases mem_cons.1 hz with hz | hz
  · have := h.control y hy
    omega
  · by_cases hne : z = y
    · omega
    · have := h.apart z hz y hy hne
      omega
  · have := mem_singleton.1 hy
    omega
  · have := mem_singleton.1 hy
    have := h.control z hz
    omega

theorem previous_setNext (hx : x ∈ hcb :: fl) (hz : z ∈ fl ++ [hcb + 8]) :
    previous (setNext m x v) z = previous m z := by
  refine load_store_of_disjoint _ _ ?_
  rcases mem_cons.1 hx with hx | hx <;> rcases mem_append.1 hz with hz | hz
  · have := h.control z hz
    omega
  · have := mem_singleton.1 hz
    omega
  · by_cases hne : z = x
    · omega
    · have := h.apart z hz x hx hne
      omega
  · have := mem_singleton.1 hz
    have := h.control x hx
    omega

theorem previous_setPrevious (hy : y ∈ fl ++ [hcb + 8]) (hz : z ∈ fl ++ [hcb + 8])
    (hv : v < 2 ^ 64) :
    previous (setPrevious m y v) z = if z = y then v else previous m z := by
  split_ifs with heq
  · rw [heq]
    exact load_store_word hv
  · refine load_store_of_disjoint _ _ ?_
    rcases mem_append.1 hy with hy | hy <;> rcases mem_append.1 hz with hz | hz
    · have := h.apart z hz y hy heq
      omega
    · have := mem_singleton.1 hz
      have := h.control y hy
      omega
    · have := mem_singleton.1 hy
      have := h.control z hz
      omega
    · exact absurd ((mem_singleton.1 hz).trans (mem_singleton.1 hy).symm) heq

theorem unlinkBlock_eq (ha : a ∈ fl) (hnext : next m a ∈ fl ++ [hcb + 8]) (hne : next m a ≠ a) :
    unlinkBlock m a =
      setNext (setPrevious m (next m a) (previous m a)) (previous m a) (next m a) := by
  have ha1 : a ∈ hcb :: fl := .tail _ ha
  have ha2 : a ∈ fl ++ [hcb + 8] := mem_append_left _ ha
  rw [unlinkBlock, h.next_setPrevious hnext ha1,
    h.previous_setPrevious hnext ha2 (previous_lt m _), if_neg (Ne.symm hne)]

end

/-- What a block is linked to is in the list as well. -/
theorem neighbours (h : Nodes hcb (f1 ++ c :: f2))
    (hseg : Seg (next m) (previous m) hcb (f1 ++ c :: f2) (hcb + 8)) :
    previous m c ∈ hcb :: (f1 ++ f2) ∧ next m c ∈ f1 ++ f2 ++ [hcb + 8] ∧ previous m c ≠ c ∧
      next m c ≠ c := by
  obtain ⟨h1, h2⟩ := Seg.append.1 hseg
  have hp := h1.prev_mem
  have hn := h2.next_mem
  have hnd := h.all_nodup
  rw [cons_append, append_assoc, ← cons_append] at hnd
  obtain ⟨-, hnd2, hdisj⟩ := nodup_append.1 hnd
  refine ⟨cons_subset_cons _ (subset_append_left f1 f2) hp, ?_, fun heq => ?_, fun heq => ?_⟩
  · rw [append_assoc]
    exact mem_append_right f1 hn
  · exact hdisj _ hp c (by simp) heq
  · exact (nodup_cons.1 hnd2).1 (heq ▸ hn)

/-- Unlinking takes a block out of the free list. -/
theorem seg_unlinkBlock (h : Nodes hcb (f1 ++ a :: f2))
    (hseg : Seg (next m) (previous m) hcb (f1 ++ a :: f2) (hcb + 8)) : unlinkBlock m a =
        setNext (setPrevious m (next m a) (previous m a)) (previous m a) (next m a) ∧
      Seg (next (unlinkBlock m a)) (previous (unlinkBlock m a)) hcb (f1 ++ f2) (hcb + 8) := by
  have hsub : f1 ++ f2 ⊆ f1 ++ a :: f2 :=
    ((refl f1).append (sublist_cons_self a f2)).subset
  have hsub1 : (hcb :: (f1 ++ f2)) ⊆ hcb :: (f1 ++ a :: f2) := cons_subset_cons _ hsub
  have hsub2 : (f1 ++ f2 ++ [hcb + 8]) ⊆ f1 ++ a :: f2 ++ [hcb + 8] :=
    append_subset.2 ⟨fun z hz => mem_append_left _ (hsub hz), subset_append_right _ _⟩
  obtain ⟨hp, hn, -, hne⟩ := h.neighbours hseg
  have heq := h.unlinkBlock_eq (by simp) (hsub2 hn) hne
  refine ⟨heq, ?_⟩
  rw [heq]
  refine hseg.unlink (nodup_append.1 h.all_nodup).1 h.all_nodup.of_cons (fun z hz hne' => ?_)
    (fun z hz hne' => ?_) ?_ ?_
  · rw [h.next_setNext (hsub1 hp) (hsub1 hz) (next_lt m _), if_neg hne',
      h.next_setPrevious (hsub2 hn) (hsub1 hz)]
  · rw [h.previous_setNext (hsub1 hp) (hsub2 hz),
      h.previous_setPrevious (hsub2 hn) (hsub2 hz) (previous_lt m _), if_neg hne']
  · rw [h.next_setNext (hsub1 hp) (hsub1 hp) (next_lt m _), if_pos rfl]
  · rw [h.previous_setNext (hsub1 hp) (hsub2 hn),
      h.previous_setPrevious (hsub2 hn) (hsub2 hn) (previous_lt m _), if_pos rfl]

/-- A block that is not on the free list takes the place of the node `c`. -/
theorem seg_relinkBlock (h : Nodes hcb (a :: (f1 ++ c :: f2))) (ha : a < 2 ^ 64)
    (hseg : Seg (next m) (previous m) hcb (f1 ++ c :: f2) (hcb + 8)) : relinkBlock m a c =
        setPrevious (setNext (setPrevious (setNext m a (next m c)) a (previous m c)) (previous m c)
          a)
          (next m c) a ∧
      Seg (next (relinkBlock m a c)) (previous (relinkBlock m a c)) hcb (f1 ++ a :: f2)
        (hcb + 8) := by
  have hfree : Nodes hcb (f1 ++ c :: f2) := h.mono (sublist_cons_self a _)
  have hsub : f1 ++ f2 ⊆ a :: (f1 ++ c :: f2) := fun z hz => mem_cons_of_mem a
    (((refl f1).append (sublist_cons_self c f2)).subset hz)
  have hsub1 : (hcb :: (f1 ++ f2)) ⊆ hcb :: a :: (f1 ++ c :: f2) := cons_subset_cons _ hsub
  have hsub2 : (f1 ++ f2 ++ [hcb + 8]) ⊆ a :: (f1 ++ c :: f2) ++ [hcb + 8] :=
    append_subset.2 ⟨fun z hz => mem_append_left _ (hsub hz), subset_append_right _ _⟩
  obtain ⟨hp, hn, hpc, hnc⟩ := hfree.neighbours hseg
  have haway : a ∉ hcb :: (f1 ++ c :: f2) ++ [hcb + 8] := fun hmem => by
    have hnd := h.all_nodup
    rw [cons_append, cons_append, nodup_cons, nodup_cons] at hnd
    rcases mem_cons.1 hmem with hmem | hmem
    · exact hnd.1 (by simp [hmem])
    · exact hnd.2.1 hmem
  have hne : ∀ z ∈ hcb :: (f1 ++ f2) ++ [hcb + 8], z ≠ a := fun z hz heq =>
    haway (heq ▸ ((((refl f1).append (sublist_cons_self c f2)).cons_cons hcb).append
      (refl [hcb + 8])).subset hz)
  have hpa : previous m c ≠ a := hne _ (mem_append_left _ hp)
  have hna : next m c ≠ a := hne _ (.tail _ hn)
  have hca : c ≠ a := fun heq => haway (by simp [← heq])
  have hc1 : c ∈ hcb :: a :: (f1 ++ c :: f2) := by simp
  have hc2 : c ∈ a :: (f1 ++ c :: f2) ++ [hcb + 8] := by simp
  have ha1 : a ∈ hcb :: a :: (f1 ++ c :: f2) := by simp
  have ha2 : a ∈ a :: (f1 ++ c :: f2) ++ [hcb + 8] := by simp
  have heq : relinkBlock m a c =
      setPrevious (setNext (setPrevious (setNext m a (next m c)) a (previous m c)) (previous m c) a)
        (next m c) a := by
    simp only [relinkBlock]
    rw [h.previous_setNext ha1 hc2, h.previous_setPrevious ha2 hc2 (previous_lt m _), if_neg hca,
      h.previous_setNext ha1 hc2, h.next_setNext (hsub1 hp) hc1 ha, if_neg (Ne.symm hpc),
      h.next_setPrevious ha2 hc1, h.next_setNext ha1 hc1 (next_lt m _), if_neg hca]
  refine ⟨heq, ?_⟩
  have hnext : ∀ z ∈ hcb :: a :: (f1 ++ c :: f2), next (relinkBlock m a c) z =
      if z = previous m c then a else if z = a then next m c else next m z :=
    fun z hz => by
      rw [heq, h.next_setPrevious (hsub2 hn) hz, h.next_setNext (hsub1 hp) hz ha,
        h.next_setPrevious ha2 hz, h.next_setNext ha1 hz (next_lt m _)]
  have hprev : ∀ z ∈ a :: (f1 ++ c :: f2) ++ [hcb + 8], previous (relinkBlock m a c) z =
      if z = next m c then a else if z = a then previous m c else previous m z :=
    fun z hz => by
      rw [heq, h.previous_setPrevious (hsub2 hn) hz ha, h.previous_setNext (hsub1 hp) hz,
        h.previous_setPrevious ha2 hz (previous_lt m _), h.previous_setNext ha1 hz]
  refine hseg.replace (nodup_append.1 hfree.all_nodup).1 hfree.all_nodup.of_cons
    (fun z hz hne' => ?_) (fun z hz hne' => ?_) ?_ ?_ ?_ ?_
  · rw [hnext z (hsub1 hz), if_neg hne', if_neg (hne z (mem_append_left _ hz))]
  · rw [hprev z (hsub2 hz), if_neg hne', if_neg (hne z (mem_cons_of_mem hcb hz))]
  · rw [hnext _ (hsub1 hp), if_pos rfl]
  · rw [hprev _ (hsub2 hn), if_pos rfl]
  · rw [hnext a ha1, if_neg (Ne.symm hpa), if_pos rfl]
  · rw [hprev a ha2, if_neg (Ne.symm hna), if_pos rfl]

/-- A block becomes the first of the free list. -/
theorem seg_linkFirst (h : Nodes hcb (a :: fl)) (ha : a < 2 ^ 64) (hh : hcb < 2 ^ 64)
    (hseg : Seg (next m) (previous m) hcb fl (hcb + 8)) : linkFirst hcb a m =
        setPrevious (setNext (setNext (setPrevious m a hcb) a (next m hcb)) hcb a) (next m hcb) a ∧
      Seg (next (linkFirst hcb a m)) (previous (linkFirst hcb a m)) hcb (a :: fl) (hcb + 8) := by
  have hfree : Nodes hcb fl := h.mono (sublist_cons_self a _)
  have hn : next m hcb ∈ fl ++ [hcb + 8] := hseg.next_mem
  have hsub : (fl ++ [hcb + 8]) ⊆ a :: fl ++ [hcb + 8] := fun z => .tail _
  have hnd := h.all_nodup
  rw [cons_append, cons_append, nodup_cons, nodup_cons] at hnd
  obtain ⟨hcb', haway, -⟩ := hnd
  have hne : ∀ z ∈ fl ++ [hcb + 8], z ≠ a := fun z hz heq => haway (heq ▸ hz)
  have hah : a ≠ hcb := fun heq => hcb' (by simp [heq])
  have ha1 : a ∈ hcb :: a :: fl := by simp
  have ha2 : a ∈ a :: fl ++ [hcb + 8] := by simp
  have hh1 : hcb ∈ hcb :: a :: fl := by simp
  have heq : linkFirst hcb a m =
      setPrevious (setNext (setNext (setPrevious m a hcb) a (next m hcb)) hcb a) (next m hcb)
        a := by
    have hfirst : first (setPrevious m a hcb) hcb = next m hcb := h.next_setPrevious ha2 hh1
    rw [linkFirst, hfirst]
    show setPrevious (setNext _ hcb a) (next (setNext _ hcb a) a) a = _
    rw [h.next_setNext hh1 ha1 ha, if_neg hah, h.next_setNext ha1 ha1 (next_lt m _), if_pos rfl]
  refine ⟨heq, ?_⟩
  rw [heq]
  refine hseg.push (nodup_append.2 ⟨hfree.nodup, by simp, fun x hx y hy => ?_⟩)
    (fun z hz => ?_) (fun z hz hne' => ?_) ?_ ?_ ?_ ?_
  · have hnd := hfree.all_nodup
    rw [cons_append, nodup_cons, nodup_append] at hnd
    exact hnd.2.2.2 x hx y hy
  · have hz1 : z ∈ hcb :: a :: fl := by simp [hz]
    have hzh : z ≠ hcb := fun heq => hcb' (by simp [← heq, hz])
    rw [h.next_setPrevious (hsub hn) hz1, h.next_setNext hh1 hz1 ha, if_neg hzh,
      h.next_setNext ha1 hz1 (next_lt m _), if_neg (hne z (mem_append_left _ hz)),
      h.next_setPrevious ha2 hz1]
  · rw [h.previous_setPrevious (hsub hn) (hsub hz) ha, if_neg hne',
      h.previous_setNext hh1 (hsub hz),
      h.previous_setNext ha1 (hsub hz), h.previous_setPrevious ha2 (hsub hz) hh, if_neg (hne z hz)]
  · rw [h.next_setPrevious (hsub hn) hh1, h.next_setNext hh1 hh1 ha, if_pos rfl]
  · rw [h.previous_setPrevious (hsub hn) ha2 ha, if_neg (Ne.symm (hne _ hn)),
      h.previous_setNext hh1 ha2, h.previous_setNext ha1 ha2, h.previous_setPrevious ha2 ha2 hh,
      if_pos rfl]
  · rw [h.next_setPrevious (hsub hn) ha1, h.next_setNext hh1 ha1 ha, if_neg hah,
      h.next_setNext ha1 ha1 (next_lt m _), if_pos rfl]
  · rw [h.previous_setPrevious (hsub hn) (hsub hn) ha, if_pos rfl]

end Nodes

end Intewell.Heap
