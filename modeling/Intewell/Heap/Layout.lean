/-
# The blocks of the workspace heap

A layout is the list of the blocks from `hcb->start` to `hcb->final`, each with its
size and, where it is used, the pointer that was handed out and the size asked
for.  `Inv` says that the memory is that of a layout: the flags of a block stand in
the block and in its successor, the free list is a doubly linked list between
`&hcb->start` and `&hcb->final`, and the offset before a pointer leads back to its
block.

Every call changes the layout in one interval.  `Inv.splice` carries the invariant
over from the bytes of that interval and the links of the free list.
-/

import Intewell.Heap.Basic
import Intewell.Lib.Segment
import Intewell.Lib.Tiling
import Mathlib.Data.List.Chain

namespace Intewell.Heap

open Bytes List
open Linked (Seg)
open Tiling (Tiles tiles_append)

/-- A block; `use` is the pointer handed out and the size asked for. -/
structure Blk where
  addr : ℕ
  size : ℕ
  use : Option (ℕ × ℕ)
deriving DecidableEq, Repr

/-- Size and status, as in `fflag`. -/
def Blk.flag (b : Blk) : ℕ := if b.use = none then b.size else b.size + 1

/-- The control structure, and the area from `lo` to the end of the tail block at `hi`. -/
structure Area (hcb lo hi : ℕ) : Prop where
  hcb_pos : 0 < hcb
  lo_pos : 0 < lo
  aligned : 8 ∣ lo
  hcb_end : hcb + 72 ≤ 2 ^ 64
  hi_end : hi + 16 ≤ 2 ^ 64
  short : hi + 16 < lo + 2 ^ 32
  apart : hcb + 72 ≤ lo ∨ hi + 16 ≤ hcb

/-- The flags of a block stand in the block and in its successor. -/
def Tagged (m : Mem) (b : Blk) :
    Prop := fflag m b.addr = b.flag ∧ bflag m (b.addr + b.size) = b.flag

/-- The word before a pointer leads back to its block. -/
def Owned (m : Mem) (b : Blk) : Prop :=
  ∀ p n, b.use = some (p, n) →
    b.addr + 24 ≤ p ∧ p ≤ b.addr + b.size ∧ load 8 m (p - 8) = p - (b.addr + 16)

/-- Two neighbours are not both free. -/
def Coalesced (b c : Blk) : Prop := b.use ≠ none ∨ c.use ≠ none

/-- **The invariant**: the memory is that of the layout `l` with the free list `fl`. -/
structure Inv (hcb lo hi : ℕ) (s : State) (l : List Blk) (fl : List ℕ) : Prop where
  area : Area hcb lo hi
  startWord : start s.mem hcb = lo
  finalWord : final s.mem hcb = hi
  tiles : Tiles Blk.addr Blk.size lo l hi
  sizes : ∀ b ∈ l, 32 ≤ b.size ∧ 8 ∣ b.size
  tags : ∀ b ∈ l, Tagged s.mem b
  ends : bflag s.mem lo = HEAP_DUMMY_FLAG ∧ fflag s.mem hi = HEAP_DUMMY_FLAG
  owned : ∀ b ∈ l, Owned s.mem b
  merged : l.IsChain Coalesced
  links : Seg (next s.mem) (previous s.mem) hcb fl (hcb + 8)
  nodup : fl.Nodup
  mem_free : ∀ x, x ∈ fl ↔ ∃ b ∈ l, b.addr = x ∧ b.use = none
  count : s.ctl.freeBlocks = fl.length
  heapSize : s.ctl.heapSize = hi + 16 - lo

/-- The used blocks. -/
def used (l : List Blk) : List Blk := l.filter fun b => b.use.isSome

/-- The bytes of the used blocks. -/
def usedSize (l : List Blk) : ℕ := ((used l).map Blk.size).sum

theorem usedSize_append (l1 l2 : List Blk) : usedSize (l1 ++ l2) = usedSize l1 + usedSize l2 := by
  simp [usedSize, used]

/-- The bytes that a change of the layout from `x` to `y` may write: those of the
interval, without the first word and with the first word after it, and the links of
the free list. -/
def Touched (hcb : ℕ) (fl : List ℕ) (x y a : ℕ) : Prop :=
  (x + 8 ≤ a ∧ a < y + 8) ∨ (∃ z ∈ hcb :: fl, z + 16 ≤ a ∧ a < z + 24) ∨
    ∃ z ∈ fl ++ [hcb + 8], z + 24 ≤ a ∧ a < z + 32

section

variable {hcb x y a v : ℕ} {fl : List ℕ} {m m' : Mem}

/-- The bytes that are not touched are as before. -/
def Keeps (hcb : ℕ) (fl : List ℕ) (x y : ℕ) (m m' : Mem) : Prop :=
  ∀ a, ¬Touched hcb fl x y a → m' a = m a

theorem Keeps.refl (m : Mem) : Keeps hcb fl x y m m := fun _ _ => rfl

section
variable (h : Keeps hcb fl x y m m')
include h

theorem Keeps.store (hlo : x + 8 ≤ a) (hhi : a ≤ y) :
    Keeps hcb fl x y m (store 8 m' a v) := fun b hb => by
  rw [store_apply_of_not_mem _ (by by_contra hin; exact hb (.inl (by omega)))]
  exact h b hb

theorem Keeps.setNext (ha : a ∈ hcb :: fl) : Keeps hcb fl x y m (setNext m' a v) := fun b hb => by
  rw [Heap.setNext, store_apply_of_not_mem _ (by
    by_contra hin
    exact hb (.inr (.inl ⟨a, ha, by omega⟩)))]
  exact h b hb

theorem Keeps.setPrevious (ha : a ∈ fl ++ [hcb + 8]) :
    Keeps hcb fl x y m (setPrevious m' a v) := fun b hb => by
  rw [Heap.setPrevious, store_apply_of_not_mem _ (by
    by_contra hin
    exact hb (.inr (.inr ⟨a, ha, by omega⟩)))]
  exact h b hb

end

end

section

variable {l l1 l2 mid : List Blk} {b c : Blk}

theorem coalesced_end (h : (l ++ [b]).IsChain Coalesced) (hc : b.use = none ∨ c.use ≠ none) :
    (l ++ [c]).IsChain Coalesced := by
  simp only [isChain_append, List.head?_cons, Option.mem_def, Option.some.injEq] at h ⊢
  refine ⟨h.1, isChain_singleton c, fun x hx y hy => ?_⟩
  subst hy
  rcases hc with hc | hc
  · rcases h.2.2 x hx b rfl with hx' | hb
    · exact .inl hx'
    · exact absurd hc hb
  · exact .inr hc

theorem coalesced_start (h : (b :: l).IsChain Coalesced) (hc : b.use = none ∨ c.use ≠ none) :
    (c :: l).IsChain Coalesced := by
  cases l with
  | nil => exact isChain_singleton c
  | cons d l =>
    rw [isChain_cons_cons] at h ⊢
    refine ⟨?_, h.2⟩
    rcases hc with hc | hc
    · exact .inr (h.1.resolve_left fun hb => hb hc)
    · exact .inl hc

theorem exists_mem_splice {P : Blk → Prop} :
    (∃ b ∈ l1 ++ mid ++ l2, P b) ↔ (∃ b ∈ l1, P b) ∨ (∃ b ∈ mid, P b) ∨ ∃ b ∈ l2, P b := by
  simp only [mem_append, or_and_right, exists_or, or_assoc]

end

namespace Inv

variable {hcb lo hi x y z : ℕ} {s s' : State} {l l1 l2 mid mid' : List Blk} {fl fl' : List ℕ}
  {b : Blk}

section
variable (h : Inv hcb lo hi s l fl)
include h

theorem bounds (hb : b ∈ l) : lo ≤ b.addr ∧ b.addr + b.size ≤ hi ∧ 32 ≤ b.size :=
  ⟨(h.tiles.bounds hb).1, (h.tiles.bounds hb).2, (h.sizes b hb).1⟩

theorem aligned (hb : b ∈ l) : 8 ∣ b.addr :=
  (h.tiles.dvd (fun c hc => (h.sizes c hc).2) h.area.aligned).2 b hb

theorem node_bounds (hz : z ∈ fl) : lo ≤ z ∧ z + 32 ≤ hi := by
  obtain ⟨b, hb, rfl, -⟩ := (h.mem_free z).1 hz
  have := h.bounds hb
  omega

theorem node_apart (hx : x ∈ fl) (hy : y ∈ fl) (hne : x ≠ y) : x + 32 ≤ y ∨ y + 32 ≤ x := by
  obtain ⟨b, hb, rfl, -⟩ := (h.mem_free x).1 hx
  obtain ⟨c, hc, rfl, -⟩ := (h.mem_free y).1 hy
  have hbs := h.bounds hb
  have hcs := h.bounds hc
  by_contra hov
  refine hne (congrArg Blk.addr (h.tiles.eq_of_overlap hb hc ?_ ?_)) <;> omega

end

theorem node_around (h : Inv hcb lo hi s (l1 ++ mid ++ l2) fl)
    (h1 : Tiles Blk.addr Blk.size lo l1 x) (h2 : Tiles Blk.addr Blk.size y l2 hi) (hz : z ∈ fl) :
    z + 32 ≤ x ∨ y ≤ z ∨ ∃ b ∈ mid, b.addr = z ∧ b.use = none := by
  obtain ⟨b, hb, rfl, hfree⟩ := (h.mem_free z).1 hz
  have hsize := (h.sizes b hb).1
  rcases mem_append.1 hb with hb | hb
  · rcases mem_append.1 hb with hb | hb
    · have := h1.bounds hb
      omega
    · exact .inr (.inr ⟨b, hb, rfl, hfree⟩)
  · have := h2.bounds hb
    omega

section
variable (h : Inv hcb lo hi s l fl)
include h

section
variable (hb : b ∈ l) (hout : b.addr + b.size ≤ x ∨ y ≤ b.addr)
include hb hout

theorem not_touched {a : ℕ} (hlo : b.addr + 8 ≤ a) (hhi : a < b.addr + b.size + 8)
    (hlink : b.use ≠ none ∨ a < b.addr + 16 ∨ b.addr + 32 ≤ a) : ¬Touched hcb fl x y a := by
  have hb' := h.bounds hb
  have harea := h.area
  have hapart := harea.apart
  -- a free block other than `b` has its links in itself
  have hnode : ∀ z ∈ fl, z + 16 ≤ a → a < z + 32 → False := fun z hz hz1 hz2 => by
    obtain ⟨c, hc, rfl, hfree⟩ := (h.mem_free z).1 hz
    have hc' := h.bounds hc
    have hbc : b = c := h.tiles.eq_of_overlap hb hc (by omega) (by omega)
    subst hbc
    rcases hlink with hlink | hlink
    · exact hlink hfree
    · omega
  rintro (hin | ⟨z, hz, hin⟩ | ⟨z, hz, hin⟩)
  · omega
  · rcases mem_cons.1 hz with rfl | hz
    · omega
    · exact hnode z hz hin.1 (by omega)
  · rcases mem_append.1 hz with hz | hz
    · exact hnode z hz (by omega) hin.2
    · simp only [mem_singleton] at hz
      omega

theorem used_kept (hused : b.use ≠ none) {m' : Mem} (hk : Keeps hcb fl x y s.mem m') {a : ℕ}
    (hlo : b.addr + 8 ≤ a) (hhi : a < b.addr + b.size + 8) :
    m' a = s.mem a := hk a (h.not_touched hb hout hlo hhi (.inl hused))

theorem tagged_kept {m' : Mem} (hk : Keeps hcb fl x y s.mem m') : Tagged m' b := by
  have hsize := (h.sizes b hb).1
  obtain ⟨hf, hb'⟩ := h.tags b hb
  constructor
  · rw [← hf]
    exact load_congr fun a ha ha' =>
      hk a (h.not_touched hb hout (by omega) (by omega) (.inr (by omega)))
  · rw [← hb']
    exact load_congr fun a ha ha' =>
      hk a (h.not_touched hb hout (by omega) (by omega) (.inr (by omega)))

theorem owned_kept {m' : Mem} (hk : Keeps hcb fl x y s.mem m') : Owned m' b := fun p n hp => by
  obtain ⟨hlo, hhi, hload⟩ := h.owned b hb p n hp
  refine ⟨hlo, hhi, ?_⟩
  rw [← hload]
  exact load_congr fun a ha ha' =>
    h.used_kept hb hout (by simp [hp]) hk (by omega) (by omega)

end

theorem ends_kept (hx : lo ≤ x) (hy : y ≤ hi) {m' : Mem} (hk : Keeps hcb fl x y s.mem m') :
    start m' hcb = lo ∧ final m' hcb = hi ∧ bflag m' lo = HEAP_DUMMY_FLAG ∧
      fflag m' hi = HEAP_DUMMY_FLAG := by
  have hapart := h.area.apart
  have hlohi := h.tiles.le
  have hout : ∀ a, (hcb ≤ a ∧ a < hcb + 16) ∨ (lo ≤ a ∧ a < lo + 8) ∨ (hi + 8 ≤ a ∧ a < hi + 16) →
      ¬Touched hcb fl x y a := by
    rintro a ha (hin | ⟨z, hz, hin⟩ | ⟨z, hz, hin⟩)
    · omega
    · rcases mem_cons.1 hz with rfl | hz
      · omega
      · have := h.node_bounds hz
        omega
    · rcases mem_append.1 hz with hz | hz
      · have := h.node_bounds hz
        omega
      · simp only [mem_singleton] at hz
        omega
  refine ⟨?_, ?_, ?_, ?_⟩
  · rw [← h.startWord]
    exact load_congr fun a ha ha' => hk a (hout a (by omega))
  · rw [← h.finalWord]
    exact load_congr fun a ha ha' => hk a (hout a (by omega))
  · rw [← h.ends.1]
    exact load_congr fun a ha ha' => hk a (hout a (by omega))
  · rw [← h.ends.2]
    exact load_congr fun a ha ha' => hk a (hout a (by omega))

end

/-- **The layout changes in one interval.**  What is to be shown of the new memory is
about the new blocks and the free list. -/
theorem splice (h : Inv hcb lo hi s (l1 ++ mid ++ l2) fl) (h1 : Tiles Blk.addr Blk.size lo l1 x)
    (hm : Tiles Blk.addr Blk.size x mid' y) (h2 : Tiles Blk.addr Blk.size y l2 hi)
    (hk : Keeps hcb fl x y s.mem s'.mem)
    (hnew : ∀ b ∈ mid', 32 ≤ b.size ∧ 8 ∣ b.size ∧ Tagged s'.mem b ∧ Owned s'.mem b)
    (hmerged : (l1 ++ mid' ++ l2).IsChain Coalesced)
    (hlinks : Seg (next s'.mem) (previous s'.mem) hcb fl' (hcb + 8)) (hnd : fl'.Nodup)
    (hfree : ∀ z, z ∈ fl' ↔ ∃ b ∈ l1 ++ mid' ++ l2, b.addr = z ∧ b.use = none)
    (hcount : s'.ctl.freeBlocks = fl'.length) (hsize : s'.ctl.heapSize = s.ctl.heapSize) :
    Inv hcb lo hi s' (l1 ++ mid' ++ l2) fl' := by
  have hx : lo ≤ x := h1.le
  have hy : y ≤ hi := h2.le
  have hrest : ∀ b ∈ l1 ++ mid' ++ l2, b ∈ mid' ∨
      (b ∈ l1 ++ mid ++ l2 ∧ (b.addr + b.size ≤ x ∨ y ≤ b.addr)) := fun b hb => by
    simp only [mem_append] at hb ⊢
    rcases hb with (hb | hb) | hb
    · exact .inr ⟨.inl (.inl hb), .inl (h1.bounds hb).2⟩
    · exact .inl hb
    · exact .inr ⟨.inr hb, .inr (h2.bounds hb).1⟩
  obtain ⟨hstart, hfinal, hbeg, hend⟩ := h.ends_kept hx hy hk
  refine ⟨h.area, hstart, hfinal, h1.replace hm h2, fun b hb => ?_, fun b hb => ?_, ⟨hbeg, hend⟩,
    fun b hb => ?_, hmerged, hlinks, hnd, hfree, hcount, hsize.trans h.heapSize⟩
  · rcases hrest b hb with hb | ⟨hb, -⟩
    · exact ⟨(hnew b hb).1, (hnew b hb).2.1⟩
    · exact h.sizes b hb
  · rcases hrest b hb with hb | ⟨hb, hout⟩
    · exact (hnew b hb).2.2.1
    · exact h.tagged_kept hb hout hk
  · rcases hrest b hb with hb | ⟨hb, hout⟩
    · exact (hnew b hb).2.2.2
    · exact h.owned_kept hb hout hk

end Inv

end Intewell.Heap
