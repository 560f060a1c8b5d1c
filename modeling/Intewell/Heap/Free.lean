/-
# Freeing to the workspace heap

The used block is found by the offset before the pointer, and merged with the
neighbours that are free: with none, the one before, the one after or both.
`Inv.ttosFreeHeap_spec` says what the call does with the layout.
-/

import Intewell.Heap.Allocate

namespace Intewell.Heap

open Blk List Option Nat
open Bytes (Mem load store load_store_of_disjoint)
open Linked (Seg)
open Tiling (Tiles tiles_append)
open ReturnCode

section

variable {l : List Blk} {b : Blk}

theorem coalesced_cons (h : l.IsChain Coalesced) (hc : ∀ c ∈ l.head?, c.use ≠ none) :
    (b :: l).IsChain Coalesced := by
  cases l with
  | nil => exact isChain_singleton b
  | cons c l => exact isChain_cons_cons.2 ⟨.inr (hc c rfl), h⟩

end

section

variable {hcb lo hi p n x y : ℕ} {s : State} {l l1 l2 mid : List Blk} {fl : List ℕ} {a b c : Blk}

theorem Inv.used_nodes (h : Inv hcb lo hi s l fl) (hb : b ∈ l) (hused : b.use ≠ none) :
    Nodes hcb (b.addr :: fl) := by
  have hb' := h.bounds hb
  have hapart := h.area.apart
  have haway : ∀ z ∈ fl, b.addr + b.size ≤ z ∨ z + 32 ≤ b.addr := fun z hz => by
    obtain ⟨c, hc, rfl, hfree⟩ := (h.mem_free z).1 hz
    have hc' := h.bounds hc
    by_contra hov
    have heq := h.tiles.eq_of_overlap hb hc (by omega) (by omega)
    exact hused (heq ▸ hfree)
  refine ⟨nodup_cons.2 ⟨fun hin => ?_, h.nodup⟩, fun u hu v hv hne => ?_, fun u hu => ?_⟩
  · have := haway _ hin
    omega
  · rcases mem_cons.1 hu with rfl | hu <;> rcases mem_cons.1 hv with rfl | hv
    · exact absurd rfl hne
    · have := haway v hv
      omega
    · have := haway u hu
      omega
    · exact h.node_apart hu hv hne
  · rcases mem_cons.1 hu with rfl | hu
    · omega
    · exact h.nodes.control u hu

theorem Inv.findUsed_spec (h : Inv hcb lo hi s l fl) (hb : b ∈ l) (huse : b.use = some (p, n)) :
    findUsed hcb p s = (TTOS_OK, b.addr, s) := by
  obtain ⟨hlo, hhi, hload⟩ := h.owned b hb p n huse
  have hb' := h.bounds hb
  have harea := h.area
  have hhcb := harea.hcb_pos
  have hlopos := harea.lo_pos
  have hend := harea.hi_end
  have hheap : s.ctl.heapSize ≠ 0 := by
    rw [h.heapSize]
    omega
  have hflag : fflag s.mem b.addr = b.size + 1 := by
    rw [(h.tags b hb).1, flag, if_neg (by simp [huse])]
  have h8 := (h.sizes b hb).2
  have hword : sub64 p 8 = p - 8 := sub64_of_le (by omega) (by omega)
  have hoff : (p - (b.addr + 16) + HEAP_USED_BLOCK_OVERHEAD) % 2 ^ 64 = p - b.addr := by
    simp only [HEAP_USED_BLOCK_OVERHEAD]
    omega
  have hblock : sub64 p (p - b.addr) = b.addr := by
    rw [sub64_of_le (by omega) (by omega)]
    omega
  have hin : ¬outside s.mem hcb b.addr := by
    rw [outside, h.startWord, h.finalWord]
    omega
  simp only [findUsed, hword, hload, hoff, hblock]
  rw [if_neg (by omega), if_neg hheap, if_neg (by omega), if_neg hin, hflag, if_neg (by omega)]

/-- The memory of an interval after its first block has got the size and status `flag`. -/
def tagMem (x y flag : ℕ) (m : Mem) : Mem := setBflag (setFflag m x flag) y flag

/-- The memory where an interval has become one free block: its flags are written, and links of
nodes that begin the interval or lie outside of it. -/
structure Retagged (hcb : ℕ) (fl : List ℕ) (x y : ℕ) (m m' : Mem) : Prop where
  keeps : Keeps hcb fl x y m m'
  front : fflag m' x = y - x
  back : bflag m' y = y - x

namespace Retagged

variable {m m' : Mem} {z v : ℕ}

theorem tagMem (hcb : ℕ) (fl : List ℕ) (m : Mem) (hxy : x + 32 ≤ y) (hy : y < 2 ^ 64) :
    Retagged hcb fl x y m (tagMem x y (y - x) m) := by
  refine ⟨Keeps.store (Keeps.store (Keeps.refl m) ?_ ?_) ?_ ?_, ?_, load_store_word (by omega)⟩
  case refine_5 =>
    exact (load_store_of_disjoint _ _ (by omega)).trans (load_store_word (by omega))
  all_goals omega

section
variable (h : Retagged hcb fl x y m m') (hxy : x + 32 ≤ y)
include h hxy

theorem setNext (hz : z ∈ hcb :: fl ∧ (z + 32 ≤ x ∨ y ≤ z) ∨ z = x) :
    Retagged hcb fl x y m (setNext m' z v) := by
  refine ⟨?_, (load_store_of_disjoint _ _ (by omega)).trans h.front,
    (load_store_of_disjoint _ _ (by omega)).trans h.back⟩
  rcases hz with hz | rfl
  · exact h.keeps.setNext hz.1
  · exact h.keeps.store (by omega) (by omega)

theorem setPrevious (hz : z ∈ fl ++ [hcb + 8] ∧ (z + 32 ≤ x ∨ y ≤ z) ∨ z = x) :
    Retagged hcb fl x y m (setPrevious m' z v) := by
  refine ⟨?_, (load_store_of_disjoint _ _ (by omega)).trans h.front,
    (load_store_of_disjoint _ _ (by omega)).trans h.back⟩
  rcases hz with hz | rfl
  · exact h.keeps.setPrevious hz.1
  · exact h.keeps.store (by omega) (by omega)

end

end Retagged

/-- **What becomes of a heap where the used block `b` is freed.**  The other used blocks stay, with
their bytes. -/
structure Freed (hcb lo hi : ℕ) (s s' : State) (l : List Blk) (fl : List ℕ) (b : Blk)
    (l' : List Blk)
    (fl' : List ℕ) : Prop where
  inv : Inv hcb lo hi s' l' fl'
  used : ∀ d : Blk, d.use ≠ none → (d ∈ l' ↔ d ∈ l ∧ d ≠ b)
  usedSize : usedSize l' + b.size = usedSize l
  kept : ∀ d ∈ l, d.use ≠ none → d ≠ b →
    ∀ a, d.addr + 8 ≤ a → a < d.addr + d.size + 8 → s'.mem a = s.mem a

section
variable (h : Inv hcb lo hi s (l1 ++ mid ++ l2) fl) (h1 : Tiles Blk.addr Blk.size lo l1 x)
  (hm : Tiles Blk.addr Blk.size x mid y) (h2 : Tiles Blk.addr Blk.size y l2 hi)
include h h1 hm h2

theorem Inv.links_tagMem (flag : ℕ) :
    Seg (next (tagMem x y flag s.mem)) (previous (tagMem x y flag s.mem)) hcb fl (hcb + 8) := by
  have hapart := h.area.apart
  have hx := h1.le
  have hxy := hm.le
  have hy := h2.le
  refine seg_congr (P := fun z => z + 32 ≤ x ∨ y ≤ z ∨ (x ≤ z ∧ z + 32 ≤ y)) h.links
    (fun z hz => ?_) (fun z hz => ?_) fun z hz => ?_
  · -- a free block lies before or after the interval, or in it
    rcases h.node_around h1 h2 hz with hz | hz | ⟨d, hd, rfl, -⟩
    · exact .inl hz
    · exact .inr (.inl hz)
    · have := hm.bounds hd
      have := (h.sizes d (by simp [hd])).1
      omega
  · simp only [tagMem, setBflag, setFflag, next]
    rw [load_store_of_disjoint _ _ (by omega), load_store_of_disjoint _ _ (by omega)]
  · simp only [tagMem, setBflag, setFflag, previous]
    rw [load_store_of_disjoint _ _ (by omega), load_store_of_disjoint _ _ (by omega)]

variable (hl : ∀ d ∈ l1.getLast?, d.use ≠ none) (hr : ∀ d ∈ l2.head?, d.use ≠ none) {s' : State}
  {fl' : List ℕ} (hk : Retagged hcb fl x y s.mem s'.mem)
  (hlinks : Seg (next s'.mem) (previous s'.mem) hcb fl' (hcb + 8)) (hnd : fl'.Nodup)
  (hfree : ∀ z, z ∈ fl' ↔ z = x ∨ (z ∈ fl ∧ (z + 32 ≤ x ∨ y ≤ z)))
  (hcount : s'.ctl.freeBlocks = fl'.length) (hsize : s'.ctl.heapSize = s.ctl.heapSize)
include hl hr hk hlinks hnd hfree hcount hsize

/-- **The blocks of an interval become one free block**, where no free block is next to it. -/
theorem Inv.merge (hne : mid ≠ []) : Inv hcb lo hi s' (l1 ++ [⟨x, y - x, none⟩] ++ l2) fl' := by
  have hxy := hm.le
  have h8 : 8 ∣ y - x := by
    have hx8 := (h1.dvd (fun d hd => (h.sizes d (by simp [hd])).2) h.area.aligned).1
    exact dvd_sub (hm.dvd (fun d hd => (h.sizes d (by simp [hd])).2) hx8).1 hx8
  have h32 : 32 ≤ y - x := by
    obtain ⟨d, hd⟩ := exists_mem_of_ne_nil mid hne
    have := hm.bounds hd
    have := (h.sizes d (by simp [hd])).1
    omega
  refine h.splice h1 ⟨rfl, by simp only [Tiles]; omega⟩ h2 hk.keeps (fun d hd => ?_)
    ?_ hlinks hnd (fun z => ?_) hcount hsize
  · rw [mem_singleton.1 hd]
    refine ⟨h32, h8, ⟨by simpa [flag] using hk.front, ?_⟩, by simp [Owned]⟩
    have hend : x + (y - x) = y := by omega
    simpa [flag, hend] using hk.back
  · have hchain := h.merged
    rw [isChain_append, isChain_append] at hchain
    rw [append_assoc, singleton_append, isChain_split]
    exact ⟨isChain_append.2 ⟨hchain.1.1, isChain_singleton _, fun x hx y _ => .inl (hl x hx)⟩,
      coalesced_cons hchain.2.1 hr⟩
  · rw [hfree, exists_mem_splice]
    simp only [mem_singleton, exists_eq_left, and_true]
    constructor
    · rintro (rfl | ⟨hz, hout⟩)
      · exact .inr (.inl rfl)
      · obtain ⟨d, hd, rfl, hdf⟩ := (h.mem_free z).1 hz
        have hds := (h.sizes d hd).1
        rcases mem_append.1 hd with hd | hd
        · rcases mem_append.1 hd with hd | hd
          · exact .inl ⟨d, hd, rfl, hdf⟩
          · have := hm.bounds hd
            omega
        · exact .inr (.inr ⟨d, hd, rfl, hdf⟩)
    · rintro (⟨d, hd, rfl, hdf⟩ | rfl | ⟨d, hd, rfl, hdf⟩)
      · have := h1.bounds hd
        have := (h.sizes d (by simp [hd])).1
        exact .inr ⟨(h.mem_free _).2 ⟨d, by simp [hd], rfl, hdf⟩, .inl (by omega)⟩
      · exact .inl rfl
      · have := h2.bounds hd
        exact .inr ⟨(h.mem_free _).2 ⟨d, by simp [hd], rfl, hdf⟩, .inr (by omega)⟩

theorem Inv.freed (hmid : used mid = [b]) :
    ∃ l' fl', Freed hcb lo hi s s' (l1 ++ mid ++ l2) fl b l' fl' := by
  have hb : b ∈ mid := (mem_filter.1 (hmid ▸ mem_singleton_self b : b ∈ used mid)).1
  have hb' := hm.bounds hb
  have hb32 := (h.sizes b (by simp [hb])).1
  -- a used block other than `b` is outside of the interval
  have hout : ∀ d ∈ l1 ++ mid ++ l2, d.use ≠ none → d ≠ b →
      (d ∈ l1 ∨ d ∈ l2) ∧ (d.addr + d.size ≤ x ∨ y ≤ d.addr) := fun d hd hused hne => by
    rcases mem_append.1 hd with hd | hd
    · rcases mem_append.1 hd with hd | hd
      · exact ⟨.inl hd, .inl (h1.bounds hd).2⟩
      · have hd' : d ∈ used mid := mem_filter.2 ⟨hd, isSome_iff_ne_none.2 hused⟩
        rw [hmid] at hd'
        exact absurd (mem_singleton.1 hd') hne
    · exact ⟨.inr hd, .inr (h2.bounds hd).1⟩
  refine ⟨l1 ++ [⟨x, y - x, none⟩] ++ l2, fl', h.merge h1 hm h2 hl hr hk hlinks hnd hfree
    hcount hsize (ne_nil_of_mem hb), fun d hused => ⟨fun hd => ?_, fun ⟨hd, hne⟩ => ?_⟩, ?_,
    fun d hd hused hne a hlo hhi => ?_⟩
  · rcases mem_append.1 hd with hd | hd
    · rcases mem_append.1 hd with hd | hd
      · have := h1.bounds hd
        exact ⟨by simp [hd], fun heq => by rw [heq] at this; omega⟩
      · rw [mem_singleton.1 hd] at hused
        exact absurd rfl hused
    · have := h2.bounds hd
      exact ⟨by simp [hd], fun heq => by rw [heq] at this; omega⟩
  · rcases (hout d hd hused hne).1 with hd | hd <;> simp [hd]
  · have hone : usedSize mid = b.size := by simp [Heap.usedSize, hmid]
    have hnew : usedSize [Blk.mk x (y - x) none] = 0 := by simp [Heap.usedSize, Heap.used]
    simp only [usedSize_append, hone, hnew]
    omega
  · exact h.used_kept hd (hout d hd hused hne).2 hused hk.keeps hlo hhi

end

theorem Inv.sentinels_outside (h : Inv hcb lo hi s l fl) (hx : lo ≤ x) (hy : y ≤ hi) {fs : List ℕ}
    (hsub : fs ⊆ fl) (hfs : ∀ z ∈ fs, z ≠ x → z + 32 ≤ x ∨ y ≤ z) :
    (∀ z ∈ hcb :: fs, z ∈ hcb :: fl ∧ (z + 32 ≤ x ∨ y ≤ z) ∨ z = x) ∧
      ∀ z ∈ fs ++ [hcb + 8], z ∈ fl ++ [hcb + 8] ∧ (z + 32 ≤ x ∨ y ≤ z) ∨ z = x := by
  have hapart := h.area.apart
  refine ⟨fun z hz => or_iff_not_imp_right.2 fun hne => ?_,
    fun z hz => or_iff_not_imp_right.2 fun hne => ?_⟩
  · rcases mem_cons.1 hz with rfl | hz
    · exact ⟨.head _, by omega⟩
    · exact ⟨.tail _ (hsub hz), hfs z hz hne⟩
  · rcases mem_append.1 hz with hz | hz
    · exact ⟨mem_append_left _ (hsub hz), hfs z hz hne⟩
    · have := mem_singleton.1 hz
      exact ⟨mem_append_right _ hz, by omega⟩

section

variable {m : Mem} {sz xs zs : ℕ}

theorem setFlags_eq {v : ℕ} (h8 : 8 ∣ v) (hlt : x + v < 2 ^ 64) :
    setBflag (setFflag m x v) (HEAP_NEXTBLOCK (setFflag m x v) x) (fflag (setFflag m x v) x) =
      tagMem x (x + v) v m := by
  have hword : fflag (setFflag m x v) x = v := load_store_word (by omega)
  rw [HEAP_NEXTBLOCK, hword, (sizeOf_of_dvd h8).1, mod_eq_of_lt hlt, tagMem]

theorem mergeBoth_eq {z : ℕ} (hx : fflag m x = xs) (hz : fflag m z = zs) (h8 : 8 ∣ xs + (zs + sz))
    (hlt : x + (xs + (zs + sz)) < 2 ^ 64) :
    mergeBoth x z sz m = unlinkBlock (tagMem x (x + (xs + (zs + sz))) (xs + (zs + sz)) m) z := by
  simp only [mergeBoth, hx, hz]
  rw [mod_eq_of_lt (by omega : xs + (zs + sz) < 2 ^ 64), setFlags_eq h8 hlt]

theorem mergePrevious_eq (hx : fflag m x = xs) (hxy : x + 16 ≤ y) (hlt : xs + sz < 2 ^ 64) :
    mergePrevious x y sz m = tagMem x y (xs + sz) m := by
  have hword : bflag (setBflag m y (xs + sz)) y = xs + sz := load_store_word hlt
  simp only [mergePrevious, hx]
  rw [mod_eq_of_lt hlt, hword]
  exact Bytes.store_comm m _ _ (by omega)

theorem mergeNext_eq {z : ℕ} (hz : fflag m z = zs) (h8 : 8 ∣ sz + zs)
    (hlt : x + (sz + zs) < 2 ^ 64) :
    mergeNext x z sz m = relinkBlock (tagMem x (x + (sz + zs)) (sz + zs) m) x z := by
  simp only [mergeNext, hz]
  rw [mod_eq_of_lt (by omega : sz + zs < 2 ^ 64), setFlags_eq h8 hlt]

theorem pushBlock_eq (hlt : sz < 2 ^ 64) :
    pushBlock hcb x y sz m = linkFirst hcb x (tagMem x y sz m) := by
  have hword : fflag (setFflag m x sz) x = sz := load_store_word hlt
  simp only [pushBlock]
  rw [hword, tagMem]

end

theorem Inv.neighbours_used (h : Inv hcb lo hi s (l1 ++ mid ++ l2) fl) (hfree : a.use = none) :
    (a ∈ mid.head? → ∀ d ∈ l1.getLast?, d.use ≠ none) ∧
      (a ∈ mid.getLast? → ∀ d ∈ l2.head?, d.use ≠ none) := by
  have hchain := h.merged
  refine ⟨fun ha d hd => ?_, fun ha d hd => ?_⟩
  · rw [isChain_append, isChain_append] at hchain
    exact (hchain.1.2.2 d hd a ha).resolve_right fun h => h hfree
  · rw [append_assoc, isChain_append, isChain_append] at hchain
    exact (hchain.2.1.2.2 a ha d hd).resolve_left fun h => h hfree

/-- The free blocks of the interval are among the addresses `cs`; the others are outside. -/
theorem Inv.free_outside (h : Inv hcb lo hi s (l1 ++ mid ++ l2) fl)
    (h1 : Tiles addr size lo l1 x) (h2 : Tiles addr size y l2 hi) (cs : List ℕ)
    (hmid : ∀ d ∈ mid, d.use = none → d.addr ∈ cs) {z : ℕ} (hz : z ∈ fl) (hne : z ∉ cs) :
    z + 32 ≤ x ∨ y ≤ z := by
  rcases h.node_around h1 h2 hz with hz | hz | ⟨d, hd, rfl, hfree⟩
  · exact .inl hz
  · exact .inr hz
  · exact absurd (hmid d hd hfree) hne

section
variable (hused : b.use ≠ none) {ctl : HeapControl} (hsize : ctl.heapSize = s.ctl.heapSize)
include hused hsize

/-- No neighbour is free. -/
theorem Inv.pushBlock_spec (h : Inv hcb lo hi s (l1 ++ [b] ++ l2) fl)
    (hl : ∀ d ∈ l1.getLast?, d.use ≠ none) (hr : ∀ d ∈ l2.head?, d.use ≠ none)
    (hcount : ctl.freeBlocks = fl.length + 1) :
    ∃ l' fl', Freed hcb lo hi s ⟨pushBlock hcb b.addr (b.addr + b.size) b.size s.mem, ctl⟩
      (l1 ++ [b] ++ l2) fl b l' fl' := by
  obtain ⟨x, y, h1, hm, h2⟩ := h.tiles.around
  obtain ⟨rfl, rfl⟩ : b.addr = x ∧ x + b.size = y := id hm
  have hb := h.bounds (b := b) (by simp)
  have hend := h.area.hi_end
  have hcbend := h.area.hcb_end
  have hxy : b.addr + 32 ≤ b.addr + b.size := by omega
  have hout : ∀ z ∈ fl, z + 32 ≤ b.addr ∨ b.addr + b.size ≤ z := fun z hz =>
    h.free_outside h1 h2 [] (by simp [hused]) hz not_mem_nil
  obtain ⟨hnext, hprev⟩ := h.sentinels_outside hb.1 hb.2.1 (List.Subset.refl fl) fun z hz _ =>
    hout z hz
  have hnodes := h.used_nodes (by simp) hused
  have hseg := h.links_tagMem h1 hm h2 (b.addr + b.size - b.addr)
  obtain ⟨heq, hseg'⟩ := hnodes.seg_linkFirst (by omega) (by omega) hseg
  have hpush : pushBlock hcb b.addr (b.addr + b.size) b.size s.mem =
      linkFirst hcb b.addr (tagMem b.addr (b.addr + b.size) (b.addr + b.size - b.addr) s.mem) := by
    rw [pushBlock_eq (by omega), Nat.add_sub_cancel_left]
  rw [hpush]
  refine h.freed h1 hm h2 hl hr ?_ hseg' hnodes.nodup (fun z => ?_) hcount hsize
    (by simp [used, isSome_iff_ne_none.2 hused])
  · rw [heq]
    have htag := Retagged.tagMem hcb fl s.mem hxy (by omega)
    exact (((htag.setPrevious hxy (.inr rfl)).setNext hxy (.inr rfl)).setNext hxy
      (hnext hcb (.head _))).setPrevious hxy (hprev _ hseg.next_mem)
  · rw [mem_cons]
    exact or_congr_right ⟨fun hz => ⟨hz, hout z hz⟩, fun hz => hz.1⟩

/-- The block before is free. -/
theorem Inv.mergePrevious_spec (h : Inv hcb lo hi s (l1 ++ [a, b] ++ l2) fl) (hfree : a.use = none)
    (hr : ∀ d ∈ l2.head?, d.use ≠ none) (hcount : ctl.freeBlocks = fl.length) :
    ∃ l' fl', Freed hcb lo hi s ⟨mergePrevious a.addr (b.addr + b.size) b.size s.mem, ctl⟩
      (l1 ++ [a, b] ++ l2) fl b l' fl' := by
  obtain ⟨x, y, h1, hm, h2⟩ := h.tiles.around
  obtain ⟨rfl, hb, rfl⟩ : a.addr = x ∧ b.addr = x + a.size ∧ x + a.size + b.size = y := id hm
  have ha' := h.bounds (b := a) (by simp)
  have hb' := h.bounds (b := b) (by simp)
  have hend := h.area.hi_end
  have hflag : fflag s.mem a.addr = a.size := by
    rw [(h.tags a (by simp)).1, flag, if_pos hfree]
  have hout : ∀ z ∈ fl, z ≠ a.addr → z + 32 ≤ a.addr ∨ a.addr + a.size + b.size ≤ z :=
    fun z hz hne =>
    h.free_outside h1 h2 [a.addr] (by simp [hused]) hz (by simpa using hne)
  have hlen : a.size + b.size = a.addr + a.size + b.size - a.addr := by omega
  rw [mergePrevious_eq hflag (by omega) (by omega), hb, hlen]
  refine h.freed h1 hm h2 ((h.neighbours_used hfree).1 rfl) hr
    (.tagMem _ _ _ (by omega) (by omega)) (h.links_tagMem h1 hm h2 _) h.nodup (fun z => ?_) hcount
    hsize (by simp [used, hfree, isSome_iff_ne_none.2 hused])
  refine ⟨fun hz => (eq_or_ne z a.addr).imp_right fun hne => ⟨hz, hout z hz hne⟩, ?_⟩
  rintro (rfl | hz)
  · exact (h.mem_free _).2 ⟨a, by simp, rfl, hfree⟩
  · exact hz.1

/-- The block after is free. -/
theorem Inv.mergeNext_spec (h : Inv hcb lo hi s (l1 ++ [b, c] ++ l2) fl) (hfree : c.use = none)
    (hl : ∀ d ∈ l1.getLast?, d.use ≠ none) (hcount : ctl.freeBlocks = fl.length) :
    ∃ l' fl', Freed hcb lo hi s ⟨mergeNext b.addr (b.addr + b.size) b.size s.mem, ctl⟩
      (l1 ++ [b, c] ++ l2) fl b l' fl' := by
  obtain ⟨x, y, h1, hm, h2⟩ := h.tiles.around
  obtain ⟨rfl, hc, rfl⟩ : b.addr = x ∧ c.addr = x + b.size ∧ x + b.size + c.size = y := id hm
  have hb' := h.bounds (b := b) (by simp)
  have hc' := h.bounds (b := c) (by simp)
  have hb8 := (h.sizes b (by simp)).2
  have hc8 := (h.sizes c (by simp)).2
  have hend := h.area.hi_end
  have hxy : b.addr + 32 ≤ b.addr + b.size + c.size := by omega
  have hflag : fflag s.mem (b.addr + b.size) = c.size := by
    rw [← hc, (h.tags c (by simp)).1, flag, if_pos hfree]
  have hmem : c.addr ∈ fl := (h.mem_free _).2 ⟨c, by simp, rfl, hfree⟩
  obtain ⟨f1, f2, rfl⟩ := append_of_mem hmem
  have hnodes := h.used_nodes (by simp) hused
  have hout : ∀ z ∈ f1 ++ f2, z + 32 ≤ b.addr ∨ b.addr + b.size + c.size ≤ z := fun z hz => by
    obtain ⟨hz, hne⟩ := (mem_without h.nodup).1 hz
    exact h.free_outside h1 h2 [c.addr] (by simp [hused]) hz (by simpa using hne)
  obtain ⟨hnext, hprev⟩ := h.sentinels_outside hb'.1 (by omega)
    (fun z hz => ((mem_without h.nodup).1 hz).1) fun z hz _ => hout z hz
  have hlen : b.size + c.size = b.addr + b.size + c.size - b.addr := by omega
  have hseg := h.links_tagMem h1 hm h2 (b.addr + b.size + c.size - b.addr)
  obtain ⟨hpc, hnc, -, -⟩ := h.nodes.neighbours hseg
  obtain ⟨heq, hseg'⟩ := hnodes.seg_relinkBlock (by omega) hseg
  rw [mergeNext_eq hflag (by omega) (by omega), ← hc, ← add_assoc, hlen]
  refine h.freed h1 hm h2 hl ((h.neighbours_used hfree).2 rfl) ?_ hseg' ?_ (fun z => ?_) ?_ hsize
    (by simp [used, hfree, isSome_iff_ne_none.2 hused])
  · rw [heq]
    have htag := Retagged.tagMem hcb (f1 ++ c.addr :: f2) s.mem hxy (by omega)
    exact (((htag.setNext hxy (.inr rfl)).setPrevious hxy (.inr rfl)).setNext hxy
      (hnext _ hpc)).setPrevious hxy (hprev _ hnc)
  · have hnd : (b.addr :: (f1 ++ f2)).Nodup :=
      hnodes.nodup.sublist (((List.Sublist.refl f1).append (sublist_cons_self _ f2)).cons_cons _)
    exact nodup_middle.2 hnd
  · rw [perm_middle.mem_iff, mem_cons, mem_without h.nodup]
    refine or_congr_right ⟨fun hz => ⟨hz.1, hout z ((mem_without h.nodup).2 hz)⟩, fun hz =>
      ⟨hz.1, ?_⟩⟩
    rintro rfl
    omega
  · simpa using hcount

/-- Both neighbours are free. -/
theorem Inv.mergeBoth_spec (h : Inv hcb lo hi s (l1 ++ [a, b, c] ++ l2) fl) (ha : a.use = none)
    (hc : c.use = none) (hcount : ctl.freeBlocks = fl.length - 1) :
    ∃ l' fl', Freed hcb lo hi s ⟨mergeBoth a.addr (b.addr + b.size) b.size s.mem, ctl⟩
      (l1 ++ [a, b, c] ++ l2) fl b l' fl' := by
  obtain ⟨x, y, h1, hm, h2⟩ := h.tiles.around
  obtain ⟨rfl, hb, hc', rfl⟩ : a.addr = x ∧ b.addr = x + a.size ∧ c.addr = x + a.size + b.size ∧
    x + a.size + b.size + c.size = y := id hm
  have hasz := h.bounds (b := a) (by simp)
  have hbsz := h.bounds (b := b) (by simp)
  have hcsz := h.bounds (b := c) (by simp)
  have ha8 := (h.sizes a (by simp)).2
  have hb8 := (h.sizes b (by simp)).2
  have hc8 := (h.sizes c (by simp)).2
  have hend := h.area.hi_end
  have hxy : a.addr + 32 ≤ a.addr + a.size + b.size + c.size := by omega
  have hflag : fflag s.mem a.addr = a.size := by
    rw [(h.tags a (by simp)).1, flag, if_pos ha]
  have hflag' : fflag s.mem (b.addr + b.size) = c.size := by
    rw [hb, ← hc', (h.tags c (by simp)).1, flag, if_pos hc]
  have hmem : c.addr ∈ fl := (h.mem_free _).2 ⟨c, by simp, rfl, hc⟩
  obtain ⟨f1, f2, rfl⟩ := append_of_mem hmem
  have hout : ∀ z ∈ f1 ++ f2, z ≠ a.addr → z + 32 ≤ a.addr ∨
    a.addr + a.size + b.size + c.size ≤ z :=
    fun z hz hne => by
      obtain ⟨hz, hne'⟩ := (mem_without h.nodup).1 hz
      exact h.free_outside h1 h2 [a.addr, c.addr] (by simp [hused]) hz (by simp [hne, hne'])
  obtain ⟨hnext, hprev⟩ := h.sentinels_outside hasz.1 (by omega)
    (fun z hz => ((mem_without h.nodup).1 hz).1) hout
  have hassoc : a.addr + (a.size + (c.size + b.size)) =
    a.addr + a.size + b.size + c.size := by omega
  have hlen : a.size + (c.size + b.size) = a.addr + a.size + b.size + c.size - a.addr := by omega
  have hseg := h.links_tagMem h1 hm h2 (a.addr + a.size + b.size + c.size - a.addr)
  obtain ⟨hpc, hnc, -, -⟩ := h.nodes.neighbours hseg
  obtain ⟨heq, hseg'⟩ := h.nodes.seg_unlinkBlock hseg
  rw [mergeBoth_eq hflag hflag' (by omega) (by omega), hb, ← hc', hassoc, hlen]
  refine h.freed h1 hm h2 ((h.neighbours_used ha).1 rfl) ((h.neighbours_used hc).2 rfl) ?_ hseg' ?_
    (fun z => ?_) ?_ hsize (by simp [used, ha, hc, isSome_iff_ne_none.2 hused])
  · rw [heq]
    have htag := Retagged.tagMem hcb (f1 ++ c.addr :: f2) s.mem hxy (by omega)
    exact (htag.setPrevious hxy (hprev _ hnc)).setNext hxy (hnext _ hpc)
  · exact h.nodup.sublist ((List.Sublist.refl f1).append (sublist_cons_self _ f2))
  · rw [mem_without h.nodup]
    constructor
    · intro hz
      exact (eq_or_ne z a.addr).imp_right fun hne => ⟨hz.1, hout z ((mem_without h.nodup).2 hz) hne⟩
    · rintro (rfl | ⟨hz, hz'⟩)
      · exact ⟨(h.mem_free _).2 ⟨a, by simp, rfl, ha⟩, by omega⟩
      · refine ⟨hz, ?_⟩
        rintro rfl
        omega
  · simpa using hcount

end

theorem flag_even (h8 : 8 ∣ b.size) : b.flag % 2 = 0 ↔ b.use = none := by
  unfold flag
  split
  · rename_i hfree
    exact ⟨fun _ => hfree, fun _ => by omega⟩
  · rename_i hused
    exact ⟨fun _ => by omega, fun hfree => absurd hfree hused⟩

/-- What the status in the first word of a block says of the block before it. -/
theorem Inv.before (h : Inv hcb lo hi s (l1 ++ [b] ++ l2) fl) :
    (bflag s.mem b.addr % 2 = 0 ∧ ∃ l1' a, l1 = l1' ++ [a] ∧ a.use = none ∧
        sub64 b.addr (sizeOf (bflag s.mem b.addr)) = a.addr) ∨
      (bflag s.mem b.addr % 2 ≠ 0 ∧ ∀ d ∈ l1.getLast?, d.use ≠ none) := by
  obtain ⟨x, y, h1, hm, h2⟩ := h.tiles.around
  obtain ⟨rfl, rfl⟩ : b.addr = x ∧ x + b.size = y := hm
  have hb := h.bounds (b := b) (by simp)
  have hend := h.area.hi_end
  rcases l1.eq_nil_or_concat with rfl | ⟨l1', a, rfl⟩
  · refine .inr ⟨?_, by simp⟩
    have hlo : lo = b.addr := h1
    rw [← hlo, h.ends.1]
    decide
  · rw [concat_eq_append] at h h1 ⊢
    obtain ⟨z, -, ha, hz⟩ := tiles_append.1 h1
    have hz' : a.addr + a.size = b.addr := by rw [ha]; exact hz
    have h8 := (h.sizes a (by simp)).2
    have htag := (h.tags a (by simp)).2
    rw [hz'] at htag
    rw [htag, Ne, flag_even h8]
    by_cases hfree : a.use = none
    · refine .inl ⟨hfree, l1', a, rfl, hfree, ?_⟩
      rw [flag, if_pos hfree, (sizeOf_of_dvd h8).1, sub64_of_le (by omega) (by omega)]
      omega
    · exact .inr ⟨hfree, by simpa using hfree⟩

/-- What the status of the block after a block says. -/
theorem Inv.after (h : Inv hcb lo hi s (l1 ++ [b] ++ l2) fl) :
    (fflag s.mem (b.addr + b.size) % 2 = 0 ∧ ∃ c l2', l2 = c :: l2' ∧ c.use = none) ∨
      (fflag s.mem (b.addr + b.size) % 2 ≠ 0 ∧ ∀ d ∈ l2.head?, d.use ≠ none) := by
  obtain ⟨x, y, h1, hm, h2⟩ := h.tiles.around
  obtain ⟨rfl, rfl⟩ : b.addr = x ∧ x + b.size = y := hm
  cases l2 with
  | nil =>
    refine .inr ⟨?_, by simp⟩
    have hhi : b.addr + b.size = hi := h2
    rw [hhi, h.ends.2]
    decide
  | cons c l2' =>
    obtain ⟨hc, -⟩ : c.addr = b.addr + b.size ∧ _ := h2
    have h8 := (h.sizes c (by simp)).2
    rw [← hc, (h.tags c (by simp)).1, Ne, flag_even h8]
    by_cases hfree : c.use = none
    · exact .inl ⟨hfree, c, l2', rfl, hfree⟩
    · exact .inr ⟨hfree, by simpa using hfree⟩

/-- The control structure after a block of `theSize` bytes was freed. -/
theorem freed_eq (theSize freeBlocks : ℕ) (m : Mem) (s : State) :
    ∃ ctl, freed theSize freeBlocks m s = (TTOS_OK, ⟨m, ctl⟩) ∧ ctl.freeBlocks = freeBlocks ∧
      ctl.heapSize = s.ctl.heapSize ∧ ctl.inUseSize = sub32 s.ctl.inUseSize theSize :=
  ⟨_, rfl, rfl, rfl, rfl⟩

theorem Inv.nextBlock_inside (h : Inv hcb lo hi s l fl) {x : ℕ} (hlo : lo ≤ x) (hhi : x ≤ hi) :
    ¬outside s.mem hcb x := by
  rw [outside, h.startWord, h.finalWord]
  omega

/-- **`ttosFreeHeap` frees the block of a pointer that was handed out**, and takes its size off the
bytes in use. -/
theorem Inv.ttosFreeHeap_spec (h : Inv hcb lo hi s l fl) (hb : b ∈ l) (huse : b.use = some (p, n)) :
    ∃ s' l' fl', ttosFreeHeap hcb p s = (TTOS_OK, s') ∧ Freed hcb lo hi s s' l fl b l' fl' ∧
      s'.ctl.inUseSize = sub32 s.ctl.inUseSize b.size := by
  have hfind := h.findUsed_spec hb huse
  have hused : b.use ≠ none := by simp [huse]
  have hb' := h.bounds hb
  have hb8 := (h.sizes b hb).2
  have hlopos := h.area.lo_pos
  have hend := h.area.hi_end
  have hshort := h.area.short
  have hlen := h.length_le
  have hcount := h.count
  obtain ⟨hf, htag⟩ := h.tags b hb
  have hflag : b.flag = b.size + 1 := by rw [flag, if_neg hused]
  have hsize : sizeOf (fflag s.mem b.addr) = b.size := by rw [hf, hflag, (sizeOf_of_dvd hb8).2]
  have hnext : (b.addr + b.size) % 2 ^ 64 = b.addr + b.size := mod_eq_of_lt (by omega)
  have hmatch : ¬fflag s.mem b.addr ≠ bflag s.mem (b.addr + b.size) := by rw [hf, htag]; simp
  have hinc : inc32 s.ctl.freeBlocks = fl.length + 1 := by
    rw [inc32, hcount]
    omega
  obtain ⟨l1, l2, rfl⟩ := append_of_mem hb
  rw [← singleton_append, ← append_assoc] at h hb ⊢
  -- from here on the call is the branch chosen by the status of the two neighbours
  simp only [ttosFreeHeap, hfind, hsize, hnext]
  rw [if_neg (by omega), if_neg (h.nextBlock_inside (by omega) (by omega)), if_neg hmatch]
  rcases h.before with ⟨hbef, l1', a, rfl, ha, hprev⟩ | ⟨hbef, hl⟩
  · have ha' := h.bounds (b := a) (by simp)
    rw [if_pos hbef, hprev, if_neg (h.nextBlock_inside (by omega) (by omega))]
    rcases h.after with ⟨haft, c, l2', rfl, hc⟩ | ⟨haft, hr⟩
    · rw [if_pos haft]
      have hl : l1' ++ [a] ++ [b] ++ c :: l2' = l1' ++ [a, b, c] ++ l2' := by simp
      rw [hl] at h ⊢
      have hpos : 1 ≤ fl.length := length_pos_of_mem ((h.mem_free a.addr).2 ⟨a, by simp, rfl, ha⟩)
      obtain ⟨ctl, heq, hfree, hheap, hin⟩ := freed_eq b.size (sub32 s.ctl.freeBlocks 1)
        (mergeBoth a.addr (b.addr + b.size) b.size s.mem) s
      obtain ⟨l', fl', hfreed⟩ := h.mergeBoth_spec hused hheap ha hc
        (by rw [hfree, sub32, hcount]; omega)
      exact ⟨_, l', fl', heq, hfreed, hin⟩
    · rw [if_neg haft]
      have hl : l1' ++ [a] ++ [b] ++ l2 = l1' ++ [a, b] ++ l2 := by simp
      rw [hl] at h ⊢
      obtain ⟨ctl, heq, hfree, hheap, hin⟩ := freed_eq b.size s.ctl.freeBlocks
        (mergePrevious a.addr (b.addr + b.size) b.size s.mem) s
      obtain ⟨l', fl', hfreed⟩ := h.mergePrevious_spec hused hheap ha hr (hfree.trans hcount)
      exact ⟨_, l', fl', heq, hfreed, hin⟩
  · rw [if_neg hbef]
    rcases h.after with ⟨haft, c, l2', rfl, hc⟩ | ⟨haft, hr⟩
    · rw [if_pos haft]
      have hl' : l1 ++ [b] ++ c :: l2' = l1 ++ [b, c] ++ l2' := by simp
      rw [hl'] at h ⊢
      obtain ⟨ctl, heq, hfree, hheap, hin⟩ := freed_eq b.size s.ctl.freeBlocks
        (mergeNext b.addr (b.addr + b.size) b.size s.mem) s
      obtain ⟨l', fl', hfreed⟩ := h.mergeNext_spec hused hheap hc hl (hfree.trans hcount)
      exact ⟨_, l', fl', heq, hfreed, hin⟩
    · rw [if_neg haft]
      obtain ⟨ctl, heq, hfree, hheap, hin⟩ := freed_eq b.size (inc32 s.ctl.freeBlocks)
        (pushBlock hcb b.addr (b.addr + b.size) b.size s.mem) s
      obtain ⟨l', fl', hfreed⟩ := h.pushBlock_spec hused hheap hl hr (hfree.trans hinc)
      exact ⟨_, l', fl', heq, hfreed, hin⟩

end

end Intewell.Heap
