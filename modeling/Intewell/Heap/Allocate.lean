/-
# Allocation from the workspace heap

The search finds the first free block of the size; its end is cut off, or the
whole block is used and leaves the free list.  `Inv.ttosAllocateHeap_spec` says
what the call does with the layout.
-/

import Intewell.Heap.Links
import Mathlib.Data.List.Perm.Subperm

namespace Intewell.Heap

open Nat List
open Keeps (refl store)
open Blk (addr flag)
open Bytes (Mem load store load_store_of_disjoint)
open Linked (Seg)
open Tiling (Tiles tiles_append)
open ReturnCode

theorem sub64_of_le {x y : ℕ} (hy : y ≤ x) (hx : x < 2 ^ 64) : sub64 x y = x - y := by
  simp only [sub64]
  omega

section

variable {hcb lo hi real : ℕ} {s : State} {l : List Blk} {fl : List ℕ}

theorem searchFree_eq {m : Mem} {x : ℕ} :
    ∀ {fl : List ℕ} {n : ℕ}, Seg (next m) (previous m) x fl (hcb + 8) → fl.Nodup → hcb + 8 ∉ fl →
      fl.length < n →
      searchFree hcb real m n (next m x) = some (fl.find? fun z => real ≤ fflag m z) := by
  intro fl
  induction fl generalizing x with
  | nil =>
    intro n h _ _ hn
    obtain ⟨n, rfl⟩ : ∃ k, n = k + 1 := ⟨n - 1, by omega⟩
    simp [searchFree, h.1]
  | cons z fl ih =>
    intro n h hnd hout hn
    obtain ⟨n, rfl⟩ : ∃ k, n = k + 1 := ⟨n - 1, by omega⟩
    obtain ⟨hz, -, hrest⟩ := h
    have hne : z ≠ hcb + 8 := fun heq => hout (by simp [heq])
    simp only [searchFree, hz, hne, if_false, find?_cons]
    by_cases hfit : real ≤ fflag m z
    · simp [hfit]
    simp only [hfit, if_false, decide_false]
    split
    · -- the last block of the list has no successor to try
      rename_i hlast
      have hprev : previous m (hcb + 8) = z := hlast
      cases fl with
      | nil => rfl
      | cons c fl =>
        have hmem := hrest.2.2.prev_mem
        rw [hprev] at hmem
        exact absurd hmem (nodup_cons.1 hnd).1
    · exact ih hrest hnd.of_cons (fun hmem => hout (.tail _ hmem))
        (by simp only [length_cons] at hn; omega)

section
variable (h : Inv hcb lo hi s l fl)
include h

theorem Inv.not_mem_final : hcb ∉ fl ∧ hcb + 8 ∉ fl := by
  have hapart := h.area.apart
  constructor <;> intro hmem <;> have := h.node_bounds hmem <;> omega

theorem Inv.length_le : 32 * fl.length ≤ hi - lo := by
  have hsub : fl ⊆ l.map addr := fun z hz => by
    obtain ⟨b, hb, rfl, -⟩ := (h.mem_free z).1 hz
    exact mem_map_of_mem hb
  have hle : fl.length ≤ l.length := by
    have := (h.nodup.subperm hsub).length_le
    simpa using this
  have hsum : ∀ l : List Blk, (∀ b ∈ l, 32 ≤ b.size) → 32 * l.length ≤ (l.map Blk.size).sum := by
    intro l hl
    induction l with
    | nil => simp
    | cons b l ih =>
      have hb := hl b (by simp)
      have := ih fun c hc => hl c (.tail _ hc)
      simp only [length_cons, map_cons, sum_cons]
      omega
  have := hsum l fun b hb => (h.sizes b hb).1
  rw [h.tiles.sum] at this
  omega

theorem Inv.searchFree_spec (real : ℕ) :
    first s.mem hcb ≠ 0 ∧ searchFree hcb real s.mem ROUNDS (first s.mem hcb) =
      some (fl.find? fun z => real ≤ fflag s.mem z) := by
  have hlen := h.length_le
  have hshort := h.area.short
  have hlo := h.area.lo_pos
  refine ⟨?_, searchFree_eq h.links h.nodup h.not_mem_final.2 (by
    have hrounds : 2 ^ 32 < ROUNDS := by decide
    omega)⟩
  have hmem : first s.mem hcb ∈ fl ++ [hcb + 8] := h.links.next_mem
  rcases mem_append.1 hmem with hmem | hmem
  · have := h.node_bounds hmem
    omega
  · simp only [mem_singleton] at hmem
    omega

end

end

section

variable {size k : ℕ}

/-- A request that is not refused gets a block with room for the header and the offset,
of a multiple of eight bytes. -/
theorem realSize_spec (hk : 3 ≤ k) (hk' : k < 32) (hsize : size < 2 ^ 32)
    (h : ¬realSize size (2 ^ k) < size) (hpos : 0 < size) :
    2 ^ k + 16 ≤ realSize size (2 ^ k) ∧ 32 ≤ realSize size (2 ^ k) ∧
      8 ∣ realSize size (2 ^ k) := by
  have hpow : (8 : ℕ) ∣ 2 ^ k := by
    have : (2 : ℕ) ^ 3 ∣ 2 ^ k := pow_dvd_pow 2 hk
    simpa using this
  have hlt : 2 ^ k ≤ 2 ^ 31 := Nat.pow_le_pow_right (by omega) (by omega)
  have hmod := Nat.mod_lt size (Nat.two_pow_pos k)
  have hsmall : size < 2 ^ k → size % 2 ^ k = size := Nat.mod_eq_of_lt
  have hdiv := Nat.div_add_mod size (2 ^ k)
  have hmul : 8 ∣ 2 ^ k * (size / 2 ^ k) := Dvd.dvd.mul_right hpow _
  have hge : 2 ^ k ≤ size → 2 ^ k ≤ 2 ^ k * (size / 2 ^ k) := fun hle =>
    Nat.le_mul_of_pos_right _ (Nat.div_pos hle (Nat.two_pow_pos k))
  simp only [realSize, HEAP_USED_BLOCK_OVERHEAD] at h ⊢
  generalize 2 ^ k * (size / 2 ^ k) = q at hdiv hmul hge
  generalize size % 2 ^ k = r at hmod hsmall hdiv h ⊢
  generalize 2 ^ k = a at hpow hlt hmod hsmall hge h ⊢
  split at h <;> rename_i hex <;> simp only [hex, if_true, if_false, not_false_eq_true, ne_eq] <;>
    omega

end

/-- The pointer handed out from a used block. -/
def pointerOf (k a : ℕ) : ℕ := a + 16 + (2 ^ k - (a + 16) % 2 ^ k)

section

variable {k a : ℕ}

theorem pointerOf_spec (hk : 3 ≤ k) (ha : 8 ∣ a) :
    a + 24 ≤ pointerOf k a ∧ pointerOf k a ≤ a + 16 + 2 ^ k ∧ 2 ^ k ∣ pointerOf k a := by
  have hpow : (8 : ℕ) ∣ 2 ^ k := by
    have : (2 : ℕ) ^ 3 ∣ 2 ^ k := pow_dvd_pow 2 hk
    simpa using this
  have hdiv := div_add_mod (a + 16) (2 ^ k)
  have h8 : 8 ∣ (a + 16) % 2 ^ k := (dvd_mod_iff hpow).2 (by omega)
  refine ⟨by simp only [pointerOf]; omega, by simp only [pointerOf]; omega, ?_⟩
  have heq : pointerOf k a = 2 ^ k * ((a + 16) / 2 ^ k + 1) := by
    rw [mul_add, mul_one]
    simp only [pointerOf]
    omega
  exact Dvd.intro _ heq.symm

/-- The offset is stored in the word before the pointer. -/
theorem handOut_eq (real : ℕ) (hk : 3 ≤ k) (ha : 8 ∣ a) (hend : a + 16 + 2 ^ k < 2 ^ 64) (m : Mem)
    (ctl : HeapControl) : ∃ ctl', handOut real (2 ^ k) (a + 16) ⟨m, ctl⟩ =
        (TTOS_OK, pointerOf k a, ⟨store 8 m (pointerOf k a - 8) (pointerOf k a - (a + 16)), ctl'⟩) ∧
      ctl'.freeBlocks = ctl.freeBlocks ∧ ctl'.heapSize = ctl.heapSize ∧
      ctl'.inUseSize = (ctl.inUseSize + real) % 2 ^ 32 := by
  obtain ⟨hlo, hhi, -⟩ := pointerOf_spec hk ha
  have hmod := Nat.mod_lt (a + 16) (Nat.two_pow_pos k)
  have hoff : sub64 (2 ^ k) ((a + 16) &&& (2 ^ k - 1)) = pointerOf k a - (a + 16) := by
    rw [Nat.and_two_pow_sub_one_eq_mod, sub64_of_le hmod.le (by omega)]
    simp only [pointerOf]
    omega
  have hptr : (a + 16 + (pointerOf k a - (a + 16))) % 2 ^ 64 = pointerOf k a := by omega
  have hword : sub64 (pointerOf k a) 8 = pointerOf k a - 8 := sub64_of_le (by omega) (by omega)
  refine ⟨{ ctl with
    allocateGoods := inc32 ctl.allocateGoods
    inUseSize := (ctl.inUseSize + real) % 2 ^ 32 }, ?_, rfl, rfl, rfl⟩
  simp only [handOut, hoff, hptr, hword]

end

/-- What stays free of a block that a block of `real` bytes is taken from. -/
def restOf (real : ℕ) (b : Blk) : List Blk :=
  if real + 32 ≤ b.size then [⟨b.addr, b.size - real, none⟩] else []

/-- The used block: the end of the free block, or all of it. -/
def usedOf (k real n : ℕ) (b : Blk) : Blk :=
  if real + 32 ≤ b.size then
    ⟨b.addr + (b.size - real), real, some (pointerOf k (b.addr + (b.size - real)), n)⟩
  else ⟨b.addr, b.size, some (pointerOf k b.addr, n)⟩

/-- The free list without the block, where all of it is used. -/
def freeAfter (real : ℕ) (b : Blk) (fl : List ℕ) : List ℕ :=
  if real + 32 ≤ b.size then fl else fl.erase b.addr

section

variable {hcb lo hi real k n : ℕ} {s : State} {l1 l2 : List Blk} {fl : List ℕ} {b : Blk}

theorem Inv.block_facts (h : Inv hcb lo hi s (l1 ++ [b] ++ l2) fl) (hfree : b.use = none) :
    Tiles addr Blk.size lo l1 b.addr ∧ Tiles addr Blk.size (b.addr + b.size) l2 hi ∧
      8 ∣ b.addr ∧ 8 ∣ b.size ∧ fflag s.mem b.addr = b.size ∧
      bflag s.mem (b.addr + b.size) = b.size := by
  have hb : b ∈ l1 ++ [b] ++ l2 := by simp
  obtain ⟨x, y, h1, hm, h2⟩ := h.tiles.around
  obtain ⟨rfl, rfl⟩ := hm
  obtain ⟨hf, hb'⟩ := h.tags b hb
  simp only [flag, hfree, if_true] at hf hb'
  exact ⟨h1, h2, h.aligned hb, (h.sizes b hb).2, hf, hb'⟩

theorem Inv.node_of_block (h : Inv hcb lo hi s (l1 ++ [b] ++ l2) fl)
    (h1 : Tiles addr Blk.size lo l1 b.addr) (h2 : Tiles addr Blk.size (b.addr + b.size) l2 hi) :
    ∀ z ∈ fl, z + 32 ≤ b.addr ∨ b.addr + b.size ≤ z ∨ z = b.addr := fun z hz => by
  rcases h.node_around h1 h2 hz with hz | hz | ⟨d, hd, rfl, -⟩
  · exact .inl hz
  · exact .inr (.inl hz)
  · exact .inr (.inr (by rw [mem_singleton.1 hd]))

theorem markUsed_of_dvd {x : ℕ} (h : 8 ∣ x) : markUsed x = x + 1 := by
  simp only [markUsed]
  omega

theorem sizeOf_of_dvd {x : ℕ} (h : 8 ∣ x) : sizeOf x = x ∧ sizeOf (x + 1) = x := by
  simp only [sizeOf]
  omega

/-- The memory after the end of a free block has been cut off. -/
def splitMem (a size real : ℕ) (m : Mem) : Mem :=
  setFflag (setBflag (setFflag (setBflag m (a + size) (real + 1)) a (size - real))
    (a + (size - real)) (size - real)) (a + (size - real)) (real + 1)

theorem splitBlock_eq {a size : ℕ} (ha : 0 < a) (hs : 8 ∣ size) (hr : 8 ∣ real)
    (hfit : real + 32 ≤ size) (hend : a + size < 2 ^ 64) (hf : fflag s.mem a = size)
    (hb : bflag s.mem (a + size) = size) : splitBlock real (2 ^ k) a s =
      handOut real (2 ^ k) (a + (size - real) + 16)
        { s with mem := splitMem a size real s.mem } := by
  have hnext : HEAP_NEXTBLOCK s.mem a = a + size := by
    rw [HEAP_NEXTBLOCK, hf, (sizeOf_of_dvd hs).1]
    omega
  have hf1 : fflag (setBflag s.mem (a + size) (real + 1)) a = size := by
    rw [← hf]
    exact load_store_of_disjoint _ _ (by omega)
  have hf2 : fflag (setFflag (setBflag s.mem (a + size) (real + 1)) a (size - real)) a =
    size - real :=
    load_store_word (by omega)
  have hnext2 : HEAP_NEXTBLOCK (setFflag (setBflag s.mem (a + size) (real + 1)) a (size - real)) a =
      a + (size - real) := by
    rw [HEAP_NEXTBLOCK, hf2, (sizeOf_of_dvd (dvd_sub hs hr)).1]
    omega
  simp only [splitBlock, hnext, hb, hf, markUsed_of_dvd hr, hf1,
    sub64_of_le (show real ≤ size by omega)
    (show size < 2 ^ 64 by omega), hnext2, hf2]
  rw [if_neg (by omega), if_neg (by simp), if_neg (by omega)]
  rfl

/-- **The end of a free block becomes a used block.** -/
theorem Inv.split (h : Inv hcb lo hi s (l1 ++ [b] ++ l2) fl) (hfree : b.use = none) (hk : 3 ≤ k)
    (hr : 8 ∣ real) (hmin : 32 ≤ real) (hroom : 2 ^ k + 16 ≤ real) (hfit : real + 32 ≤ b.size) :
    ∃ m' ctl', splitBlock real (2 ^ k) b.addr s =
        (TTOS_OK, pointerOf k (b.addr + (b.size - real)), ⟨m', ctl'⟩) ∧
      ctl'.inUseSize = (s.ctl.inUseSize + real) % 2 ^ 32 ∧
      Keeps hcb fl b.addr (b.addr + b.size) s.mem m' ∧
      Inv hcb lo hi ⟨m', ctl'⟩ (l1 ++ [⟨b.addr, b.size - real, none⟩,
        ⟨b.addr + (b.size - real), real,
        some (pointerOf k (b.addr + (b.size - real)), n)⟩] ++ l2) fl := by
  obtain ⟨h1, h2, h8, hs, hf, hb⟩ := h.block_facts hfree
  have hbounds := h.bounds (b := b) (by simp)
  have harea := h.area
  have hlo := harea.lo_pos
  have hhi := harea.hi_end
  set c := b.addr + (b.size - real) with hc
  obtain ⟨hp1, hp2, -⟩ := pointerOf_spec hk (show 8 ∣ c from Nat.dvd_add h8 (Nat.dvd_sub hs hr))
  set p := pointerOf k c with hp
  set m' := store 8 (splitMem b.addr b.size real s.mem) (p - 8) (p - (c + 16)) with hm'
  obtain ⟨ctl', hout, hcount, hsize, huse⟩ := handOut_eq real hk
    (show 8 ∣ c from Nat.dvd_add h8 (Nat.dvd_sub hs hr)) (by omega)
    (splitMem b.addr b.size real s.mem) s.ctl
  have hcall : splitBlock real (2 ^ k) b.addr s = (TTOS_OK, p, ⟨m', ctl'⟩) :=
    (splitBlock_eq (by omega) hs hr hfit (by omega) hf hb).trans hout
  have hkeep : Keeps hcb fl b.addr (b.addr + b.size) s.mem m' := by
    refine store (store (store (store (store (refl _) ?_ ?_) ?_ ?_) ?_ ?_) ?_ ?_) ?_ ?_ <;> omega
  refine ⟨m', ctl', hcall, huse, hkeep, ?_⟩
  -- the words that were written, read back
  have hwords : fflag m' b.addr = b.size - real ∧ bflag m' c = b.size - real ∧
    fflag m' c = real + 1 ∧
      bflag m' (c + real) = real + 1 ∧ load 8 m' (p - 8) = p - (c + 16) := by
    have hend : c + real = b.addr + b.size := by omega
    rw [hend, hm']
    simp only [splitMem, setBflag, setFflag, bflag, fflag]
    refine ⟨?_, ?_, ?_, ?_, ?_⟩ <;>
      simp (disch := omega) only [load_store_of_disjoint, load_store_word, ← hc]
  obtain ⟨w1, w2, w3, w4, w5⟩ := hwords
  refine h.splice h1 ⟨rfl, rfl, by simp only [Tiles]; omega⟩ h2 hkeep
    (fun d hd => ?_) ?_ ?_ h.nodup (fun z => ?_) (hcount.trans h.count) hsize
  · simp only [mem_cons, not_mem_nil, or_false] at hd
    rcases hd with rfl | rfl
    · refine ⟨by simp only; omega, dvd_sub hs hr, ⟨by simpa [flag] using w1, ?_⟩, by simp [Owned]⟩
      simpa [flag] using w2
    · refine ⟨by simp only; omega, hr, ⟨by simpa [flag] using w3, by simpa [flag] using w4⟩, ?_⟩
      intro p' n' hp'
      cases hp'
      exact ⟨hp1, by simp only; omega, w5⟩
  · have hchain := h.merged
    rw [append_assoc, singleton_append, isChain_split] at hchain
    rw [append_assoc, cons_append, singleton_append, isChain_append_cons_cons]
    exact ⟨coalesced_end hchain.1 (.inl hfree), .inr (by simp),
      coalesced_start hchain.2 (.inl hfree)⟩
  · have hapart := harea.apart
    refine seg_congr h.links (h.node_of_block h1 h2) (fun z hz => ?_) fun z hz => ?_
    · simp only [hm', splitMem, setBflag, setFflag, next]
      simp (disch := omega) only [load_store_of_disjoint, ← hc]
    · simp only [hm', splitMem, setBflag, setFflag, previous]
      simp (disch := omega) only [load_store_of_disjoint, ← hc]
  · rw [h.mem_free, exists_mem_splice, exists_mem_splice]
    simp [hfree]

/-- The memory after the flags of a block were set to used. -/
def wholeMem (a size : ℕ) (m : Mem) :
    Mem := setFflag (setBflag m (a + size) (size + 1)) a (size + 1)

theorem wholeBlock_eq {a size : ℕ} (ha : 0 < a) (hs : 8 ∣ size) (hpos : 16 ≤ size)
    (hend : a + size < 2 ^ 64) (hf : fflag s.mem a = size) (hb : bflag s.mem (a + size) = size) :
    wholeBlock real (2 ^ k) a s = handOut real (2 ^ k) (a + 16)
        { mem := unlinkBlock (wholeMem a size s.mem) a
          ctl := { s.ctl with freeBlocks := sub32 s.ctl.freeBlocks 1 } } := by
  have hnext : HEAP_NEXTBLOCK s.mem a = a + size := by
    rw [HEAP_NEXTBLOCK, hf, (sizeOf_of_dvd hs).1]
    omega
  have hf1 : fflag (setBflag s.mem (a + size) (size + 1)) a = size := by
    rw [← hf]
    exact load_store_of_disjoint _ _ (by omega)
  simp only [wholeBlock, hnext, hb, hf, markUsed_of_dvd hs, hf1]
  rw [if_neg (by omega), if_neg (by simp)]
  rfl

section
variable (h : Inv hcb lo hi s (l1 ++ [b] ++ l2) fl) (h1 : Tiles Blk.addr Blk.size lo l1 b.addr)
  (h2 : Tiles Blk.addr Blk.size (b.addr + b.size) l2 hi)
include h h1 h2

theorem Inv.seg_wholeMem :
    Seg (next (wholeMem b.addr b.size s.mem)) (previous (wholeMem b.addr b.size s.mem)) hcb fl
      (hcb + 8) := by
  have hapart := h.area.apart
  have hb := h.bounds (b := b) (by simp)
  refine seg_congr h.links (h.node_of_block h1 h2) (fun z hz => ?_) fun z hz => ?_
  · simp only [wholeMem, setBflag, setFflag, next]
    simp (disch := omega) only [load_store_of_disjoint]
  · simp only [wholeMem, setBflag, setFflag, previous]
    simp (disch := omega) only [load_store_of_disjoint]

/-- The free blocks that are left when `b` is given away. -/
theorem Inv.mem_free_whole (u : ℕ × ℕ) (z : ℕ) : z ∈ fl ∧ z ≠ b.addr ↔
    ∃ d ∈ l1 ++ [⟨b.addr, b.size, some u⟩] ++ l2, d.addr = z ∧ d.use = none := by
  have hne : ∀ d, d ∈ l1 ∨ d ∈ l2 → d.addr ≠ b.addr := fun d hd => by
    have hb := (h.sizes b (by simp)).1
    rcases hd with hd | hd
    · have := h1.bounds hd
      have := (h.sizes d (by simp [hd])).1
      omega
    · have := h2.bounds hd
      omega
  rw [h.mem_free, exists_mem_splice, exists_mem_splice]
  simp only [mem_singleton, exists_eq_left, reduceCtorEq, and_false, false_or]
  constructor
  · rintro ⟨hd | hd | hd, hz⟩
    · exact .inl hd
    · exact absurd hd.1.symm hz
    · exact .inr hd
  · refine fun hd => ⟨hd.imp_right .inr, ?_⟩
    rcases hd with ⟨d, hd, rfl, -⟩ | ⟨d, hd, rfl, -⟩
    · exact hne d (.inl hd)
    · exact hne d (.inr hd)

end

/-- **The whole free block becomes a used block.** -/
theorem Inv.whole (h : Inv hcb lo hi s (l1 ++ [b] ++ l2) fl) (hfree : b.use = none) (hk : 3 ≤ k)
    (hroom : 2 ^ k + 16 ≤ b.size) :
    ∃ m' ctl', wholeBlock real (2 ^ k) b.addr s = (TTOS_OK, pointerOf k b.addr, ⟨m', ctl'⟩) ∧
      ctl'.inUseSize = (s.ctl.inUseSize + real) % 2 ^ 32 ∧
      Keeps hcb fl b.addr (b.addr + b.size) s.mem m' ∧
      Inv hcb lo hi ⟨m', ctl'⟩ (l1 ++ [⟨b.addr, b.size, some (pointerOf k b.addr, n)⟩] ++ l2)
        (fl.erase b.addr) := by
  obtain ⟨h1, h2, h8, hs, hf, hb⟩ := h.block_facts hfree
  have hbounds := h.bounds (b := b) (by simp)
  have harea := h.area
  have hlo := harea.lo_pos
  have hhi := harea.hi_end
  have hapart := harea.apart
  obtain ⟨hp1, hp2, -⟩ := pointerOf_spec hk h8
  set p := pointerOf k b.addr with hp
  have hmem : b.addr ∈ fl := (h.mem_free b.addr).2 ⟨b, by simp, rfl, hfree⟩
  obtain ⟨f1, f2, rfl⟩ := append_of_mem hmem
  have hnode := h.node_of_block h1 h2
  have hsub : f1 ++ f2 ⊆ f1 ++ b.addr :: f2 := fun z hz => ((mem_without h.nodup).1 hz).1
  have hrest : ∀ z ∈ f1 ++ f2, z + 32 ≤ b.addr ∨ b.addr + b.size ≤ z := fun z hz => by
    obtain ⟨hz, hne⟩ := (mem_without h.nodup).1 hz
    rcases hnode z hz with hz | hz | hz
    · exact .inl hz
    · exact .inr hz
    · exact absurd hz hne
  -- the flags are written, then the block leaves the list, then the offset is stored
  set m2 := wholeMem b.addr b.size s.mem with hm2
  have hseg2 : Seg (next m2) (previous m2) hcb (f1 ++ b.addr :: f2) (hcb + 8) :=
    h.seg_wholeMem h1 h2
  obtain ⟨hunlink, hseg3⟩ := h.nodes.seg_unlinkBlock hseg2
  obtain ⟨hprev, hnext, -, -⟩ := h.nodes.neighbours hseg2
  have hprev' := (mem_cons.1 hprev).symm.imp_left (hrest _)
  have hnext' := (mem_append.1 hnext).imp (hrest _) mem_singleton.1
  set m' := store 8 (unlinkBlock m2 b.addr) (p - 8) (p - (b.addr + 16)) with hm'
  have hkeep : Keeps hcb (f1 ++ b.addr :: f2) b.addr (b.addr + b.size) s.mem m' := by
    rw [hm', hunlink]
    refine store (Keeps.setNext (Keeps.setPrevious (store (store (refl _)
      ?_ ?_) ?_ ?_) ?_) ?_) ?_ ?_
    · omega
    · omega
    · omega
    · omega
    · exact mem_append.2 ((mem_append.1 hnext).imp_left fun hn => hsub hn)
    · exact cons_subset_cons _ hsub hprev
    · omega
    · omega
  obtain ⟨ctl', hout, hcount, hsize, huse⟩ := handOut_eq real hk h8 (by omega)
    (unlinkBlock m2 b.addr) { s.ctl with freeBlocks := sub32 s.ctl.freeBlocks 1 }
  refine ⟨m', ctl', (wholeBlock_eq (by omega) hs (by omega) (by omega) hf hb).trans hout, huse,
    hkeep, ?_⟩
  rw [erase_middle h.nodup]
  have hwords : fflag m' b.addr = b.size + 1 ∧ bflag m' (b.addr + b.size) = b.size + 1 ∧
      load 8 m' (p - 8) = p - (b.addr + 16) := by
    rw [hm', hunlink]
    simp only [setNext, setPrevious, bflag, fflag]
    refine ⟨?_, ?_, load_store_word (by omega)⟩
    · simp (disch := omega) only [load_store_of_disjoint]
      exact load_store_word (by omega)
    · simp (disch := omega) only [load_store_of_disjoint]
      simp only [hm2, wholeMem, setBflag, setFflag]
      rw [load_store_of_disjoint _ _ (by omega)]
      exact load_store_word (by omega)
  obtain ⟨w1, w2, w3⟩ := hwords
  refine h.splice h1 ⟨rfl, rfl⟩ h2 hkeep (fun d hd => ?_) ?_ ?_
    ((nodup_middle.1 h.nodup).of_cons)
    (fun z => (mem_without h.nodup).trans (h.mem_free_whole h1 h2 _ z)) ?_ hsize
  · rw [mem_singleton.1 hd]
    refine ⟨hbounds.2.2, hs, ⟨by simpa [flag] using w1, by simpa [flag] using w2⟩, ?_⟩
    intro p' n' hp'
    cases hp'
    exact ⟨hp1, by simp only; omega, w3⟩
  · have hchain := h.merged
    rw [append_assoc, singleton_append, isChain_split] at hchain ⊢
    exact ⟨coalesced_end hchain.1 (.inl hfree), coalesced_start hchain.2 (.inl hfree)⟩
  · exact seg_congr hseg3 hrest (fun z hz => load_store_of_disjoint _ _ (by omega))
      fun z hz => load_store_of_disjoint _ _ (by omega)
  · have hlen := h.length_le
    have hc := h.count
    have hshort := harea.short
    simp only [length_append, length_cons] at hlen hc ⊢
    rw [hcount, hc]
    simp only [sub32]
    omega

/-- What an allocation leaves alone of the counters. -/
structure Counted (ctl ctl' : HeapControl) : Prop where
  freeBlocks : ctl'.freeBlocks = ctl.freeBlocks
  heapSize : ctl'.heapSize = ctl.heapSize
  inUseSize : ctl'.inUseSize = ctl.inUseSize

theorem Counted.allocateFails (ctl : HeapControl) (f : ℕ) :
    Counted ctl { ctl with allocateFails := f } := ⟨rfl, rfl, rfl⟩

/-- The first free block that is large enough, as the search finds it. -/
def firstFit (real : ℕ) (m : Mem) (fl : List ℕ) : Option ℕ := fl.find? fun z => real ≤ fflag m z

theorem Inv.firstFit_spec {l : List Blk} {z : ℕ} (h : Inv hcb lo hi s l fl)
    (hz : firstFit real s.mem fl = some z) :
    ∃ l1 b l2, l = l1 ++ [b] ++ l2 ∧ b.addr = z ∧ b.use = none ∧ real ≤ b.size := by
  obtain ⟨b, hb, rfl, hfree⟩ := (h.mem_free z).1 (mem_of_find?_eq_some hz)
  have hfit : real ≤ fflag s.mem b.addr := by simpa using find?_some hz
  have htag := (h.tags b hb).1
  rw [htag, flag, if_pos hfree] at hfit
  obtain ⟨l1, l2, rfl⟩ := append_of_mem hb
  exact ⟨l1, b, l2, by simp, rfl, hfree, hfit⟩

/-- **Taking a block.**  The used block and what stays free replace the free block. -/
theorem Inv.takeBlock_spec (h : Inv hcb lo hi s (l1 ++ [b] ++ l2) fl) (hfree : b.use = none)
    (hk : 3 ≤ k)
    (hr : 8 ∣ real) (hmin : 32 ≤ real) (hroom : 2 ^ k + 16 ≤ real) (hfit : real ≤ b.size) :
    ∃ m' ctl', takeBlock hcb real (2 ^ k) b.addr s =
        (TTOS_OK, pointerOf k (usedOf k real n b).addr, ⟨m', ctl'⟩) ∧
      ctl'.inUseSize = (s.ctl.inUseSize + real) % 2 ^ 32 ∧
      Keeps hcb fl b.addr (b.addr + b.size) s.mem m' ∧
      Inv hcb lo hi ⟨m', ctl'⟩ (l1 ++ (restOf real b ++ [usedOf k real n b]) ++ l2)
        (freeAfter real b fl) := by
  obtain ⟨-, -, -, hs, hf, -⟩ := h.block_facts hfree
  have hbounds := h.bounds (b := b) (by simp)
  have hlo := h.area.lo_pos
  have hhi := h.area.hi_end
  have hin : ¬outside s.mem hcb b.addr := by
    rw [outside, h.startWord, h.finalWord]
    omega
  have heven : ¬b.size % 2 ≠ 0 := by omega
  rw [takeBlock, if_neg (by omega), hf, if_neg heven, if_neg hin, sub64_of_le hfit (by omega)]
  by_cases hsplit : real + 32 ≤ b.size
  · rw [if_pos (show HEAP_MINIMUM_BLOCKSIZE ≤
      b.size - real by simp only [HEAP_MINIMUM_BLOCKSIZE]; omega)]
    simp only [usedOf, restOf, freeAfter, hsplit, if_true, singleton_append]
    exact h.split hfree hk hr hmin hroom hsplit
  · rw [if_neg (show ¬HEAP_MINIMUM_BLOCKSIZE ≤
      b.size - real by simp only [HEAP_MINIMUM_BLOCKSIZE]; omega)]
    simp only [usedOf, restOf, freeAfter, hsplit, if_false, nil_append]
    exact h.whole hfree hk (by omega)

/-- **What becomes of a heap where the block `u` is handed out.**  The used blocks stay, with their
bytes. -/
structure Taken (hcb lo hi : ℕ) (s s' : State) (l : List Blk) (u : Blk) (l' : List Blk)
    (fl' : List ℕ) : Prop where
  inv : Inv hcb lo hi s' l' fl'
  fresh : u ∉ l
  used : ∀ d : Blk, d.use ≠ none → (d ∈ l' ↔ d ∈ l ∨ d = u)
  usedSize : usedSize l' = usedSize l + u.size
  kept : ∀ d ∈ l, d.use ≠ none → ∀ a, d.addr + 8 ≤ a → a < d.addr + d.size + 8 → s'.mem a = s.mem a

theorem usedOf_spec (hfit : real ≤ b.size) :
    (usedOf k real n b).use = some (pointerOf k (usedOf k real n b).addr, n) ∧
      real ≤ (usedOf k real n b).size ∧
      (usedOf k real n b).addr + (usedOf k real n b).size = b.addr + b.size := by
  unfold usedOf
  split
  · exact ⟨rfl, le_rfl, by simp only; omega⟩
  · exact ⟨rfl, hfit, rfl⟩

theorem used_restOf : used (restOf real b ++ [usedOf k real n b]) = [usedOf k real n b] := by
  unfold restOf usedOf
  split <;> simp [used]

theorem Inv.taken {s' : State} {fl' : List ℕ} (h : Inv hcb lo hi s (l1 ++ [b] ++ l2) fl)
    (hfree : b.use = none) (hfit : real ≤ b.size)
    (hk : Keeps hcb fl b.addr (b.addr + b.size) s.mem s'.mem)
    (hinv : Inv hcb lo hi s' (l1 ++ (restOf real b ++ [usedOf k real n b]) ++ l2) fl') :
    Taken hcb lo hi s s' (l1 ++ [b] ++ l2) (usedOf k real n b)
      (l1 ++ (restOf real b ++ [usedOf k real n b]) ++ l2) fl' := by
  obtain ⟨h1, h2, -⟩ := h.block_facts hfree
  obtain ⟨huse, -, hend⟩ := usedOf_spec (k := k) (n := n) hfit
  refine ⟨hinv, fun hin => ?_, fun d hused => ?_, ?_, fun d hd hused a hlo hhi => ?_⟩
  · have hb := h.bounds (b := b) (by simp)
    have hu := h.bounds hin
    have heq : usedOf k real n b = b := h.tiles.eq_of_overlap hin (by simp) (by omega) (by omega)
    rw [heq, hfree] at huse
    simp at huse
  · have hmid : d ∈ restOf real b ++ [usedOf k real n b] ↔ d = usedOf k real n b := by
      have hmem : d ∈ used (restOf real b ++ [usedOf k real n b]) ↔
          d ∈ restOf real b ++ [usedOf k real n b] := by
        rw [used, mem_filter, and_iff_left (Option.isSome_iff_ne_none.2 hused)]
      rw [← hmem, used_restOf, mem_singleton]
    have hne : d ≠ b := fun heq => hused (heq ▸ hfree)
    rw [mem_append, mem_append, hmid]
    simp only [mem_append, mem_singleton, hne, or_false]
    exact or_right_comm
  · have hone : usedSize [b] = 0 := by simp [Heap.usedSize, Heap.used, hfree]
    have hnew : usedSize (restOf real b ++ [usedOf k real n b]) = (usedOf k real n b).size := by
      simp [Heap.usedSize, used_restOf]
    simp only [usedSize_append, hone, hnew]
    omega
  · have hout : d.addr + d.size ≤ b.addr ∨ b.addr + b.size ≤ d.addr := by
      rcases mem_append.1 hd with hd | hd
      · rcases mem_append.1 hd with hd | hd
        · exact .inl (h1.bounds hd).2
        · rw [mem_singleton.1 hd] at hused
          exact absurd hfree hused
      · exact .inr (h2.bounds hd).1
    exact h.used_kept hd hout hused hk hlo hhi

end

section

variable {hcb lo hi size j : ℕ} {s : State} {l : List Blk} {fl : List ℕ}

/-- The alignment is served as `2 ^ k`. -/
def AlignedAs (alignedSize k : ℕ) : Prop :=
  (if alignedSize < HEAP_MINIMUM_ALIGNEDSIZE then 8 else alignedSize) = 2 ^ k ∧ 3 ≤ k ∧ k < 32

theorem alignedAs_pow (hj : j < 32) : AlignedAs (2 ^ j) (max 3 j) := by
  refine ⟨?_, le_max_left 3 j, max_lt (by decide) hj⟩
  have h8 : HEAP_MINIMUM_ALIGNEDSIZE = 2 ^ 3 := rfl
  rw [h8]
  split_ifs with hlt
  · rw [max_eq_left ((Nat.pow_lt_pow_iff_right (by norm_num)).1 hlt).le]
    rfl
  · rw [max_eq_right ((Nat.pow_le_pow_iff_right (by norm_num)).1 (not_lt.1 hlt))]

/-- The request is refused: it is empty, its block has more than 32 bits, or no free
block is large enough. -/
def Refused (m : Mem) (fl : List ℕ) (size k : ℕ) : Prop :=
  size = 0 ∨ realSize size (2 ^ k) < size ∨ firstFit (realSize size (2 ^ k)) m fl = none

/-- **What `ttosAllocateHeap` does**: a request that is refused changes nothing but a
counter; another takes the first free block that is large enough.  `n` is what the
layout records of the request. -/
theorem Inv.ttosAllocateHeap_spec {k alignedSize : ℕ} (h : Inv hcb lo hi s l fl)
    (hpos : alignedSize ≠ 0) (ha : AlignedAs alignedSize k) (hsize : size < 2 ^ 32) (n : ℕ) :
    ∃ code p s', ttosAllocateHeap hcb size alignedSize s = some (code, p, s') ∧
      ((Refused s.mem fl size k ∧ code ≠ TTOS_OK ∧ p = 0 ∧ s'.mem = s.mem ∧ Counted s.ctl s'.ctl) ∨
        (¬Refused s.mem fl size k ∧ code = TTOS_OK ∧
          ∃ l1 b l2, l = l1 ++ [b] ++ l2 ∧ b.use = none ∧ realSize size (2 ^ k) ≤ b.size ∧
            firstFit (realSize size (2 ^ k)) s.mem fl = some b.addr ∧
            p = pointerOf k (usedOf k (realSize size (2 ^ k)) n b).addr ∧
            s'.ctl.inUseSize = (s.ctl.inUseSize + realSize size (2 ^ k)) % 2 ^ 32 ∧
            Keeps hcb fl b.addr (b.addr + b.size) s.mem s'.mem ∧
            Inv hcb lo hi s' (l1 ++ (restOf (realSize size (2 ^ k)) b ++
              [usedOf k (realSize size (2 ^ k)) n b]) ++ l2)
              (freeAfter (realSize size (2 ^ k)) b fl))) := by
  obtain ⟨haligned, hk, hk'⟩ := ha
  have hhcb := h.area.hcb_pos
  have hheap : s.ctl.heapSize ≠ 0 := by
    rw [h.heapSize]
    have := h.tiles.le
    omega
  have hcounted : Counted s.ctl s.ctl := ⟨rfl, rfl, rfl⟩
  rw [ttosAllocateHeap, if_neg (by omega), haligned]
  by_cases hzero : size = 0
  · rw [if_pos (.inl hzero)]
    exact ⟨_, _, _, rfl, .inl ⟨.inl hzero, by simp, rfl, rfl, hcounted⟩⟩
  rw [if_neg (by simp [hzero, hpos]), if_neg hheap]
  by_cases hlt : realSize size (2 ^ k) < size
  · rw [if_pos hlt]
    exact ⟨_, _, _, rfl, .inl ⟨.inr (.inl hlt), by simp, rfl, rfl, hcounted⟩⟩
  obtain ⟨hroom, hmin, hdvd⟩ := realSize_spec hk hk' hsize hlt (pos_of_ne_zero hzero)
  have hreal : ¬realSize size (2 ^ k) < HEAP_MINIMUM_BLOCKSIZE := by
    simp only [HEAP_MINIMUM_BLOCKSIZE]
    omega
  obtain ⟨hfirst, hsearch⟩ := h.searchFree_spec (realSize size (2 ^ k))
  rw [if_neg hlt, if_neg hreal, if_neg hfirst, hsearch]
  rw [← firstFit]
  simp only [Refused]
  generalize realSize size (2 ^ k) = real at hlt hroom hmin hdvd
  cases hfit : firstFit real s.mem fl with
  | none =>
    exact ⟨_, _, _, rfl, .inl ⟨.inr (.inr rfl), by simp, rfl, rfl, Counted.allocateFails _ _⟩⟩
  | some z =>
    obtain ⟨l1, b, l2, rfl, rfl, hfree, hle⟩ := h.firstFit_spec hfit
    obtain ⟨m', ctl', hcall, huse, hkeep, hinv⟩ :=
      h.takeBlock_spec hfree hk hdvd hmin hroom hle
    refine ⟨_, _, _, congrArg some hcall, .inr ⟨?_, rfl, l1, b, l2, rfl, hfree, hle, rfl, rfl, huse,
      hkeep, hinv⟩⟩
    simp [hzero, hlt]

end

end Intewell.Heap
