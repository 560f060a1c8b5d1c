/-
# Whole runs of the workspace heap

The callers are recorded beside the heap: `live` are the pointers that
`ttosAllocateHeap` returned and `ttosFreeHeap` has not taken back, with the sizes
asked for.  A step is one of the two calls, or a change of the memory that leaves
the control structure and the area alone but for the live payloads.

`heap_runs` is the shape of the heap in every run from `ttosInitHeap`, and what the
next call does; `heap_payloads` is what becomes of the payloads.
-/

import Intewell.Heap.Free

namespace Intewell.Heap

open Bytes List Option Set Blk
open Linked (Seg)
open Tiling (Tiles tiles_append)
open ReturnCode

/-- The heap, and the live pointers with the sizes asked for. -/
structure World where
  st : State
  live : Set (ℕ × ℕ)

/-- One call, or a write to live payloads and to memory that is not of the heap. -/
inductive Step (hcb lo n : ℕ) : World → World → Prop where
  | allocate {w code p st'} (j size) (hj : j < 32) (hsize : size + 2 * 2 ^ j + 16 < 2 ^ 32)
      (h : ttosAllocateHeap hcb size (2 ^ j) w.st = some (code, p, st')) :
      Step hcb lo n w ⟨st', if code = TTOS_OK then insert (p, size) w.live else w.live⟩
  | free {w code st'} (q) (hq : q ∈ w.live) (h : ttosFreeHeap hcb q.1 w.st = (code, st')) :
      Step hcb lo n w ⟨st', w.live \ {q}⟩
  | write {w} (m : Mem) (hm : ∀ a, (lo ≤ a ∧ a < lo + n) ∨ (hcb ≤ a ∧ a < hcb + 72) →
      (∀ q ∈ w.live, ¬(q.1 ≤ a ∧ a < q.1 + q.2)) → m a = w.st.mem a) :
      Step hcb lo n w ⟨⟨m, w.st.ctl⟩, w.live⟩

/-- Going from block to block by `fflag`, from `x` over the blocks `bs` to `y`. -/
def Walk (m : Mem) : ℕ → List ℕ → ℕ → Prop
  | x, [], y => x = y
  | x, b :: bs, y => b = x ∧ Walk m (HEAP_NEXTBLOCK m x) bs y

/-- The blocks `bs` and the free list `fl` of a heap.  `hcb->first` and `hcb->last` are
`next` and `previous` of the sentinels `&hcb->start` and `&hcb->final`. -/
structure WellFormed (hcb : ℕ) (s : State) (bs fl : List ℕ) : Prop where
  walk : Walk s.mem (start s.mem hcb) bs (final s.mem hcb)
  below : ∀ b ∈ bs, b < HEAP_NEXTBLOCK s.mem b ∧ HEAP_NEXTBLOCK s.mem b ≤ final s.mem hcb
  flags : ∀ b ∈ bs, fflag s.mem b = bflag s.mem (HEAP_NEXTBLOCK s.mem b)
  links : Seg (next s.mem) (previous s.mem) hcb fl (hcb + 8)
  nodup : fl.Nodup
  mem_free : ∀ b, b ∈ fl ↔ b ∈ bs ∧ fflag s.mem b % 2 = 0
  count : s.ctl.freeBlocks = fl.length
  merged : bs.IsChain fun b c => ¬(fflag s.mem b % 2 = 0 ∧ fflag s.mem c % 2 = 0)

/-- The live payloads are each in a used block of its own, after its header and the
word with the offset, apart from one another and from every header, and every used block
is one of theirs. -/
structure Payloads (hcb : ℕ) (m : Mem) (bs : List ℕ) (live : Set (ℕ × ℕ)) : Prop where
  inside : ∀ q ∈ live, ∃ b ∈ bs, fflag m b % 2 = 1 ∧ b + 24 ≤ q.1 ∧ q.1 + q.2 ≤ HEAP_NEXTBLOCK m b ∧
    ∀ q' ∈ live, b < q'.1 → q'.1 ≤ HEAP_NEXTBLOCK m b → q' = q
  apart : ∀ q ∈ live, ∀ q' ∈ live, q ≠ q' → q.1 + q.2 ≤ q'.1 ∨ q'.1 + q'.2 ≤ q.1
  headers : ∀ q ∈ live, ∀ b ∈ bs ++ [final m hcb], q.1 + q.2 ≤ b ∨ b + 16 ≤ q.1
  taken : ∀ b ∈ bs, fflag m b % 2 = 1 → ∃ q ∈ live, b + 24 ≤ q.1 ∧ q.1 + q.2 ≤ HEAP_NEXTBLOCK m b

/-- `ttosAllocateHeap` returns, and a pointer that it hands out is aligned and the
payload apart from the others. -/
def AllocateSound (hcb : ℕ) (w : World) : Prop :=
  ∀ j size, j < 32 → size + 2 * 2 ^ j + 16 < 2 ^ 32 → ∃ code p st',
    ttosAllocateHeap hcb size (2 ^ j) w.st = some (code, p, st') ∧
    (code = TTOS_OK → 2 ^ j ∣ p ∧ (∀ q ∈ w.live, q.1 + q.2 ≤ p ∨ p + size ≤ q.1) ∧
      ∃ bs fl, WellFormed hcb st' bs fl ∧ Payloads hcb st'.mem bs (insert (p, size) w.live))

/-- `ttosFreeHeap` of a live pointer succeeds. -/
def FreeSound (hcb : ℕ) (w : World) : Prop :=
  ∀ q ∈ w.live, ∃ st', ttosFreeHeap hcb q.1 w.st = (TTOS_OK, st')

/-- The live pointers are those of the used blocks of the layout. -/
def Lives (l : List Blk) (live : Set (ℕ × ℕ)) : Prop := ∀ q, q ∈ live ↔ ∃ b ∈ l, b.use = some q

/-- The payload of a used block ends in the block. -/
def Fits (l : List Blk) : Prop := ∀ b ∈ l, ∀ q, b.use = some q → q.1 + q.2 ≤ b.addr + b.size

/-- The invariant of the runs. -/
def WorldInv (hcb lo hi : ℕ) (w : World) : Prop :=
  ∃ l fl, Inv hcb lo hi w.st l fl ∧ Lives l w.live ∧ Fits l

section

variable {hcb lo hi : ℕ} {s : State} {l : List Blk} {fl : List ℕ} {b c : Blk} {q q' : ℕ × ℕ}

theorem Inv.nextBlock (h : Inv hcb lo hi s l fl) (hb : b ∈ l) :
    HEAP_NEXTBLOCK s.mem b.addr = b.addr + b.size := by
  have hb' := h.bounds hb
  have h8 := (h.sizes b hb).2
  have hend := h.area.hi_end
  have hsize : sizeOf b.flag = b.size := by
    unfold flag
    split
    · exact (sizeOf_of_dvd h8).1
    · exact (sizeOf_of_dvd h8).2
  rw [HEAP_NEXTBLOCK, (h.tags b hb).1, hsize, Nat.mod_eq_of_lt (by omega)]

theorem walk_of_tiles {m : Mem} {x y : ℕ} (ht : Tiles addr size x l y)
    (hl : ∀ b ∈ l, HEAP_NEXTBLOCK m b.addr = b.addr + b.size) : Walk m x (l.map addr) y := by
  induction l generalizing x with
  | nil => exact ht
  | cons b l ih =>
    obtain ⟨rfl, ht⟩ := ht
    refine ⟨rfl, ?_⟩
    rw [hl b mem_cons_self]
    exact ih ht fun c hc => hl c (.tail _ hc)

section
variable (h : Inv hcb lo hi s l fl)
include h

theorem Inv.free_iff (hb : b ∈ l) : fflag s.mem b.addr % 2 = 0 ↔ b.use = none := by
  rw [(h.tags b hb).1]
  exact flag_even (h.sizes b hb).2

theorem Inv.wellFormed : WellFormed hcb s (l.map addr) fl where
  walk := by
    rw [h.startWord, h.finalWord]
    exact walk_of_tiles h.tiles fun b => h.nextBlock
  below b hb := by
    obtain ⟨d, hd, rfl⟩ := mem_map.1 hb
    have hd' := h.bounds hd
    rw [h.nextBlock hd, h.finalWord]
    omega
  flags b hb := by
    obtain ⟨d, hd, rfl⟩ := mem_map.1 hb
    rw [h.nextBlock hd, (h.tags d hd).1, (h.tags d hd).2]
  links := h.links
  nodup := h.nodup
  mem_free b := by
    rw [h.mem_free]
    constructor
    · rintro ⟨d, hd, rfl, hfree⟩
      exact ⟨mem_map_of_mem hd, (h.free_iff hd).2 hfree⟩
    · rintro ⟨hb, heven⟩
      obtain ⟨d, hd, rfl⟩ := mem_map.1 hb
      exact ⟨d, hd, rfl, (h.free_iff hd).1 heven⟩
  count := h.count
  merged := by
    rw [isChain_map]
    refine List.IsChain.imp_of_mem_imp (fun b c hb hc hbc => ?_) h.merged
    rw [h.free_iff hb, h.free_iff hc]
    rintro ⟨hb', hc'⟩
    rcases hbc with hbc | hbc
    · exact hbc hb'
    · exact hbc hc'

theorem Inv.block_of_pointer (hb : b ∈ l) (hc : c ∈ l) (huse : b.use = some q) (hlo : c.addr < q.1)
    (hhi : q.1 ≤ c.addr + c.size) : b = c := by
  obtain ⟨hlo', hhi', -⟩ := h.owned b hb q.1 q.2 huse
  exact h.tiles.eq_of_overlap hb hc (by omega) (by omega)

theorem Inv.payloads {live : Set (ℕ × ℕ)} (hlive : Lives l live) (hfits : Fits l) :
    Payloads hcb s.mem (l.map addr) live where
  inside q hq := by
    obtain ⟨b, hb, huse⟩ := (hlive q).1 hq
    have hused : ¬fflag s.mem b.addr % 2 = 0 := by
      rw [h.free_iff hb, huse]
      simp
    refine ⟨b.addr, mem_map_of_mem hb, by omega, (h.owned b hb q.1 q.2 huse).1, ?_, ?_⟩
    · rw [h.nextBlock hb]
      exact hfits b hb q huse
    · intro q' hq' hlo hhi
      obtain ⟨c, hc, huse'⟩ := (hlive q').1 hq'
      rw [h.nextBlock hb] at hhi
      have heq := h.block_of_pointer hc hb huse' hlo hhi
      rw [heq, huse] at huse'
      exact (some.inj huse').symm
  apart q hq q' hq' hne := by
    obtain ⟨b, hb, huse⟩ := (hlive q).1 hq
    obtain ⟨c, hc, huse'⟩ := (hlive q').1 hq'
    have hqb := (h.owned b hb q.1 q.2 huse).1
    have hqc := (h.owned c hc q'.1 q'.2 huse').1
    have hfb := hfits b hb q huse
    have hfc := hfits c hc q' huse'
    by_contra hover
    have heq : b = c := h.tiles.eq_of_overlap hb hc (by omega) (by omega)
    rw [heq, huse'] at huse
    exact hne (some.inj huse).symm
  headers q hq x hx := by
    obtain ⟨b, hb, huse⟩ := (hlive q).1 hq
    have hqb := (h.owned b hb q.1 q.2 huse).1
    have hfb := hfits b hb q huse
    rcases mem_append.1 hx with hx | hx
    · obtain ⟨c, hc, rfl⟩ := mem_map.1 hx
      have hc' := h.bounds hc
      by_contra hover
      have heq : b = c := h.tiles.eq_of_overlap hb hc (by omega) (by omega)
      rw [heq] at hqb
      omega
    · have hb' := h.bounds hb
      rw [mem_singleton.1 hx, h.finalWord]
      omega
  taken x hx hused := by
    obtain ⟨b, hb, rfl⟩ := mem_map.1 hx
    obtain ⟨q, huse⟩ : ∃ q, b.use = some q := Option.ne_none_iff_exists'.1 fun hnone => by
      have := (h.free_iff hb).2 hnone
      omega
    refine ⟨q, (hlive q).2 ⟨b, hb, huse⟩, (h.owned b hb q.1 q.2 huse).1, ?_⟩
    rw [h.nextBlock hb]
    exact hfits b hb q huse

theorem Inv.counted {ctl : HeapControl} (hc : Counted s.ctl ctl) :
    Inv hcb lo hi ⟨s.mem, ctl⟩ l fl where
  __ := h
  count := hc.freeBlocks.trans h.count
  heapSize := hc.heapSize.trans h.heapSize

/-- The heap does not depend on the payloads, nor on memory that is not its own. -/
theorem Inv.congr {m : Mem}
    (hm : ∀ a, (lo ≤ a ∧ a < hi + 16) ∨ (hcb ≤ a ∧ a < hcb + 72) →
      (∀ b ∈ l, ∀ q, b.use = some q → a < q.1 ∨ b.addr + b.size ≤ a) → m a = s.mem a)
    : Inv hcb lo hi ⟨m, s.ctl⟩ l fl := by
  have hapart := h.area.apart
  have hlohi := h.tiles.le
  -- a word of the control structure or of the ends of the area
  have hends : ∀ x, (hcb ≤ x ∧ x + 8 ≤ hcb + 72) ∨ x = lo ∨ x = hi + 8 →
      load 8 m x = load 8 s.mem x := fun x hx => by
    refine load_congr fun a ha ha' => hm a (by omega) fun b hb q huse => ?_
    have := h.bounds hb
    have := (h.owned b hb q.1 q.2 huse).1
    omega
  -- a word of a block, or the first word after it
  have hblock : ∀ d ∈ l, ∀ x, d.addr ≤ x → x ≤ d.addr + d.size →
      (∀ q, d.use = some q → x + 8 ≤ q.1 ∨ d.addr + d.size ≤ x) → load 8 m x = load 8 s.mem x :=
    fun d hd x hlo hhi hout => by
      have hd' := h.bounds hd
      refine load_congr fun a ha ha' => hm a (by omega) fun b hb q huse => ?_
      have hq := (h.owned b hb q.1 q.2 huse).1
      by_cases heq : b = d
      · have := hout q (heq ▸ huse)
        rw [heq]
        omega
      · have hov : ¬(b.addr < d.addr + d.size ∧ d.addr < b.addr + b.size) := fun hov =>
          heq (h.tiles.eq_of_overlap hb hd hov.1 hov.2)
        omega
  have hnode : ∀ z ∈ fl, ∀ x, z ≤ x → x ≤ z + 24 → load 8 m x = load 8 s.mem x :=
    fun z hz x hlo hhi => by
      obtain ⟨d, hd, rfl, hfree⟩ := (h.mem_free z).1 hz
      have hd' := h.bounds hd
      exact hblock d hd x hlo (by omega) (by simp [hfree])
  refine ⟨h.area, ?_, ?_, h.tiles, h.sizes, fun d hd => ?_, ?_, fun d hd p n huse => ?_, h.merged,
    ?_,
    h.nodup, h.mem_free, h.count, h.heapSize⟩
  · exact (hends hcb (by omega)).trans h.startWord
  · exact (hends (hcb + 8) (by omega)).trans h.finalWord
  · have hd' := h.bounds hd
    obtain ⟨hf, hb⟩ := h.tags d hd
    refine ⟨(hblock d hd (d.addr + 8) (by omega) (by omega) fun q huse => ?_).trans hf,
      (hblock d hd (d.addr + d.size) (by omega) (by omega) fun q huse => ?_).trans hb⟩
    · have := (h.owned d hd q.1 q.2 huse).1
      omega
    · exact .inr le_rfl
  · exact ⟨(hends lo (by omega)).trans h.ends.1, (hends (hi + 8) (by omega)).trans h.ends.2⟩
  · obtain ⟨hlo, hhi, hload⟩ := h.owned d hd p n huse
    refine ⟨hlo, hhi, (hblock d hd (p - 8) (by omega) (by omega) fun q huse' => ?_).trans hload⟩
    cases huse.symm.trans huse'
    omega
  · refine h.links.congr (fun z hz => ?_) fun z hz => ?_
    · rcases mem_cons.1 hz with rfl | hz
      · exact hends _ (by omega)
      · exact hnode z hz _ (by omega) (by omega)
    · rcases mem_append.1 hz with hz | hz
      · exact hnode z hz _ (by omega) (by omega)
      · rw [mem_singleton.1 hz]
        exact hends _ (by omega)

theorem Inv.write {live : Set (ℕ × ℕ)} {m : Mem} (hlive : Lives l live) (hfits : Fits l)
    (hm : ∀ a, (lo ≤ a ∧ a < hi + 16) ∨ (hcb ≤ a ∧ a < hcb + 72) →
      (∀ q ∈ live, ¬(q.1 ≤ a ∧ a < q.1 + q.2)) → m a = s.mem a)
    : Inv hcb lo hi ⟨m, s.ctl⟩ l fl := by
  refine h.congr fun a ha hout => hm a ha fun q hq hin => ?_
  obtain ⟨b, hb, huse⟩ := (hlive q).1 hq
  have := hout b hb q huse
  have := hfits b hb q huse
  omega

end

end

section

variable {hcb lo n : ℕ} {s₀ s : State}

/-- The heap that `ttosInitHeap` leaves has one free block. -/
theorem Inv.ttosInitHeap (hlo : 8 ∣ lo) (hn : 8 ∣ n) (hn32 : n < 2 ^ 32) (hend : lo + n ≤ 2 ^ 64)
    (hcbEnd : hcb + 72 ≤ 2 ^ 64) (hapart : hcb + 72 ≤ lo ∨ lo + n ≤ hcb)
    (hinit : ttosInitHeap hcb lo n s₀ = (TTOS_OK, s)) :
    Inv hcb lo (lo + n - 16) s [⟨lo, n - 16, none⟩] [lo] ∧ s.ctl.inUseSize = 0 ∧ 48 ≤ n := by
  have hne : ¬(hcb = 0 ∨ lo = 0) := fun hor => by
    rw [Heap.ttosInitHeap, if_pos hor] at hinit
    simp at hinit
  have hmin : ¬n < HEAP_MINIMUM_HEAPSIZE := fun hlt => by
    rw [Heap.ttosInitHeap, if_neg hne, if_pos hlt] at hinit
    simp at hinit
  have hflag : fflag (setPrevious (setNext
    (setFflag (setBflag s₀.mem lo HEAP_DUMMY_FLAG) lo (n - 16)) lo
      (hcb + 8)) lo hcb) lo = n - 16 := by
    simp only [setPrevious, setNext, setFflag, fflag]
    simp (disch := omega) only [load_store_of_disjoint, load_store_word]
  simp only [HEAP_MINIMUM_HEAPSIZE, HEAP_TAIL_BLOCK_SIZE, HEAP_FREE_BLOCK_OVERHEAD] at hmin
  have htail : (lo + sizeOf (n - 16)) % 2 ^ 64 = lo + (n - 16) := by
    rw [(sizeOf_of_dvd (by omega)).1, Nat.mod_eq_of_lt (by omega)]
  rw [Heap.ttosInitHeap, if_neg hne, if_neg (by simpa [HEAP_MINIMUM_HEAPSIZE, HEAP_TAIL_BLOCK_SIZE,
    HEAP_FREE_BLOCK_OVERHEAD] using hmin)] at hinit
  simp only [HEAP_TAIL_BLOCK_SIZE, HEAP_NEXTBLOCK, hflag, htail] at hinit
  rw [if_neg (by omega)] at hinit
  cases hinit
  have hdummy : HEAP_DUMMY_FLAG < 2 ^ 64 := by decide
  have hhi : lo + n - 16 = lo + (n - 16) := by omega
  rw [hhi]
  refine ⟨⟨⟨by omega, by omega, hlo, hcbEnd, by omega, by omega, by omega⟩, ?_, ?_, ⟨rfl, rfl⟩,
    fun b hb => ?_, fun b hb => ?_, ⟨?_, ?_⟩, fun b hb => ?_, isChain_singleton _, ⟨?_, ?_, ?_, ?_⟩,
    nodup_singleton _, fun x => by simp [eq_comm], rfl, ?_⟩, rfl, by omega⟩
  -- the words that are read
  any_goals solve
    | simp only [start, final, next, previous, fflag, bflag, setBflag, setFflag, setPrevious,
      setNext]
      simp (disch := omega) only [load_store_of_disjoint, load_store_word]
  · rw [mem_singleton.1 hb]
    simp only
    omega
  · rw [mem_singleton.1 hb]
    simp only [Tagged, flag, if_true, fflag, bflag, setBflag, setFflag, setPrevious, setNext]
    constructor <;> simp (disch := omega) only [load_store_of_disjoint, load_store_word]
  · rw [mem_singleton.1 hb]
    simp [Owned]
  · simp only
    omega

end

section

variable {hcb lo hi j size : ℕ} {w : World}

theorem le_realSize {k : ℕ} (h : size + 2 ^ k < 2 ^ 32) :
    size + 2 ^ k + 16 ≤ realSize size (2 ^ k) := by
  simp only [realSize, HEAP_USED_BLOCK_OVERHEAD]
  rw [Nat.mod_eq_of_lt h]
  split
  · omega
  · exact le_rfl

theorem sum_lt (hsize : size + 2 * 2 ^ j + 16 < 2 ^ 32) : size + 2 ^ max 3 j < 2 ^ 32 := by
  rcases le_total j 3 with hj | hj
  · rw [max_eq_left hj]
    omega
  · rw [max_eq_right hj]
    omega

theorem Inv.allocate {k alignedSize : ℕ} {s : State} {l : List Blk} {fl : List ℕ}
    (h : Inv hcb lo hi s l fl) (hpos : alignedSize ≠ 0) (ha : AlignedAs alignedSize k)
    (hsize : size < 2 ^ 32) (n : ℕ) :
    ∃ code p s', ttosAllocateHeap hcb size alignedSize s = some (code, p, s') ∧
      ((Refused s.mem fl size k ∧ code ≠ TTOS_OK ∧ p = 0 ∧ s'.mem = s.mem ∧ Counted s.ctl s'.ctl) ∨
        (¬Refused s.mem fl size k ∧ code = TTOS_OK ∧ ∃ z u l' fl',
          firstFit (realSize size (2 ^ k)) s.mem fl = some z ∧
          u.size = (if realSize size (2 ^ k) + 32 ≤ fflag s.mem z then realSize size (2 ^ k)
            else fflag s.mem z) ∧ realSize size (2 ^ k) ≤ u.size ∧
          u.use = some (p, n) ∧ u.addr + 24 ≤ p ∧ p ≤ u.addr + 16 + 2 ^ k ∧ 2 ^ k ∣ p ∧
          s'.ctl.inUseSize = (s.ctl.inUseSize + realSize size (2 ^ k)) % 2 ^ 32 ∧
          Taken hcb lo hi s s' l u l' fl')) := by
  obtain ⟨code, p, s', hcall, hcase⟩ := h.ttosAllocateHeap_spec hpos ha hsize n
  refine ⟨code, p, s', hcall, hcase.imp_right ?_⟩
  rintro ⟨hserved, hcode, l1, b, l2, rfl, hfree, hfit, hfirst, hp, huse, hkeeps, hinv⟩
  have htaken := h.taken hfree hfit hkeeps hinv
  obtain ⟨hu, hroom, -⟩ := usedOf_spec (k := k) (n := n) hfit
  have hflag := (h.block_facts hfree).2.2.2.2.1
  have hmem := (htaken.used (usedOf k (realSize size (2 ^ k)) n b) (by simp [hu])).2 (.inr rfl)
  obtain ⟨hplo, hphi, hpdvd⟩ := pointerOf_spec ha.2.1 (hinv.aligned hmem)
  refine ⟨hserved, hcode, b.addr, usedOf k (realSize size (2 ^ k)) n b, _, _, hfirst, ?_, hroom,
    hp ▸ hu, hp ▸ hplo, hp ▸ hphi, hp ▸ hpdvd, huse, htaken⟩
  rw [hflag]
  unfold usedOf
  split <;> rfl

section

variable {s s' : State} {l l' : List Blk} {fl fl' : List ℕ} {u b : Blk} {q : ℕ × ℕ}
  {live : Set (ℕ × ℕ)}

section
variable (h : Taken hcb lo hi s s' l u l' fl')
include h

theorem Taken.lives (hlive : Lives l live) (huse : u.use = some q) :
    Lives l' (insert q live) := fun q' => by
  rw [mem_insert_iff, hlive]
  constructor
  · rintro (rfl | ⟨d, hd, hq⟩)
    · exact ⟨u, (h.used u (by simp [huse])).2 (.inr rfl), huse⟩
    · exact ⟨d, (h.used d (by simp [hq])).2 (.inl hd), hq⟩
  · rintro ⟨d, hd, hq⟩
    rcases (h.used d (by simp [hq])).1 hd with hd | rfl
    · exact .inr ⟨d, hd, hq⟩
    · exact .inl (some.inj (hq.symm.trans huse))

theorem Taken.fits (hfits : Fits l) (huse : u.use = some q) (hq : q.1 + q.2 ≤ u.addr + u.size) :
    Fits l' := fun d hd q' hq' => by
  rcases (h.used d (by simp [hq'])).1 hd with hd | rfl
  · exact hfits d hd q' hq'
  · cases hq'.symm.trans huse
    exact hq

theorem Taken.not_live (hlive : Lives l live) (huse : u.use = some q) :
    ∀ q' ∈ live, q'.1 ≠ q.1 := fun q' hin heq => by
  obtain ⟨d, hd, hq⟩ := (hlive q').1 hin
  have hd' := (h.used d (by simp [hq])).2 (.inl hd)
  have hu := (h.used u (by simp [huse])).2 (.inr rfl)
  obtain ⟨hlo, hhi, -⟩ := h.inv.owned u hu q.1 q.2 huse
  have hdu : d = u := h.inv.block_of_pointer hd' hu hq (by omega) (by omega)
  exact h.fresh (hdu ▸ hd)

end

theorem Freed.lives (h : Freed hcb lo hi s s' l fl b l' fl') (hinv : Inv hcb lo hi s l fl)
    (hlive : Lives l live) (hb : b ∈ l) (huse : b.use = some q) : Lives l' (live \ {q}) :=
    fun q' => by
  rw [mem_sdiff, mem_singleton_iff, hlive]
  constructor
  · rintro ⟨⟨d, hd, hq'⟩, hne⟩
    refine ⟨d, (h.used d (by simp [hq'])).2 ⟨hd, ?_⟩, hq'⟩
    rintro rfl
    exact hne (some.inj (hq'.symm.trans huse))
  · rintro ⟨d, hd, hq'⟩
    obtain ⟨hd, hne⟩ := (h.used d (by simp [hq'])).1 hd
    refine ⟨⟨d, hd, hq'⟩, ?_⟩
    rintro rfl
    obtain ⟨hlo, hhi, -⟩ := hinv.owned b hb _ _ huse
    exact hne (hinv.block_of_pointer hd hb hq' (by omega) hhi)

theorem Freed.fits (h : Freed hcb lo hi s s' l fl b l' fl') (hfits : Fits l) : Fits l' :=
  fun d hd q' hq' => hfits d ((h.used d (by simp [hq'])).1 hd).1 q' hq'

end

section
variable (h : WorldInv hcb lo hi w)
include h

theorem WorldInv.allocate (hj : j < 32) (hsize : size + 2 * 2 ^ j + 16 < 2 ^ 32) :
    ∃ code p st', ttosAllocateHeap hcb size (2 ^ j) w.st = some (code, p, st') ∧
      WorldInv hcb lo hi ⟨st', if code = TTOS_OK then insert (p, size) w.live else w.live⟩ ∧
      (code = TTOS_OK → 2 ^ j ∣ p ∧ ∀ q ∈ w.live, q.1 ≠ p) := by
  obtain ⟨l, fl, hinv, hlive, hfits⟩ := h
  obtain ⟨code, p, st', hcall, hcase⟩ := hinv.allocate (Nat.two_pow_pos j).ne'
    (alignedAs_pow hj) (by omega : size < 2 ^ 32) size
  refine ⟨code, p, st', hcall, ?_⟩
  rcases hcase with ⟨-, hcode, -, hmem, hctl⟩ |
    ⟨-, rfl, z, u, l', fl', -, -, hroom, huse, hplo, hphi, hpdvd, -, htaken⟩
  · rw [if_neg hcode]
    refine ⟨⟨l, fl, ?_, hlive, hfits⟩, fun heq => absurd heq hcode⟩
    have hst : st' = ⟨w.st.mem, st'.ctl⟩ := by rw [← hmem]
    rw [hst]
    exact hinv.counted hctl
  · rw [if_pos rfl]
    have hfit := le_realSize (sum_lt hsize)
    refine ⟨⟨l', fl', htaken.inv, htaken.lives hlive huse, htaken.fits hfits huse ?_⟩,
      fun _ => ⟨?_, htaken.not_live hlive huse⟩⟩
    · simp only
      omega
    · exact (pow_dvd_pow 2 (le_max_right 3 j)).trans hpdvd

theorem WorldInv.free {q : ℕ × ℕ} (hq : q ∈ w.live) :
    ∃ st', ttosFreeHeap hcb q.1 w.st = (TTOS_OK, st') ∧ WorldInv hcb lo hi ⟨st', w.live \ {q}⟩ := by
  obtain ⟨l, fl, hinv, hlive, hfits⟩ := h
  obtain ⟨b, hb, huse⟩ := (hlive q).1 hq
  obtain ⟨st', l', fl', hcall, hfreed, -⟩ := hinv.ttosFreeHeap_spec hb huse
  exact ⟨st', hcall, l', fl', hfreed.inv, hfreed.lives hinv hlive hb huse, hfreed.fits hfits⟩

theorem WorldInv.shape : ∃ bs fl, WellFormed hcb w.st bs fl ∧ Payloads hcb w.st.mem bs w.live := by
  obtain ⟨l, fl, hinv, hlive, hfits⟩ := h
  exact ⟨l.map addr, fl, hinv.wellFormed, hinv.payloads hlive hfits⟩

theorem WorldInv.allocateSound : AllocateSound hcb w := by
  intro j size hj hsize
  obtain ⟨code, p, st', hcall, hinv, hok⟩ := h.allocate hj hsize
  refine ⟨code, p, st', hcall, fun hcode => ?_⟩
  obtain ⟨hdvd, hnew⟩ := hok hcode
  rw [if_pos hcode] at hinv
  obtain ⟨bs, fl, hwf, hpay⟩ := hinv.shape
  refine ⟨hdvd, fun q hq => ?_, bs, fl, hwf, hpay⟩
  exact hpay.apart q (mem_insert_of_mem _ hq) (p, size) (mem_insert _ _) fun heq =>
    hnew q hq (congrArg Prod.fst heq)

theorem WorldInv.freeSound : FreeSound hcb w := fun q hq => by
  obtain ⟨st', hcall, -⟩ := h.free hq
  exact ⟨st', hcall⟩

end

end

section

variable {hcb lo n : ℕ} {w w' : World}

theorem WorldInv.step (hn : 16 ≤ n) (h : WorldInv hcb lo (lo + n - 16) w)
    (hstep : Step hcb lo n w w') :
    WorldInv hcb lo (lo + n - 16) w' := by
  cases hstep with
  | allocate j size hj hsize hcall =>
    obtain ⟨code, p, st', hcall', hinv, -⟩ := h.allocate hj hsize
    obtain ⟨rfl, rfl, rfl⟩ : _ ∧ _ ∧ _ := by simpa using hcall.symm.trans hcall'
    exact hinv
  | free q hq hcall =>
    obtain ⟨st', hcall', hinv⟩ := h.free hq
    cases hcall.symm.trans hcall'
    exact hinv
  | write m hm =>
    obtain ⟨l, fl, hinv, hlive, hfits⟩ := h
    exact ⟨l, fl, hinv.write hlive hfits fun a ha => hm a (by omega), hlive, hfits⟩

/-- **A whole run.** -/
theorem Inv.run {s : State} (hs : Inv hcb lo (lo + n - 16) s [⟨lo, n - 16, none⟩] [lo])
    (hn : 48 ≤ n) (hrun : Relation.ReflTransGen (Step hcb lo n) ⟨s, ∅⟩ w) :
    WorldInv hcb lo (lo + n - 16) w := by
  induction hrun with
  | refl => exact ⟨_, _, hs, by simp [Lives], by simp [Fits]⟩
  | tail _ hstep ih => exact ih.step (by omega) hstep

/-- **The workspace heap in every run.**  The blocks fill the area and carry equal flags, the free
list has exactly the free blocks, no two neighbours are free; the live payloads are apart and each
in a used block, and the next call keeps it so. -/
theorem heap_runs {s₀ s : State} (hlo : 8 ∣ lo) (hn : 8 ∣ n) (hn32 : n < 2 ^ 32)
    (hend : lo + n ≤ 2 ^ 64) (hcbEnd : hcb + 72 ≤ 2 ^ 64) (hapart : hcb + 72 ≤ lo ∨ lo + n ≤ hcb)
    (hinit : ttosInitHeap hcb lo n s₀ = (TTOS_OK, s))
    (hrun : Relation.ReflTransGen (Step hcb lo n) ⟨s, ∅⟩ w) :
    (∃ bs fl, WellFormed hcb w.st bs fl ∧ Payloads hcb w.st.mem bs w.live) ∧
      AllocateSound hcb w ∧ FreeSound hcb w := by
  obtain ⟨hstart, -, hn48⟩ := Inv.ttosInitHeap hlo hn hn32 hend hcbEnd hapart hinit
  have hinv := hstart.run hn48 hrun
  exact ⟨hinv.shape, hinv.allocateSound, hinv.freeSound⟩

/-- The state that a request leaves. -/
def allocated (size : ℕ) (s : State) :
    State := (ttosAllocateHeap 4096 size (2 ^ 3) s).elim s (·.2.2)

theorem allocate_eq {size p : ℕ} {s : State}
    (h : (ttosAllocateHeap 4096 size (2 ^ 3) s).map (fun r => (r.1, r.2.1)) = some (TTOS_OK, p)) :
    ttosAllocateHeap 4096 size (2 ^ 3) s = some (TTOS_OK, p, allocated size s) := by
  obtain ⟨⟨code, p', st'⟩, hcall, heq⟩ := map_eq_some_iff.1 h
  obtain ⟨rfl, rfl⟩ := Prod.mk.inj heq
  rw [allocated, hcall, elim_some]

theorem step_allocated {size p : ℕ} {live : Set (ℕ × ℕ)} (hsize : size + 2 * 2 ^ 3 + 16 < 2 ^ 32)
    (h : (ttosAllocateHeap 4096 size (2 ^ 3) s).map (fun r => (r.1, r.2.1)) = some (TTOS_OK, p)) :
    Step 4096 lo n ⟨s, live⟩ ⟨allocated size s, insert (p, size) live⟩ := by
  have hlive : insert (p, size) live = if TTOS_OK = TTOS_OK then insert (p, size) live else live :=
    (if_pos rfl).symm
  rw [hlive]
  exact .allocate 3 size (by decide) hsize (allocate_eq h)

/-- A heap of 136 bytes: one free block of 120 bytes and the tail block. -/
def wideHeap : State := (ttosInitHeap 4096 8192 136 ⟨fun _ => 0, ⟨0, 0, 0, 0, 0, 0, 0, 0⟩⟩).2

theorem wideHeap_init :
    ttosInitHeap 4096 8192 136 ⟨fun _ => 0, ⟨0, 0, 0, 0, 0, 0, 0, 0⟩⟩ = (TTOS_OK, wideHeap) := by
  have hcode : (ttosInitHeap 4096 8192 136 ⟨fun _ => 0, ⟨0, 0, 0, 0, 0, 0, 0, 0⟩⟩).1 = TTOS_OK := by
    decide +kernel
  exact Prod.ext hcode rfl

theorem wideHeap_split : Relation.ReflTransGen (Step 4096 8192 136) ⟨wideHeap, ∅⟩
    ⟨allocated 16 (allocated 8 wideHeap), {(8264, 16), (8304, 8)}⟩ := by
  have hrun : Relation.ReflTransGen (Step 4096 8192 136) ⟨wideHeap, ∅⟩
      ⟨allocated 8 wideHeap, insert (8304, 8) ∅⟩ :=
    .single (step_allocated (by decide) (by decide +kernel))
  rw [insert_empty_eq] at hrun
  exact hrun.tail (step_allocated (by decide) (by decide +kernel))

/-- Two requests split the block, and the block of the first is given back. -/
theorem heap_runs_small : ∃ w, Relation.ReflTransGen (Step 4096 8192 136) ⟨wideHeap, ∅⟩ w ∧
    w.live = {(8264, 16)} ∧
    (∃ bs fl, WellFormed 4096 w.st bs fl ∧ Payloads 4096 w.st.mem bs w.live) ∧
    AllocateSound 4096 w ∧ FreeSound 4096 w := by
  have hfreed := wideHeap_split.tail (.free (8304, 8) (by simp) rfl)
  refine ⟨_, hfreed, ?_, heap_runs (by decide) (by decide) (by decide) (by decide) (by decide)
    (by decide) wideHeap_init hfreed⟩
  ext q
  simp only [Set.mem_sdiff, Set.mem_insert_iff, Set.mem_singleton_iff]
  constructor
  · rintro ⟨rfl | rfl, hne⟩
    · rfl
    · exact absurd rfl hne
  · rintro rfl
    exact ⟨.inl rfl, by decide⟩

/-- The bytes of the payload are the same. -/
def SameBytes (q : ℕ × ℕ) (m m' : Mem) : Prop := ∀ a, q.1 ≤ a → a < q.1 + q.2 → m' a = m a

/-- Where nothing is live the layout is one free block. -/
theorem Inv.eq_singleton {l : List Blk} {fl : List ℕ} (h : Inv hcb lo hi s l fl) (hlt : lo < hi)
    (hfree : ∀ b ∈ l, b.use = none) : l = [⟨lo, hi - lo, none⟩] ∧ fl = [lo] := by
  obtain _ | ⟨b, _ | ⟨c, l⟩⟩ := l
  · exact absurd h.tiles hlt.ne
  · obtain ⟨rfl, hend⟩ := h.tiles
    have hend : b.addr + b.size = hi := hend
    have huse := hfree b mem_cons_self
    have hfl : fl.Perm [b.addr] := (perm_ext_iff_of_nodup h.nodup (nodup_singleton _)).2 fun x => by
      simp [h.mem_free, huse, eq_comm]
    refine ⟨?_, perm_singleton.1 hfl⟩
    rw [← hend, Nat.add_sub_cancel_left, ← huse]
  · have := h.merged
    have hb := hfree b (by simp)
    have hc := hfree c (by simp)
    simp_all [Coalesced]

/-- **Payloads and blocks in every run.**  The next call leaves the bytes of every other live
payload alone, the block of a live payload is as large as `ttosGetBlockSizeHeap` says and has room
for it, and where nothing is live, the heap is one free block again. -/
theorem heap_payloads (hlo : 8 ∣ lo) (hn : 8 ∣ n) (hn32 : n < 2 ^ 32) (hend : lo + n ≤ 2 ^ 64)
    (hcbEnd : hcb + 72 ≤ 2 ^ 64) (hapart : hcb + 72 ≤ lo ∨ lo + n ≤ hcb)
    (hinit : ttosInitHeap hcb lo n s₀ = (TTOS_OK, s))
    (hrun : Relation.ReflTransGen (Step hcb lo n) ⟨s, ∅⟩ w) :
    (∀ j size, j < 32 → size + 2 * 2 ^ j + 16 < 2 ^ 32 → ∃ code p st',
      ttosAllocateHeap hcb size (2 ^ j) w.st = some (code, p, st') ∧
        ∀ q ∈ w.live, SameBytes q w.st.mem st'.mem) ∧
    (∀ q ∈ w.live, (∃ st', ttosFreeHeap hcb q.1 w.st = (TTOS_OK, st') ∧
        ∀ q' ∈ w.live, q' ≠ q → SameBytes q' w.st.mem st'.mem) ∧
      ∃ m, ttosGetBlockSizeHeap hcb q.1 w.st = (TTOS_OK, some m, w.st) ∧ q.2 + 24 ≤ m) ∧
    (w.live = ∅ → WellFormed hcb w.st [lo] [lo]) := by
  obtain ⟨hstart, -, hn48⟩ := Inv.ttosInitHeap hlo hn hn32 hend hcbEnd hapart hinit
  obtain ⟨l, fl, hinv, hlive, hfits⟩ := hstart.run hn48 hrun
  have hpay : ∀ b ∈ l, ∀ q, b.use = some q → b.addr + 24 ≤ q.1 ∧ q.1 + q.2 ≤ b.addr + b.size :=
    fun b hb q hq => ⟨(hinv.owned b hb q.1 q.2 hq).1, hfits b hb q hq⟩
  refine ⟨fun j size hj hsize => ?_, fun q hq => ?_, fun hempty => ?_⟩
  · obtain ⟨code, p, st', hcall, hcase⟩ := hinv.allocate (Nat.two_pow_pos j).ne'
      (alignedAs_pow hj) (by omega : size < 2 ^ 32) size
    refine ⟨code, p, st', hcall, fun q hq a hle hlt => ?_⟩
    obtain ⟨b, hb, huse⟩ := (hlive q).1 hq
    have := hpay b hb q huse
    rcases hcase with ⟨-, -, -, hmem, -⟩ | ⟨-, -, z, u, l', fl', -, -, -, -, -, -, -, -, htaken⟩
    · rw [hmem]
    · exact htaken.kept b hb (by simp [huse]) a (by omega) (by omega)
  · obtain ⟨b, hb, huse⟩ := (hlive q).1 hq
    have hq' := hpay b hb q huse
    obtain ⟨st', l', fl', hcall, hfreed, -⟩ := hinv.ttosFreeHeap_spec hb huse
    refine ⟨⟨st', hcall, fun r hr hne a hle hlt => ?_⟩, b.size, ?_, by omega⟩
    · obtain ⟨c, hc, huse'⟩ := (hlive r).1 hr
      have := hpay c hc r huse'
      have hcb' : c ≠ b := by
        rintro rfl
        exact hne (Option.some.inj (huse'.symm.trans huse))
      exact hfreed.kept c hc (by simp [huse']) hcb' a (by omega) (by omega)
    · rw [ttosGetBlockSizeHeap, hinv.findUsed_spec hb huse]
      simp only [(hinv.tags b hb).1, flag, huse, reduceCtorEq, if_false,
        (sizeOf_of_dvd (hinv.sizes b hb).2).2]
  · have hfree : ∀ b ∈ l, b.use = none := fun b hb => by
      by_contra hb'
      obtain ⟨q, hq⟩ := Option.ne_none_iff_exists'.1 hb'
      simpa [hempty] using (hlive q).2 ⟨b, hb, hq⟩
    obtain ⟨rfl, rfl⟩ := hinv.eq_singleton (by omega) hfree
    exact hinv.wellFormed

theorem heap_payloads_small :
    ∃ w, Relation.ReflTransGen (Step 4096 8192 136) ⟨wideHeap, ∅⟩ w ∧
      w.live = {(8264, 16), (8304, 8)} ∧
      ∃ m, ttosGetBlockSizeHeap 4096 8264 w.st = (TTOS_OK, some m, w.st) ∧ 40 ≤ m := by
  exact ⟨_, wideHeap_split, rfl, ((heap_payloads (by decide) (by decide) (by decide) (by decide)
    (by decide) (by decide) wideHeap_init wideHeap_split).2.1 (8264, 16) (by simp)).2⟩

end

end Intewell.Heap
