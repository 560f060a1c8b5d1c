/-
# What one call of the page allocator does

One specification for each function of `src/kernel/memory/page.c` over the
invariant of `Intewell.Page.Invariant`: the loops (`Inv.coalesce`, `Inv.split`),
`_pages_free` and `_pages_alloc` under the lock, and `set_page_free`, which hands
pages over.  No call reaches a failed assertion, a null pointer or an index
outside `page_list`.
-/

import Intewell.Page.Invariant

namespace Intewell.Page

open State Set Function Aligned Block Option Nat

variable {E : Env} {M : Set ℕ} {σ : State} {L : Set Block} {p k : ℕ}

theorem setPageFree_zero (hp : E.present p = true) :
    setPageFree E 0 (p <<< PAGE_SIZE_SHIFT) σ = giveBlock E p 0 σ := by
  simp [setPageFree, PFN_DOWN, shiftLeft_shiftRight, sameZone, pfnToPage_of_present hp]

theorem setPageFree_succ (hk : k < 30) (hpres : ∀ f ∈ frames ⟨p, k + 1⟩, E.present f = true) :
    setPageFree E (k + 1) (p <<< PAGE_SIZE_SHIFT) σ =
      if pageIsZone E p .normal = pageIsZone E (p + 2 ^ (k + 1) - 1) .normal then
        giveBlock E p (k + 1) σ else (setPageFree E k (p <<< PAGE_SIZE_SHIFT) σ).bind
        (setPageFree E k ((p + 2 ^ k) <<< PAGE_SIZE_SHIFT)) := by
  have hsize : 0 < 2 ^ (k + 1) := Nat.two_pow_pos _
  have hp := hpres p (head_mem_frames ⟨p, k + 1⟩)
  have hq := hpres (p + 2 ^ (k + 1) - 1) (by rw [mem_frames]; simp only; omega)
  have hstart : p <<< PAGE_SIZE_SHIFT + 1 <<< (k + PAGE_SIZE_SHIFT) =
      (p + 2 ^ k) <<< PAGE_SIZE_SHIFT := by
    simp only [shiftLeft_eq, pow_add]
    ring
  rw [setPageFree, if_neg (by omega), PFN_DOWN, shiftLeft_shiftRight, sameZone,
    pfnToPage_of_present hp, pfnToPage_of_present hq, hstart]
  simp only [bind_some, map_some, beq_iff_eq]

namespace Inv

theorem head_present (h : Inv E M σ L) {b : Block} (hb : b ∈ σ.freeBlocks ∪ L) :
    E.present b.head = true := h.present _ (h.tiles.frames_subset hb b.head_mem_frames)

section
variable (h : Inv E M σ (insert ⟨p, k⟩ L)) (hL : ⟨p, k⟩ ∉ L)
include h hL

theorem head_ne {b : Block} (hb : b ∈ L) : b.head ≠ p := by
  rintro rfl
  have heq := h.tiles.eq_of_head_mem (.inr (.inr hb))
    (.inr (.inl rfl)) (head_mem_frames ⟨b.head, k⟩)
  exact hL (heq ▸ hb)

/-- **The loop of `_pages_free`.**  The block in hand grows by free buddies of
its zone and stops where there is none; the only descriptors written are those
of the buddies taken off their lists. -/
theorem coalesce {n : ℕ} (hn : n + k = PAGE_LIST_SIZE) :
    ∃ q l σ', Page.coalesce E n p k σ = some (q, l, σ') ∧ Inv E M σ' (insert ⟨q, l⟩ L) ∧
      ⟨q, l⟩ ∉ L ∧ l < PAGE_LIST_SIZE ∧
      (buddy q l ∈ σ'.pageList l → pageIsZone E (buddy q l) .normal ≠ pageIsZone E q .normal) ∧
      σ'.refCnt = σ.refCnt ∧
      ∀ f, σ'.sizeBits f = σ.sizeBits f ∨ σ'.sizeBits f = ARCH_ADDRESS_WIDTH_BITS := by
  induction n generalizing p k σ with
  | zero =>
    have := (h.order_lt (.inr (mem_insert _ _))).2
    simp only [PAGE_LIST_SIZE_eq] at hn this
    omega
  | succ n ih =>
    have hk : k < PAGE_LIST_SIZE := by omega
    obtain ⟨hp36, -⟩ := h.order_lt (.inr (mem_insert ⟨p, k⟩ L))
    rw [Page.coalesce, buddyGet_eq E hp36 hk]
    cases hb : pfnToPage E (buddy p k) with
    | none =>
      refine ⟨p, k, σ, rfl, h, hL, hk, fun hin => ?_, rfl, fun f => .inl rfl⟩
      have := h.head_present (b := ⟨buddy p k, k⟩) (.inl hin)
      rw [pfnToPage_of_present this] at hb
      exact absurd hb (by simp)
    | some b =>
      obtain ⟨-, rfl⟩ := pfnToPage_eq_some.1 hb
      by_cases hc : σ.sizeBits (buddy p k) = k ∧
          pageIsZone E (buddy p k) .normal = pageIsZone E p .normal
      · -- The buddy reads as free at this level, so it is on the list.
        have hin : buddy p k ∈ σ.pageList k := by
          have := h.marked (buddy p k) (hc.1.symm ▸ hk)
          rwa [hc.1] at this
        obtain ⟨σ1, hσ1, h1, hr1, hs1⟩ := h.pageRemove hin
        have hbL : (⟨buddy p k, k⟩ : Block) ∉ L := fun hb => h.apart _ (.inr hb) hin
        obtain ⟨h2, hL2⟩ := h1.glue hL hbL
        obtain ⟨q, l, σ', hq, h', hqL, hl, hz, hr, hs⟩ := ih h2 hL2 (by omega)
        refine ⟨q, l, σ', ?_, h', hqL, hl, hz, hr.trans hr1, fun f => ?_⟩
        · have hmin : (if p < buddy p k then p else buddy p k) = min p (buddy p k) := by
            split_ifs <;> omega
          simp only [if_pos hc, hσ1, bind_some, hmin]
          exact hq
        · rcases hs f with hf | hf
          · rw [hf, hs1, update_apply]
            split_ifs
            · exact .inr rfl
            · exact .inl rfl
          · exact .inr hf
      · simp only [if_neg hc]
        refine ⟨p, k, _, rfl, h, hL, hk, fun hin hz => hc ⟨?_, hz⟩, rfl, fun f => .inl rfl⟩
        exact (h.listed k _ hin).2

end

/-- **The loop of `_pages_alloc`.**  The lower half of the block in hand goes on
its list and the upper half stays in hand, down to the order asked for. -/
theorem split {o n : ℕ} (h : Inv E M σ (insert ⟨p, o + n⟩ L)) (hL : ⟨p, o + n⟩ ∉ L) :
    ∃ q σ', Page.split E o n p σ = some (q, σ') ∧ Inv E M σ' (insert ⟨q, o⟩ L) ∧
      ⟨q, o⟩ ∉ L ∧ σ'.refCnt = σ.refCnt ∧ ∀ b ∈ L, σ'.sizeBits b.head = σ.sizeBits b.head := by
  induction n generalizing p σ with
  | zero => exact ⟨p, σ, rfl, h, hL, rfl, fun _ _ => rfl⟩
  | succ n ih =>
    have horder := h.order_lt (.inr (mem_insert ⟨p, o + (n + 1)⟩ L))
    have hk : o + n < PAGE_LIST_SIZE := by
      have := horder.2
      simp only [PAGE_LIST_SIZE_eq] at this ⊢
      omega
    obtain ⟨h1, hp1, hb1⟩ := h.cut hL
    have hbud := h1.head_present (b := ⟨buddy p (o + n), o + n⟩) (.inr (.inr (.inl rfl)))
    have hnot := h1.not_mem_list (.inr (.inl rfl)) (o + n)
    obtain ⟨q, σ', hq, h', hqL, hr, hs⟩ :=
      ih (h1.pageInsert hp1 fun hin => absurd hin hnot) hb1
    refine ⟨q, σ', ?_, h', hqL, hr, fun b hb => ?_⟩
    · rw [Page.split, buddyGet_eq E horder.1 hk, pfnToPage_of_present hbud]
      exact hq
    · rw [hs b hb, sizeBits_pageInsert, if_neg (h.head_ne hL hb)]

theorem claim (h : Inv E M σ L) (hp : ⟨p, k⟩ ∈ L) : Inv E M (σ.claim p) L := by
  have hs : ∀ q, (σ.claim p).sizeBits q = if q = p then ARCH_ADDRESS_WIDTH_BITS else σ.sizeBits q :=
    fun q => by simp [State.claim, update_apply]
  refine ⟨h.tiles, h.apart, h.present, h.nodup, fun j q hq => ?_, fun q hq => ?_, h.merged⟩
  · have hne : q ≠ p := fun he => h.not_mem_list hp j (he ▸ hq)
    rw [hs, if_neg hne]
    exact h.listed j q hq
  · rw [hs] at hq ⊢
    split_ifs at hq ⊢
    · exact absurd hq (by decide)
    · exact h.marked q hq

/-- **`_pages_free` on the last reference.**  The block goes back to the lists. -/
theorem _pagesFree_last (h : Inv E M σ (insert ⟨p, k⟩ L)) (hL : ⟨p, k⟩ ∉ L) {f : ℕ}
    (hf : groupHead f k = p) (href : σ.refCnt p = 1)
    (hbits : σ.sizeBits p = ARCH_ADDRESS_WIDTH_BITS) :
    ∃ σ', _pagesFree E f k σ = some (1, σ') ∧ Inv E M σ' L ∧ σ'.refCnt = update σ.refCnt p 0 ∧
      ∀ b ∈ L, σ.sizeBits b.head = ARCH_ADDRESS_WIDTH_BITS →
        σ'.sizeBits b.head = ARCH_ADDRESS_WIDTH_BITS := by
  have hpres := h.head_present (.inr (mem_insert ⟨p, k⟩ L))
  have hk : PAGE_LIST_SIZE - k + k = PAGE_LIST_SIZE := by
    have := (h.order_lt (.inr (mem_insert ⟨p, k⟩ L))).2
    simp only [PAGE_LIST_SIZE_eq] at this ⊢
    omega
  have h0 : Inv E M (σ.setRefCnt p (σ.refCnt p - 1)) (insert ⟨p, k⟩ L) := h.congr rfl rfl
  obtain ⟨q, l, σ1, hq, h1, hqL, hl, hz, hr, hs⟩ := h0.coalesce hL hk
  refine ⟨Page.pageInsert q l σ1, ?_, h1.pageInsert hqL hz, ?_, fun b hb hbits' => ?_⟩
  · have hpos : 0 < σ.refCnt p ∧ σ.sizeBits p = ARCH_ADDRESS_WIDTH_BITS := ⟨by omega, hbits⟩
    rw [_pagesFree, hf, pfnToPage_of_present hpres]
    simp only [if_pos hpos, show ¬σ.refCnt p - 1 ≠ 0 by omega, if_false, hq, bind_some,
      if_pos hl]
  · simp [Page.pageInsert, hr, href]
  · rw [sizeBits_pageInsert, if_neg (h1.head_ne hqL hb)]
    rcases hs b.head with hb' | hb'
    · rw [hb']
      exact hbits'
    · exact hb'

/-- `_pages_free` with references left only counts down. -/
theorem _pagesFree_more (h : Inv E M σ L) (hp : ⟨p, k⟩ ∈ L) {f : ℕ} (hf : groupHead f k = p)
    (href : 1 < σ.refCnt p) (hbits : σ.sizeBits p = ARCH_ADDRESS_WIDTH_BITS) :
    _pagesFree E f k σ = some (0, σ.setRefCnt p (σ.refCnt p - 1)) := by
  have hpos : 0 < σ.refCnt p ∧ σ.sizeBits p = ARCH_ADDRESS_WIDTH_BITS := ⟨by omega, hbits⟩
  rw [_pagesFree, hf, pfnToPage_of_present (h.head_present (.inr hp))]
  simp only [if_pos hpos, show σ.refCnt p - 1 ≠ 0 by omega, ne_eq, not_false_eq_true, if_true]

theorem findZone_mem {zone : Zone} {level : ℕ} (hf : findZone E zone level σ = some p) :
    p ∈ σ.pageList level := List.mem_of_find?_eq_some hf

theorem searchLevel_mem {zone : Zone} {n level l : ℕ}
    (hf : searchLevel E zone σ n level = some (p, l)) : level ≤ l ∧ p ∈ σ.pageList l := by
  induction n generalizing level with
  | zero => simp [searchLevel] at hf
  | succ n ih =>
    rw [searchLevel] at hf
    split at hf
    · rename_i q hq
      cases hf
      exact ⟨le_rfl, findZone_mem hq⟩
    · obtain ⟨hle, hin⟩ := ih hf
      exact ⟨by omega, hin⟩

theorem findZone_none {zone : Zone} {level : ℕ} (hf : findZone E zone level σ = none)
    (hp : p ∈ σ.pageList level) : pageIsZone E p zone = false := by
  simpa using List.find?_eq_none.1 hf p hp

/-- The search fails only if no level up to its end has a page of the zone. -/
theorem searchLevel_none {zone : Zone} {n level l : ℕ} (hf : searchLevel E zone σ n level = none)
    (hle : level ≤ l) (hlt : l < level + n) (hp : p ∈ σ.pageList l) : pageIsZone E p zone =
    false := by
  induction n generalizing level with
  | zero => omega
  | succ n ih =>
    rw [searchLevel] at hf
    split at hf
    · simp at hf
    · rename_i hnone
      rcases hle.eq_or_lt with rfl | hlt'
      · exact findZone_none hnone hp
      · exact ih hf (by omega) (by omega)

section
variable (h : Inv E M σ L)
include h

/-- **`_pages_alloc`.**  Either no block of the order or above is free in the zone and nothing
changes, or the block returned has been taken out of the free blocks, with one reference. -/
theorem _pagesAlloc {o : ℕ} (ho : o < PAGE_LIST_SIZE) (zone : Zone) :
    (Page._pagesAlloc E o zone σ = some (none, σ) ∧
      ∀ l, o ≤ l → ∀ p ∈ σ.pageList l, pageIsZone E p zone = false) ∨
      ∃ q σ', Page._pagesAlloc E o zone σ = some (some q, σ') ∧ Inv E M σ' (insert ⟨q, o⟩ L) ∧
        ⟨q, o⟩ ∉ L ∧ σ'.sizeBits q = ARCH_ADDRESS_WIDTH_BITS ∧ σ'.refCnt = update σ.refCnt q 1 ∧
        ∀ b ∈ L, σ'.sizeBits b.head = σ.sizeBits b.head := by
  have hsome : ∀ p l, p ∈ σ.pageList l → o ≤ l → ∃ σ1 q σ2, Page.pageRemove p l σ = some σ1 ∧
      Page.split E o (l - o) p σ1 = some (q, σ2) ∧ Inv E M (σ2.claim q) (insert ⟨q, o⟩ L) ∧
      ⟨q, o⟩ ∉ L ∧ (σ2.claim q).sizeBits q = ARCH_ADDRESS_WIDTH_BITS ∧
      (σ2.claim q).refCnt = update σ.refCnt q 1 ∧
      ∀ b ∈ L, (σ2.claim q).sizeBits b.head = σ.sizeBits b.head := by
    intro p l hp hle
    obtain ⟨σ1, hσ1, h1, hr1, hs1⟩ := h.pageRemove hp
    have hpL : (⟨p, l⟩ : Block) ∉ L := fun hL => h.apart _ hL hp
    have hol : o + (l - o) = l := by omega
    obtain ⟨q, σ2, hσ2, h2, hqL, hr2, hs2⟩ := split (by rw [hol]; exact h1) (by rw [hol]; exact hpL)
    refine ⟨σ1, q, σ2, hσ1, hσ2, h2.claim (mem_insert _ _), hqL, by simp [State.claim], ?_,
      fun b hb => ?_⟩
    · simp [State.claim, hr2, hr1]
    · have hne : b.head ≠ q := h2.head_ne hqL hb
      have hne' : b.head ≠ p := h1.head_ne hpL hb
      simp only [State.claim, setRefCnt_sizeBits, setSizeBits_sizeBits, update_of_ne hne]
      rw [hs2 b hb, hs1, update_of_ne hne']
  rw [Page._pagesAlloc, if_neg (by omega)]
  cases hf : findZone E zone o σ with
  | some p =>
    obtain ⟨σ1, q, σ2, hσ1, hσ2, hrest⟩ := hsome p o (findZone_mem hf) le_rfl
    rw [Nat.sub_self, Page.split] at hσ2
    cases hσ2
    exact .inr ⟨p, σ1.claim p, by simp [hσ1], hrest⟩
  | none =>
    cases hs : searchLevel E zone σ (PAGE_LIST_SIZE - (o + 1)) (o + 1) with
    | none =>
      refine .inl ⟨rfl, fun l hl p hp => ?_⟩
      have hlt := (h.listed l p hp).1
      rcases hl.eq_or_lt with rfl | hl
      · exact findZone_none hf hp
      · exact searchLevel_none hs hl (by omega) hp
    | some pl =>
      obtain ⟨p, l⟩ := pl
      obtain ⟨hle, hin⟩ := searchLevel_mem hs
      obtain ⟨σ1, q, σ2, hσ1, hσ2, hrest⟩ := hsome p l hin (by omega)
      exact .inr ⟨q, σ2.claim q, by simp [hσ1, hσ2], hrest⟩

section
variable (hal : 2 ^ k ∣ p) (hdis : Disjoint (frames ⟨p, k⟩) M)
  (hpres : ∀ f ∈ frames ⟨p, k⟩, E.present f = true)
include hal hdis hpres

/-- A new block in hand, outside the pages managed so far. -/
theorem giveClaim :
    Inv E (M ∪ frames ⟨p, k⟩) (σ.claim p) (insert ⟨p, k⟩ L) ∧ (⟨p, k⟩ : Block) ∉ L := by
  have hpM : p ∉ M := disjoint_left.1 hdis (head_mem_frames ⟨p, k⟩)
  have hout : ∀ c ∈ σ.freeBlocks ∪ L, c.head ≠ p := by
    rintro c hc rfl
    exact hpM (h.tiles.frames_subset hc c.head_mem_frames)
  have hL : (⟨p, k⟩ : Block) ∉ L := fun hb => hout _ (.inr hb) rfl
  have hinv : Inv E (M ∪ frames ⟨p, k⟩) σ (insert ⟨p, k⟩ L) := by
    refine ⟨?_, ?_, ?_, h.nodup, h.listed, h.marked, h.merged⟩
    · rw [union_insert]
      exact h.tiles.insert hal hdis
    · rintro c (rfl | hc)
      · exact fun hf => hout _ (.inl hf) rfl
      · exact h.apart c hc
    · rintro f (hf | hf)
      · exact h.present f hf
      · exact hpres f hf
  exact ⟨hinv.claim (mem_insert _ _), hL⟩

/-- **Handing one block to the lists.** -/
theorem giveBlock : ∃ σ', Page.giveBlock E p k σ = some σ' ∧ Inv E (M ∪ frames ⟨p, k⟩) σ' L := by
  obtain ⟨h1, hL⟩ := h.giveClaim hal hdis hpres
  obtain ⟨σ', hσ', h', -, -⟩ := h1._pagesFree_last hL (Nat.div_mul_cancel hal)
    (by simp [State.claim]) (by simp [State.claim])
  refine ⟨σ', ?_, h'⟩
  rw [Page.giveBlock, pfnToPage_of_present (hpres p (head_mem_frames ⟨p, k⟩))]
  simp [hσ']

end

/-- **`set_page_free`.**  Whatever way the zone test cuts the block, its pages are
added to the pages managed. -/
theorem setPageFree (hal : 2 ^ k ∣ p) (hk : k ≤ 30) (hdis : Disjoint (frames ⟨p, k⟩) M)
    (hpres : ∀ f ∈ frames ⟨p, k⟩, E.present f = true) :
    ∃ σ', Page.setPageFree E k (p <<< PAGE_SIZE_SHIFT) σ = some σ' ∧
      Inv E (M ∪ frames ⟨p, k⟩) σ' L := by
  induction k generalizing p M σ with
  | zero =>
    rw [setPageFree_zero (hpres p (head_mem_frames ⟨p, 0⟩))]
    exact h.giveBlock hal hdis hpres
  | succ k ih =>
    rw [setPageFree_succ (by omega) hpres]
    split_ifs with hz
    · exact h.giveBlock hal hdis hpres
    · have hhalf := frames_halves p k
      rw [hhalf, disjoint_union_left] at hdis
      have hal' : 2 ^ k ∣ p := dvd_trans (pow_dvd_pow 2 (le_succ k)) hal
      obtain ⟨σ1, hσ1, h1⟩ := ih h hal' (by omega) hdis.1 fun f hf => hpres f (hhalf ▸ .inl hf)
      have hdis2 : Disjoint (frames ⟨p + 2 ^ k, k⟩) (M ∪ frames ⟨p, k⟩) :=
        disjoint_union_right.2 ⟨hdis.2, (disjoint_halves p k).symm⟩
      obtain ⟨σ2, hσ2, h2⟩ := ih h1 (Nat.dvd_add hal' dvd_rfl) (by omega) hdis2
        fun f hf => hpres f (hhalf ▸ .inr hf)
      refine ⟨σ2, ?_, ?_⟩
      · rw [hσ1, bind_some, hσ2]
      · rw [hhalf, ← union_assoc]
        exact h2

end

end Inv

end Intewell.Page
