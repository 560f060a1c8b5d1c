/-
# The invariant of the buddy lists

The pages handed to the allocator are tiled by the free blocks, read off
`page_list`, and the blocks held outside the lists (`Inv`).  The second kind is
the allocated blocks, and, inside `_pages_free` and `_pages_alloc`, the one block
in hand that has been taken off a list and not yet put on one.

Each list operation moves one tile between the two kinds (`Inv.pageRemove`,
`Inv.pageInsert`), and the two loops cut or glue the tile in hand
(`Inv.split`, `Inv.coalesce`).
-/

import Intewell.Page.Basic

namespace Intewell.Page

open State Set Function Aligned Block Nat

theorem PAGE_LIST_SIZE_eq : PAGE_LIST_SIZE = 52 := rfl

/-- On frames with a descriptor, `buddy_get` flips bit `size_bits` of the frame
number. -/
theorem buddyGet_eq (E : Env) {p k : ℕ} (hp : p < 2 ^ 36) (hk : k < PAGE_LIST_SIZE) :
    buddyGet E p k = pfnToPage E (buddy p k) := by
  rw [PAGE_LIST_SIZE_eq] at hk
  have h1 : pageToAddr p = p <<< 12 := by
    rw [pageToAddr, PAGE_SIZE_SHIFT, shiftLeft_eq]
    exact mod_eq_of_lt (by omega)
  have h2 : 1 <<< (k + 12) % 2 ^ 64 = (2 ^ k) <<< 12 := by
    rw [shiftLeft_eq, shiftLeft_eq, one_mul, ← pow_add]
    exact Nat.mod_eq_of_lt (Nat.pow_lt_pow_right (by omega) (by omega))
  rw [buddyGet, addrToPage, PFN_DOWN, PAGE_SIZE_SHIFT, h1, h2, ← shiftLeft_xor_distrib, buddy,
    shiftLeft_shiftRight]

theorem pfnToPage_eq_some {E : Env} {f p : ℕ} :
    pfnToPage E f = some p ↔ E.present f = true ∧ f = p := by
  unfold pfnToPage
  split_ifs with h <;> simp [h]

theorem pfnToPage_of_present {E : Env} {f : ℕ} (h : E.present f = true) : pfnToPage E f = some f :=
  pfnToPage_eq_some.2 ⟨h, rfl⟩

/-- A block of frames with descriptors lies below frame `2^36`, so its order is below
`PAGE_LIST_SIZE`. -/
theorem order_lt_of_present {E : Env} {b : Block} (h : ∀ f ∈ b.frames, E.present f = true) :
    b.head < 2 ^ 36 ∧ b.order < 37 := by
  have hlast : b.head + 2 ^ b.order - 1 ∈ b.frames := by
    have := Nat.two_pow_pos b.order
    rw [mem_frames]
    omega
  have h1 := E.present_lt _ (h _ b.head_mem_frames)
  have h2 := E.present_lt _ (h _ hlast)
  refine ⟨h1, ?_⟩
  by_contra hge
  have : 2 ^ 37 ≤ 2 ^ b.order := Nat.pow_le_pow_right (by omega) (by omega)
  omega

/-- The blocks on the lists. -/
def State.freeBlocks (σ : State) : Set Block := {b | b.head ∈ σ.pageList b.order}

theorem mem_freeBlocks {σ : State} {p k : ℕ} : ⟨p, k⟩ ∈ σ.freeBlocks ↔ p ∈ σ.pageList k := Iff.rfl

theorem mem_pageList_pageInsert {σ : State} {p k q j : ℕ} :
    q ∈ (pageInsert p k σ).pageList j ↔ (q = p ∧ j = k) ∨ q ∈ σ.pageList j := by
  by_cases hj : j = k
  · subst hj
    simp [pageInsert]
  · simp [pageInsert, hj]

theorem sizeBits_pageInsert (σ : State) (p k q : ℕ) :
    (pageInsert p k σ).sizeBits q = if q = p then k else σ.sizeBits q := by
  simp [pageInsert, update_apply]

/-- The free blocks and the blocks `L` tile `M`; a page carries a list level as
`size_bits` exactly when it heads a block on that list; no two buddies of one
zone are both free. -/
structure Inv (E : Env) (M : Set ℕ) (σ : State) (L : Set Block) : Prop where
  tiles : Tiles (σ.freeBlocks ∪ L) M
  apart : ∀ b ∈ L, b ∉ σ.freeBlocks
  present : ∀ f ∈ M, E.present f = true
  nodup : ∀ k, (σ.pageList k).Nodup
  listed : ∀ k, ∀ p ∈ σ.pageList k, k < PAGE_LIST_SIZE ∧ σ.sizeBits p = k
  marked : ∀ p, σ.sizeBits p < PAGE_LIST_SIZE → p ∈ σ.pageList (σ.sizeBits p)
  merged : ∀ k, ∀ p ∈ σ.pageList k, buddy p k ∈ σ.pageList k →
    pageIsZone E (buddy p k) .normal ≠ pageIsZone E p .normal

namespace Inv

variable {E : Env} {M : Set ℕ} {σ : State} {L : Set Block} {p k : ℕ}

section
variable (h : Inv E M σ L)
include h

/-- The invariant reads the lists and the `size_bits` only. -/
theorem congr {σ' : State} (hs : σ'.sizeBits = σ.sizeBits) (hl : σ'.pageList = σ.pageList) :
    Inv E M σ' L := by
  have hf : σ'.freeBlocks = σ.freeBlocks := by
    unfold State.freeBlocks
    rw [hl]
  refine ⟨hf ▸ h.tiles, hf ▸ h.apart, h.present, ?_, ?_, ?_, ?_⟩
  · rw [hl]; exact h.nodup
  · rw [hl, hs]; exact h.listed
  · rw [hl, hs]; exact h.marked
  · rw [hl]; exact h.merged

theorem order_lt {b : Block} (hb : b ∈ σ.freeBlocks ∪ L) : b.head < 2 ^ 36 ∧ b.order < 37 :=
  order_lt_of_present fun f hf => h.present f (h.tiles.frames_subset hb hf)

theorem not_mem_list (hL : ⟨p, k⟩ ∈ L) (j : ℕ) : p ∉ σ.pageList j := by
  intro hj
  have heq := h.tiles.eq_of_head_mem (b := ⟨p, j⟩) (.inl hj) (.inr hL) (head_mem_frames ⟨p, k⟩)
  exact h.apart _ hL (heq ▸ hj)

theorem pageRemove (hp : p ∈ σ.pageList k) :
    ∃ σ', Page.pageRemove p k σ = some σ' ∧ Inv E M σ' (insert ⟨p, k⟩ L) ∧ σ'.refCnt = σ.refCnt ∧
      σ'.sizeBits = update σ.sizeBits p ARCH_ADDRESS_WIDTH_BITS := by
  obtain ⟨σ', hσ', hr, hs, hnd⟩ : ∃ σ', Page.pageRemove p k σ = some σ' ∧ σ'.refCnt = σ.refCnt ∧
      σ'.sizeBits = update σ.sizeBits p ARCH_ADDRESS_WIDTH_BITS ∧
      ∀ j, (σ'.pageList j).Nodup := by
    refine ⟨_, if_pos hp, rfl, rfl, fun j => ?_⟩
    by_cases hj : j = k
    · subst hj
      simpa using (h.nodup j).erase p
    · simpa [hj] using h.nodup j
  have hmem {q j : ℕ} : q ∈ σ'.pageList j ↔ q ∈ σ.pageList j ∧ (q ≠ p ∨ j ≠ k) := by
    obtain rfl := Option.some.inj (hσ'.symm.trans (if_pos hp))
    by_cases hj : j = k
    · subst hj
      simp [(h.nodup j).mem_erase_iff, and_comm]
    · simp [hj]
  have hne : ∀ q j, q ∈ σ'.pageList j → q ≠ p := by
    rintro q j hq rfl
    have := (h.listed j q (hmem.1 hq).1).2.symm.trans (h.listed k q hp).2
    exact (hmem.1 hq).2.elim (absurd rfl) (absurd this)
  have hfree : σ'.freeBlocks ∪ insert ⟨p, k⟩ L = σ.freeBlocks ∪ L := by
    ext ⟨q, j⟩
    simp only [mem_union, mem_insert_iff, mem_freeBlocks, hmem, Block.mk.injEq]
    constructor
    · rintro (⟨hq, -⟩ | ⟨rfl, rfl⟩ | hq)
      · exact .inl hq
      · exact .inl hp
      · exact .inr hq
    · rintro (hq | hq)
      · by_cases he : q = p ∧ j = k
        · exact .inr (.inl he)
        · exact .inl ⟨hq, not_and_or.1 he⟩
      · exact .inr (.inr hq)
  refine ⟨σ', hσ', ⟨hfree ▸ h.tiles, ?_, h.present, hnd, ?_, ?_, ?_⟩, hr, hs⟩
  · rintro ⟨q, j⟩ (hb | hb) hq
    · exact hne q j hq (Block.mk.inj hb).1
    · exact h.apart _ hb (hmem.1 hq).1
  · intro j q hq
    rw [hs, update_of_ne (hne q j hq)]
    exact h.listed j q (hmem.1 hq).1
  · intro q hq
    by_cases he : q = p
    · rw [hs, he, update_self] at hq
      exact absurd hq (by decide)
    · rw [hs, update_of_ne he] at hq ⊢
      exact hmem.2 ⟨h.marked q hq, .inl he⟩
  · intro j q hq hb
    exact h.merged j q (hmem.1 hq).1 (hmem.1 hb).1

end

/-- `page_insert` puts the block in hand on its list, where no free buddy of its
zone is on it. -/
theorem pageInsert (h : Inv E M σ (insert ⟨p, k⟩ L)) (hL : ⟨p, k⟩ ∉ L)
    (hz : buddy p k ∈ σ.pageList k → pageIsZone E (buddy p k) .normal ≠ pageIsZone E p .normal) :
    Inv E M (Page.pageInsert p k σ) L := by
  have hin : (⟨p, k⟩ : Block) ∈ insert ⟨p, k⟩ L := mem_insert _ _
  have hk : k < PAGE_LIST_SIZE := lt_trans (h.order_lt (.inr hin)).2 (by decide)
  have hnot := h.not_mem_list hin
  have hfree : (Page.pageInsert p k σ).freeBlocks ∪ L = σ.freeBlocks ∪ insert ⟨p, k⟩ L := by
    ext ⟨q, j⟩
    simp only [mem_union, mem_insert_iff, mem_freeBlocks, mem_pageList_pageInsert, Block.mk.injEq]
    rw [or_comm (a := q = p ∧ j = k), or_assoc]
  refine ⟨hfree ▸ h.tiles, ?_, h.present, ?_, ?_, ?_, ?_⟩
  · rintro ⟨q, j⟩ hb hq
    rcases mem_pageList_pageInsert.1 hq with ⟨hqp, hjk⟩ | hq
    · simp only at hqp hjk
      rw [hqp, hjk] at hb
      exact hL hb
    · exact h.apart _ (mem_insert_of_mem _ hb) hq
  · intro j
    by_cases hj : j = k
    · subst hj
      simpa [Page.pageInsert] using ⟨hnot j, h.nodup j⟩
    · simpa [Page.pageInsert, hj] using h.nodup j
  · intro j q hq
    rw [sizeBits_pageInsert]
    rcases mem_pageList_pageInsert.1 hq with ⟨rfl, rfl⟩ | hq
    · exact ⟨hk, if_pos rfl⟩
    · have hne : q ≠ p := fun he => hnot j (he ▸ hq)
      rw [if_neg hne]
      exact h.listed j q hq
  · intro q hq
    rw [sizeBits_pageInsert] at hq ⊢
    rw [mem_pageList_pageInsert]
    split_ifs at hq ⊢ with he
    · exact .inl ⟨he, rfl⟩
    · exact .inr (h.marked q hq)
  · intro j q hq hb
    rcases mem_pageList_pageInsert.1 hq with ⟨rfl, rfl⟩ | hq1
    · rcases mem_pageList_pageInsert.1 hb with ⟨hbp, -⟩ | hb1
      · exact absurd hbp (buddy_ne _ _)
      · exact hz hb1
    · rcases mem_pageList_pageInsert.1 hb with ⟨hbp, rfl⟩ | hb1
      · have hq' : q = buddy p j := by rw [← hbp, buddy_buddy]
        rw [hbp, hq']
        exact (hz (hq' ▸ hq1)).symm
      · exact h.merged j q hq1 hb1

/-- Two buddies in hand are one block in hand. -/
theorem glue (h : Inv E M σ (insert ⟨buddy p k, k⟩ (insert ⟨p, k⟩ L))) (hp : ⟨p, k⟩ ∉ L)
    (hb : ⟨buddy p k, k⟩ ∉ L) :
    Inv E M σ (insert ⟨min p (buddy p k), k + 1⟩ L) ∧ ⟨min p (buddy p k), k + 1⟩ ∉ L := by
  set b := buddy p k with hbdef
  have hpin : (⟨p, k⟩ : Block) ∈ insert ⟨b, k⟩ (insert ⟨p, k⟩ L) := .inr (.inl rfl)
  have hbin : (⟨b, k⟩ : Block) ∈ insert ⟨b, k⟩ (insert ⟨p, k⟩ L) := .inl rfl
  have hal : 2 ^ k ∣ p := h.tiles.aligned _ (.inr hpin)
  have hsub : frames ⟨p, k⟩ ⊆ frames ⟨min p b, k + 1⟩ := by
    rw [frames_merge hal]
    exact subset_union_left
  have hnew : ∀ c ∈ σ.freeBlocks ∪ insert ⟨b, k⟩ (insert ⟨p, k⟩ L), c ≠ ⟨min p b, k + 1⟩ := by
    rintro c hc rfl
    have := h.tiles.eq_of_mem hc (.inr hpin) (hsub (head_mem_frames _)) (head_mem_frames _)
    simp at this
  have hpf : (⟨p, k⟩ : Block) ∉ σ.freeBlocks := h.apart _ hpin
  have hbf : (⟨b, k⟩ : Block) ∉ σ.freeBlocks := h.apart _ hbin
  refine ⟨⟨h.tiles.merge (.inr hpin) (.inr hbin) ?_, ?_, h.present, h.nodup, h.listed,
    h.marked, h.merged⟩, fun hL => hnew _ (.inr (.inr (.inr hL))) rfl⟩
  · ext c
    simp only [mem_union, mem_insert_iff, mem_sdiff, mem_singleton_iff]
    constructor
    · rintro (hc | rfl | hc)
      · refine .inl ⟨.inl hc, ?_⟩
        rintro (rfl | rfl)
        · exact hpf hc
        · exact hbf hc
      · exact .inr rfl
      · refine .inl ⟨.inr (.inr (.inr hc)), ?_⟩
        rintro (rfl | rfl)
        · exact hp hc
        · exact hb hc
    · tauto
  · rintro c (rfl | hc)
    · exact fun hf => hnew _ (.inl hf) rfl
    · exact h.apart c (.inr (.inr hc))

/-- A block in hand may be cut into its halves. -/
theorem cut (h : Inv E M σ (insert ⟨p, k + 1⟩ L)) (hL : ⟨p, k + 1⟩ ∉ L) :
    Inv E M σ (insert ⟨p, k⟩ (insert ⟨buddy p k, k⟩ L)) ∧
      ⟨p, k⟩ ∉ insert (⟨buddy p k, k⟩ : Block) L ∧ (⟨buddy p k, k⟩ : Block) ∉ L := by
  have hin : (⟨p, k + 1⟩ : Block) ∈ insert ⟨p, k + 1⟩ L := mem_insert _ _
  have hal : 2 ^ (k + 1) ∣ p := h.tiles.aligned _ (.inr hin)
  have hbud : buddy p k = p + 2 ^ k := buddy_of_dvd_succ hal
  have hhalf := frames_halves p k
  have hnew : ∀ c ∈ σ.freeBlocks ∪ insert ⟨p, k + 1⟩ L, c ≠ ⟨p, k⟩ ∧ c ≠ ⟨buddy p k, k⟩ := by
    intro c hc
    constructor <;> rintro rfl
    · have := h.tiles.eq_of_mem hc (.inr hin) (head_mem_frames _)
        (hhalf ▸ .inl (head_mem_frames ⟨p, k⟩))
      simp at this
    · have := h.tiles.eq_of_mem hc (.inr hin) (head_mem_frames _)
        (by rw [hhalf, hbud]; exact .inr (head_mem_frames ⟨p + 2 ^ k, k⟩))
      simp at this
  have hbL : (⟨buddy p k, k⟩ : Block) ∉ L := fun hb => (hnew _ (.inr (.inr hb))).2 rfl
  refine ⟨⟨h.tiles.split (.inr hin) ?_, ?_, h.present, h.nodup, h.listed, h.marked, h.merged⟩,
    ?_, hbL⟩
  · rw [← hbud]
    have hf : (⟨p, k + 1⟩ : Block) ∉ σ.freeBlocks := h.apart _ hin
    ext c
    simp only [mem_union, mem_insert_iff, mem_sdiff, mem_singleton_iff]
    constructor
    · rintro (hc | rfl | rfl | hc)
      · exact .inl ⟨.inl hc, fun he => hf (he ▸ hc)⟩
      · exact .inr (.inl rfl)
      · exact .inr (.inr rfl)
      · exact .inl ⟨.inr (.inr hc), fun he => hL (he ▸ hc)⟩
    · tauto
  · rintro c (rfl | rfl | hc) hf
    · exact (hnew _ (.inl hf)).1 rfl
    · exact (hnew _ (.inl hf)).2 rfl
    · exact h.apart c (.inr hc) hf
  · rintro (hb | hb)
    · rw [Block.mk.injEq] at hb
      exact buddy_ne p k hb.1.symm
    · exact (hnew _ (.inr (.inr hb))).1 rfl

end Inv

end Intewell.Page
