/-
# Whole runs of the kmalloc family

A step is one of the calls, with any answer of the page allocator that is a block
of the order asked for, apart from the slab pages and from the blocks that are
held, or a change of the memory that leaves the free objects alone.

A size above `2 ^ 63` has an order that is no index of `page_list`, and the shift
in `ksize` is undefined for a block above `2 ^ 30`.
-/

import Intewell.Slub.Held

namespace Intewell.Slub

open Origin Nat Option Function State
open Bytes (Mem load store copy)
open Page (pageToAddr pageAddress addrToPage pfnToPage PAGE_SIZE_SHIFT PAGE_LIST_SIZE)

variable {κ : Type} [DecidableEq κ]

/-- Where a request is served from. -/
def originOf (size : ℕ) (pg : Option ℕ) : Origin :=
  if size < 8 <<< 8 then .slab ((classOf size).getD 0) else .pages (pg.getD 0) (pageBits size)

/-- The requests that are served: a block of the order has at most `2 ^ 30` bytes,
or the order is an index of `page_list` and the page allocator has no block. -/
def Admitted (size : ℕ) (pg : Option ℕ) : Prop := size ≤ 2 ^ 30 ∨ (size ≤ 2 ^ 63 ∧ pg = none)

/-- The bytes of the held blocks are as before. -/
def Spared (w : World κ) (st' : State (Fin 9) κ) : Prop :=
  ∀ ptr b, w.live ptr = some b → ∀ a, ptr ≤ a → a < ptr + b.origin.capacity → st'.mem a = w.st.mem a

section

variable {E : Env} {w : World κ} {ptr size p : ℕ} {pg : Option ℕ} {b : Held}

omit [DecidableEq κ] in
theorem Answer.fresh {order : ℕ} (h : Answer E w order pg) : Fresh E w.st pg := fun p hp => by
  obtain ⟨-, hblock, hfree⟩ := h p hp
  exact ⟨hblock.head, (hfree p le_rfl (by simp)).1⟩

theorem KInv.kmalloc_slab (h : KInv E w) (k : κ) (hpos : 0 < size) (hsmall : size < 8 <<< 8)
    {order : ℕ}
    (hpg : Answer E w order pg) : ∃ r st', kmalloc E k size pg w.st = some (r, st') ∧ Spared w st' ∧
      ((r = 0 ∧ KInv E ⟨st', w.live⟩) ∨ (w.live r = none ∧
          KInv E ⟨st', update w.live r (some ⟨originOf size pg, size⟩)⟩)) := by
  have hsome : (classOf size).isSome := by
    rw [classOf, List.find?_isSome]
    exact ⟨8, List.mem_finRange 8, decide_eq_true hsmall.le⟩
  obtain ⟨c, hc⟩ := isSome_iff_exists.1 hsome
  have hfit : size ≤ 8 <<< c.val := by simpa using List.find?_some hc
  obtain ⟨L, place, hinv⟩ := h.slabs
  obtain ⟨r, st', hcall, hkept, halloc⟩ := hinv.kmemCacheAlloc_spec c k hpg.fresh
  have hframe : ∀ ptr b, w.live ptr = some b → ∀ f ∈ b.origin.frames, st'.page f = w.st.page f :=
    fun ptr b hl f hf => hkept.page f (h.notSlab ptr b hl f hf) fun hp =>
      ((hpg f hp).2.2 f le_rfl (by simp)).2 ptr b hl hf
  refine ⟨r, st', ?_, fun ptr b hl a ha ha' => ?_, ?_⟩
  · rw [kmalloc, if_neg hpos.ne', if_pos hsmall, hc]
    exact hcall
  · refine hkept.mem a fun hgiven => ?_
    obtain ⟨q, hq, hlo, hhi⟩ := hgiven
    obtain ⟨-, hblock, hfree⟩ := hpg q hq
    obtain ⟨hslab, hout⟩ := hfree q le_rfl (by simp)
    have hd := h.apart_given hl hblock.head hslab (hout ptr b hl)
    omega
  obtain ⟨hr, L', place', hinv'⟩ | ⟨hr, hnew, L', place', hinv'⟩ := halloc
  · exact .inl ⟨hr, h.next ⟨L', place', hinv'⟩ hkept.shape h.fits fun ptr p order n hl =>
      ⟨⟨n, hl⟩, hframe ptr _ hl⟩⟩
  have hnone : w.live r = none := by
    obtain ⟨q, hslot⟩ := ((hinv'.objects.mem_live c r).1 (mem_hold.2 (.inl ⟨rfl, rfl⟩))).1
    by_contra hsome
    obtain ⟨⟨origin, n⟩, hl⟩ := ne_none_iff_exists'.1 hsome
    cases origin with
    | slab c' => exact hnew c' ⟨n, hl⟩
    | pages p order =>
      -- the object would lie in the first page of the block, which is no slab page
      obtain ⟨rfl, hblock, -, -⟩ := h.block r p order n hl
      have hq := hinv'.shape.ptrToPage_slot hslot
      rw [hblock.ptrToPage] at hq
      obtain rfl := some.inj hq
      have hmem : p ∈ (pages p order).frames := ⟨le_rfl, by simp⟩
      have hno := h.notSlab _ _ hl p hmem
      rw [← hframe _ _ hl p hmem, hslot.1] at hno
      simp at hno
  refine .inr ⟨hnone, ?_⟩
  have horigin : originOf size pg = .slab c := by simp only [originOf, if_pos hsmall, hc, getD_some]
  rw [horigin]
  refine h.next (by rw [objectsOf_hold hnew]; exact ⟨L', place', hinv'⟩) hkept.shape
    (fun ptr b hl => ?_) fun ptr p order n hl => ?_
  · rcases update_eq_some.1 hl with ⟨-, rfl⟩ | ⟨-, hl⟩
    · exact ⟨hpos, hfit⟩
    · exact h.fits ptr b hl
  · rcases update_eq_some.1 hl with ⟨-, hb⟩ | ⟨-, hl⟩
    · simp at hb
    · exact ⟨⟨n, hl⟩, hframe ptr _ hl⟩

section
variable (s : State (Fin 9) κ) (k : κ) (hlarge : ¬size < 8 <<< 8)
  (horder : pageBits size < PAGE_LIST_SIZE)
include s k hlarge horder

/-- The address of a block, as `kmalloc` computes it. -/
theorem kmalloc_pages (hp : p ≠ 0) (hblock : IsBlock E p (pageBits size)) :
    kmalloc E k size (some p) s = some (E.base p, s.setPage p (markBlock (pageBits size))) := by
  have hlt := E.present_lt p hblock.head.1
  have haddr : pageToAddr p = p * 4096 := by
    simp only [pageToAddr, PAGE_SIZE_SHIFT, shiftLeft_eq]
    omega
  have hpage : addrToPage E.toEnv (pageToAddr p) = some p := by
    simp [addrToPage, haddr, Page.PFN_DOWN, PAGE_SIZE_SHIFT, shiftRight_eq_div_pow, pfnToPage,
      hblock.head.1]
  have hne : pageToAddr p ≠ 0 := by omega
  have hsize : size ≠ 0 := by
    rintro rfl
    exact hlarge (by decide)
  simp only [kmalloc, hsize, hlarge, not_le.2 horder, if_false, map_some, getD_some, hne, hpage]
  rfl

theorem kmalloc_none : kmalloc E k size none s = some (0, s) := by
  simp only [kmalloc, hlarge, not_le.2 horder, if_false, map_none, getD_none, if_true, ite_self]

end

section
variable (h : KInv E w)
include h

section

omit [DecidableEq κ]

theorem KInv.new_block {order : ℕ} (hpg : Answer E w order (some p)) :
    w.live (E.base p) = none := by
  obtain ⟨-, hblock, hfree⟩ := hpg p rfl
  obtain ⟨hslab, hout⟩ := hfree p le_rfl (by simp)
  by_contra hsome
  obtain ⟨b, hl⟩ := ne_none_iff_exists'.1 hsome
  have hd := h.apart_given hl hblock.head hslab (hout _ b hl)
  have hcap := b.origin.capacity_pos
  omega

/-- A large request that the page allocator serves. -/
theorem KInv.hold_block (hpos : 0 < size) (hle : size ≤ 2 ^ 30)
    (hpg : Answer E w (pageBits size) (some p)) :
    KInv E ⟨w.st.setPage p (markBlock (pageBits size)),
      update w.live (E.base p) (some ⟨.pages p (pageBits size), size⟩)⟩ := by
  obtain ⟨hp, hblock, hfree⟩ := hpg p rfl
  have hnone := h.new_block hpg
  have hset := h.setPage (hfree p le_rfl (by simp)).1 (hfree p le_rfl (by simp)).2
    (f := markBlock (pageBits size)) fun _ => ⟨rfl, rfl, rfl⟩
  have hnew : ∀ f ∈ (pages p (pageBits size)).frames, (w.st.page f).slabCache = none ∧
      ∀ ptr b, w.live ptr = some b → f ∉ b.origin.frames := fun f hf => hfree f hf.1 hf.2
  have hcase : ∀ ptr b, update w.live (E.base p) (some ⟨.pages p (pageBits size), size⟩) ptr =
      some b → (ptr = E.base p ∧ b = ⟨.pages p (pageBits size), size⟩) ∨ w.live ptr = some b :=
    fun ptr b hl => (update_eq_some.1 hl).imp_right And.right
  refine ⟨?_, hset.size, fun ptr b hl => ?_, fun ptr q order n hl => ?_, fun ptr b hl f hf => ?_,
    fun ptr b ptr' b' hl hl' hne f hf hf' => ?_⟩
  · rw [objectsOf_update (by simp [hnone]) (by simp)]
    exact hset.slabs
  · rcases hcase ptr b hl with ⟨-, rfl⟩ | hl
    · exact ⟨hpos, le_pageBits hpos.ne'⟩
    · exact h.fits ptr b hl
  · rcases hcase ptr _ hl with ⟨rfl, hb⟩ | hl
    · simp only [Held.mk.injEq, pages.injEq] at hb
      obtain ⟨⟨rfl, rfl⟩, rfl⟩ := hb
      exact ⟨rfl, hblock, (pageBits_le_iff hpos.ne').2 hle, by simp [markBlock]⟩
    · exact hset.block ptr q order n hl
  · rcases hcase ptr b hl with ⟨-, rfl⟩ | hl
    · rw [setPage_keeps _ _ _ _ (·.slabCache) rfl]
      exact (hnew f hf).1
    · exact hset.notSlab ptr b hl f hf
  · rcases hcase ptr b hl with ⟨hptr, rfl⟩ | hl <;> rcases hcase ptr' b' hl' with ⟨hptr', rfl⟩ | hl'
    · exact hne (hptr.trans hptr'.symm)
    · exact (hnew f hf).2 ptr' b' hl' hf'
    · exact (hnew f hf').2 ptr b hl hf
    · exact h.apart ptr b ptr' b' hl hl' hne f hf hf'

end

/-- **What `kmalloc` does with a request that is admitted.** -/
theorem KInv.kmalloc_spec (k : κ) (hpos : 0 < size) (hpg : Answer E w (pageBits size) pg)
    (hadm : Admitted size pg) : ∃ r st', kmalloc E k size pg w.st = some (r, st') ∧ Spared w st' ∧
      ((r = 0 ∧ KInv E ⟨st', w.live⟩) ∨ (w.live r = none ∧
          KInv E ⟨st', update w.live r (some ⟨originOf size pg, size⟩)⟩)) := by
  by_cases hsmall : size < 8 <<< 8
  · exact h.kmalloc_slab k hpos hsmall hpg
  cases pg with
  | none =>
    have hle : size ≤ 2 ^ (12 + 51) := by
      rcases hadm with hle | ⟨hle, -⟩
      · exact hle.trans (Nat.pow_le_pow_right (by omega) (by omega))
      · exact hle
    have horder : pageBits size < PAGE_LIST_SIZE :=
      lt_of_le_of_lt ((pageBits_le_iff hpos.ne').2 hle) (by decide)
    exact ⟨0, w.st, kmalloc_none w.st k hsmall horder, fun _ _ _ _ _ _ => rfl, .inl ⟨rfl, h⟩⟩
  | some p =>
    have hle : size ≤ 2 ^ 30 := hadm.elim id fun hadm => absurd hadm.2 (by simp)
    have horder : pageBits size < PAGE_LIST_SIZE :=
      lt_of_le_of_lt ((pageBits_le_iff (n := 18) hpos.ne').2 hle) (by decide)
    obtain ⟨hp, hblock, -⟩ := hpg p rfl
    have horigin : originOf size (some p) =
      .pages p (pageBits size) := by simp only [originOf, if_neg hsmall, getD_some]
    rw [horigin]
    exact ⟨E.base p, _, kmalloc_pages w.st k hsmall horder hp hblock, fun _ _ _ _ _ _ => rfl,
      .inr ⟨h.new_block hpg, h.hold_block hpos hle hpg⟩⟩

/-- **A held block goes back to where it came from**, and nothing is written outside of it. -/
theorem KInv.kfree_spec (k : κ) (hl : w.live ptr = some b) :
    ∃ st', kfree E k ptr w.st = some (b.origin.back, st') ∧
      (∀ a, a < ptr ∨ ptr + b.origin.capacity ≤ a → st'.mem a = w.st.mem a) ∧
      (∀ q, (w.st.page q).slabCache = none → q ∉ b.origin.frames → st'.page q = w.st.page q) ∧
      KInv E ⟨st', update w.live ptr none⟩ := by
  obtain ⟨origin, n⟩ := b
  cases origin with
  | slab c =>
    obtain ⟨L, place, hinv⟩ := h.slabs
    obtain ⟨q, hslot⟩ := h.slot hl
    obtain ⟨st', hcall, -, hkept, L', place', hinv'⟩ := hinv.kmemCacheFree_spec k ⟨n, hl⟩
    have hflags := (h.shape.slab q c hslot.1).2.2
    refine ⟨st', ?_, fun a ha => hkept.mem a fun hin => ?_, fun q hq _ => hkept.page q hq (by simp),
      ?_⟩
    · simp [kfree, h.shape.slot_pos hslot, h.shape.ptrToPage_slot hslot, hflags, hslot.1, PG_slab,
        PG_kmalloc, hcall, back]
    · have hcap := h.shape.size_ge c
      rw [(h.size c).1] at hcap
      obtain ⟨hlo, hhi⟩ := hin
      simp only [capacity] at ha
      omega
    · refine h.next (by rw [objectsOf_drop hl]; exact ⟨L', place', hinv'⟩) hkept.shape
        (fun ptr' b' hl' => h.fits ptr' b' (erase_eq_some.1 hl').2) fun ptr' p order m hl' => ?_
      have hold := (erase_eq_some.1 hl').2
      exact ⟨⟨m, hold⟩, fun f hf => hkept.page f (h.notSlab ptr' _ hold f hf) (by simp)⟩
  | pages p order =>
    obtain ⟨rfl, hblock, horder, hflags⟩ := h.block ptr p order n hl
    obtain ⟨hget, hset⟩ := order_get_set
      (lt_of_le_of_lt horder (show 18 < PAGE_LIST_SIZE by decide))
    have hmem : p ∈ (pages p order).frames := ⟨le_rfl, by simp⟩
    refine ⟨w.st.setPage p fun g => { g with flags := 0 }, ?_, fun _ _ => rfl, fun q _ hq => ?_, ?_⟩
    · simp only [kfree, hblock.head.2, hblock.ptrToPage, hflags, hset, hget, ne_eq,
        not_false_eq_true,
        if_true, if_false]
      rfl
    · rw [setPage_page, if_neg]
      rintro rfl
      exact hq hmem
    · refine h.next ?_ (fun _ => rfl) (fun ptr' b' hl' => h.fits ptr' b' (erase_eq_some.1 hl').2)
        fun ptr' p' order' m hl' => ?_
      · rw [objectsOf_update (by simp [hl]) (by simp)]
        refine SysInv.setPage h.slabs (h.notSlab _ _ hl p hmem) ?_
        exact fun _ => ⟨rfl, rfl, rfl⟩
      · obtain ⟨hne, hold⟩ := erase_eq_some.1 hl'
        refine ⟨⟨m, hold⟩, fun f hf => ?_⟩
        rw [setPage_page, if_neg]
        rintro rfl
        exact h.apart ptr' _ _ _ hold hl hne f hf hmem

/-- **What `krealloc` does with a request that is admitted**, or that the block holds already. -/
theorem KInv.krealloc_spec (k : κ) (hl : w.live ptr = some b) (hpos : 0 < size)
    (hpg : Answer E w (pageBits size) pg) (hadm : size ≤ b.origin.capacity ∨ Admitted size pg) :
    ∃ r st', krealloc E k ptr size pg w.st = some (r, st') ∧ ((r = 0 ∧ KInv E ⟨st', w.live⟩) ∨
        ((r = ptr ∨ w.live r = none) ∧ KInv E ⟨st', update (update w.live ptr none) r
            (some ⟨if r = ptr then b.origin else originOf size pg, size⟩)⟩ ∧
          ∀ i < min b.origin.capacity size, st'.mem (r + i) = w.st.mem (ptr + i))) := by
  have hksize := h.ksize_eq hl
  have hptr := h.ne_zero hl
  by_cases hle : size ≤ b.origin.capacity
  · refine ⟨ptr, w.st, by simp [krealloc, hptr, hpos.ne', hksize, hle], .inr ⟨.inl rfl, ?_,
      fun _ _ => rfl⟩⟩
    rw [if_pos rfl, update_idem]
    refine h.next (by rw [objectsOf_resize hl]; exact h.slabs) (fun _ => rfl)
      (fun ptr' b' hl' => ?_)
      fun ptr' p order n hl' => ⟨?_, fun _ _ => rfl⟩
    · rcases update_eq_some.1 hl' with ⟨-, rfl⟩ | ⟨-, hl'⟩
      · exact ⟨hpos, hle⟩
      · exact h.fits ptr' b' hl'
    · rcases update_eq_some.1 hl' with ⟨rfl, hb⟩ | ⟨-, hl'⟩
      · obtain ⟨origin, m⟩ := b
        simp only [Held.mk.injEq] at hb
        exact ⟨m, by rw [hl, ← hb.1]⟩
      · exact ⟨n, hl'⟩
  obtain ⟨r, st1, hcall, hspared, hres⟩ := h.kmalloc_spec k hpos hpg (hadm.resolve_left hle)
  obtain ⟨rfl, hinv⟩ | ⟨hnone, hinv⟩ := hres
  · exact ⟨0, st1, by simp [krealloc, hptr, hpos.ne', hksize, hle, hcall], .inl ⟨rfl, hinv⟩⟩
  have hrptr : r ≠ ptr := by
    rintro rfl
    simp [hl] at hnone
  have hlr : update w.live r (some ⟨originOf size pg, size⟩) r =
    some ⟨originOf size pg, size⟩ := update_self ..
  have hlp : update w.live r (some ⟨originOf size pg, size⟩) ptr = some b := by
    rw [update_of_ne (Ne.symm hrptr), hl]
  have hcap : size ≤ (originOf size pg).capacity := (hinv.fits r _ hlr).2
  have hapart := hinv.apart_live hlr hlp hrptr
  have hcopied := hinv.setMem (m := copy st1.mem r ptr b.origin.capacity)
    fun c q o a ho hfree hlo hhi => by
      have hd := hinv.apart_free hlr ho hfree
      simp only at hd hhi
      exact Bytes.copy_apply_of_not_mem _ (by omega)
  obtain ⟨st2, hfree, hmem, -, hinv2⟩ := hcopied.kfree_spec k hlp
  refine ⟨r, st2, ?_, .inr ⟨.inr hnone, ?_, fun i hi => ?_⟩⟩
  · have hr := hinv.ne_zero hlr
    simp [krealloc, hptr, hpos.ne', hksize, hle, hcall, hr, hfree]
  · rw [if_neg hrptr, update_comm (Ne.symm hrptr)]
    exact hinv2
  · have hi' : i < b.origin.capacity := lt_of_lt_of_le hi (min_le_left _ _)
    simp only at hapart hcap
    rw [hmem (r + i) (by omega)]
    simp only [setMem_mem]
    simpa [copy, hi'] using hspared ptr b hl (ptr + i) (by omega) (by omega)

omit [DecidableEq κ] in
/-- A copy of a held block to a block of `2 ^ 30` bytes or more that is not recorded. -/
theorem KInv.copy_unrecorded {order : ℕ} (hpg : Answer E w order (some p)) (horder : 18 ≤ order)
    (hl : w.live ptr = some b) : KInv E ⟨(w.st.setPage p (markBlock order)).setMem
      (copy w.st.mem (E.base p) ptr b.origin.capacity), w.live⟩ := by
  obtain ⟨-, hblock, hfree⟩ := hpg p rfl
  obtain ⟨hslab, hout⟩ := hfree p le_rfl (by simp)
  have hmark := h.setPage hslab hout (f := markBlock order) fun _ => ⟨rfl, rfl, rfl⟩
  refine hmark.setMem fun c q o a ho _ hlo hhi => ?_
  have hkeep : ((w.st.setPage p (markBlock order)).page q).slabCache = (w.st.page q).slabCache :=
    setPage_keeps _ p q _ (·.slabCache) rfl
  have hq : ¬(p ≤ q ∧ q < p + 2 ^ 18) := fun hq => by
    have hpow : 2 ^ 18 ≤ 2 ^ order := Nat.pow_le_pow_right (by omega) horder
    have hin := (hfree q hq.1 (by omega)).1
    simp only [IsSlot, hkeep, hin] at ho
    simp at ho
  have hd := (hblock.mono horder).apart le_rfl (hmark.shape.slot_usable ho) hq
  have hb := hmark.shape.slot_bounds ho
  have hcap := h.capacity_le hl
  simp only at hhi hb
  exact Bytes.copy_apply_of_not_mem _ (by omega)

end

omit [DecidableEq κ] in
/-- The shift in `ksize` is undefined on a block above `2 ^ 30` bytes. -/
theorem ksize_undefined {s : State (Fin 9) κ} (hblock : IsBlock E p (pageBits size))
    (hflags : (s.page p).flags = PG_order_set PG_kmalloc (pageBits size)) (hlo : 2 ^ 30 < size)
    (hhi : size ≤ 2 ^ 63) : ksize E (E.base p) s = none := by
  have hne : size ≠ 0 := by omega
  have horder : pageBits size < PAGE_LIST_SIZE :=
    lt_of_le_of_lt ((pageBits_le_iff (n := 51) hne).2 hhi) (by decide)
  have hshift : ¬pageBits size + PAGE_SIZE_SHIFT < 31 := fun hlt => by
    have hle : pageBits size ≤ 18 := by simp only [PAGE_SIZE_SHIFT] at hlt; omega
    exact absurd ((pageBits_le_iff hne).1 hle) (by omega)
  obtain ⟨hget, hset⟩ := order_get_set horder
  simp only [ksize, hblock.head.2, hblock.ptrToPage, hflags, hget, hset, hshift, ne_eq,
    not_false_eq_true, if_true, if_false]

/-- A size above `2 ^ 63` has an order that is no index of `page_list`. -/
theorem kmalloc_undefined (E : Env) (s : State (Fin 9) κ) (k : κ) (pg : Option ℕ)
    (hlo : 2 ^ 63 < size) :
    ¬pageBits size < PAGE_LIST_SIZE ∧ kmalloc E k size pg s = none := by
  have hne : size ≠ 0 := by omega
  have hlarge : ¬size < 8 <<< 8 := by
    simp only [shiftLeft_eq]
    omega
  have horder : ¬pageBits size < PAGE_LIST_SIZE := fun hlt =>
    absurd ((pageBits_le_iff hne).1 (le_of_lt_succ hlt)) (by omega)
  exact ⟨horder, by simp only [kmalloc, hne, hlarge, not_lt.1 horder, if_false, if_true]⟩

end

/-- A block serves a request: it is as large as asked for, at every alignment that
divides the size, and goes back to where it came from. -/
def Serves (E : Env) (s : State (Fin 9) κ) (ptr size : ℕ) (origin : Origin) : Prop :=
  (∃ m, ksize E ptr s = some m ∧ size ≤ m) ∧ (∀ j, 2 ^ j ∣ size → 2 ^ j ∣ ptr) ∧
    ∀ k : κ, ∃ s', kfree E k ptr s = some (origin.back, s')

/-- `kmalloc` asks for an order that exists, and the block it returns, if any, serves
the request; `memalign` returns the same block. -/
def MallocGood (E : Env) (w : World κ) (k : κ) (size : ℕ) (pg : Option ℕ) : Prop :=
  (¬size < 8 <<< 8 → pageBits size < PAGE_LIST_SIZE) ∧
    ∃ r st', kmalloc E k size pg w.st = some (r, st') ∧
      (r ≠ 0 → Serves E st' r size (originOf size pg)) ∧
      ∀ j, 2 ^ j ∣ size → kernelAlignedAlloc E k (2 ^ j) size pg w.st = some (r, st') ∧ 2 ^ j ∣ r

/-- `krealloc` of a block of `old` bytes returns `NULL`, or a block of the new size with
the old contents. -/
def ReallocGood (E : Env) (w : World κ) (k : κ) (ptr old size : ℕ) (pg : Option ℕ) : Prop :=
  ∃ r st', krealloc E k ptr size pg w.st = some (r, st') ∧
    (r ≠ 0 → (∃ m, ksize E r st' = some m ∧ size ≤ m) ∧
      ∀ i < min old size, st'.mem (r + i) = w.st.mem (ptr + i))

section

variable {E : Env} {w : World κ} {ptr size p : ℕ} {pg : Option ℕ} {b : Held}

theorem KInv.serves (h : KInv E w) (hoff : 2 ^ 30 ∣ E.pvOffset) (hl : w.live ptr = some b) :
    Serves E w.st ptr b.size b.origin := by
  obtain ⟨hpos, hle⟩ := h.fits ptr b hl
  refine ⟨⟨_, h.ksize_eq hl, hle⟩, fun j hj => ?_, fun k => ?_⟩
  · -- a power of two that divides a size divides the capacity that holds the size
    refine dvd_trans ?_ (h.aligned hoff hl)
    obtain ⟨e, he⟩ := b.origin.capacity_pow
    rw [he] at hle ⊢
    have hje : 2 ^ j ≤ 2 ^ e := (le_of_dvd hpos hj).trans hle
    exact pow_dvd_pow 2 ((Nat.pow_le_pow_iff_right (by norm_num)).1 hje)
  · obtain ⟨st', hfree, -⟩ := h.kfree_spec k hl
    exact ⟨st', hfree⟩

theorem KInv.mallocGood_iff (h : KInv E w) (hoff : 2 ^ 30 ∣ E.pvOffset) (k : κ) (hpos : 0 < size)
    (hpg : Answer E w (pageBits size) pg) : MallocGood E w k size pg ↔ Admitted size pg := by
  constructor
  · rintro ⟨horder, r, st', hcall, hserves, -⟩
    by_contra hadm
    simp only [Admitted, not_or, not_and, not_le] at hadm
    obtain ⟨hlo, hhi⟩ := hadm
    have hlarge : ¬size < 8 <<< 8 := by
      simp only [shiftLeft_eq]
      omega
    by_cases hle : size ≤ 2 ^ 63
    · obtain ⟨p, rfl⟩ := ne_none_iff_exists'.1 (hhi hle)
      obtain ⟨hp, hblock, -⟩ := hpg p rfl
      rw [kmalloc_pages w.st k hlarge (horder hlarge) hp hblock] at hcall
      cases hcall
      obtain ⟨⟨m, hm, -⟩, -⟩ := hserves hblock.head.2
      rw [ksize_undefined hblock (by simp [markBlock]) hlo hle] at hm
      simp at hm
    · exact (kmalloc_undefined E w.st k pg (not_le.1 hle)).1 (horder hlarge)
  · intro hadm
    refine ⟨fun _ => ?_, ?_⟩
    · have hle : size ≤ 2 ^ (12 + 51) := by
        rcases hadm with hle | ⟨hle, -⟩
        · exact hle.trans (Nat.pow_le_pow_right (by omega) (by omega))
        · exact hle
      exact lt_of_le_of_lt ((pageBits_le_iff hpos.ne').2 hle) (by decide)
    obtain ⟨r, st', hcall, -, hres⟩ := h.kmalloc_spec k hpos hpg hadm
    obtain ⟨rfl, -⟩ | ⟨-, hinv⟩ := hres
    · exact ⟨0, st', hcall, fun h0 => absurd rfl h0, fun j _ => ⟨hcall, dvd_zero _⟩⟩
    · have hs := hinv.serves hoff (update_self ..)
      exact ⟨r, st', hcall, fun _ => hs, fun j hj => ⟨hcall, hs.2.1 j hj⟩⟩

theorem KInv.reallocGood_iff (h : KInv E w) (k : κ) (hl : w.live ptr = some b)
    (hpg : Answer E w (pageBits size) pg) : ReallocGood E w k ptr b.origin.capacity size pg ↔
      size = 0 ∨ size ≤ b.origin.capacity ∨ Admitted size pg := by
  have hptr := h.ne_zero hl
  have hksize := h.ksize_eq hl
  constructor
  · rintro ⟨r, st', hcall, hgood⟩
    by_contra hno
    simp only [Admitted, not_or, not_and, not_le] at hno
    obtain ⟨hne, hcap, hlo, hhi⟩ := hno
    have hlarge : ¬size < 8 <<< 8 := by
      simp only [shiftLeft_eq]
      omega
    simp only [krealloc, hptr, hne, hksize, not_le.2 hcap, if_false, bind_some] at hcall
    by_cases hle : size ≤ 2 ^ 63
    · obtain ⟨p, rfl⟩ := ne_none_iff_exists'.1 (hhi hle)
      obtain ⟨hp, hblock, hfree⟩ := hpg p rfl
      have horder : pageBits size < PAGE_LIST_SIZE :=
        lt_of_le_of_lt ((pageBits_le_iff (n := 51) hne).2 hle) (by decide)
      have hin : p ∉ b.origin.frames := (hfree p le_rfl (by simp)).2 ptr b hl
      have hslab : (w.st.page p).slabCache = none := (hfree p le_rfl (by simp)).1
      have hlow : 18 ≤ pageBits size := by
        by_contra hlt
        exact absurd ((pageBits_le_iff (n := 18) hne).1 (by omega)) (by omega)
      obtain ⟨st2, hback, -, hpage, -⟩ := (h.copy_unrecorded hpg hlow hl).kfree_spec k hl
      rw [kmalloc_pages w.st k hlarge horder hp hblock] at hcall
      simp only [bind_some, hblock.head.2, if_false, setPage_mem, hback, map_some,
        some.injEq, Prod.mk.injEq] at hcall
      obtain ⟨rfl, rfl⟩ := hcall
      obtain ⟨⟨m, hm, -⟩, -⟩ := hgood hblock.head.2
      have hflags : (st2.page p).flags = PG_order_set PG_kmalloc (pageBits size) := by
        rw [hpage p (by simpa [markBlock] using hslab) hin]
        simp [markBlock]
      rw [ksize_undefined hblock hflags hlo hle] at hm
      simp at hm
    · rw [(kmalloc_undefined E w.st k pg (not_le.1 hle)).2] at hcall
      simp at hcall
  · intro hadm
    by_cases hne : size = 0
    · obtain ⟨st', hfree, -⟩ := h.kfree_spec k hl
      exact ⟨0, st', by simp [krealloc, hptr, hne, hfree], fun h0 => absurd rfl h0⟩
    obtain ⟨r, st', hcall, hres⟩ :=
      h.krealloc_spec k hl (pos_of_ne_zero hne) hpg (hadm.resolve_left hne)
    refine ⟨r, st', hcall, fun hr => ?_⟩
    obtain ⟨rfl, -⟩ | ⟨-, hinv, hmem⟩ := hres
    · exact absurd rfl hr
    · have hlr := update_self r (some (Held.mk (if r = ptr then b.origin else originOf size pg)
        size)) (update w.live ptr none)
      exact ⟨⟨_, hinv.ksize_eq hlr, (hinv.fits r _ hlr).2⟩, hmem⟩

end

/-- What is held after `krealloc(ptr, size)` has returned `r`. -/
def reallocated (live : ℕ → Option Held) (ptr : ℕ) (b : Held) (r size : ℕ) (pg : Option ℕ) :
    ℕ → Option Held :=
  if size = 0 then update live ptr none
  else if r = 0 then live
  else update (update live ptr none) r (some ⟨if r = ptr then b.origin else originOf size pg, size⟩)

/-- One call that is admitted, or a write to memory that is not a free object. -/
inductive KStep (E : Env) : World κ → World κ → Prop where
  | kmalloc {w r st'} (k size pg) (hpg : Answer E w (pageBits size) pg) (hadm : Admitted size pg)
      (h : kmalloc E k size pg w.st = some (r, st')) :
      KStep E w ⟨st', if r = 0 then w.live
        else update w.live r (some ⟨originOf size pg, size⟩)⟩
  | kfree {w g st'} (k ptr b) (hl : w.live ptr = some b)
      (h : kfree E k ptr w.st = some (g, st')) : KStep E w ⟨st', update w.live ptr none⟩
  | krealloc {w r st'} (k ptr b size pg) (hl : w.live ptr = some b)
      (hpg : Answer E w (pageBits size) pg)
      (hadm : size = 0 ∨ size ≤ b.origin.capacity ∨ Admitted size pg)
      (h : krealloc E k ptr size pg w.st = some (r, st')) :
      KStep E w ⟨st', reallocated w.live ptr b r size pg⟩
  | write {w} (m : Mem) (hm : ∀ c p o a, IsSlot E w.st c p o → o ∉ objectsOf w.live c → o ≤ a →
      a < o + (w.st.cache c).size → m a = w.st.mem a) : KStep E w ⟨w.st.setMem m, w.live⟩

/-- The caches as `__kernel_malloc_init` leaves them: nothing is held and no page is a
slab page. -/
structure KStart (w : World κ) : Prop where
  cache : ∀ c, kmemCacheInit (8 <<< c.val) = some (w.st.cache c)
  page : ∀ p, (w.st.page p).slabCache = none
  live : ∀ ptr, w.live ptr = none

section

omit [DecidableEq κ]

theorem kmemCacheInit_class (c : Fin 9) : (kmemCacheInit (8 <<< c.val) : Option (KmemCache κ)) =
      some ⟨fun _ => ⟨0, none⟩, 8 <<< c.val, 8 <<< c.val, 4096 / 8 <<< c.val, 0, 0, 0, 0, 0⟩ := by
  have hround : ∀ c : Fin 9, (8 <<< c.val + 7) / 8 * 8 % 2 ^ 32 = 8 <<< c.val ∧
      8 <<< c.val % 2 ^ 32 = 8 <<< c.val ∧ 8 <<< c.val ≠ 0 := by decide
  obtain ⟨hsize, hobject, hne⟩ := hround c
  simp only [kmemCacheInit, hsize, hobject, hne, if_false]
  rfl

theorem KStart.inv (E : Env) {w : World κ} (h : KStart w) : KInv E w where
  slabs := by
    have hstart : Start (fun c : Fin 9 => 8 <<< c.val) ⟨w.st, objectsOf w.live⟩ :=
      ⟨h.cache, h.page, fun c => by simp [objectsOf, h.live]⟩
    exact hstart.inv E
  size c := by
    have hc := h.cache c
    rw [kmemCacheInit_class] at hc
    rw [← some.inj hc]
    exact ⟨rfl, rfl⟩
  fits ptr b hl := by simp [h.live] at hl
  block ptr p order n hl := by simp [h.live] at hl
  notSlab ptr b hl := by simp [h.live] at hl
  apart ptr b ptr' b' hl := by simp [h.live] at hl

end

theorem KInv.step {E : Env} {w w' : World κ} (h : KInv E w) (hs : KStep E w w') : KInv E w' := by
  cases hs with
  | kmalloc k size pg hpg hadm hcall =>
    by_cases hpos : size = 0
    · simp only [Slub.kmalloc, hpos, if_true] at hcall
      cases hcall
      exact h
    obtain ⟨r, st', hcall', -, hres⟩ := h.kmalloc_spec k (pos_of_ne_zero hpos) hpg hadm
    rw [hcall] at hcall'
    cases hcall'
    obtain ⟨rfl, hinv⟩ | ⟨-, hinv⟩ := hres
    · exact hinv
    · rw [if_neg (hinv.ne_zero (update_self ..))]
      exact hinv
  | kfree k ptr b hl hcall =>
    obtain ⟨st', hcall', -, -, hinv⟩ := h.kfree_spec k hl
    rw [hcall] at hcall'
    cases hcall'
    exact hinv
  | krealloc k ptr b size pg hl hpg hadm hcall =>
    by_cases hzero : size = 0
    · obtain ⟨st', hfree, -, -, hinv⟩ := h.kfree_spec k hl
      simp only [Slub.krealloc, h.ne_zero hl, hzero, hfree, if_false, if_true, map_some] at hcall
      cases hcall
      simpa only [reallocated, hzero, if_true] using hinv
    obtain ⟨r, st', hcall', hres⟩ :=
      h.krealloc_spec k hl (pos_of_ne_zero hzero) hpg (hadm.resolve_left hzero)
    rw [hcall] at hcall'
    cases hcall'
    obtain ⟨rfl, hinv⟩ | ⟨-, hinv, -⟩ := hres
    · simpa only [reallocated, hzero, if_true, if_false] using hinv
    · simpa only [reallocated, hzero, if_false, hinv.ne_zero (update_self ..)] using hinv
  | write m hm => exact h.setMem hm

/-- **A request is served if and only if its block has at most `2 ^ 30` bytes**, or the
page allocator has no block of its order.  After any calls of `kmalloc`, `kfree` and
`krealloc` that were admitted, every held block serves its request, and the next
`kmalloc`, `memalign` or `krealloc` is right exactly if it is admitted. -/
theorem kmalloc_runs (E : Env) (hoff : 2 ^ 30 ∣ E.pvOffset) (w₀ w : World κ) (h₀ : KStart w₀)
    (hrun : Relation.ReflTransGen (KStep E) w₀ w) :
    (∀ ptr b, w.live ptr = some b → Serves E w.st ptr b.size b.origin) ∧
    (∀ k size pg, 0 < size → Answer E w (pageBits size) pg →
      (MallocGood E w k size pg ↔ Admitted size pg)) ∧
    ∀ k ptr b size pg, w.live ptr = some b → Answer E w (pageBits size) pg →
      (ReallocGood E w k ptr b.origin.capacity size pg ↔
        size = 0 ∨ size ≤ b.origin.capacity ∨ Admitted size pg) := by
  have hinv : KInv E w := by
    induction hrun with
    | refl => exact h₀.inv E
    | tail _ hs ih => exact ih.step hs
  exact ⟨fun ptr b hl => hinv.serves hoff hl, fun k size pg hpos hpg =>
    hinv.mallocGood_iff hoff k hpos hpg,
    fun k ptr b size pg hl hpg => hinv.reallocGood_iff k hl hpg⟩

/-- The nine caches, for two CPUs. -/
def newCaches : World Bool where
  st :=
    { mem := fun _ => 0
      page := fun _ => ⟨0, 0, none, none, 0, 0, .SLAB_PAGE_FREE, 0⟩
      cache := fun c => ⟨fun _ => ⟨0, none⟩, 8 <<< c.val, 8 <<< c.val, 4096 / 8 <<< c.val, 0, 0, 0,
        0, 0⟩
      freed := [] }
  live := fun _ => none

theorem newCaches_start : KStart newCaches where
  cache := kmemCacheInit_class
  page _ := rfl
  live _ := rfl

/-- A run that hands a block of `128` bytes out for a request of `100`. -/
theorem kmalloc_runs_onePage :
    ∃ w, Relation.ReflTransGen (KStep onePage) newCaches w ∧ w.live 4096 = some ⟨.slab 4, 100⟩ ∧
      Serves onePage w.st 4096 100 (.slab 4) := by
  have hpg : Answer onePage newCaches (pageBits 100) (some 1) := fun p hp => by
    cases hp
    have horder : pageBits 100 = 0 := by decide
    rw [horder]
    refine ⟨by decide, ⟨by simp, fun f hlo hhi => ?_⟩, fun f _ _ => ⟨rfl, fun _ _ hl => ?_⟩⟩
    · obtain rfl : f = 1 := by omega
      exact onePage_usable
    · simp [newCaches] at hl
  have hobj : (kmalloc onePage true 100 (some 1) newCaches.st).map Prod.fst = some 4096 := by decide
  obtain ⟨⟨r, st⟩, hcall, rfl⟩ := map_eq_some_iff.1 hobj
  have hstep := Relation.ReflTransGen.single (KStep.kmalloc true 100 (some 1) hpg
    (.inl (by omega)) hcall)
  have hlive : update newCaches.live 4096 (some ⟨originOf 100 (some 1), 100⟩) 4096 =
      some ⟨.slab 4, 100⟩ := by
    rw [update_self]
    decide
  exact ⟨_, hstep, hlive,
    (kmalloc_runs onePage (dvd_zero _) newCaches _ newCaches_start hstep).1 4096 ⟨.slab 4, 100⟩
    hlive⟩

/-- **Blocks do not interfere.**  After any calls that were admitted, held blocks do not overlap;
the next `kmalloc` leaves the bytes of all of them alone, the next `kfree` those of the others; and
the next `krealloc` that returns a block takes the bytes along. -/
theorem kmalloc_contents (E : Env) (w₀ w : World κ) (h₀ : KStart w₀)
    (hrun : Relation.ReflTransGen (KStep E) w₀ w) :
    (∀ ptr b ptr' b', w.live ptr = some b → w.live ptr' = some b' → ptr ≠ ptr' →
      ptr + b.origin.capacity ≤ ptr' ∨ ptr' + b'.origin.capacity ≤ ptr) ∧
    (∀ k size pg, 0 < size → Answer E w (pageBits size) pg → Admitted size pg →
      ∃ r st', kmalloc E k size pg w.st = some (r, st') ∧ Spared w st') ∧
    (∀ k ptr b, w.live ptr = some b → ∃ st', kfree E k ptr w.st = some (b.origin.back, st') ∧
      Spared ⟨w.st, update w.live ptr none⟩ st') ∧
    ∀ k ptr b size pg, w.live ptr = some b → 0 < size → Answer E w (pageBits size) pg →
      size ≤ b.origin.capacity ∨ Admitted size pg → ∃ r st',
        krealloc E k ptr size pg w.st = some (r, st') ∧
        (r ≠ 0 → ∀ i < min b.origin.capacity size, st'.mem (r + i) = w.st.mem (ptr + i)) := by
  have h : KInv E w := by
    induction hrun with
    | refl => exact h₀.inv E
    | tail _ hs ih => exact ih.step hs
  refine ⟨fun ptr b ptr' b' hl hl' hne => h.apart_live hl hl' hne, fun k size pg hpos hpg hadm =>
    ?_,
    fun k ptr b hl => ?_, fun k ptr b size pg hl hpos hpg hadm => ?_⟩
  · obtain ⟨r, st', hcall, hspared, -⟩ := h.kmalloc_spec k hpos hpg hadm
    exact ⟨r, st', hcall, hspared⟩
  · obtain ⟨st', hcall, hout, -⟩ := h.kfree_spec k hl
    refine ⟨st', hcall, fun ptr' b' hl' a hle hlt => hout a ?_⟩
    obtain ⟨hne, hl'⟩ := erase_eq_some.1 hl'
    have := h.apart_live hl hl' hne.symm
    omega
  · obtain ⟨r, st', hcall, hcase⟩ := h.krealloc_spec k hl hpos hpg hadm
    refine ⟨r, st', hcall, fun hr => ?_⟩
    obtain ⟨h0, -⟩ | ⟨-, -, hbytes⟩ := hcase
    · exact absurd h0 hr
    · exact hbytes

theorem kmalloc_contents_onePage : ∃ w st', Relation.ReflTransGen (KStep onePage) newCaches w ∧
    w.live 4096 = some ⟨.slab 4, 100⟩ ∧ kmalloc onePage true 100 none w.st = some (4224, st') ∧
    Spared w st' := by
  have hpg : Answer onePage newCaches (pageBits 100) (some 1) := fun p hp => by
    cases hp
    have horder : pageBits 100 = 0 := by decide
    rw [horder]
    refine ⟨by decide, ⟨by simp, fun f hlo hhi => ?_⟩, fun f _ _ => ⟨rfl, by simp [newCaches]⟩⟩
    obtain rfl : f = 1 := by omega
    exact onePage_usable
  -- the second object of the page
  have hobj : (kmalloc onePage true 100 (some 1) newCaches.st).map (fun c =>
      (c.1, (kmalloc onePage true 100 none c.2).map Prod.fst)) = some (4096, some 4224) := by decide
  obtain ⟨⟨r, st⟩, hcall, hr⟩ := map_eq_some_iff.1 hobj
  obtain ⟨rfl, hr⟩ := Prod.mk.inj hr
  have hrun := Relation.ReflTransGen.single (KStep.kmalloc true 100 (some 1) hpg
    (.inl (by omega)) hcall)
  obtain ⟨r', st', hcall', hspared⟩ :=
    (kmalloc_contents onePage newCaches _ newCaches_start hrun).2.1
    true 100 none (by omega) (by simp [Answer]) (.inl (by omega))
  obtain rfl : r' = 4224 := by simpa [hcall'] using hr
  have hlive : update newCaches.live 4096 (some ⟨originOf 100 (some 1), 100⟩) 4096 =
      some ⟨.slab 4, 100⟩ := by
    rw [update_self]
    decide
  exact ⟨_, st', hrun, hlive, hcall', hspared⟩

/-- Four gigabytes of memory at four gigabytes, mapped one to one. -/
def fourGigabytes : Env where
  present f := decide (2 ^ 20 ≤ f ∧ f < 2 ^ 21)
  present_lt f hf := by simp only [decide_eq_true_eq] at hf; omega
  minLowPfn := 0
  maxLowPfn := 2 ^ 21
  pvOffset := 0
  pvOffset_aligned := onePage.pvOffset_aligned
  vpageStart := 8
  vpageStart_pos := onePage.vpageStart_pos
  vpageStart_aligned := onePage.vpageStart_aligned

theorem fourGigabytes_answer : Answer fourGigabytes newCaches 20 (some (2 ^ 20)) := fun p hp => by
  cases hp
  refine ⟨by decide, ⟨dvd_refl _, fun f hlo hhi => ⟨?_, ?_⟩⟩, fun f _ _ => ⟨rfl, fun _ _ hl => ?_⟩⟩
  · simp only [fourGigabytes, decide_eq_true_eq]
    omega
  · have haddr : pageToAddr f = f * 4096 := by
      simp only [pageToAddr, PAGE_SIZE_SHIFT, shiftLeft_eq]
      omega
    simp only [Env.base, pageAddress, haddr, fourGigabytes, PAGE_SIZE_SHIFT, shiftLeft_eq]
    rw [if_pos (by omega)]
    omega
  · simp [newCaches] at hl

/-- An order outside of `page_list`, and a block of four gigabytes whose size `ksize`
cannot compute. -/
theorem kmalloc_not_good :
    (¬pageBits (2 ^ 63 + 1) < PAGE_LIST_SIZE ∧
      ¬MallocGood onePage newCaches true (2 ^ 63 + 1) none) ∧
      Answer fourGigabytes newCaches (pageBits (2 ^ 31 + 1)) (some (2 ^ 20)) ∧
      (∃ st', kmalloc fourGigabytes true (2 ^ 31 + 1) (some (2 ^ 20)) newCaches.st =
        some (2 ^ 32, st') ∧
        ksize fourGigabytes (2 ^ 32) st' = none) ∧
      ¬MallocGood fourGigabytes newCaches true (2 ^ 31 + 1) (some (2 ^ 20)) := by
  have hbits : pageBits (2 ^ 31 + 1) = 20 := by decide
  have hanswer : Answer fourGigabytes newCaches (pageBits (2 ^ 31 + 1)) (some (2 ^ 20)) := by
    rw [hbits]
    exact fourGigabytes_answer
  obtain ⟨hp, hblock, -⟩ := hanswer (2 ^ 20) rfl
  have hbase : fourGigabytes.base (2 ^ 20) = 2 ^ 32 := by decide
  have hcall := kmalloc_pages newCaches.st true (by decide) (by rw [hbits]; decide) hp hblock
  have hksize := ksize_undefined hblock
    (s := newCaches.st.setPage (2 ^ 20) (markBlock (pageBits (2 ^ 31 + 1)))) (by simp [markBlock])
    (by omega) (by omega)
  rw [hbase] at hcall hksize
  refine ⟨⟨(kmalloc_undefined onePage newCaches.st true none (by omega)).1, fun hgood => ?_⟩,
    hanswer, ⟨_, hcall, hksize⟩, fun hgood => ?_⟩
  · have hadm := ((newCaches_start.inv onePage).mallocGood_iff (dvd_zero _) true (by omega)
      (fun _ hp => by simp at hp)).1 hgood
    simp only [Admitted] at hadm
    omega
  · have hadm := ((newCaches_start.inv fourGigabytes).mallocGood_iff (dvd_zero _) true (by omega)
      hanswer).1 hgood
    simp [Admitted] at hadm

end Intewell.Slub
