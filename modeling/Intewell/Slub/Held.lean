/-
# The blocks that kmalloc has handed out

The callers are recorded beside the allocator: `live ptr` is what `kmalloc` or
`krealloc` handed out at `ptr`, from which allocator, and the size asked for.
`KInv` says what the calls keep: the held objects of the caches are those of the
slab allocator's own invariant, and the blocks of the page allocator are apart
from the slab pages and from each other.
-/

import Intewell.Slub.Kmalloc

namespace Intewell.Slub

open Function Nat
open Bytes (Mem load store copy)
open Page (pageToAddr pageAddress addrToPage PAGE_SIZE_SHIFT PAGE_LIST_SIZE)

/-- The allocator a block came from: a cache, or the page allocator. -/
inductive Origin where
  | slab (c : Fin 9)
  | pages (p order : ℕ)
deriving DecidableEq, Repr

namespace Origin

/-- The bytes of the block. -/
def capacity : Origin → ℕ
  | .slab c => 8 <<< c.val
  | .pages _ order => 2 ^ (12 + order)

/-- The frames taken from the page allocator for the block alone. -/
def frames : Origin → Set ℕ
  | .slab _ => ∅
  | .pages p order => {f | p ≤ f ∧ f < p + 2 ^ order}

/-- The block goes back to where it came from. -/
def back : Origin → GivenBack
  | .slab c => .object c
  | .pages p order => .pages (pageToAddr p) order

theorem capacity_pow : ∀ r : Origin, ∃ e, r.capacity = 2 ^ e
  | .slab c => ⟨3 + c.val, by rw [capacity, shiftLeft_eq, pow_add]; norm_num⟩
  | .pages _ order => ⟨12 + order, rfl⟩

theorem capacity_pos (r : Origin) : 0 < r.capacity := by
  obtain ⟨e, he⟩ := r.capacity_pow
  rw [he]
  exact Nat.two_pow_pos e

theorem slab_capacity_dvd (c : Fin 9) : (slab c).capacity ∣ 4096 := by
  revert c
  decide

end Origin

/-- A block in the hands of a caller. -/
structure Held where
  origin : Origin
  size : ℕ
deriving DecidableEq, Repr

variable {κ : Type} [DecidableEq κ]

/-- The allocator and the blocks that are held. -/
structure World (κ : Type) where
  st : State (Fin 9) κ
  live : ℕ → Option Held

/-- The objects of a cache that are held. -/
def objectsOf (live : ℕ → Option Held) (c : Fin 9) : Set ℕ := {o | ∃ n, live o = some ⟨.slab c, n⟩}

/-- What the page allocator may answer: nothing, or a block of the order whose
frames are no slab pages and in no block that is held. -/
def Answer (E : Env) (w : World κ) (order : ℕ) (pg : Option ℕ) : Prop :=
  ∀ p, pg = some p → p ≠ 0 ∧ IsBlock E p order ∧
    ∀ f, p ≤ f → f < p + 2 ^ order →
      (w.st.page f).slabCache = none ∧ ∀ ptr b, w.live ptr = some b → f ∉ b.origin.frames

/-- The invariant of the runs. -/
structure KInv (E : Env) (w : World κ) : Prop where
  slabs : SysInv E ⟨w.st, objectsOf w.live⟩
  size : ∀ c, (w.st.cache c).size = 8 <<< c.val ∧ (w.st.cache c).objectSize = 8 <<< c.val
  fits : ∀ ptr b, w.live ptr = some b → 0 < b.size ∧ b.size ≤ b.origin.capacity
  block : ∀ ptr p order n, w.live ptr = some ⟨.pages p order, n⟩ →
    ptr = E.base p ∧ IsBlock E p order ∧ order ≤ 18 ∧
      (w.st.page p).flags = PG_order_set PG_kmalloc order
  notSlab : ∀ ptr b, w.live ptr = some b → ∀ f ∈ b.origin.frames, (w.st.page f).slabCache = none
  apart : ∀ ptr b ptr' b', w.live ptr = some b → w.live ptr' = some b' → ptr ≠ ptr' →
    ∀ f ∈ b.origin.frames, f ∉ b'.origin.frames

section

variable {E : Env} {p q o : ℕ}

theorem IsBlock.apart (h : IsBlock E p o) (ho : o ≤ 18) (hq : Usable E q)
    (hne : ¬(p ≤ q ∧ q < p + 2 ^ o)) :
    E.base p + 2 ^ (12 + o) ≤ E.base q ∨ E.base q + 4096 ≤ E.base p := by
  have hb := base_eq h.head
  have hb' := base_eq hq
  have hlt := E.present_lt p h.head.1
  have hlt' := E.present_lt q hq.1
  have hsmall : 2 ^ (12 + o) ≤ 2 ^ 30 := Nat.pow_le_pow_right (by norm_num) (by omega)
  have hsplit : 2 ^ (12 + o) = 4096 * 2 ^ o := by rw [pow_add]; norm_num
  rw [hsplit] at hsmall ⊢
  have := (base_bounds h.head).1
  have := (base_bounds hq).1
  generalize 2 ^ o = D at hsmall hne ⊢
  omega

theorem IsBlock.mono {o' : ℕ} (h : IsBlock E p o) (ho : o' ≤ o) : IsBlock E p o' :=
  ⟨(pow_dvd_pow 2 ho).trans h.aligned, fun f hf hf' => h.usable f hf
    (hf'.trans_le (Nat.add_le_add_left (Nat.pow_le_pow_right (by norm_num) ho) p))⟩

theorem IsBlock.ptrToPage (h : IsBlock E p o) : Slub.ptrToPage E (E.base p) = some p :=
  ptrToPage_eq h.head le_rfl (by omega)

end

namespace SysInv

variable {ι : Type} {E : Env} {s : State ι κ} {live : ι → Set ℕ}

omit [DecidableEq κ] in
/-- A write to the descriptor of a page that is no slab page. -/
theorem setPage (h : SysInv E ⟨s, live⟩) {p : ℕ} (hp : (s.page p).slabCache = none)
    {f : SlabPage ι κ → SlabPage ι κ} (hf : ∀ g, (f g).slabCache = g.slabCache ∧
      (f g).slabState = g.slabState ∧ (f g).partialNext = g.partialNext) :
    SysInv E ⟨s.setPage p f, live⟩ := by
  obtain ⟨L, place, hinv⟩ := h
  have hcache : ∀ q, ((s.setPage p f).page q).slabCache = (s.page q).slabCache :=
    fun q => s.setPage_keeps p q f (·.slabCache) (hf _).1
  have hslab : ∀ q c, ((s.setPage p f).page q).slabCache = some c →
      (s.page q).slabCache = some c ∧ (s.setPage p f).page q = s.page q := fun q c hq => by
    rw [hcache] at hq
    have hqp : q ≠ p := fun hqp => by simp [hqp, hp] at hq
    exact ⟨hq, by rw [State.setPage_page, if_neg hqp]⟩
  have hslot : ∀ c q o, IsSlot E (s.setPage p f) c q o ↔ IsSlot E s c q o := fun c q o => by
    simp only [IsSlot, hcache, State.setPage_cache]
  have hobj := hinv.objects
  refine ⟨L, place, ⟨hinv.shape.size_dvd, hinv.shape.size_pos, hinv.shape.perPage, fun q c hq =>
    ?_⟩,
    ⟨hobj.cpuChain, fun q c hq => ?_, hobj.cpuNodup, hobj.pageNodup, fun c k o => ?_, fun q o => ?_,
      fun c o => ?_, fun q c hq => ?_⟩,
    hinv.pages.congr hcache (fun q => s.setPage_keeps p q f (·.slabState) (hf _).2.1)
      (fun q => s.setPage_keeps p q f (·.partialNext) (hf _).2.2) (fun _ => rfl) (fun _ _ => rfl),
    fun c k o ho => ?_, hinv.partial_free⟩
  · rw [(hslab q c hq).2]
    exact hinv.shape.slab q c (hslab q c hq).1
  · rw [(hslab q c hq).2]
    exact hobj.pageChain q c (hslab q c hq).1
  · simp only [hslot]
    exact hobj.mem_cpu c k o
  · simp only [hslot]
    exact hobj.mem_page q o
  · simp only [hslot]
    exact hobj.mem_live c o
  · rw [(hslab q c hq).2]
    exact hobj.inuse q c (hslab q c hq).1
  · simp only [hslot]
    exact hinv.cpu_active c k o ho

end SysInv

namespace KInv

variable {E : Env} {w : World κ} {ptr ptr' p o q : ℕ} {b b' : Held} {c : Fin 9}

section
variable (h : KInv E w)
include h

section

omit [DecidableEq κ]

theorem shape : Shape E w.st := by
  obtain ⟨L, place, hinv⟩ := h.slabs
  exact hinv.shape

theorem slot {n : ℕ} (hl : w.live ptr = some ⟨.slab c, n⟩) : ∃ q, IsSlot E w.st c q ptr := by
  obtain ⟨L, place, hinv⟩ := h.slabs
  exact ((hinv.objects.mem_live c ptr).1 ⟨n, hl⟩).1

theorem ne_zero (hl : w.live ptr = some b) : ptr ≠ 0 := by
  obtain ⟨origin, n⟩ := b
  cases origin with
  | slab c =>
    obtain ⟨q, hslot⟩ := h.slot hl
    exact h.shape.slot_pos hslot
  | pages p order =>
    obtain ⟨rfl, hblock, -, -⟩ := h.block ptr p order n hl
    exact hblock.head.2

end

open Origin

section

omit [DecidableEq κ]

theorem aligned (hoff : 2 ^ 30 ∣ E.pvOffset) (hl : w.live ptr = some b) :
    b.origin.capacity ∣ ptr := by
  obtain ⟨origin, n⟩ := b
  cases origin with
  | slab c =>
    obtain ⟨q, hslot⟩ := h.slot hl
    have hbase : 4096 ∣ E.base q := dvd_of_mod_eq_zero (base_bounds (h.shape.slot_usable hslot)).1
    obtain ⟨-, i, -, rfl⟩ := hslot
    rw [(h.size c).1]
    exact Nat.dvd_add ((slab_capacity_dvd c).trans hbase) (Dvd.intro_left i rfl)
  | pages p order =>
    obtain ⟨rfl, hblock, horder, -⟩ := h.block ptr p order n hl
    exact (hblock.base hoff horder).1

theorem ksize_eq (hl : w.live ptr = some b) : ksize E ptr w.st = some b.origin.capacity := by
  obtain ⟨origin, n⟩ := b
  cases origin with
  | slab c =>
    obtain ⟨q, hslot⟩ := h.slot hl
    have hflags := (h.shape.slab q c hslot.1).2.2
    simp [ksize, h.shape.slot_pos hslot, h.shape.ptrToPage_slot hslot, hflags, hslot.1, PG_slab,
      PG_kmalloc, (h.size c).2, capacity]
  | pages p order =>
    obtain ⟨rfl, hblock, horder, hflags⟩ := h.block ptr p order n hl
    obtain ⟨hget, hset⟩ := order_get_set
      (lt_of_le_of_lt horder (show 18 < PAGE_LIST_SIZE by decide))
    have hshift : order + PAGE_SIZE_SHIFT < 31 := by simp only [PAGE_SIZE_SHIFT]; omega
    simp only [ksize, hblock.head.2, hblock.ptrToPage, hflags, hget, hset, hshift, ne_eq,
      not_false_eq_true, if_true, if_false, capacity]
    rw [one_shiftLeft, PAGE_SIZE_SHIFT, add_comm]

theorem capacity_le (hl : w.live ptr = some b) : b.origin.capacity ≤ 2 ^ 30 := by
  obtain ⟨origin, n⟩ := b
  cases origin with
  | slab c => exact (le_of_dvd (by omega) (slab_capacity_dvd c)).trans (by omega)
  | pages p order =>
    obtain ⟨-, -, horder, -⟩ := h.block ptr p order n hl
    exact Nat.pow_le_pow_right (by omega) (by omega)

theorem apart_page {order n : ℕ} (hl : w.live ptr = some ⟨.pages p order, n⟩) (hq : Usable E q)
    (hne : q ∉ (pages p order).frames) :
    ptr + 2 ^ (12 + order) ≤ E.base q ∨ E.base q + 4096 ≤ ptr := by
  obtain ⟨rfl, hblock, horder, -⟩ := h.block ptr p order n hl
  exact hblock.apart horder hq hne

end

section
variable (hl : w.live ptr = some b)
include hl

section

omit [DecidableEq κ]

theorem apart_slot (ho : IsSlot E w.st c q o) (hne : o ≠ ptr) :
    ptr + b.origin.capacity ≤ o ∨ o + (w.st.cache c).size ≤ ptr := by
  obtain ⟨origin, n⟩ := b
  cases origin with
  | slab c' =>
    obtain ⟨q', hslot⟩ := h.slot hl
    have hsz := (h.size c').1
    have := h.shape.slot_apart hslot ho (Ne.symm hne)
    rw [hsz] at this
    exact this
  | pages p order =>
    have hb := h.shape.slot_bounds ho
    have hq : q ∉ (pages p order).frames := fun hq => by
      simpa [ho.1] using h.notSlab ptr _ hl q hq
    have hd := h.apart_page hl (h.shape.slot_usable ho) hq
    simp only [capacity]
    omega

theorem apart_free (ho : IsSlot E w.st c q o) (hfree : o ∉ objectsOf w.live c) :
    ptr + b.origin.capacity ≤ o ∨ o + (w.st.cache c).size ≤ ptr := by
  by_cases hne : o = ptr
  · subst hne
    obtain ⟨origin, n⟩ := b
    cases origin with
    | slab c' =>
      obtain ⟨q', hslot⟩ := h.slot hl
      obtain ⟨-, rfl⟩ := h.shape.slot_unique hslot ho
      exact absurd ⟨n, hl⟩ hfree
    | pages p order =>
      have hb := h.shape.slot_bounds ho
      have hq : q ∉ (pages p order).frames := fun hq => by
        simpa [ho.1] using h.notSlab o _ hl q hq
      have hd := h.apart_page hl (h.shape.slot_usable ho) hq
      have hsize := Nat.two_pow_pos (12 + order)
      omega
  · exact h.apart_slot hl ho hne

theorem apart_live (hl' : w.live ptr' = some b') (hne : ptr ≠ ptr') :
    ptr + b.origin.capacity ≤ ptr' ∨ ptr' + b'.origin.capacity ≤ ptr := by
  obtain ⟨origin', n'⟩ := b'
  cases origin' with
  | slab c' =>
    obtain ⟨q', hslot⟩ := h.slot hl'
    have hd := h.apart_slot hl hslot (Ne.symm hne)
    rwa [(h.size c').1] at hd
  | pages p' order' =>
    obtain ⟨origin, n⟩ := b
    cases origin with
    | slab c =>
      obtain ⟨q, hslot⟩ := h.slot hl
      have hd := h.apart_slot hl' hslot hne
      rw [(h.size c).1] at hd
      exact hd.symm
    | pages p order =>
      obtain ⟨hptr, hblock, horder, -⟩ := h.block ptr p order n hl
      obtain ⟨hptr', hblock', horder', -⟩ := h.block ptr' p' order' n' hl'
      have hmem : p ∈ (pages p order).frames := ⟨le_rfl, by simp⟩
      have hmem' : p' ∈ (pages p' order').frames := ⟨le_rfl, by simp⟩
      have hout := h.apart ptr _ ptr' _ hl hl' hne p hmem
      have hout' := h.apart ptr' _ ptr _ hl' hl (Ne.symm hne) p' hmem'
      have hd := h.apart_page hl hblock'.head hout'
      have hd' := h.apart_page hl' hblock.head hout
      simp only [capacity]
      omega

theorem apart_given (hq : Usable E q) (hslab : (w.st.page q).slabCache = none)
    (hframe : q ∉ b.origin.frames) :
    ptr + b.origin.capacity ≤ E.base q ∨ E.base q + 4096 ≤ ptr := by
  obtain ⟨origin, n⟩ := b
  cases origin with
  | slab c =>
    obtain ⟨p, hslot⟩ := h.slot hl
    have hb := h.shape.slot_bounds hslot
    have hpq : p ≠ q := fun hpq => by simp [IsSlot, hpq, hslab] at hslot
    rw [(h.size c).1] at hb
    have hd := base_apart (h.shape.slot_usable hslot) hq hpq
    simp only [capacity]
    omega
  | pages p order => exact h.apart_page hl hq hframe

end

end

section

omit [DecidableEq κ]

/-- The invariant after a call: the objects of the caches that are held are as
recorded, and the other blocks are untouched. -/
theorem next {st' : State (Fin 9) κ} {live' : ℕ → Option Held}
    (hs : SysInv E ⟨st', objectsOf live'⟩)
    (hshape : ∀ c, (st'.cache c).shape = (w.st.cache c).shape)
    (hfits : ∀ ptr b, live' ptr = some b → 0 < b.size ∧ b.size ≤ b.origin.capacity)
    (hold : ∀ ptr p order n, live' ptr = some ⟨.pages p order, n⟩ →
      (∃ m, w.live ptr = some ⟨.pages p order, m⟩) ∧ ∀ f ∈ (pages p order).frames,
      st'.page f = w.st.page f)
    : KInv E ⟨st', live'⟩ where
  slabs := hs
  size c := by
    have hc := hshape c
    simp only [KmemCache.shape, Prod.mk.injEq] at hc
    rw [hc.1, hc.2.1]
    exact h.size c
  fits := hfits
  block ptr p order n hl := by
    obtain ⟨⟨m, hm⟩, hpage⟩ := hold ptr p order n hl
    obtain ⟨hptr, hblock, horder, hflags⟩ := h.block ptr p order m hm
    refine ⟨hptr, hblock, horder, ?_⟩
    rw [hpage p ⟨le_rfl, by simp⟩]
    exact hflags
  notSlab ptr b hl f hf := by
    obtain ⟨origin, n⟩ := b
    cases origin with
    | slab c => exact absurd hf (by simp [frames])
    | pages p order =>
      obtain ⟨⟨m, hm⟩, hpage⟩ := hold ptr p order n hl
      rw [hpage f hf]
      exact h.notSlab ptr _ hm f hf
  apart ptr b ptr' b' hl hl' hne f hf := by
    obtain ⟨origin, n⟩ := b
    obtain ⟨origin', n'⟩ := b'
    cases origin with
    | slab c => exact absurd hf (by simp [frames])
    | pages p order =>
      cases origin' with
      | slab c' => simp [frames]
      | pages p' order' =>
        obtain ⟨⟨m, hm⟩, -⟩ := hold ptr p order n hl
        obtain ⟨⟨m', hm'⟩, -⟩ := hold ptr' p' order' n' hl'
        exact h.apart ptr _ ptr' _ hm hm' hne f hf

/-- A write that leaves the objects that are not held alone. -/
theorem setMem {m : Mem}
    (hm : ∀ c p o a, IsSlot E w.st c p o → o ∉ objectsOf w.live c → o ≤ a →
      a < o + (w.st.cache c).size → m a = w.st.mem a)
    : KInv E ⟨w.st.setMem m, w.live⟩ :=
  h.next (h.slabs.setMem hm) (fun _ => rfl) h.fits fun _ _ _ n hl => ⟨⟨n, hl⟩, fun _ _ => rfl⟩

/-- A write to the descriptor of a page that is no slab page and in no held block. -/
theorem setPage (hslab : (w.st.page q).slabCache = none)
    (hframe : ∀ ptr b, w.live ptr = some b → q ∉ b.origin.frames)
    {f : SlabPage (Fin 9) κ → SlabPage (Fin 9) κ}
    (hf : ∀ g, (f g).slabCache = g.slabCache ∧ (f g).slabState = g.slabState ∧
      (f g).partialNext = g.partialNext)
    : KInv E ⟨w.st.setPage q f, w.live⟩ :=
  h.next (h.slabs.setPage hslab hf) (fun _ => rfl) h.fits fun ptr p order n hl =>
    ⟨⟨n, hl⟩, fun f' hf' => by
      rw [State.setPage_page, if_neg]
      rintro rfl
      exact hframe ptr _ hl hf'⟩

end

end

end KInv

section

variable {live : ℕ → Option Held} {ptr n : ℕ} {c : Fin 9}

theorem update_eq_some {b b' : Held} {ptr' : ℕ} : update live ptr (some b) ptr' = some b' ↔
      (ptr' = ptr ∧ b' = b) ∨ (ptr' ≠ ptr ∧ live ptr' = some b') := by
  by_cases h : ptr' = ptr
  · subst h
    simp [eq_comm]
  · simp [h]

theorem erase_eq_some {b' : Held} {ptr' : ℕ} :
    update live ptr none ptr' = some b' ↔ ptr' ≠ ptr ∧ live ptr' = some b' := by
  by_cases h : ptr' = ptr
  · subst h
    simp
  · simp [h]

theorem objectsOf_hold (hno : ∀ c', ptr ∉ objectsOf live c') :
    objectsOf (update live ptr (some ⟨.slab c, n⟩)) = hold (objectsOf live) c ptr := by
  funext c'
  ext x
  rw [mem_hold]
  by_cases hx : x = ptr
  · subst hx
    simp [objectsOf] at hno ⊢
    simp [hno, eq_comm]
  · simp [objectsOf, hx]

theorem objectsOf_drop (hl : live ptr = some ⟨.slab c, n⟩) :
    objectsOf (update live ptr none) = drop (objectsOf live) c ptr := by
  funext c'
  ext x
  rw [mem_drop]
  by_cases hx : x = ptr
  · subst hx
    simp [objectsOf, hl, eq_comm]
  · simp [objectsOf, hx]

/-- The size asked for is no part of what is held. -/
theorem objectsOf_resize {b : Held} (hl : live ptr = some b) :
    objectsOf (update live ptr (some ⟨b.origin, n⟩)) = objectsOf live := by
  obtain ⟨origin, m⟩ := b
  funext c'
  ext x
  by_cases hx : x = ptr
  · subst hx
    simp [objectsOf, hl]
  · simp [objectsOf, hx]

/-- A block of the page allocator is no object of a cache. -/
theorem objectsOf_update {b : Option Held} (hno : ∀ c n, live ptr ≠ some ⟨.slab c, n⟩)
    (hb : ∀ c n, b ≠ some ⟨.slab c, n⟩) : objectsOf (update live ptr b) = objectsOf live := by
  funext c'
  ext x
  by_cases hx : x = ptr
  · subst hx
    simp [objectsOf, hno, hb]
  · simp [objectsOf, hx]

end

end Intewell.Slub
