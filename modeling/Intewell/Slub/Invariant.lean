/-
# The invariant of the slab allocator

Three groups of facts, each over the fields it is about.  `Shape`: the objects of
a slab page lie in its frame, at multiples of the object size.  `Objects`: each
object of a slab page is at one `Place`, and the freelists, followed through the
memory, are the objects of their place.  `Pages`: the states of the slab pages
are those of the lists they are on.
-/

import Intewell.Lib.Chain
import Intewell.Slub.Basic

namespace Intewell.Slub

open Nat
open Bytes (Mem load store)
open Linked (Chain)
open Page (pageToAddr pageAddress addrToPage pfnToPage)
open SlabState

section

variable {E : Env} {p q : ℕ}

/-- A page with a descriptor, in the linear map. -/
def Usable (E : Env) (p : ℕ) : Prop := E.present p = true ∧ E.base p ≠ 0

/-- The base of a page in the linear map, without the bounds of the zone. -/
theorem base_eq (h : Usable E p) :
    E.base p = (p * 4096 + 2 ^ 64 - E.pvOffset % 2 ^ 64) % 2 ^ 64 := by
  have hp := E.present_lt p h.1
  have haddr : pageToAddr p = p * 4096 := by
    simp only [pageToAddr, Page.PAGE_SIZE_SHIFT, shiftLeft_eq]
    omega
  have hne := h.2
  simp only [Env.base, pageAddress, haddr] at hne ⊢
  split_ifs at hne with hzone
  · exact if_pos hzone
  · exact absurd rfl hne

theorem base_bounds (h : Usable E p) : E.base p % 4096 = 0 ∧ E.base p + 4096 ≤ 2 ^ 64 := by
  have hp := E.present_lt p h.1
  have hoff : E.pvOffset % 4096 = 0 := mod_eq_zero_of_dvd E.pvOffset_aligned
  rw [base_eq h]
  omega

theorem base_apart (hp : Usable E p) (hq : Usable E q) (hne : p ≠ q) :
    E.base p + 4096 ≤ E.base q ∨ E.base q + 4096 ≤ E.base p := by
  have hlt := E.present_lt p hp.1
  have hlt' := E.present_lt q hq.1
  have hb := base_bounds hp
  have hb' := base_bounds hq
  have hdiff : E.base p ≠ E.base q := by
    rw [base_eq hp, base_eq hq]
    omega
  omega

theorem ptrToPage_eq (h : Usable E p) {o : ℕ} (hlo : E.base p ≤ o) (hhi : o < E.base p + 4096) :
    ptrToPage E o = some p := by
  have hp := E.present_lt p h.1
  have hoff : E.pvOffset % 4096 = 0 := mod_eq_zero_of_dvd E.pvOffset_aligned
  have hpfn : Page.PFN_DOWN (mmKernelV2p E o) = p := by
    simp only [Page.PFN_DOWN, Page.PAGE_SIZE_SHIFT, mmKernelV2p, shiftRight_eq_div_pow]
    rw [base_eq h] at hlo hhi
    omega
  simp [ptrToPage, addrToPage, hpfn, pfnToPage, h.1]

theorem pagePtr_pos (E : Env) (p : ℕ) : E.pagePtr p ≠ 0 := by
  have := E.vpageStart_pos
  simp only [Env.pagePtr]
  omega

@[simp] theorem pageOf_pagePtr (E : Env) (p : ℕ) : E.pageOf (E.pagePtr p) = p := by
  simp only [Env.pageOf, Env.pagePtr]
  omega

end

@[simp] theorem untag_tag {ptr : ℕ} (h : 8 ∣ ptr) (tag : ℕ) :
    slubPtrUntag (slubPtrTag ptr tag) = ptr := by
  simp only [slubPtrUntag, slubPtrTag, SLUB_TAG_BITS]
  omega

@[simp] theorem untag_incTag {ptr : ℕ} (h : 8 ∣ ptr) (old : ℕ) :
    slubPtrUntag (slubPtrIncTag ptr old) = ptr := untag_tag h _

theorem pagePtr_dvd (E : Env) (p : ℕ) : 8 ∣ E.pagePtr p := by
  have := E.vpageStart_aligned
  simp only [Env.pagePtr]
  omega

variable {ι κ : Type}

/-- Where an object is: held by a caller, on the freelist of a CPU, or on the
freelist of its page. -/
inductive Place (κ : Type) where
  | live
  | cpu (k : κ)
  | page
deriving DecidableEq

/-- The lists of the allocator, spelled out. -/
structure Lists (ι κ : Type) where
  cpu : ι → κ → List ℕ
  page : ℕ → List ℕ
  partials : ι → List ℕ

/-- `o` is an object of the slab page `p` of the cache `c`. -/
def IsSlot (E : Env) (s : State ι κ) (c : ι) (p o : ℕ) : Prop :=
  (s.page p).slabCache = some c ∧
    ∃ i < (s.cache c).objectsPerPage, o = E.base p + i * (s.cache c).size

/-- Sizes of the objects, and the pages they are cut from. -/
structure Shape (E : Env) (s : State ι κ) : Prop where
  size_dvd : ∀ c, 8 ∣ (s.cache c).size
  size_pos : ∀ c, 0 < (s.cache c).size
  perPage : ∀ c, (s.cache c).objectsPerPage * (s.cache c).size ≤ 4096
  slab : ∀ p c, (s.page p).slabCache = some c →
    Usable E p ∧ (s.page p).objects = (s.cache c).objectsPerPage ∧ (s.page p).flags = PG_slab

namespace Shape

variable {E : Env} {s : State ι κ} {c c' : ι} {p p' o o' : ℕ}

section
variable (h : Shape E s)
include h

theorem slot_bounds (ho : IsSlot E s c p o) :
    E.base p ≤ o ∧ o + (s.cache c).size ≤ E.base p + 4096 := by
  obtain ⟨-, i, hi, rfl⟩ := ho
  have hfit : (i + 1) * (s.cache c).size ≤ 4096 :=
    le_trans (mul_le_mul_right _ hi) (h.perPage c)
  rw [add_mul, one_mul] at hfit
  omega

theorem size_ge (c : ι) : 8 ≤ (s.cache c).size := le_of_dvd (h.size_pos c) (h.size_dvd c)

section
variable (ho : IsSlot E s c p o)
include ho

theorem slot_usable : Usable E p := (h.slab p c ho.1).1

theorem slot_dvd : 8 ∣ o := by
  obtain ⟨hp, i, -, rfl⟩ := ho
  have hb := (base_bounds (h.slab p c hp).1).1
  have hs : 8 ∣ i * (s.cache c).size := Dvd.dvd.mul_left (h.size_dvd c) i
  omega

theorem slot_pos : o ≠ 0 := by
  have hb := (h.slot_bounds ho).1
  have := (h.slot_usable ho).2
  omega

theorem slot_lt : o < 256 ^ 8 := by
  have hb := (h.slot_bounds ho).2
  have hb' := (base_bounds (h.slot_usable ho)).2
  have := h.size_pos c
  norm_num at hb' ⊢
  omega

theorem ptrToPage_slot : ptrToPage E o = some p := by
  have hb := h.slot_bounds ho
  have := h.size_pos c
  exact ptrToPage_eq (h.slot_usable ho) hb.1 (by omega)

theorem slot_unique (ho' : IsSlot E s c' p' o) : p = p' ∧ c = c' := by
  have hp : p = p' := by
    have heq := h.ptrToPage_slot ho
    rw [h.ptrToPage_slot ho'] at heq
    exact (Option.some.inj heq).symm
  subst hp
  exact ⟨rfl, Option.some.inj (ho.1.symm.trans ho'.1)⟩

theorem slot_apart (ho' : IsSlot E s c' p' o') (hne : o ≠ o') :
    o + (s.cache c).size ≤ o' ∨ o' + (s.cache c').size ≤ o := by
  by_cases hp : p = p'
  · subst hp
    obtain rfl : c = c' := Option.some.inj (ho.1.symm.trans ho'.1)
    obtain ⟨-, i, -, rfl⟩ := ho
    obtain ⟨-, j, -, rfl⟩ := ho'
    rcases lt_trichotomy i j with hij | rfl | hij
    · have := mul_le_mul_right (s.cache c).size (show i + 1 ≤ j from hij)
      rw [add_mul, one_mul] at this
      omega
    · exact absurd rfl hne
    · have := mul_le_mul_right (s.cache c).size (show j + 1 ≤ i from hij)
      rw [add_mul, one_mul] at this
      omega
  · have hb := h.slot_bounds ho
    have hb' := h.slot_bounds ho'
    rcases base_apart (h.slot_usable ho) (h.slot_usable ho') hp with hd | hd <;> omega

end

end

end Shape

/-- Every object is at its place, and the freelists hold the objects of theirs. -/
structure Objects (E : Env) (live : ι → Set ℕ) (s : State ι κ) (L : Lists ι κ)
    (place : ℕ → Place κ) : Prop where
  cpuChain : ∀ c k, Chain (load 8 s.mem) 0 ((s.cache c).percpu k).freelist (L.cpu c k)
  pageChain : ∀ p c, (s.page p).slabCache = some c →
    Chain (load 8 s.mem) 0 (slubPtrUntag (s.page p).freelist) (L.page p)
  cpuNodup : ∀ c k, (L.cpu c k).Nodup
  pageNodup : ∀ p, (L.page p).Nodup
  mem_cpu : ∀ c k o, o ∈ L.cpu c k ↔ (∃ p, IsSlot E s c p o) ∧ place o = .cpu k
  mem_page : ∀ p o, o ∈ L.page p ↔ (∃ c, IsSlot E s c p o) ∧ place o = .page
  mem_live : ∀ c o, o ∈ live c ↔ (∃ p, IsSlot E s c p o) ∧ place o = .live
  inuse : ∀ p c, (s.page p).slabCache = some c →
    (s.page p).inuse = (s.page p).objects - (L.page p).length

/-- The states of the pages are those of the lists they are on. -/
structure Pages (E : Env) (s : State ι κ) (partials : ι → List ℕ) : Prop where
  chain : ∀ c, Chain (fun ptr => (s.page (E.pageOf ptr)).partialNext) 0
    (slubPtrUntag (s.cache c).partialList) ((partials c).map E.pagePtr)
  nodup : ∀ c, (partials c).Nodup
  mem_partials : ∀ c p, p ∈ partials c ↔
    (s.page p).slabCache = some c ∧ (s.page p).slabState = SLAB_PAGE_PARTIAL
  active : ∀ c k p, ((s.cache c).percpu k).page = some p →
    (s.page p).slabCache = some c ∧ (s.page p).slabState = SLAB_PAGE_CPU_ACTIVE
  active_unique : ∀ c k k' p, ((s.cache c).percpu k).page = some p →
    ((s.cache c).percpu k').page = some p → k = k'

/-- **The invariant of the allocator.** -/
structure Inv (E : Env) (live : ι → Set ℕ) (s : State ι κ) (L : Lists ι κ)
    (place : ℕ → Place κ) : Prop where
  shape : Shape E s
  objects : Objects E live s L place
  pages : Pages E s L.partials
  /-- The freelist of a CPU is cut from its active page. -/
  cpu_active : ∀ c k o, o ∈ L.cpu c k → ∃ p, ((s.cache c).percpu k).page = some p ∧ IsSlot E s c p o
  /-- A page on `partial_list` has an object to give. -/
  partial_free : ∀ c p, p ∈ L.partials c → L.page p ≠ []

end Intewell.Slub
