/-
# Whole runs of the slab allocator

The callers are recorded beside the allocator: `live c` are the objects of the
cache `c` that `kmem_cache_alloc` returned and `kmem_cache_free` has not taken
back.  A step is one of the two calls on some CPU, with any answer of
`alloc_page` that is no slab page, or a change of the memory that leaves the free
objects alone: the holders write to their objects, and everybody else to the rest
of the memory.
-/

import Intewell.Slub.Calls

namespace Intewell.Slub

open Bytes (Mem load store)
open Linked (Chain)
open SlabState Option

variable {ι κ : Type} [DecidableEq ι] [DecidableEq κ]

/-- The allocator and the objects that are held. -/
structure Sys (ι κ : Type) where
  st : State ι κ
  live : ι → Set ℕ

/-- One call, or a write to memory that is not a free object. -/
inductive Step (E : Env) : Sys ι κ → Sys ι κ → Prop where
  | alloc {s r st'} (c k pg) (hpg : Fresh E s.st pg)
      (h : kmemCacheAlloc E c k pg s.st = some (r, st')) :
      Step E s ⟨st', if r = 0 then s.live else hold s.live c r⟩
  | free {s st'} (c k o) (ho : o ∈ s.live c) (h : kmemCacheFree E c k o s.st = some st') :
      Step E s ⟨st', drop s.live c o⟩
  | write {s} (m : Mem) (hm : ∀ c p o a, IsSlot E s.st c p o → o ∉ s.live c → o ≤ a →
      a < o + (s.st.cache c).size → m a = s.st.mem a) : Step E s ⟨s.st.setMem m, s.live⟩

/-- Caches as `kmem_cache_init` leaves them, of objects of the given sizes: nothing
is held and no page is a slab page. -/
structure Start (size : ι → ℕ) (s : Sys ι κ) : Prop where
  cache : ∀ c, kmemCacheInit (size c) = some (s.st.cache c)
  page : ∀ p, (s.st.page p).slabCache = none
  live : ∀ c, s.live c = ∅

/-- The objects, the lists and the pages of a state agree; `L` spells the lists out
that the pointers of the state lead along. -/
structure Conserved (E : Env) (s : Sys ι κ) (L : Lists ι κ) : Prop where
  /-- `L.cpu c k` is the freelist of CPU `k`, `L.page p` that of the slab page `p`. -/
  cpuList : ∀ c k, Chain (load 8 s.st.mem) 0 ((s.st.cache c).percpu k).freelist (L.cpu c k)
  pageList : ∀ p c, (s.st.page p).slabCache = some c →
    Chain (load 8 s.st.mem) 0 (slubPtrUntag (s.st.page p).freelist) (L.page p)
  partialList : ∀ c, Chain (fun ptr => (s.st.page (E.pageOf ptr)).partialNext) 0
    (slubPtrUntag (s.st.cache c).partialList) ((L.partials c).map E.pagePtr)
  /-- No object is twice on a list. -/
  nodup : (∀ c k, (L.cpu c k).Nodup) ∧ (∀ p, (L.page p).Nodup) ∧ ∀ c, (L.partials c).Nodup
  /-- Only objects are held and listed. -/
  slots : (∀ c, ∀ o ∈ s.live c, ∃ p, IsSlot E s.st c p o) ∧
    (∀ c k, ∀ o ∈ L.cpu c k, ∃ p, IsSlot E s.st c p o) ∧
    ∀ p c, (s.st.page p).slabCache = some c → ∀ o ∈ L.page p, IsSlot E s.st c p o
  /-- Every object is held, or on the freelist of one CPU, or on that of its page. -/
  one : ∀ c p o, IsSlot E s.st c p o → (o ∈ s.live c ∧ (∀ k, o ∉ L.cpu c k) ∧ o ∉ L.page p) ∨
    (o ∉ s.live c ∧ (∃! k, o ∈ L.cpu c k) ∧ o ∉ L.page p) ∨
    (o ∉ s.live c ∧ (∀ k, o ∉ L.cpu c k) ∧ o ∈ L.page p)
  inuse : ∀ p c, (s.st.page p).slabCache = some c →
    (s.st.page p).inuse = (s.st.page p).objects - (L.page p).length
  /-- The pages in state `PARTIAL` are those of `partial_list`. -/
  partials : ∀ c p, p ∈ L.partials c ↔
    (s.st.page p).slabCache = some c ∧ (s.st.page p).slabState = SLAB_PAGE_PARTIAL
  active : ∀ c k p, ((s.st.cache c).percpu k).page = some p →
    (s.st.page p).slabState = SLAB_PAGE_CPU_ACTIVE

/-- `kmem_cache_alloc` returns, an object it returns is held by nobody, and a page
passed to `free_slab_page` on the way has no object that is held. -/
def AllocSound (E : Env) (s : Sys ι κ) : Prop :=
  ∀ c k pg, Fresh E s.st pg → ∃ r st', kmemCacheAlloc E c k pg s.st = some (r, st') ∧
    (r ≠ 0 → (∀ c', r ∉ s.live c') ∧ ∃ p, IsSlot E st' c p r) ∧
    ∃ ps, st'.freed = s.st.freed ++ ps ∧ ∀ q ∈ ps, ∀ c', ∀ o ∈ s.live c', ptrToPage E o ≠ some q

/-- `kmem_cache_free` of an object that is held returns and frees no page. -/
def FreeSound (E : Env) (s : Sys ι κ) : Prop :=
  ∀ c k, ∀ o ∈ s.live c, ∃ st', kmemCacheFree E c k o s.st = some st' ∧ st'.freed = s.st.freed

/-- The invariant of the runs. -/
def SysInv (E : Env) (s : Sys ι κ) : Prop := ∃ L place, Inv E s.live s.st L place

namespace SysInv

variable {E : Env} {s s' : Sys ι κ}

section
variable (h : SysInv E s)
include h

omit [DecidableEq ι] [DecidableEq κ] in
theorem conserved : ∃ L, Conserved E s L := by
  obtain ⟨L, place, hinv⟩ := h
  have hobj := hinv.objects
  refine ⟨L, hobj.cpuChain, hobj.pageChain, hinv.pages.chain,
    ⟨hobj.cpuNodup, hobj.pageNodup, hinv.pages.nodup⟩,
    ⟨fun c o ho => ((hobj.mem_live c o).1 ho).1, fun c k o ho => ((hobj.mem_cpu c k o).1 ho).1,
      fun p c hp o ho => ?_⟩, fun c p o ho => ?_, hobj.inuse, hinv.pages.mem_partials,
    fun c k p hp => (hinv.pages.active c k p hp).2⟩
  · obtain ⟨⟨c', hq⟩, -⟩ := (hobj.mem_page p o).1 ho
    exact some.inj (hq.1.symm.trans hp) ▸ hq
  · have hlive : o ∈ s.live c ↔ place o = .live := by
      rw [hobj.mem_live]
      exact and_iff_right ⟨p, ho⟩
    have hcpu : ∀ k, o ∈ L.cpu c k ↔ place o = .cpu k := fun k => by
      rw [hobj.mem_cpu]
      exact and_iff_right ⟨p, ho⟩
    have hpage : o ∈ L.page p ↔ place o = .page := by
      rw [hobj.mem_page]
      exact and_iff_right ⟨c, ho⟩
    rw [hlive, hpage]
    simp only [hcpu]
    cases hcase : place o with
    | live => simp
    | cpu k => simp
    | page => simp

theorem allocSound : AllocSound E s := by
  intro c k pg hpg
  obtain ⟨L, place, hinv⟩ := h
  obtain ⟨r, st', hcall, hkept, halloc⟩ := hinv.kmemCacheAlloc_spec c k hpg
  obtain ⟨ps, hps, hno⟩ := hkept.freed
  refine ⟨r, st', hcall, fun hr => ?_, ps, hps, fun q hq c' o ho hpt => ?_⟩
  · obtain ⟨hr', -⟩ | ⟨-, hlive, L', place', hinv'⟩ := halloc
    · exact absurd hr' hr
    · exact ⟨hlive, ((hinv'.objects.mem_live c r).1 (mem_hold.2 (Or.inl ⟨rfl, rfl⟩))).1⟩
  · obtain ⟨⟨p, hslot⟩, -⟩ := (hinv.objects.mem_live c' o).1 ho
    rw [hinv.shape.ptrToPage_slot hslot] at hpt
    exact hno q hq c' o (some.inj hpt ▸ hslot)

theorem freeSound : FreeSound E s := by
  intro c k o ho
  obtain ⟨L, place, hinv⟩ := h
  obtain ⟨st', hcall, hfreed, -⟩ := hinv.kmemCacheFree_spec k ho
  exact ⟨st', hcall, hfreed⟩

omit [DecidableEq ι] [DecidableEq κ] in
/-- A write that spares the free objects spares the freelists. -/
theorem setMem {m : Mem}
    (hm : ∀ c p o a, IsSlot E s.st c p o → o ∉ s.live c → o ≤ a → a < o + (s.st.cache c).size →
      m a = s.st.mem a) :
    SysInv E ⟨s.st.setMem m, s.live⟩ := by
  obtain ⟨L, place, hinv⟩ := h
  have hobj := hinv.objects
  have hload : ∀ c p o, IsSlot E s.st c p o → o ∉ s.live c → load 8 m o = load 8 s.st.mem o :=
    fun c p o ho hno => Bytes.load_congr fun a ha ha' =>
      hm c p o a ho hno ha (by have := hinv.shape.size_ge c; omega)
  have hcpu : ∀ c k, Chain (load 8 m) 0 ((s.st.cache c).percpu k).freelist (L.cpu c k) := fun c k =>
    (hobj.cpuChain c k).congr fun o ho => by
      obtain ⟨⟨p, hslot⟩, -⟩ := (hobj.mem_cpu c k o).1 ho
      exact hload c p o hslot (hobj.not_live_of_cpu ho c)
  have hpage : ∀ p c, (s.st.page p).slabCache = some c →
      Chain (load 8 m) 0 (slubPtrUntag (s.st.page p).freelist) (L.page p) := fun p c hp =>
    (hobj.pageChain p c hp).congr fun o ho => by
      obtain ⟨⟨c', hslot⟩, -⟩ := (hobj.mem_page p o).1 ho
      exact hload c' p o hslot (hobj.not_live_of_page ho c')
  exact ⟨L, place, ⟨hinv.shape.size_dvd, hinv.shape.size_pos, hinv.shape.perPage, hinv.shape.slab⟩,
    ⟨hcpu, hpage, hobj.cpuNodup, hobj.pageNodup, hobj.mem_cpu, hobj.mem_page, hobj.mem_live,
      hobj.inuse⟩, ⟨hinv.pages.chain, hinv.pages.nodup, hinv.pages.mem_partials, hinv.pages.active,
      hinv.pages.active_unique⟩, hinv.cpu_active, hinv.partial_free⟩

theorem step (hs : Step E s s') : SysInv E s' := by
  cases hs with
  | alloc c k pg hpg hcall =>
    obtain ⟨L, place, hinv⟩ := h
    obtain ⟨r, st', hcall', -, halloc⟩ := hinv.kmemCacheAlloc_spec c k hpg
    rw [hcall] at hcall'
    cases hcall'
    obtain ⟨hr, L', place', hinv'⟩ | ⟨hr, -, L', place', hinv'⟩ := halloc
    · exact ⟨L', place', by simpa only [hr, if_true] using hinv'⟩
    · exact ⟨L', place', by simpa only [hr, if_false] using hinv'⟩
  | free c k o ho hcall =>
    obtain ⟨L, place, hinv⟩ := h
    obtain ⟨st', hcall', -, -, L', place', hinv'⟩ := hinv.kmemCacheFree_spec k ho
    rw [hcall] at hcall'
    cases hcall'
    exact ⟨L', place', hinv'⟩
  | write m hm => exact h.setMem hm

end

end SysInv

omit [DecidableEq ι] [DecidableEq κ] in
theorem Start.inv (E : Env) {size : ι → ℕ} {s : Sys ι κ} (h : Start size s) : SysInv E s := by
  have hinit : ∀ c, 0 < (s.st.cache c).size ∧ 8 ∣ (s.st.cache c).size ∧
      (s.st.cache c).objectsPerPage * (s.st.cache c).size ≤ 4096 ∧
      (∀ k, (s.st.cache c).percpu k = ⟨0, none⟩) ∧ slubPtrUntag (s.st.cache c).partialList = 0 := by
    intro c
    have hc := h.cache c
    simp only [kmemCacheInit] at hc
    split at hc
    · exact absurd hc (by simp)
    · rename_i hne
      rw [← some.inj hc]
      refine ⟨Nat.pos_of_ne_zero hne, by simp only; omega, ?_, fun _ => rfl, by simp⟩
      exact Nat.div_mul_le_self _ _
  have hslot : ∀ c p o, ¬IsSlot E s.st c p o := fun c p o ho => by
    simp [IsSlot, h.page] at ho
  refine ⟨⟨fun _ _ => [], fun _ => [], fun _ => []⟩, fun _ => .page,
    ⟨fun c => (hinit c).2.1, fun c => (hinit c).1, fun c => (hinit c).2.2.1, fun p c hp => ?_⟩,
    ⟨fun c k => ?_, fun p c hp => ?_, fun _ _ => List.nodup_nil, fun _ => List.nodup_nil,
      fun c k o => ?_, fun p o => ?_, fun c o => ?_, fun p c hp => ?_⟩,
    ⟨fun c => (hinit c).2.2.2.2, fun _ => List.nodup_nil, fun c p => ?_, fun c k p hp => ?_,
      fun c k k' p hp => ?_⟩, fun c k o ho => ?_, fun c p hp => ?_⟩
  · simp [h.page] at hp
  · exact congrArg KmemCacheCpu.freelist ((hinit c).2.2.2.1 k)
  · simp [h.page] at hp
  · simp [hslot]
  · simp [hslot]
  · simp [hslot, h.live]
  · simp [h.page] at hp
  · simp [h.page]
  · simp [(hinit c).2.2.2.1] at hp
  · simp [(hinit c).2.2.2.1] at hp
  · simp at ho
  · simp at hp

/-- **In every run each object is in one place.**  From caches set up by
`kmem_cache_init`, for any number of caches and CPUs and after any calls of
`kmem_cache_alloc` and `kmem_cache_free`: every object of every slab page is held,
or on the freelist of exactly one CPU, or on that of its page; the counts, the
states and `partial_list` agree; and no call hands out an object that is held or
gives a page with such an object back. -/
theorem slub_runs (E : Env) (size : ι → ℕ) (s₀ s : Sys ι κ) (h₀ : Start size s₀)
    (hrun : Relation.ReflTransGen (Step E) s₀ s) :
    (∃ L, Conserved E s L) ∧ AllocSound E s ∧ FreeSound E s := by
  have hinv : SysInv E s := by
    induction hrun with
    | refl => exact h₀.inv E
    | tail _ hs ih => exact ih.step hs
  exact ⟨hinv.conserved, hinv.allocSound, hinv.freeSound⟩

/-- A memory of one page. -/
def onePage : Env where
  present f := decide (f = 1)
  present_lt f hf := by simp only [decide_eq_true_eq] at hf; omega
  minLowPfn := 1
  maxLowPfn := 1
  pvOffset := 0
  pvOffset_aligned := dvd_zero _
  vpageStart := 8
  vpageStart_pos := by decide
  vpageStart_aligned := dvd_refl _

/-- One cache of objects of 2048 bytes, for two CPUs. -/
def newCache : Sys Unit Bool where
  st :=
    { mem := fun _ => 0
      page := fun _ => ⟨0, 0, none, none, 0, 0, SLAB_PAGE_FREE, 0⟩
      cache := fun _ => ⟨fun _ => ⟨0, none⟩, 2048, 2048, 2, 0, 0, 0, 0, 0⟩
      freed := [] }
  live := fun _ => ∅

theorem onePage_usable : Usable onePage 1 := ⟨rfl, by decide⟩

/-- A run that hands an object out. -/
theorem slub_runs_onePage :
    ∃ s, Relation.ReflTransGen (Step onePage) newCache s ∧ 4096 ∈ s.live () ∧
      (∃ L, Conserved onePage s L) ∧ AllocSound onePage s ∧ FreeSound onePage s := by
  have hfresh : Fresh onePage newCache.st (some 1) := fun p hp => by
    cases hp
    exact ⟨onePage_usable, rfl⟩
  have hobj : (kmemCacheAlloc onePage () true (some 1) newCache.st).map Prod.fst = some 4096 := by
    decide
  obtain ⟨⟨r, st⟩, hcall, rfl⟩ := map_eq_some_iff.1 hobj
  have hstep := Relation.ReflTransGen.single (Step.alloc () true (some 1) hfresh hcall)
  exact ⟨_, hstep, by simp [hold], slub_runs onePage (fun _ => 2048) newCache _
    ⟨fun _ => rfl, fun _ => rfl, fun _ => rfl⟩ hstep⟩

end Intewell.Slub
