/-
# The calls of the slab allocator

`kmem_cache_alloc` and `kmem_cache_free`, composed from the moves of objects and
pages: each call returns and keeps the invariant, with the object that was handed
out or given back at its new place.
-/

import Intewell.Slub.Pages

namespace Intewell.Slub

open State Option List
open Bytes (Mem load store)
open Linked (Chain)
open SlabState

variable {ι κ : Type} [DecidableEq ι] [DecidableEq κ] {E : Env} {live : ι → Set ℕ}
  {s s' : State ι κ} {L : Lists ι κ} {place : ℕ → Place κ} {c : ι} {k : κ} {p o : ℕ}

/-- What a call leaves alone.  The pages that went back to the page allocator had no
objects; of the memory only `W` changed, and of the descriptors those of slab pages
and of `P`. -/
structure Kept (E : Env) (W P : Set ℕ) (s s' : State ι κ) : Prop where
  freed : ∃ ps, s'.freed = s.freed ++ ps ∧ ∀ q ∈ ps, ∀ c o, ¬IsSlot E s c q o
  mem : ∀ a, a ∉ W → s'.mem a = s.mem a
  page : ∀ q, (s.page q).slabCache = none → q ∉ P → s'.page q = s.page q
  shape : ∀ c, (s'.cache c).shape = (s.cache c).shape

namespace Kept

variable {W P : Set ℕ}

omit [DecidableEq ι] [DecidableEq κ]

theorem refl (W P : Set ℕ) (s : State ι κ) : Kept E W P s s :=
  ⟨⟨[], by simp, by simp⟩, fun _ _ => rfl, fun _ _ _ => rfl, fun _ => rfl⟩

section
variable (h : Kept E W P s s')
include h

theorem setMem {m : Mem} (hm : ∀ a, a ∉ W → m a = s.mem a) :
    Kept E W P s (s'.setMem m) := ⟨h.freed, hm, h.page, h.shape⟩

theorem setPage (p : ℕ) {f : SlabPage ι κ → SlabPage ι κ}
    (hp : (s.page p).slabCache ≠ none ∨ p ∈ P) :
    Kept E W P s (s'.setPage p f) where
  freed := h.freed
  mem := h.mem
  page q hq hpg := by
    have hqp : q ≠ p := by
      rintro rfl
      exact hp.elim (fun hp => hp hq) hpg
    rw [setPage_page, if_neg hqp]
    exact h.page q hq hpg
  shape := h.shape

theorem setCache [DecidableEq ι] (c : ι) {f : KmemCache κ → KmemCache κ}
    (hf : ∀ g, (f g).shape = g.shape) : Kept E W P s (s'.setCache c f) where
  freed := h.freed
  mem := h.mem
  page := h.page
  shape c' := (s'.setCache_keeps c c' f KmemCache.shape (hf _)).trans (h.shape c')

theorem setCpu [DecidableEq ι] [DecidableEq κ] (c : ι) (k : κ) (f : KmemCacheCpu → KmemCacheCpu) :
    Kept E W P s (s'.setCpu c k f) := h.setCache c fun _ => rfl

theorem mono {W' P' : Set ℕ} (hW : W ⊆ W') (hP : P ⊆ P') : Kept E W' P' s s' :=
  ⟨h.freed, fun a ha => h.mem a fun hw => ha (hW hw), fun q hq hp => h.page q hq fun hp' =>
    hp (hP hp'),
    h.shape⟩

end

/-- A call that wrote no memory and took no page. -/
theorem weaken (h : Kept E ∅ ∅ s s') (W P : Set ℕ) : Kept E W P s s' :=
  h.mono (Set.empty_subset W) (Set.empty_subset P)

section
variable (h : Kept E W P s s')
include h

theorem trans {s'' : State ι κ} (h' : Kept E W P s' s'')
    (hs : ∀ c q o, IsSlot E s c q o → IsSlot E s' c q o) : Kept E W P s s'' where
  freed := by
    obtain ⟨ps, hps, hno⟩ := h.freed
    obtain ⟨ps', hps', hno'⟩ := h'.freed
    refine ⟨ps ++ ps', by rw [hps', hps, append_assoc], fun q hq c o ho => ?_⟩
    rcases mem_append.1 hq with hq | hq
    · exact hno q hq c o ho
    · exact hno' q hq c o (hs c q o ho)
  mem a ha := (h'.mem a ha).trans (h.mem a ha)
  page q hq hp := by
    have hkeep := h.page q hq hp
    exact (h'.page q (by rw [hkeep]; exact hq) hp).trans hkeep
  shape c := (h'.shape c).trans (h.shape c)

section
variable [DecidableEq ι] (c : ι) {p : ℕ} (hp : (s.page p).slabCache ≠ none ∨ p ∈ P)
include hp

theorem setActive [DecidableEq κ] (k : κ) (x : Option ℕ) (y : Option (ι × κ)) (st : SlabState) :
    Kept E W P s (setActive c k x p y st s') := (h.setCpu c k _).setPage p hp

theorem stealFreelist [DecidableEq κ] (k : κ) : Kept E W P s (stealFreelist c k p s') := by
  unfold Slub.stealFreelist
  exact ((h.setPage p hp).setCpu c k _).setPage p hp

theorem popped : Kept E W P s (popped c p s') := by
  unfold Slub.popped
  refine Kept.setPage (Kept.setCache h c ?_) p hp
  exact fun _ => rfl

theorem pagePushToPartial : Kept E W P s (pagePushToPartial E c p s').2 := by
  by_cases hst : (s'.page p).slabState = SLAB_PAGE_FULL
  · simp only [Slub.pagePushToPartial, pageTrySetState, hst, ne_eq, not_true_eq_false, if_false,
      if_true]
    refine Kept.setCache (Kept.setPage (Kept.setPage h p hp) p hp) c ?_
    exact fun _ => rfl
  · simp only [Slub.pagePushToPartial, hst, ne_eq, not_false_eq_true, if_true]
    exact h

end

theorem freeSlabPage [DecidableEq ι] (c : ι) {a : ℕ} (ha : (s.page a).slabCache ≠ none)
    (hno : ∀ c o, ¬IsSlot E s c a o) : Kept E W P s (freeSlabPage c a s') := by
  have hset := Kept.setCache (Kept.setPage h a (.inl ha) (f := fun g =>
    { g with
      slabState := SLAB_PAGE_FREE
      flags := g.flags - g.flags % 2
      slabCache := none
      cpuCache := none
      freelist := 0
      inuse := 0
      objects := 0 })) c (f := fun g => { g with pageCount := g.pageCount - 1 }) fun _ => rfl
  obtain ⟨ps, hps, hempty⟩ := hset.freed
  refine ⟨⟨ps ++ [a], ?_, fun q hq c' o => ?_⟩, hset.mem, hset.page, hset.shape⟩
  · rw [← append_assoc, ← hps]
    rfl
  · rcases mem_append.1 hq with hq | hq
    · exact hempty q hq c' o
    · rw [mem_singleton.1 hq]
      exact hno c' o

end

end Kept

/-- The bytes of the page that a call was given, if any. -/
def given (E : Env) (pg : Option ℕ) : Set ℕ :=
  {a | ∃ p, pg = some p ∧ E.base p ≤ a ∧ a < E.base p + 4096}

omit [DecidableEq ι] [DecidableEq κ] in
theorem Inv.cpu_null (h : Inv E live s L place) :
    ((s.cache c).percpu k).freelist = 0 ↔ L.cpu c k = [] := (h.objects.cpuChain c k).eq_null_iff

theorem returnObjects_null (h : ((s.cache c).percpu k).freelist = 0) (a : ℕ) :
    returnObjects c k a ROUNDS s = some s := by
  rw [show ROUNDS = (2 ^ 64 - 1) + 1 from rfl, returnObjects, if_pos h]

section
variable (s : State ι κ) (c : ι) (k : κ) {p a : ℕ} (hne : a ≠ p) (y : Option (ι × κ))
  (st : SlabState)
include hne

theorem setActive_setPage (f : SlabPage ι κ → SlabPage ι κ) :
    (setActive c k (some p) p y st s).setPage a f =
    setActive c k (some p) p y st (s.setPage a f) := by
  simp only [setActive, setPage, setCpu, setCache, Function.update_of_ne hne,
    Function.update_of_ne hne.symm, Function.update_comm hne]

/-- The page that was active before is let go first, the new one attached after. -/
theorem setActive_setActive :
    ((setActive c k (some p) p y st s).setPage a fun g => { g with cpuCache := none }).setPage a
      (fun g => { g with slabState := SLAB_PAGE_FULL }) =
    setActive c k (some p) p y st (setActive c k none a none SLAB_PAGE_FULL s) := by
  rw [setActive_setPage s c k hne, setActive_setPage _ c k hne]
  simp [setActive, setPage, setCpu, setCache]

theorem setActive_freeSlabPage :
    freeSlabPage c a ((setActive c k (some p) p y st s).setPage a fun g =>
      { g with cpuCache := none }) =
    setActive c k (some p) p y st (freeSlabPage c a
      (setActive c k none a none SLAB_PAGE_FULL s)) := by
  simp only [freeSlabPage]
  rw [setActive_setPage s c k hne, setActive_setPage _ c k hne]
  simp [setActive, setPage, setCpu, setCache]

end

section
variable (h : Inv E live s L place)
include h

/-- `cpu_slab_set_active_page` for a CPU that has run out of objects. -/
theorem Inv.cpuSlabSetActivePage_spec (hempty : L.cpu c k = [])
    (hac : ∀ a, ((s.cache c).percpu k).page = some a → L.page a = [])
    (hpc : (s.page p).slabCache = some c) (ha : (s.page p).slabState ≠ SLAB_PAGE_CPU_ACTIVE)
    (hpt : (s.page p).slabState ≠ SLAB_PAGE_PARTIAL) :
    ∃ s' L' place', cpuSlabSetActivePage E c k p s = some s' ∧ Inv E live s' L' place' ∧
      Kept E ∅ ∅ s s' := by
  have hslab : (s.page p).slabCache ≠ none := by simp [hpc]
  have hnot := h.pages.not_active ha
  have hattach : ∀ {t : State ι κ}, Inv E live t L place → (t.page p).slabCache = some c →
      (t.page p).slabState ≠ SLAB_PAGE_PARTIAL → (∀ c' k', ((t.cache c').percpu k').page ≠ some p) →
      ∃ L' place', Inv E live (stealFreelist c k p (setActive c k (some p) p (some (c, k))
        SLAB_PAGE_CPU_ACTIVE t)) L' place' := by
    intro t ht hpc hpt hnot
    have hset := ht.activate (some (c, k)) hempty hpt
      (show SLAB_PAGE_CPU_ACTIVE ≠ SLAB_PAGE_PARTIAL by simp)
      (fun c' k' hp => absurd hp (hnot c' k'))
      (fun q hq => ⟨(some.inj hq).symm, hpc, rfl⟩)
    exact ⟨_, _, hset.steal hempty (by simp [setActive, setCpu_percpu])⟩
  rw [cpuSlabSetActivePage]
  simp only [if_neg (hnot c k)]
  cases hact : ((s.cache c).percpu k).page with
  | none =>
    obtain ⟨L', place', hinv⟩ := hattach h hpc hpt hnot
    exact ⟨_, L', place', rfl, hinv,
      ((Kept.refl ∅ ∅ s).setActive c (.inl hslab) k (some p) _ _).stealFreelist c (.inl hslab) k⟩
  | some a =>
    have hne : a ≠ p := fun hap => hnot c k (hap ▸ hact)
    obtain ⟨hasc, hast⟩ := h.pages.active c k a hact
    have haslab : (s.page a).slabCache ≠ none := by simp [hasc]
    have hkept := (Kept.refl (E := E) ∅ ∅ s).setActive c (.inl haslab) k none none SLAB_PAGE_FULL
    -- the old page has no object on its list, so that all of them are in use
    have hfull : (s.page a).inuse = (s.page a).objects := by
      rw [h.objects.inuse a c hasc, hac a hact]
      simp
    have hdetach := h.activate (x := none) none hempty
      (show (s.page a).slabState ≠ SLAB_PAGE_PARTIAL by simp [hast])
      (show SLAB_PAGE_FULL ≠ SLAB_PAGE_PARTIAL by simp)
      (fun c' k' hp => by
        obtain rfl : c' = c := some.inj ((h.pages.active c' k' a hp).1.symm.trans hasc)
        exact ⟨rfl, h.pages.active_unique c' k' k a hp hact⟩)
      (fun q hq => absurd hq (by simp))
    have hpage : ((setActive c k none a none SLAB_PAGE_FULL s).page p) = s.page p := by
      simp [setActive, setPage_page, Ne.symm hne]
    have hnot' : ∀ c' k', (((setActive c k none a none SLAB_PAGE_FULL s).cache c').percpu k').page ≠
        some p := fun c' k' => by
      simp only [setActive, setPage_cache, setCpu_percpu]
      split
      · simp
      · exact hnot c' k'
    have hnull : (((setActive c k (some p) p (some (c, k)) SLAB_PAGE_CPU_ACTIVE s).cache c).percpu
        k).freelist = 0 := by
      simp only [setActive, setPage_cache, setCpu_percpu, and_self, if_true]
      exact h.cpu_null.2 hempty
    have hretire := returnObjects_null hnull a
    simp only [setActive] at hretire
    simp only [retirePage, hretire, map_some]
    have hold : ((s.setCpu c k fun u => { u with page := some p }).setPage p fun g =>
        { g with cpuCache := some (c, k), slabState := SLAB_PAGE_CPU_ACTIVE }).page a =
          s.page a := by
      simp [setPage_page, hne]
    simp only [setPage_page_self, hold, hfull, lt_irrefl, if_false]
    split_ifs with hzero
    · have hnone : (s.cache c).objectsPerPage = 0 := by
        rw [← (h.shape.slab a c hasc).2.1]
        exact_mod_cast hzero
      have hrel := hdetach.release (p := a) (by simpa [setActive] using hasc)
        (by simpa [setActive] using hnone) (by simp [setActive]) (by simp [setActive])
      have hpage' : (freeSlabPage c a (setActive c k none a none SLAB_PAGE_FULL s)).page p = _ :=
        Eq.trans (by simp [freeSlabPage, setPage_page, Ne.symm hne]) hpage
      obtain ⟨L', place', hinv⟩ := hattach hrel (by rw [hpage']; exact hpc)
        (by rw [hpage']; exact hpt)
        fun c' k' => by
          rw [freeSlabPage, setCache_keeps _ c c' _ (·.percpu) rfl]
          exact hnot' c' k'
      have hno : ∀ c' o, ¬IsSlot E s c' a o := fun c' o ho => by
        cases hasc.symm.trans ho.1
        obtain ⟨-, i, hi, -⟩ := ho
        omega
      exact ⟨_, L', place', by rw [← setActive_freeSlabPage s c k hne]; rfl, hinv,
        ((hkept.freeSlabPage c haslab hno).setActive c (.inl hslab) k (some p) _ _).stealFreelist c
          (.inl hslab) k⟩
    · obtain ⟨L', place', hinv⟩ := hattach hdetach (by rw [hpage]; exact hpc)
        (by rw [hpage]; exact hpt) hnot'
      exact ⟨_, L', place', by rw [← setActive_setActive s c k hne]; rfl, hinv,
        (hkept.setActive c (.inl hslab) k (some p) _ _).stealFreelist c (.inl hslab) k⟩

section

omit [DecidableEq ι] [DecidableEq κ]

theorem allocFromPage_cons (hpc : (s.page p).slabCache = some c) {t : List ℕ}
    (hl : L.page p = o :: t) :
    o ≠ 0 ∧ allocFromPage p s = (o, s.setPage p fun g => { g with
      freelist := slubPtrIncTag (load 8 s.mem o) (s.page p).freelist
      inuse := g.inuse + 1 }) := by
  have hchain := h.objects.pageChain p c hpc
  rw [hl] at hchain
  obtain ⟨hhead, hne, -⟩ := hchain
  exact ⟨hne, by simp [allocFromPage, hhead, hne]⟩

theorem allocFromPage_nil (hpc : (s.page p).slabCache = some c) (hl : L.page p = []) :
    allocFromPage p s = (0, s) := by
  have hchain := h.objects.pageChain p c hpc
  rw [hl] at hchain
  simp [allocFromPage, show slubPtrUntag (s.page p).freelist = 0 from hchain]

end

/-- A page that an object was taken from is put where its free objects belong. -/
theorem Inv.settlePage_spec (hempty : L.cpu c k = [])
    (hac : ∀ a, ((s.cache c).percpu k).page = some a → L.page a = [])
    (hpc : (s.page p).slabCache = some c) (hst : (s.page p).slabState = SLAB_PAGE_FULL) :
    ∃ s' L' place', settlePage E c k p s = some s' ∧ Inv E live s' L' place' ∧ Kept E ∅ ∅ s s' := by
  have hslab : (s.page p).slabCache ≠ none ∨ p ∈ (∅ : Set ℕ) := by simp [hpc]
  have hfull := h.setState (p := p) (by simp [hst]) (by simp [hst])
    (show SLAB_PAGE_FULL ≠ SLAB_PAGE_PARTIAL by simp)
  rw [settlePage]
  split
  · exact ⟨_, L, place, rfl, hfull, Kept.setPage (Kept.refl ∅ ∅ s) p hslab⟩
  · rename_i hinuse
    split
    · exact h.cpuSlabSetActivePage_spec hempty hac hpc (by simp [hst]) (by simp [hst])
    · have hfree : L.page p ≠ [] := fun hnil => by
        have := h.objects.inuse p c hpc
        simp [hnil] at this
        exact hinuse this
      obtain ⟨hinv, -⟩ := hfull.pushPartial (by simpa using hpc) (by simp) hfree
      exact ⟨_, _, place, rfl, hinv, Kept.pagePushToPartial (Kept.setPage (Kept.refl ∅ ∅ s) p hslab)
        c hslab⟩

end

/-- What a call of the slow path does: it returns, with an object that no caller
holds or with none. -/
def Allocated (E : Env) (live : ι → Set ℕ) (c : ι) (pg : Option ℕ) (s : State ι κ) (r : ℕ)
    (s' : State ι κ) : Prop :=
  Kept E (given E pg) {p | pg = some p} s s' ∧
    ((r = 0 ∧ ∃ L' place', Inv E live s' L' place') ∨
      (r ≠ 0 ∧ (∀ c', r ∉ live c') ∧ ∃ L' place', Inv E (hold live c r) s' L' place'))

open SameShape

/-- The slow path with a page on `partial_list`. -/
theorem Inv.slowpathPartial_cons (h : Inv E live s L place) (hempty : L.cpu c k = [])
    (hac : ∀ a, ((s.cache c).percpu k).page = some a → L.page a = []) {t : List ℕ}
    (hl : L.partials c = p :: t) (n : ℕ) :
    ∃ r s', slowpathPartial E c k (n + 1) s = some (some r, s') ∧
      Allocated E live c none s r s' := by
  obtain ⟨hpop, hinv⟩ := h.popPartial hl
  obtain ⟨o, l, hol⟩ := exists_cons_of_ne_nil (h.partial_free c p (by simp [hl]))
  obtain ⟨hpc, hst⟩ := (h.pages.mem_partials c p).1 (by simp [hl])
  have hpc' : ((popped c p s).page p).slabCache = some c := by simpa [popped] using hpc
  have hst' : ((popped c p s).page p).slabState = SLAB_PAGE_FULL := by simp [popped]
  obtain ⟨hne, halloc⟩ := allocFromPage_cons hinv hpc' hol
  have htake := hinv.takePage hpc' (hinv.pages.not_partial (by simp [hst']) c) hol
  have hlist : ∀ a, ((s.cache c).percpu k).page = some a →
      ((L.setPartials c t).setPage p l).page a = [] := fun a ha => by
    have hap : a ≠ p := fun hap => by
      have := (h.pages.active c k a ha).2
      rw [hap, hst] at this
      exact absurd this (by simp)
    simp only [Lists.setPage, if_neg hap]
    exact hac a ha
  obtain ⟨s', L', place', hsettle, hinv', hkept⟩ := htake.settlePage_spec (p := p) hempty
    (fun a ha => hlist a (by rw [← popped_percpu s c c p]; exact ha)) (by simpa using hpc')
    (by simpa using hst')
  refine ⟨o, countSlowAlloc c s', ?_, ?_,
    .inr ⟨hne, h.objects.not_live_of_page (p := p) (by simp [hol]), L',
    place', hinv'.count c fun _ => ⟨rfl, rfl, rfl, rfl⟩⟩⟩
  · rw [slowpathPartial, hpop]
    simp only [bind_some]
    rw [halloc]
    simp only [if_neg hne]
    rw [hsettle, map_some]
  · have hslab : (s.page p).slabCache ≠ none ∨ p ∈ (∅ : Set ℕ) := by simp [hpc]
    refine Kept.setCache (Kept.weaken (Kept.trans (Kept.setPage ((Kept.refl ∅ ∅ s).popped c hslab) p
      hslab) hkept fun c' q x hx => (isSlot_iff ?_ c' q x).2 hx) _ _) c fun _ => rfl
    exact setPage (popped_sameShape s c p) p fun _ => ⟨rfl, rfl, rfl⟩

/-- What `alloc_page()` may answer: no page, or a page of the linear map that is no
slab page. -/
def Fresh (E : Env) (s : State ι κ) (pg : Option ℕ) : Prop :=
  ∀ p, pg = some p → Usable E p ∧ (s.page p).slabCache = none

section
variable (h : Inv E live s L place)
include h

section
variable (hempty : L.cpu c k = []) (hac : ∀ a, ((s.cache c).percpu k).page = some a → L.page a = [])
include hempty hac

/-- A new page is cut, gives an object and becomes the active page. -/
theorem Inv.newPage (hu : Usable E p) (hfresh : (s.page p).slabCache = none) :
    let s1 := (initPageFreelist E p c s).setCache c fun g => { g with pageCount := g.pageCount + 1 }
    ∃ s', (Slub.cpuSlabSetActivePage E c k p (allocFromPage p s1).2) = some s' ∧
      Allocated E live c (some p) s (allocFromPage p s1).1 s' := by
  intro s1
  have hinv : Inv E live s1 _ _ := (h.newSlab hu c hfresh).count c fun _ => ⟨rfl, rfl, rfl, rfl⟩
  have hpc : (s1.page p).slabCache = some c := by simp [s1, initPageFreelist]
  have hst : (s1.page p).slabState = SLAB_PAGE_FREE := by simp [s1, initPageFreelist]
  have hpercpu : ∀ c', (s1.cache c').percpu = (s.cache c').percpu := fun c' =>
    setCache_keeps _ c c' _ (·.percpu) rfl
  have hslots : ∀ c' q x, IsSlot E s c' q x → IsSlot E s1 c' q x := fun c' q x hx => by
    have hsame : SameShape (initPageFreelist E p c s) s1 :=
      setCache (refl _) c fun _ => ⟨rfl, rfl⟩
    have hqp : q ≠ p := fun hqp => by simp [IsSlot, hqp, hfresh] at hx
    refine (hsame.isSlot_iff c' q x).2 ?_
    simpa [IsSlot, initPageFreelist, setPage_page, hqp] using hx
  have hother : ∀ a, ((s1.cache c).percpu k).page = some a → a ≠ p ∧ L.page a = [] := fun a ha => by
    rw [hpercpu] at ha
    refine ⟨fun hap => ?_, hac a ha⟩
    have := (h.pages.active c k a ha).1
    simp [hap, hfresh] at this
  have hkept : Kept E (given E (some p)) {q | some p = some q} s s1 := by
    have hfit := h.shape.perPage c
    have hbound := (base_bounds hu).2
    have hmem : ∀ a, a ∉ given E (some p) → (initObjects (E.base p) (s.cache c).size
        (s.cache c).objectsPerPage 0 s.mem).2 a = s.mem a := fun a ha => by
      have hout : ¬(E.base p ≤ a ∧ a < E.base p + 4096) := fun hin => ha ⟨p, rfl, hin⟩
      exact (initObjects_spec (h.shape.size_ge c) hu.2 (by norm_num at hbound ⊢; omega) (l := [])
        le_rfl
        rfl (by norm_num) (by simp)).2 a (by omega)
    simp only [s1, initPageFreelist]
    refine Kept.setCache (Kept.setPage (Kept.setMem (Kept.refl _ _ s) hmem) p
      (.inr (show p ∈ {q | some p = some q} from rfl))) c ?_
    exact fun _ => rfl
  set l := newSlots E s c p with hl
  cases hcase : l with
  | nil =>
    have hlp : (L.setPage p l).page p = [] := by simp [Lists.setPage, hcase]
    rw [allocFromPage_nil hinv hpc hlp]
    obtain ⟨s', L', place', hset, hinv', hk⟩ := hinv.cpuSlabSetActivePage_spec hempty
      (fun a ha => by simp [Lists.setPage, hother a ha]) hpc (by simp [hst]) (by simp [hst])
    exact ⟨s', hset, hkept.trans (hk.weaken _ _) hslots, .inl ⟨rfl, L', place', hinv'⟩⟩
  | cons o t =>
    have hlp : (L.setPage p l).page p = o :: t := by simp [Lists.setPage, hcase]
    obtain ⟨hne, halloc⟩ := allocFromPage_cons hinv hpc hlp
    have htake := hinv.takePage hpc (hinv.pages.not_partial (by simp [hst]) c) hlp
    obtain ⟨s', L', place', hset, hinv', hk⟩ := htake.cpuSlabSetActivePage_spec (p := p)
      hempty (fun a ha => by simp [Lists.setPage, hother a ha]) (by simpa using hpc)
      (by simp [hst]) (by simp [hst])
    rw [halloc]
    refine ⟨s', hset, (Kept.setPage hkept p (.inr rfl)).trans (hk.weaken _ _) (fun c' q x hx => ?_),
      .inr ⟨hne, ?_, L', place', hinv'⟩⟩
    · have hsame : SameShape s1 (s1.setPage p fun g => { g with
          freelist := slubPtrIncTag (load 8 s1.mem o) (s1.page p).freelist
          inuse := g.inuse + 1 }) := setPage (refl _) p fun _ => ⟨rfl, rfl, rfl⟩
      exact (hsame.isSlot_iff c' q x).2 (hslots c' q x hx)
    · exact hinv.objects.not_live_of_page (p := p) (by simp [hlp])

/-- **The slow path returns, with an object that was free or with none.** -/
theorem Inv.kmemCacheAllocSlowpath_spec {pg : Option ℕ} (hpg : Fresh E s pg) :
    ∃ r s', kmemCacheAllocSlowpath E c k pg s = some (r, s') ∧ Allocated E live c pg s r s' := by
  obtain ⟨n, hn⟩ : ∃ n, ROUNDS = n + 1 := ⟨2 ^ 64 - 1, rfl⟩
  rw [kmemCacheAllocSlowpath, hn]
  rcases hl : L.partials c with _ | ⟨p, t⟩
  · have hchain := h.pages.chain c
    rw [hl] at hchain
    simp only [slowpathPartial, pagePopFromPartial,
      show slubPtrUntag (s.cache c).partialList = 0 from hchain, if_true, bind_some]
    cases pg with
    | none => exact ⟨0, s, rfl, Kept.refl _ _ s, .inl ⟨rfl, L, place, h⟩⟩
    | some p =>
      obtain ⟨hu, hfresh⟩ := hpg p rfl
      obtain ⟨s', hset, hkept, halloc⟩ := h.newPage hempty hac hu hfresh
      simp only [allocateSlabPage]
      rw [hset]
      refine ⟨_, _, rfl, Kept.setCache hkept c fun _ => rfl, halloc.imp ?_ ?_⟩
      · rintro ⟨hr, L', place', hinv⟩
        exact ⟨hr, L', place', hinv.count c fun _ => ⟨rfl, rfl, rfl, rfl⟩⟩
      · rintro ⟨hr, hno, L', place', hinv⟩
        exact ⟨hr, hno, L', place', hinv.count c fun _ => ⟨rfl, rfl, rfl, rfl⟩⟩
  · obtain ⟨r, s', hslow, hkept, halloc⟩ := h.slowpathPartial_cons hempty hac hl n
    rw [hslow]
    exact ⟨r, s', rfl, hkept.mono (by simp [given]) (by simp), halloc⟩

end

/-- **`kmem_cache_alloc` returns, with an object that no caller holds or with none.** -/
theorem Inv.kmemCacheAlloc_spec (c : ι) (k : κ) {pg : Option ℕ} (hpg : Fresh E s pg) :
    ∃ r s', kmemCacheAlloc E c k pg s = some (r, s') ∧ Allocated E live c pg s r s' := by
  set s1 := s.setCache c fun g => { g with allocCount := g.allocCount + 1 } with hs1
  have hinv : Inv E live s1 L place := h.count c fun _ => ⟨rfl, rfl, rfl, rfl⟩
  have hsame : SameShape s s1 := setCache (refl s) c fun _ => ⟨rfl, rfl⟩
  have hkept : Kept E (given E pg) {p | pg = some p} s s1 :=
    Kept.setCache (Kept.refl _ _ s) c fun _ => rfl
  rw [kmemCacheAlloc]
  simp only [← hs1]
  by_cases hnull : ((s1.cache c).percpu k).freelist = 0
  · have hempty := hinv.cpu_null.1 hnull
    rw [if_neg (by simpa using hnull)]
    have hslow : (∀ a, ((s1.cache c).percpu k).page = some a → L.page a = []) →
        ∃ r s', kmemCacheAllocSlowpath E c k pg s1 = some (r, s') ∧
          Allocated E live c pg s r s' := by
      intro hac
      obtain ⟨r, s', hslow, hk, halloc⟩ := hinv.kmemCacheAllocSlowpath_spec hempty hac hpg
      exact ⟨r, s', hslow, hkept.trans hk fun c' q x hx => (hsame.isSlot_iff c' q x).2 hx, halloc⟩
    cases hact : ((s1.cache c).percpu k).page with
    | none => exact hslow fun a ha => by simp [hact] at ha
    | some p =>
      obtain ⟨hpc, hst⟩ := hinv.pages.active c k p hact
      cases hl : L.page p with
      | nil =>
        dsimp only
        rw [allocFromPage_nil hinv hpc hl]
        simp only [ne_eq, not_true_eq_false, if_false]
        exact hslow fun a ha => by rw [hact] at ha; rw [← some.inj ha]; exact hl
      | cons o t =>
        obtain ⟨hne, halloc⟩ := allocFromPage_cons hinv hpc hl
        dsimp only
        rw [halloc]
        simp only [ne_eq, hne, not_false_eq_true, if_true]
        exact ⟨o, _, rfl, Kept.setPage hkept p (.inl (by simpa [s1] using hpc ▸ some_ne_none c)),
          .inr ⟨hne, hinv.objects.not_live_of_page
          (p := p) (by simp [hl]), _, _,
          hinv.takePage hpc (hinv.pages.not_partial (by simp [hst]) c) hl⟩⟩
  · rw [if_pos hnull]
    obtain ⟨t, hl, -⟩ := (hinv.objects.cpuChain c k).uncons hnull
    exact ⟨_, _, rfl, hkept.setCpu c k _, .inr ⟨hnull, hinv.objects.not_live_of_cpu
      (c := c) (k := k) (by simp [hl]), _, _, hinv.takeCpu hl⟩⟩

/-- **`kmem_cache_free` of an object that is held returns, with the object free.** -/
theorem Inv.kmemCacheFree_spec (k : κ) (ho : o ∈ live c) :
    ∃ s', kmemCacheFree E c k o s = some s' ∧ s'.freed = s.freed ∧
      Kept E {a | o ≤ a ∧ a < o + 8} ∅ s s' ∧ ∃ L' place', Inv E (drop live c o) s' L' place' := by
  obtain ⟨⟨p, hslot⟩, -⟩ := (h.objects.mem_live c o).1 ho
  have hpos := h.shape.slot_pos hslot
  set s1 := s.setCache c fun g => { g with freeCount := g.freeCount + 1 } with hs1
  have hinv : Inv E live s1 L place := h.count c fun _ => ⟨rfl, rfl, rfl, rfl⟩
  have hsame : SameShape s s1 := setCache (refl s) c fun _ => ⟨rfl, rfl⟩
  have hslot1 : IsSlot E s1 c p o := (hsame.isSlot_iff c p o).2 hslot
  have hslab : (s.page p).slabCache ≠ none ∨ p ∈ (∅ : Set ℕ) := by simp [hslot.1]
  have hcount : Kept E {a | o ≤ a ∧ a < o + 8} ∅ s s1 :=
    Kept.setCache (Kept.refl _ _ s) c fun _ => rfl
  have hstore : ∀ v, Kept E {a | o ≤ a ∧ a < o + 8} ∅ s (s1.setMem (store 8 s1.mem o v)) :=
    fun v => by
    refine hcount.setMem fun a ha => ?_
    have hout : ¬(o ≤ a ∧ a < o + 8) := ha
    exact Bytes.store_apply_of_not_mem _ (by omega)
  rw [kmemCacheFree, if_neg hpos, h.shape.ptrToPage_slot hslot]
  simp only [bind_some, hslot.1, ne_eq, not_true_eq_false, if_false, ← hs1]
  split_ifs with hact
  · exact ⟨_, rfl, rfl, (hstore _).setCpu c k _, _, _, hinv.putCpu hslot1 ho hact.symm⟩
  · have hput := hinv.putPage hslot1 ho
    have hkept : Kept E {a | o ≤ a ∧ a < o + 8} ∅ s (freeToPage p o s1) := by
      rw [freeToPage, if_neg hpos]
      exact Kept.setPage (hstore _) p hslab
    have hst : ((freeToPage p o s1).page p).slabState = (s1.page p).slabState := by
      simp [freeToPage, hpos]
    have hfreed : (freeToPage p o s1).freed = s.freed := by simp [freeToPage, hpos, s1]
    have hpc : ((freeToPage p o s1).page p).slabCache = some c := by
      simpa [freeToPage, hpos] using hslot1.1
    rw [hst]
    cases hcase : (s1.page p).slabState with
    | SLAB_PAGE_CPU_ACTIVE => exact ⟨_, rfl, hfreed, hkept, _, _, hput⟩
    | SLAB_PAGE_PARTIAL => exact ⟨_, rfl, hfreed, hkept, _, _, hput⟩
    | SLAB_PAGE_FULL =>
      obtain ⟨hinv', hfreed'⟩ := hput.pushPartial hpc (hst.trans hcase) (by simp [Lists.setPage])
      exact ⟨_, rfl, hfreed'.trans hfreed, hkept.pagePushToPartial c hslab, _, _, hinv'⟩
    | SLAB_PAGE_FREE =>
      have hskip : (pagePushToPartial E c p (freeToPage p o s1)).2 = freeToPage p o s1 := by
        simp [pagePushToPartial, hst, hcase]
      exact ⟨_, rfl, by rw [hskip]; exact hfreed, by rw [hskip]; exact hkept, _, _,
        by rw [hskip]; exact hput⟩

end

end Intewell.Slub
