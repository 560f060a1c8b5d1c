/-
# Pages on the move

The steps that move a slab page between the states: on and off `partial_list`, in
and out of the hands of a CPU, and from and to the page allocator.
`cpu_slab_set_active_page` is brought into the order detach, release, attach and
steal, in which each step keeps the invariant by itself.
-/

import Intewell.Slub.Objects
import Mathlib.Data.List.Nodup

namespace Intewell.Slub

open State Slub.Lists List Nat
open SameShape (refl setCache setCpu setPage)
open Bytes (Mem load store)
open Linked (Chain)
open SlabState

variable {ι κ : Type} {E : Env} {live : ι → Set ℕ} {s s' : State ι κ} {L : Lists ι κ}
  {place : ℕ → Place κ} {c : ι} {k : κ} {p o : ℕ}

/-- `L` with the partial list of one cache replaced. -/
def Lists.setPartials [DecidableEq ι] (L : Lists ι κ) (c : ι) (l : List ℕ) : Lists ι κ :=
  { L with partials := fun c' => if c' = c then l else L.partials c' }

theorem Objects.setPartials [DecidableEq ι] (h : Objects E live s L place) (c : ι) (l : List ℕ) :
    Objects E live s (L.setPartials c l) place :=
  ⟨h.cpuChain, h.pageChain, h.cpuNodup, h.pageNodup, h.mem_cpu, h.mem_page, h.mem_live, h.inuse⟩

theorem Pages.not_active (h : Pages E s L.partials)
    (hst : (s.page p).slabState ≠ SLAB_PAGE_CPU_ACTIVE) (c : ι) (k : κ) :
    ((s.cache c).percpu k).page ≠ some p := fun hp => hst (h.active c k p hp).2

theorem Pages.not_partial (h : Pages E s L.partials)
    (hst : (s.page p).slabState ≠ SLAB_PAGE_PARTIAL) (c : ι) : p ∉ L.partials c :=
  fun hp => hst ((h.mem_partials c p).1 hp).2

theorem pages_head_dvd {next : ℕ → ℕ} {a : ℕ} {l : List ℕ}
    (hl : Chain next 0 a (l.map E.pagePtr)) : 8 ∣ a := by
  cases l with
  | nil => rw [show a = 0 from hl]; exact dvd_zero 8
  | cons q l =>
    obtain ⟨rfl, -, -⟩ := hl
    exact pagePtr_dvd E q

/-- A partial list of other pages is a chain still after a write to `p`. -/
theorem pages_chain_congr {a : ℕ} {l : List ℕ}
    (hl : Chain (fun ptr => (s.page (E.pageOf ptr)).partialNext) 0 a (l.map E.pagePtr))
    (hs : ∀ q, q ≠ p → (s'.page q).partialNext = (s.page q).partialNext) (hp : p ∉ l) :
    Chain (fun ptr => (s'.page (E.pageOf ptr)).partialNext) 0 a (l.map E.pagePtr) :=
  hl.congr fun ptr hptr => by
    obtain ⟨q, hq, rfl⟩ := mem_map.1 hptr
    rw [pageOf_pagePtr, hs q fun hqp => hp (hqp ▸ hq)]

/-- A page that is on no list of pages changes between `FULL` and `FREE`. -/
theorem Inv.setState (h : Inv E live s L place) (ha : (s.page p).slabState ≠ SLAB_PAGE_CPU_ACTIVE)
    (hpt : (s.page p).slabState ≠ SLAB_PAGE_PARTIAL) {st : SlabState}
    (hst : st ≠ SLAB_PAGE_PARTIAL) :
    Inv E live (s.setPage p fun g => { g with slabState := st }) L place := by
  have hsame : SameShape s (s.setPage p fun g => { g with slabState := st }) :=
    (refl s).setPage p fun _ => ⟨rfl, rfl, rfl⟩
  refine ⟨h.shape.congr hsame, h.objects.congr hsame rfl
      (fun q => s.setPage_keeps p q _ (·.freelist) rfl)
      (fun q => s.setPage_keeps p q _ (·.inuse) rfl) (fun _ _ => rfl),
    ⟨fun c => pages_chain_congr (h.pages.chain c)
        (fun q _ => s.setPage_keeps p q _ (·.partialNext) rfl) (h.pages.not_partial hpt c),
        h.pages.nodup,
      fun c q => ?_, fun c k q hq => ?_, h.pages.active_unique⟩, fun c k o ho => ?_, h.partial_free⟩
  · rw [setPage_page]
    split_ifs with hqp
    · subst hqp
      exact ⟨fun hq => absurd hq (h.pages.not_partial hpt c), fun hq => absurd hq.2 hst⟩
    · exact h.pages.mem_partials c q
  · rw [setPage_page, if_neg (fun hqp : q = p => h.pages.not_active ha c k (hqp ▸ hq))]
    exact h.pages.active c k q hq
  · simp only [hsame.isSlot_iff]
    exact h.cpu_active c k o ho

variable [DecidableEq ι]

/-- The page `p`, which no CPU has, goes to or from the partial list of `c`. -/
theorem Inv.repartial (h : Inv E live s L place) {l : List ℕ} (hsame : SameShape s s')
    (ha : (s.page p).slabState ≠ SLAB_PAGE_CPU_ACTIVE) (hmem : s'.mem = s.mem)
    (hpage : ∀ q, q ≠ p → s'.page q = s.page q)
    (hp : (s'.page p).freelist = (s.page p).freelist ∧ (s'.page p).inuse = (s.page p).inuse)
    (hpercpu : ∀ c', (s'.cache c').percpu = (s.cache c').percpu)
    (hpages : ∀ c', Chain (fun ptr => (s'.page (E.pageOf ptr)).partialNext) 0
      (slubPtrUntag (s'.cache c').partialList)
      ((if c' = c then l else L.partials c').map E.pagePtr))
    (hnodup : l.Nodup) (hin : ∀ c' q, (q ∈ if c' = c then l else L.partials c') ↔
      (s.page q).slabCache = some c' ∧ (s'.page q).slabState = SLAB_PAGE_PARTIAL)
    (hfree : ∀ q ∈ l, L.page q ≠ []) : Inv E live s' (L.setPartials c l) place := by
  have hkeep {β : Type} (f : SlabPage ι κ → β) (hf : f (s'.page p) = f (s.page p)) (q : ℕ) :
      f (s'.page q) = f (s.page q) := by
    by_cases hq : q = p
    · rw [hq, hf]
    · rw [hpage q hq]
  refine ⟨h.shape.congr hsame, (h.objects.congr hsame hmem (hkeep (·.freelist) hp.1)
      (hkeep (·.inuse) hp.2) fun c' k => by rw [hpercpu]).setPartials c l,
    ⟨hpages, fun c' => ?_, fun c' q => ?_, fun c' k q hq => ?_, fun c' k k' q => ?_⟩,
    fun c' k o ho => ?_, fun c' q hq => ?_⟩
  · simp only [setPartials]
    split
    · exact hnodup
    · exact h.pages.nodup c'
  · rw [hsame.slabCache]
    exact hin c' q
  · rw [hpercpu] at hq
    rw [hpage q fun hqp => h.pages.not_active ha c' k (hqp ▸ hq)]
    exact h.pages.active c' k q hq
  · rw [hpercpu]
    exact h.pages.active_unique c' k k' q
  · simp only [hsame.isSlot_iff, hpercpu]
    exact h.cpu_active c' k o ho
  · simp only [setPartials] at hq ⊢
    split at hq
    · exact hfree q hq
    · exact h.partial_free c' q hq

/-- The state after `page_pop_from_partial` took `p`. -/
def popped (c : ι) (p : ℕ) (s : State ι κ) : State ι κ :=
  let newHead := slubPtrIncTag (s.page p).partialNext (s.cache c).partialList
  (s.setCache c fun g => { g with partialList := newHead }).setPage p
    fun g => { g with slabState := SLAB_PAGE_FULL, partialNext := 0 }

theorem popped_sameShape (s : State ι κ) (c : ι) (p : ℕ) : SameShape s (popped c p s) := by
  unfold popped
  refine setPage (setCache (refl s) c ?_) p ?_
  · exact fun _ => ⟨rfl, rfl⟩
  · exact fun _ => ⟨rfl, rfl, rfl⟩

theorem popped_percpu (s : State ι κ) (c c' : ι) (p : ℕ) :
    ((popped c p s).cache c').percpu = (s.cache c').percpu := by
  simp only [popped, setPage_cache]
  exact s.setCache_keeps c c' _ (·.percpu) rfl

/-- `page_pop_from_partial` takes the first page of the list, which is then `FULL`. -/
theorem Inv.popPartial (h : Inv E live s L place) {t : List ℕ} (hl : L.partials c = p :: t) :
    pagePopFromPartial E c s = some (some p, popped c p s) ∧
      Inv E live (popped c p s) (L.setPartials c t) place := by
  have hchain := h.pages.chain c
  have hnd := h.pages.nodup c
  rw [hl] at hchain hnd
  obtain ⟨hhead, -, htail⟩ := hchain
  rw [nodup_cons] at hnd
  obtain ⟨hpc, hst⟩ := (h.pages.mem_partials c p).1 (by simp [hl])
  simp only [pageOf_pagePtr] at htail
  have hother : ∀ c', c' ≠ c → p ∉ L.partials c' := fun c' hc hp =>
    hc (Option.some.inj (((h.pages.mem_partials c' p).1 hp).1.symm.trans hpc))
  refine ⟨by simp [pagePopFromPartial, hhead, hst, pagePtr_pos, popped], ?_⟩
  have hpage : ∀ q, q ≠ p → (popped c p s).page q = s.page q := fun q hq => by
    simp [popped, setPage_page, hq]
  have hnext : ∀ q, q ≠ p → ((popped c p s).page q).partialNext = (s.page q).partialNext :=
    fun q hq => by rw [hpage q hq]
  refine h.repartial (popped_sameShape s c p) (by simp [hst]) rfl hpage (by simp [popped])
    (fun c' => popped_percpu s c c' p) (fun c' => ?_) hnd.2 (fun c' q => ?_) fun q hq => ?_
  · simp only [popped, setPage_cache, setCache_cache]
    split_ifs with hc
    · rw [untag_incTag (pages_head_dvd htail)]
      exact pages_chain_congr htail hnext hnd.1
    · exact pages_chain_congr (h.pages.chain c') hnext (hother c' hc)
  · simp only [popped, setPage_page, setCache_page]
    have hmem := h.pages.mem_partials c' q
    split <;> split <;> grind
  · exact h.partial_free c q (by rw [hl]; exact .tail _ hq)

/-- `page_push_to_partial` puts a `FULL` page with a free object on the list. -/
theorem Inv.pushPartial (h : Inv E live s L place) (hpc : (s.page p).slabCache = some c)
    (hst : (s.page p).slabState = SLAB_PAGE_FULL) (hfree : L.page p ≠ []) :
    Inv E live (pagePushToPartial E c p s).2 (L.setPartials c (p :: L.partials c)) place ∧
      (pagePushToPartial E c p s).2.freed = s.freed := by
  have heq : (pagePushToPartial E c p s).2 =
      ((s.setPage p fun g => { g with slabState := SLAB_PAGE_PARTIAL }).setPage p
        fun g => { g with partialNext := slubPtrUntag (s.cache c).partialList }).setCache c
          fun g => { g with
            partialList := slubPtrIncTag (E.pagePtr p) (s.cache c).partialList } := by
    simp [pagePushToPartial, pageTrySetState, hst]
  have hno : ∀ c', p ∉ L.partials c' := fun c' => h.pages.not_partial (by simp [hst]) c'
  generalize hs' : (pagePushToPartial E c p s).2 = s' at heq ⊢
  have hpage : ∀ q, s'.page q = if q = p then
      { s.page p with slabState := SLAB_PAGE_PARTIAL,
                      partialNext := slubPtrUntag (s.cache c).partialList } else s.page q := by
    intro q
    rw [heq, setCache_page, setPage_page, setPage_page_self, setPage_page]
    split <;> rfl
  have hpercpu : ∀ c', (s'.cache c').percpu = (s.cache c').percpu := fun c' => by
    rw [heq]
    exact setCache_keeps _ c c' _ (·.percpu) rfl
  have hsame : SameShape s s' := by
    rw [heq]
    refine setCache (setPage (setPage (refl s) p ?_) p ?_) c ?_
    · exact fun _ => ⟨rfl, rfl, rfl⟩
    · exact fun _ => ⟨rfl, rfl, rfl⟩
    · exact fun _ => ⟨rfl, rfl⟩
  have hkeep : ∀ c', Chain (fun ptr => (s'.page (E.pageOf ptr)).partialNext) 0
      (slubPtrUntag (s.cache c').partialList) ((L.partials c').map E.pagePtr) := fun c' =>
    pages_chain_congr (h.pages.chain c') (fun q hq => by rw [hpage, if_neg hq]) (hno c')
  refine ⟨h.repartial (p := p) hsame (by simp [hst]) (by rw [heq]; rfl)
    (fun q hq => by rw [hpage, if_neg hq]) (by simp [hpage]) hpercpu (fun c' => ?_)
    (nodup_cons.2 ⟨hno c, h.pages.nodup c⟩) (fun c' q => ?_) fun q hq => ?_, by rw [heq]; rfl⟩
  · rw [heq, setCache_cache]
    split
    · rw [untag_incTag (pagePtr_dvd E p), map_cons]
      refine (heq ▸ hkeep c).push (pagePtr_pos E p) ?_ fun _ _ => rfl
      rw [← heq, hpage, pageOf_pagePtr, if_pos rfl]
    · exact heq ▸ hkeep c'
  · have hmem := h.pages.mem_partials c' q
    have hnop := hno c'
    rw [hpage]
    split <;> split <;> grind
  · obtain rfl | hq := mem_cons.1 hq
    · exact hfree
    · exact h.partial_free c q hq

variable [DecidableEq κ]

/-- The active page of a CPU becomes `x` and the page `p` changes its state with it:
`p` is the page that is made active, or the one that no longer is. -/
def setActive (c : ι) (k : κ) (x : Option ℕ) (p : ℕ) (y : Option (ι × κ)) (st : SlabState)
    (s : State ι κ) : State ι κ :=
  (s.setCpu c k fun u => { u with page := x }).setPage p fun g =>
    { g with cpuCache := y, slabState := st }

theorem Inv.activate (h : Inv E live s L place) {x : Option ℕ} {st : SlabState}
    (y : Option (ι × κ)) (hempty : L.cpu c k = [])
    (hpt : (s.page p).slabState ≠ SLAB_PAGE_PARTIAL) (hst : st ≠ SLAB_PAGE_PARTIAL)
    (hother : ∀ c' k', ((s.cache c').percpu k').page = some p → c' = c ∧ k' = k)
    (hx : ∀ q, x = some q → q = p ∧ (s.page p).slabCache = some c ∧ st = SLAB_PAGE_CPU_ACTIVE) :
    Inv E live (setActive c k x p y st s) L place := by
  have hsame : SameShape s (setActive c k x p y st s) := by
    refine setPage (setCpu (refl s) c k _) p ?_
    exact fun _ => ⟨rfl, rfl, rfl⟩
  have hpage : ∀ q, (setActive c k x p y st s).page q =
      if q = p then { s.page p with cpuCache := y, slabState := st } else s.page q :=
    fun q => setPage_page _ p q _
  have hcpu : ∀ c' k', ((setActive c k x p y st s).cache c').percpu k' =
      if c' = c ∧ k' = k then { (s.cache c).percpu k with page := x } else (s.cache c').percpu k' :=
    fun c' k' => by rw [setActive, setPage_cache, setCpu_percpu]
  have hlist : ∀ c', ((setActive c k x p y st s).cache c').partialList =
      (s.cache c').partialList := fun c' => by simp [setActive]
  refine ⟨h.shape.congr hsame, h.objects.congr hsame rfl (fun q => ?_) (fun q => ?_)
      (fun c' k' => ?_), ⟨fun c' => ?_, h.pages.nodup, fun c' q => ?_, fun c' k' q hq => ?_,
      fun c' k1 k2 q h1 h2 => ?_⟩, fun c' k' o ho => ?_, h.partial_free⟩
  · rw [hpage]
    split <;> simp_all
  · rw [hpage]
    split <;> simp_all
  · rw [hcpu]
    split <;> simp_all
  · rw [hlist]
    exact pages_chain_congr (h.pages.chain c') (fun q hq => by rw [hpage, if_neg hq])
      (h.pages.not_partial hpt c')
  · have hno := h.pages.not_partial hpt c'
    have hmem := h.pages.mem_partials c' q
    rw [hpage]
    split_ifs with hqp
    · subst hqp
      exact ⟨fun hq => absurd hq hno, fun hq => absurd hq.2 hst⟩
    · exact hmem
  · rw [hcpu] at hq
    split_ifs at hq with heq
    · obtain ⟨rfl, hc, rfl⟩ := hx q hq
      rw [hpage, if_pos rfl]
      exact ⟨heq.1 ▸ hc, rfl⟩
    · rw [hpage, if_neg (fun hqp : q = p => heq (hother c' k' (hqp ▸ hq)))]
      exact h.pages.active c' k' q hq
  · rw [hcpu] at h1 h2
    split at h1 <;> split at h2
    · rename_i e1 e2
      exact e1.2.trans e2.2.symm
    · rename_i e1 e2
      exact absurd (hother c' k2 ((hx q h1).1 ▸ h2)) e2
    · rename_i e1 e2
      exact absurd (hother c' k1 ((hx q h2).1 ▸ h1)) e1
    · exact h.pages.active_unique c' k1 k2 q h1 h2
  · simp only [hsame.isSlot_iff]
    rw [hcpu]
    split_ifs with heq
    · rw [heq.1, heq.2, hempty] at ho
      simp at ho
    · exact h.cpu_active c' k' o ho

theorem stealFreelist_page (c : ι) (k : κ) (p q : ℕ) (s : State ι κ) :
    (stealFreelist c k p s).page q = if q = p then
      { s.page p with freelist := slubPtrIncTag 0 (s.page p).freelist, inuse := (s.page p).objects }
      else s.page q := by
  simp only [stealFreelist, setPage_page, setCpu_page]
  split <;> simp

theorem stealFreelist_percpu (c c' : ι) (k k' : κ) (p : ℕ) (s : State ι κ) :
    ((stealFreelist c k p s).cache c').percpu k' = if c' = c ∧ k' = k then
      { (s.cache c).percpu k with freelist := slubPtrUntag (s.page p).freelist }
      else (s.cache c').percpu k' := by
  simp [stealFreelist, setCpu_percpu]

theorem stealFreelist_sameShape (c : ι) (k : κ) (p : ℕ) (s : State ι κ) :
    SameShape s (stealFreelist c k p s) := by
  unfold stealFreelist
  refine setPage (setCpu (setPage (refl s) p ?_) c k _) p ?_
  · exact fun _ => ⟨rfl, rfl, rfl⟩
  · exact fun _ => ⟨rfl, rfl, rfl⟩

section
variable (h : Inv E live s L place) (hpc : (s.page p).slabCache = some c)
include h hpc

omit [DecidableEq ι] [DecidableEq κ] in
theorem Inv.isSlot_page (ho : o ∈ L.page p) : IsSlot E s c p o := by
  obtain ⟨⟨c', hq⟩, -⟩ := (h.objects.mem_page p o).1 ho
  exact Option.some.inj (hq.1.symm.trans hpc) ▸ hq

/-- The objects of the freelist are the CPU's. -/
theorem Inv.objects_steal (hempty : L.cpu c k = []) :
    Objects E live (stealFreelist c k p s) ((L.setCpu c k (L.page p)).setPage p [])
      (fun o => if o ∈ L.page p then .cpu k else place o) := by
  have hsame := stealFreelist_sameShape c k p s
  refine ⟨fun c' k' => ?_, fun q c' hq => ?_, fun c' k' => ?_, fun q => ?_,
    fun c' k' o => ?_, fun q o => ?_, fun c' o => ?_, fun q c' hq => ?_⟩
  · rw [stealFreelist_percpu]
    simp only [Lists.setCpu, Lists.setPage]
    split
    · exact h.objects.pageChain p c hpc
    · exact h.objects.cpuChain c' k'
  · rw [hsame.slabCache] at hq
    rw [stealFreelist_page]
    simp only [Lists.setPage]
    split
    · exact untag_incTag (dvd_zero 8) _
    · exact h.objects.pageChain q c' hq
  · simp only [Lists.setCpu, Lists.setPage]
    split
    · exact h.objects.pageNodup p
    · exact h.objects.cpuNodup c' k'
  · simp only [Lists.setCpu, Lists.setPage]
    split
    · exact nodup_nil
    · exact h.objects.pageNodup q
  · simp only [hsame.isSlot_iff, Lists.setCpu, Lists.setPage]
    have hmem := h.objects.mem_cpu c' k' o
    by_cases ho : o ∈ L.page p
    · have hno := h.objects.not_cpu_of_page ho c' k'
      have hc : (∃ q, IsSlot E s c' q o) ↔ c' = c := by
        refine ⟨?_, fun hc => ⟨p, hc ▸ h.isSlot_page hpc ho⟩⟩
        rintro ⟨q, hq⟩
        exact (h.shape.slot_unique hq (h.isSlot_page hpc ho)).2
      rw [if_pos ho, hc, Place.cpu.injEq]
      split <;> grind
    · rw [if_neg ho]
      split_ifs with heq
      · rw [← hmem, heq.1, heq.2, hempty]
        simp [ho]
      · exact hmem
  · simp only [hsame.isSlot_iff, Lists.setCpu, Lists.setPage]
    have hmem := h.objects.mem_page q o
    by_cases ho : o ∈ L.page p
    · rw [if_pos ho]
      split
      · simp
      · rename_i hqp
        simp only [reduceCtorEq, and_false, iff_false]
        exact fun hq => hqp (h.objects.page_eq h.shape ho hq)
    · rw [if_neg ho, ← hmem]
      split_ifs with hqp
      · subst hqp
        simp [ho]
      · rfl
  · simp only [hsame.isSlot_iff]
    by_cases ho : o ∈ L.page p
    · have hno := h.objects.not_live_of_page ho c'
      simp [ho, hno]
    · rw [if_neg ho]
      exact h.objects.mem_live c' o
  · rw [hsame.slabCache] at hq
    rw [stealFreelist_page]
    simp only [Lists.setPage]
    split
    · simp
    · exact h.objects.inuse q c' hq

end

/-- The CPU takes over the freelist of its active page. -/
theorem Inv.steal (h : Inv E live s L place) (hempty : L.cpu c k = [])
    (hact : ((s.cache c).percpu k).page = some p) :
    Inv E live (stealFreelist c k p s) ((L.setCpu c k (L.page p)).setPage p [])
      (fun o => if o ∈ L.page p then .cpu k else place o) := by
  obtain ⟨hpc, hst⟩ := h.pages.active c k p hact
  have hsame := stealFreelist_sameShape c k p s
  have hactive : ∀ c' k', (((stealFreelist c k p s).cache c').percpu k').page =
      ((s.cache c').percpu k').page := fun c' k' => by
    rw [stealFreelist_percpu]
    split <;> simp_all
  refine ⟨h.shape.congr hsame, h.objects_steal hpc hempty,
    h.pages.congr hsame.slabCache (fun q => ?_) (fun q => ?_) (fun c' => by simp [stealFreelist])
      hactive, fun c' k' o ho => ?_, fun c' q hq => ?_⟩
  · rw [stealFreelist_page]
    split <;> simp_all
  · rw [stealFreelist_page]
    split <;> simp_all
  · simp only [hsame.isSlot_iff, hactive]
    simp only [Lists.setCpu, Lists.setPage] at ho
    split_ifs at ho with heq
    · rw [heq.1, heq.2]
      exact ⟨p, hact, h.isSlot_page hpc ho⟩
    · exact h.cpu_active c' k' o ho
  · simp only [Lists.setCpu, Lists.setPage] at hq ⊢
    have hqp : q ≠ p := fun hqp => by
      have := ((h.pages.mem_partials c' q).1 hq).2
      rw [hqp, hst] at this
      exact absurd this (by simp)
    rw [if_neg hqp]
    exact h.partial_free c' q hq

section

omit [DecidableEq κ]

/-- A slab page without objects, on no list, goes back to the page allocator. -/
theorem Inv.release (h : Inv E live s L place) (hpc : (s.page p).slabCache = some c)
    (hnone : (s.cache c).objectsPerPage = 0) (ha : (s.page p).slabState ≠ SLAB_PAGE_CPU_ACTIVE)
    (hpt : (s.page p).slabState ≠ SLAB_PAGE_PARTIAL) : Inv E live (freeSlabPage c p s) L place := by
  have hpage : ∀ q, q ≠ p → (freeSlabPage c p s).page q = s.page q := fun q hq => by
    simp [freeSlabPage, setPage_page, hq]
  have hcleared : ((freeSlabPage c p s).page p).slabCache = none := by simp [freeSlabPage]
  have hcache : ∀ c', ((freeSlabPage c p s).cache c').percpu = (s.cache c').percpu ∧
      ((freeSlabPage c p s).cache c').size = (s.cache c').size ∧
      ((freeSlabPage c p s).cache c').objectsPerPage = (s.cache c').objectsPerPage ∧
      ((freeSlabPage c p s).cache c').partialList = (s.cache c').partialList := fun c' => by
    simp only [freeSlabPage, setCache_cache, setPage_cache]
    split <;> simp_all
  have hslab : ∀ q c', ((freeSlabPage c p s).page q).slabCache = some c' → q ≠ p ∧
      (s.page q).slabCache = some c' := fun q c' hq => by
    have hqp : q ≠ p := fun hqp => by simp [hqp, hcleared] at hq
    exact ⟨hqp, hpage q hqp ▸ hq⟩
  have hslot : ∀ c' q o, IsSlot E (freeSlabPage c p s) c' q o ↔ IsSlot E s c' q o := by
    intro c' q o
    by_cases hqp : q = p
    · subst hqp
      simp only [IsSlot, hcleared, reduceCtorEq, false_and, false_iff, not_and, not_exists]
      intro hq i hi
      cases hpc.symm.trans hq
      omega
    · simp only [IsSlot, hpage q hqp, (hcache c').2.1, (hcache c').2.2.1]
  refine ⟨⟨fun c' => ?_, fun c' => ?_, fun c' => ?_, fun q c' hq => ?_⟩,
    ⟨fun c' k => ?_, fun q c' hq => ?_, h.objects.cpuNodup, h.objects.pageNodup, fun c' k o => ?_,
      fun q o => ?_, fun c' o => ?_, fun q c' hq => ?_⟩,
    ⟨fun c' => ?_, h.pages.nodup, fun c' q => ?_, fun c' k q hq => ?_, fun c' k k' q => ?_⟩,
    fun c' k o ho => ?_, h.partial_free⟩
  · rw [(hcache c').2.1]; exact h.shape.size_dvd c'
  · rw [(hcache c').2.1]; exact h.shape.size_pos c'
  · rw [(hcache c').2.1, (hcache c').2.2.1]; exact h.shape.perPage c'
  · obtain ⟨hqp, hq⟩ := hslab q c' hq
    rw [hpage q hqp, (hcache c').2.2.1]
    exact h.shape.slab q c' hq
  · rw [(hcache c').1]; exact h.objects.cpuChain c' k
  · obtain ⟨hqp, hq⟩ := hslab q c' hq
    rw [hpage q hqp]
    exact h.objects.pageChain q c' hq
  · simp only [hslot]; exact h.objects.mem_cpu c' k o
  · simp only [hslot]; exact h.objects.mem_page q o
  · simp only [hslot]; exact h.objects.mem_live c' o
  · obtain ⟨hqp, hq⟩ := hslab q c' hq
    rw [hpage q hqp]
    exact h.objects.inuse q c' hq
  · rw [(hcache c').2.2.2]
    exact pages_chain_congr (h.pages.chain c') (fun q hq => by rw [hpage q hq])
      (h.pages.not_partial hpt c')
  · by_cases hqp : q = p
    · subst hqp
      simp only [hcleared, reduceCtorEq, false_and, iff_false]
      exact h.pages.not_partial hpt c'
    · rw [hpage q hqp]
      exact h.pages.mem_partials c' q
  · rw [(hcache c').1] at hq
    rw [hpage q fun hqp => h.pages.not_active ha c' k (hqp ▸ hq)]
    exact h.pages.active c' k q hq
  · rw [(hcache c').1]
    exact h.pages.active_unique c' k k' q
  · simp only [hslot, (hcache c').1]
    exact h.cpu_active c' k o ho

/-- The objects of a page in the order of their addresses. -/
def slots (addr size n : ℕ) : List ℕ := (List.range n).map fun i => addr + i * size

/-- The loop of `init_page_freelist`, from a list of higher objects on. -/
theorem initObjects_spec {addr size n : ℕ} (hsize : 8 ≤ size) (haddr : addr ≠ 0)
    (hbound : addr + n * size ≤ 256 ^ 8) :
    ∀ {i last : ℕ} {m : Mem} {l : List ℕ}, i ≤ n → Chain (load 8 m) 0 last l → last < 256 ^ 8 →
      (∀ x ∈ l, addr + i * size ≤ x) →
      Chain (load 8 (initObjects addr size i last m).2) 0 (initObjects addr size i last m).1
        (slots addr size i ++ l) ∧
      ∀ a, a < addr ∨ addr + n * size ≤ a → (initObjects addr size i last m).2 a = m a := by
  intro i
  induction i with
  | zero => intro last m l _ hl _ _; exact ⟨hl, fun _ _ => rfl⟩
  | succ i ih =>
    intro last m l hi hl hlast hge
    have hroom : (i + 1) * size ≤ n * size := mul_le_mul_right size hi
    rw [add_mul, one_mul] at hroom hge
    have hpush : Chain (load 8 (store 8 m (addr + i * size) last)) 0 (addr + i * size)
        ((addr + i * size) :: l) := by
      refine hl.push (by omega) (Bytes.load_store m hlast) fun x hx => ?_
      have := hge x hx
      exact Bytes.load_store_of_disjoint m last (by omega)
    obtain ⟨hchain, hmem⟩ := ih (by omega) hpush (by omega) fun x hx => by
      rcases mem_cons.1 hx with rfl | hx
      · exact le_rfl
      · have := hge x hx
        omega
    refine ⟨?_, fun a ha => ?_⟩
    · rw [initObjects]
      rw [show slots addr size (i + 1) ++ l = slots addr size i ++ ((addr + i * size) :: l) by
        simp [slots, range_succ]]
      exact hchain
    · rw [initObjects, hmem a ha, Bytes.store_apply_of_not_mem]
      omega

theorem mem_slots {addr size n o : ℕ} : o ∈ slots addr size n ↔ ∃ i < n, o = addr + i * size := by
  simp only [slots, mem_map, mem_range, eq_comm]

theorem nodup_slots {addr size n : ℕ} (hsize : 0 < size) : (slots addr size n).Nodup :=
  List.Nodup.map (fun i j hij => eq_of_mul_eq_mul_right hsize (by simpa using hij)) nodup_range

/-- The objects that `init_page_freelist` cuts a page into. -/
abbrev newSlots (E : Env) (s : State ι κ) (c : ι) (p : ℕ) : List ℕ :=
  slots (E.base p) (s.cache c).size (s.cache c).objectsPerPage

section

omit [DecidableEq ι]
variable (h : Inv E live s L place) (hu : Usable E p) (c : ι)
include h hu

/-- The new objects lie in the page, and nothing else is written. -/
theorem Inv.initObjects_page :
    let objs := initObjects (E.base p) (s.cache c).size (s.cache c).objectsPerPage 0 s.mem
    Chain (load 8 objs.2) 0 objs.1 (newSlots E s c p) ∧ 8 ∣ objs.1 ∧
      (∀ o ∈ newSlots E s c p, E.base p ≤ o ∧ o < E.base p + 4096) ∧
      ∀ a, a < E.base p ∨ E.base p + 4096 ≤ a → objs.2 a = s.mem a := by
  have hsize := h.shape.size_ge c
  have hfit := h.shape.perPage c
  have hbound := base_bounds hu
  obtain ⟨hchain, hframe⟩ := initObjects_spec (n := (s.cache c).objectsPerPage) (m := s.mem) hsize
    hu.2 (by norm_num at hbound ⊢; omega) (l := []) le_rfl rfl (by norm_num) (by simp)
  rw [append_nil] at hchain
  refine ⟨hchain, ?_, fun o ho => ?_, fun a ha => hframe a (by omega)⟩
  · cases hn : (s.cache c).objectsPerPage with
    | zero => exact dvd_zero 8
    | succ n =>
      rw [hn, slots, range_succ_eq_map] at hchain
      obtain ⟨hhead, -, -⟩ := hchain
      simp only [zero_mul, add_zero] at hhead
      omega
  · obtain ⟨i, hi, rfl⟩ := mem_slots.1 ho
    have := mul_le_mul_right (s.cache c).size (show i + 1 ≤ (s.cache c).objectsPerPage from hi)
    rw [add_mul, one_mul] at this
    omega

variable (hfresh : (s.page p).slabCache = none)
include hfresh

/-- The objects of the other pages are as before. -/
theorem Inv.old_slot {c' : ι} {q : ℕ} (ho : IsSlot E s c' q o) :
    q ≠ p ∧ ¬(E.base p ≤ o ∧ o < E.base p + 4096) ∧
      load 8 (initPageFreelist E p c s).mem o = load 8 s.mem o := by
  have hqp : q ≠ p := fun hqp => by simp [IsSlot, hqp, hfresh] at ho
  have hb := h.shape.slot_bounds ho
  have hs' := h.shape.size_ge c'
  have hapart := base_apart (h.shape.slot_usable ho) hu hqp
  refine ⟨hqp, by omega, Bytes.load_congr fun b hb' hb'' => ?_⟩
  exact (h.initObjects_page hu c).2.2.2 b (by omega)

omit h hu in
theorem isSlot_initPageFreelist {c' : ι} {q : ℕ} : IsSlot E (initPageFreelist E p c s) c' q o ↔
    IsSlot E s c' q o ∨ (q = p ∧ c' = c ∧ o ∈ newSlots E s c p) := by
  rw [mem_slots]
  simp only [IsSlot, initPageFreelist, setPage_page, setPage_cache]
  by_cases hqp : q = p
  · subst hqp
    simp only [if_true, hfresh, Option.some.injEq, reduceCtorEq, false_and, false_or, true_and]
    constructor <;> rintro ⟨rfl, hi⟩ <;> exact ⟨rfl, hi⟩
  · simp only [hqp, if_false, false_and, or_false]
    rfl

/-- The objects that were there keep their places. -/
theorem Inv.place_newSlab {z : Place κ} (hz : z ≠ .page) (c' : ι) (o : ℕ) :
    ((∃ q, IsSlot E (initPageFreelist E p c s) c' q o) ∧
      (if E.base p ≤ o ∧ o < E.base p + 4096 then .page else place o) = z) ↔
    (∃ q, IsSlot E s c' q o) ∧ place o = z := by
  by_cases hin : E.base p ≤ o ∧ o < E.base p + 4096
  · rw [if_pos hin]
    refine ⟨fun ho => absurd ho.2.symm hz, ?_⟩
    rintro ⟨⟨q, ho⟩, -⟩
    exact absurd hin (h.old_slot hu c hfresh ho).2.1
  · rw [if_neg hin]
    refine and_congr_left fun _ => exists_congr fun q => ?_
    rw [isSlot_initPageFreelist c hfresh,
      or_iff_left fun ho => hin ((h.initObjects_page hu c).2.2.1 o ho.2.2)]

theorem Inv.objects_newSlab : Objects E live (initPageFreelist E p c s)
    (L.setPage p (newSlots E s c p))
    (fun o => if E.base p ≤ o ∧ o < E.base p + 4096 then .page else place o) := by
  obtain ⟨hchain, hdvd, hnew, -⟩ := h.initObjects_page hu c
  have hkeep {a : ℕ} {l : List ℕ} (hl : Chain (load 8 s.mem) 0 a l)
      (hs' : ∀ x ∈ l, ∃ c' q, IsSlot E s c' q x) :
      Chain (load 8 (initPageFreelist E p c s).mem) 0 a l :=
    hl.congr fun x hx => by
      obtain ⟨c', q, hq⟩ := hs' x hx
      exact (h.old_slot hu c hfresh hq).2.2
  refine ⟨fun c' k => hkeep (h.objects.cpuChain c' k) h.objects.cpu_slots, fun q c' hq => ?_,
    h.objects.cpuNodup, fun q => ?_, fun c' k o => ?_, fun q o => ?_, fun c' o => ?_,
    fun q c' hq => ?_⟩
  · simp only [initPageFreelist, setPage_page, Lists.setPage] at hq ⊢
    split_ifs at hq with hqp
    · rw [if_pos hqp, if_pos hqp, untag_tag hdvd]
      exact hchain
    · rw [if_neg hqp, if_neg hqp]
      exact hkeep (h.objects.pageChain q c' hq) h.objects.page_slots
  · simp only [Lists.setPage]
    split
    · exact nodup_slots (h.shape.size_pos c)
    · exact h.objects.pageNodup q
  · rw [h.place_newSlab hu c hfresh (by simp)]
    exact h.objects.mem_cpu c' k o
  · simp only [isSlot_initPageFreelist c hfresh, Lists.setPage]
    split
    · rename_i hqp
      subst hqp
      refine ⟨fun ho => ⟨⟨c, Or.inr ⟨rfl, rfl, ho⟩⟩, if_pos (hnew o ho)⟩, ?_⟩
      rintro ⟨⟨c', ho⟩, -⟩
      exact ho.elim (fun ho => absurd rfl (h.old_slot hu c hfresh ho).1) fun ho => ho.2.2
    · rename_i hqp
      simp only [hqp, false_and, or_false]
      rw [h.objects.mem_page]
      refine and_congr_right ?_
      rintro ⟨c', ho⟩
      rw [if_neg (h.old_slot hu c hfresh ho).2.1]
  · rw [h.place_newSlab hu c hfresh (by simp)]
    exact h.objects.mem_live c' o
  · simp only [initPageFreelist, setPage_page, Lists.setPage] at hq ⊢
    split_ifs at hq with hqp
    · rw [if_pos hqp, if_pos hqp]
      simp [slots]
    · rw [if_neg hqp, if_neg hqp]
      exact h.objects.inuse q c' hq

omit hu in
theorem Inv.pages_newSlab : Pages E (initPageFreelist E p c s) L.partials := by
  have hno (c' : ι) : p ∉ L.partials c' := fun hp => by
    simp [((h.pages.mem_partials c' p).1 hp).1] at hfresh
  have hpage (q : ℕ) (hq : q ≠ p) : (initPageFreelist E p c s).page q = s.page q := by
    rw [initPageFreelist, setPage_page, if_neg hq]
    rfl
  refine ⟨fun c' => ?_, h.pages.nodup, fun c' q => ?_, fun c' k q hq => ?_, h.pages.active_unique⟩
  · exact pages_chain_congr (h.pages.chain c') (fun q hq => by rw [hpage q hq]) (hno c')
  · by_cases hqp : q = p
    · subst hqp
      exact iff_of_false (hno c') (by simp [initPageFreelist])
    · rw [hpage q hqp]
      exact h.pages.mem_partials c' q
  · have hact := h.pages.active c' k q hq
    rw [hpage q fun hqp => by simp [← hqp, hact.1] at hfresh]
    exact hact

/-- A page that was no slab page is cut into free objects. -/
theorem Inv.newSlab : Inv E live (initPageFreelist E p c s)
      (L.setPage p (newSlots E s c p))
      (fun o => if E.base p ≤ o ∧ o < E.base p + 4096 then .page else place o) := by
  refine ⟨⟨h.shape.size_dvd, h.shape.size_pos, h.shape.perPage, fun q c' hq => ?_⟩,
    h.objects_newSlab hu c hfresh, h.pages_newSlab c hfresh, fun c' k o ho => ?_, fun c' q hq => ?_⟩
  · simp only [initPageFreelist, setPage_page] at hq ⊢
    split_ifs at hq with hqp
    · subst hqp
      cases hq
      exact ⟨hu, by simp, by simp⟩
    · rw [if_neg hqp]
      exact h.shape.slab q c' hq
  · obtain ⟨q, hq, ho⟩ := h.cpu_active c' k o ho
    exact ⟨q, hq, (isSlot_initPageFreelist c hfresh).2 (.inl ho)⟩
  · have hqp : q ≠ p := fun hqp => by
      simp [← hqp, ((h.pages.mem_partials c' q).1 hq).1] at hfresh
    simp only [Lists.setPage, if_neg hqp]
    exact h.partial_free c' q hq

end

end

end Intewell.Slub
