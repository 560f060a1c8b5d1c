/-
# Objects on the move

The steps that take an object from one list and put it on another or in the hands
of a caller, `alloc_from_page`, `free_to_page` and the fast paths of
`kmem_cache_alloc` and `kmem_cache_free`, keep the invariant with the object at
its new place.
-/

import Intewell.Slub.Invariant

namespace Intewell.Slub

open State Function List
open Bytes (Mem load store)
open Linked (Chain)
open SlabState

variable {ι κ : Type} {E : Env} {live : ι → Set ℕ} {s s' : State ι κ} {L : Lists ι κ}
  {place : ℕ → Place κ} {c : ι} {k : κ} {p o : ℕ}

/-- The two states cut the same objects from the same pages. -/
structure SameShape (s s' : State ι κ) : Prop where
  slabCache : ∀ p, (s'.page p).slabCache = (s.page p).slabCache
  objects : ∀ p, (s'.page p).objects = (s.page p).objects
  flags : ∀ p, (s'.page p).flags = (s.page p).flags
  size : ∀ c, (s'.cache c).size = (s.cache c).size
  objectsPerPage : ∀ c, (s'.cache c).objectsPerPage = (s.cache c).objectsPerPage

theorem SameShape.isSlot_iff (h : SameShape s s') (c : ι) (p o : ℕ) :
    IsSlot E s' c p o ↔ IsSlot E s c p o := by
  simp only [IsSlot, h.slabCache, h.size, h.objectsPerPage]

theorem SameShape.refl (s : State ι κ) : SameShape s s :=
  ⟨fun _ => rfl, fun _ => rfl, fun _ => rfl, fun _ => rfl, fun _ => rfl⟩

section
variable (h : SameShape s s')
include h

theorem SameShape.trans {s'' : State ι κ} (h' : SameShape s' s'') : SameShape s s'' :=
  ⟨fun p => (h'.slabCache p).trans (h.slabCache p), fun p => (h'.objects p).trans (h.objects p),
    fun p => (h'.flags p).trans (h.flags p), fun c => (h'.size c).trans (h.size c),
    fun c => (h'.objectsPerPage c).trans (h.objectsPerPage c)⟩

theorem SameShape.setMem (m : Mem) : SameShape s (s'.setMem m) :=
  ⟨h.slabCache, h.objects, h.flags, h.size, h.objectsPerPage⟩

theorem SameShape.setPage (p : ℕ) {f : SlabPage ι κ → SlabPage ι κ}
    (hf : ∀ g, (f g).slabCache = g.slabCache ∧ (f g).objects = g.objects ∧ (f g).flags = g.flags) :
    SameShape s (s'.setPage p f) :=
  h.trans ⟨fun q => s'.setPage_keeps p q f (·.slabCache) (hf _).1,
    fun q => s'.setPage_keeps p q f (·.objects) (hf _).2.1,
    fun q => s'.setPage_keeps p q f (·.flags) (hf _).2.2, fun _ => rfl, fun _ => rfl⟩

theorem SameShape.setCache [DecidableEq ι] (c : ι) {f : KmemCache κ → KmemCache κ}
    (hf : ∀ g, (f g).size = g.size ∧ (f g).objectsPerPage = g.objectsPerPage) :
    SameShape s (s'.setCache c f) :=
  h.trans ⟨fun _ => rfl, fun _ => rfl, fun _ => rfl,
    fun c' => s'.setCache_keeps c c' f (·.size) (hf _).1,
    fun c' => s'.setCache_keeps c c' f (·.objectsPerPage) (hf _).2⟩

theorem SameShape.setCpu [DecidableEq ι] [DecidableEq κ] (c : ι) (k : κ)
    (f : KmemCacheCpu → KmemCacheCpu) : SameShape s (s'.setCpu c k f) :=
  h.setCache c fun _ => ⟨rfl, rfl⟩

end

theorem Shape.congr (h : Shape E s) (hs : SameShape s s') : Shape E s' where
  size_dvd c := by rw [hs.size]; exact h.size_dvd c
  size_pos c := by rw [hs.size]; exact h.size_pos c
  perPage c := by rw [hs.size, hs.objectsPerPage]; exact h.perPage c
  slab p c hp := by
    rw [hs.slabCache] at hp
    rw [hs.objects, hs.flags, hs.objectsPerPage]
    exact h.slab p c hp

/-- A change that no object and no freelist sees. -/
theorem Objects.congr (h : Objects E live s L place) (hs : SameShape s s') (hm : s'.mem = s.mem)
    (hf : ∀ p, (s'.page p).freelist = (s.page p).freelist)
    (hi : ∀ p, (s'.page p).inuse = (s.page p).inuse)
    (hc : ∀ c k, ((s'.cache c).percpu k).freelist = ((s.cache c).percpu k).freelist) :
    Objects E live s' L place where
  cpuChain c k := by rw [hm, hc]; exact h.cpuChain c k
  pageChain p c hp := by rw [hm, hf]; exact h.pageChain p c (hs.slabCache p ▸ hp)
  cpuNodup := h.cpuNodup
  pageNodup := h.pageNodup
  mem_cpu c k o := by simp only [hs.isSlot_iff]; exact h.mem_cpu c k o
  mem_page p o := by simp only [hs.isSlot_iff]; exact h.mem_page p o
  mem_live c o := by simp only [hs.isSlot_iff]; exact h.mem_live c o
  inuse p c hp := by rw [hi, hs.objects]; exact h.inuse p c (hs.slabCache p ▸ hp)

theorem Pages.congr {partials : ι → List ℕ} (h : Pages E s partials)
    (hs : ∀ p, (s'.page p).slabCache = (s.page p).slabCache)
    (hst : ∀ p, (s'.page p).slabState = (s.page p).slabState)
    (hn : ∀ p, (s'.page p).partialNext = (s.page p).partialNext)
    (hl : ∀ c, (s'.cache c).partialList = (s.cache c).partialList)
    (hp : ∀ c k, ((s'.cache c).percpu k).page = ((s.cache c).percpu k).page) :
    Pages E s' partials where
  chain c := by rw [hl]; exact (h.chain c).congr fun ptr _ => hn _
  nodup := h.nodup
  mem_partials c p := by rw [hs, hst]; exact h.mem_partials c p
  active c k p := by rw [hs, hst, hp]; exact h.active c k p
  active_unique c k k' p := by rw [hp, hp]; exact h.active_unique c k k' p

open SameShape

theorem Inv.count [DecidableEq ι] (h : Inv E live s L place) (c : ι) {f : KmemCache κ → KmemCache κ}
    (hf : ∀ g, (f g).percpu = g.percpu ∧ (f g).size = g.size ∧
      (f g).objectsPerPage = g.objectsPerPage ∧ (f g).partialList = g.partialList) :
    Inv E live (s.setCache c f) L place := by
  have hpercpu : ∀ c', ((s.setCache c f).cache c').percpu = (s.cache c').percpu :=
    fun c' => s.setCache_keeps c c' f (·.percpu) (hf _).1
  have hs : SameShape s (s.setCache c f) :=
    (refl s).setCache c fun g => ⟨(hf g).2.1, (hf g).2.2.1⟩
  refine ⟨h.shape.congr hs, h.objects.congr hs rfl (fun _ => rfl) (fun _ => rfl) ?_,
    h.pages.congr (fun _ => rfl) (fun _ => rfl) (fun _ => rfl)
      (fun c' => s.setCache_keeps c c' f (·.partialList) (hf _).2.2.2) ?_, ?_, h.partial_free⟩
  · intro c' k'
    rw [hpercpu]
  · intro c' k'
    rw [hpercpu]
  · intro c' k' o ho
    simp only [hs.isSlot_iff, hpercpu]
    exact h.cpu_active c' k' o ho

section

variable [DecidableEq ι] [DecidableEq κ]

/-- The callers of `c` hold `o` too. -/
def hold (live : ι → Set ℕ) (c : ι) (o : ℕ) : ι → Set ℕ :=
  update live c (insert o (live c))

/-- The callers of `c` no longer hold `o`. -/
def drop (live : ι → Set ℕ) (c : ι) (o : ℕ) : ι → Set ℕ := update live c (live c \ {o})

theorem mem_hold {c' : ι} {x : ℕ} : x ∈ hold live c o c' ↔ (c' = c ∧ x = o) ∨ x ∈ live c' := by
  by_cases hc : c' = c
  · subst hc
    simp [hold]
  · simp [hold, hc]

theorem mem_drop {c' : ι} {x : ℕ} : x ∈ drop live c o c' ↔ x ∈ live c' ∧ ¬(c' = c ∧ x = o) := by
  by_cases hc : c' = c
  · subst hc
    simp [drop]
  · simp [drop, hc]

/-- `L` with the freelist of one CPU replaced. -/
def Lists.setCpu (L : Lists ι κ) (c : ι) (k : κ) (l : List ℕ) : Lists ι κ :=
  { L with cpu := fun c' k' => if c' = c ∧ k' = k then l else L.cpu c' k' }

/-- `L` with the freelist of one page replaced. -/
def Lists.setPage (L : Lists ι κ) (p : ℕ) (l : List ℕ) : Lists ι κ :=
  { L with page := fun q => if q = p then l else L.page q }

/-- The object `o` of the page `p` of `c` has left its list and is at the place `y`. -/
structure Moved (c : ι) (p o : ℕ) (y : Place κ) (live live' : ι → Set ℕ) (L L' : Lists ι κ) :
    Prop where
  cpu : ∀ c' k x, x ∈ L'.cpu c' k ↔ (x ∈ L.cpu c' k ∧ x ≠ o) ∨ (y = .cpu k ∧ c' = c ∧ x = o)
  page : ∀ q x, x ∈ L'.page q ↔ (x ∈ L.page q ∧ x ≠ o) ∨ (y = .page ∧ q = p ∧ x = o)
  live : ∀ c' x, x ∈ live' c' ↔ (x ∈ live c' ∧ x ≠ o) ∨ (y = .live ∧ c' = c ∧ x = o)

omit [DecidableEq κ] in
/-- The objects at a place when `o` has moved. -/
theorem at_moved {x : ℕ} {y z : Place κ} {P : Prop} :
    (P ∧ update place o y x = z) ↔ ((P ∧ place x = z) ∧ x ≠ o) ∨ (y = z ∧ P ∧ x = o) := by
  by_cases hx : x = o
  · subst hx
    simp [and_comm]
  · simp [hx]

omit [DecidableEq ι] [DecidableEq κ] in
/-- One object moves: the lists that changed are chains again, and every other fact
is that of the objects that stay. -/
theorem Objects.move {live' : ι → Set ℕ} {L' : Lists ι κ} {y : Place κ}
    (h : Objects E live s L place) (hs : Shape E s) (ho : IsSlot E s c p o)
    (hsame : SameShape s s') (hm : Moved c p o y live live' L L')
    (hcpu : ∀ c' k, Chain (load 8 s'.mem) 0 ((s'.cache c').percpu k).freelist (L'.cpu c' k) ∧
      (L'.cpu c' k).Nodup) (hpage : ∀ q c', (s.page q).slabCache = some c' →
      Chain (load 8 s'.mem) 0 (slubPtrUntag (s'.page q).freelist) (L'.page q) ∧
      (s'.page q).inuse = (s'.page q).objects - (L'.page q).length) (hnd : ∀ q, (L'.page q).Nodup) :
    Objects E live' s' L' (update place o y) where
  cpuChain c' k := (hcpu c' k).1
  pageChain q c' hq := (hpage q c' (hsame.slabCache q ▸ hq)).1
  cpuNodup c' k := (hcpu c' k).2
  pageNodup := hnd
  inuse q c' hq := (hpage q c' (hsame.slabCache q ▸ hq)).2
  mem_cpu c' k x := by
    simp only [hsame.isSlot_iff]
    rw [hm.cpu, at_moved, h.mem_cpu]
    refine or_congr_right (and_congr_right fun _ => and_congr_left fun hx => ?_)
    subst hx
    exact ⟨fun hc => ⟨p, hc ▸ ho⟩, fun ⟨q, hq⟩ => (hs.slot_unique hq ho).2⟩
  mem_page q x := by
    simp only [hsame.isSlot_iff]
    rw [hm.page, at_moved, h.mem_page]
    refine or_congr_right (and_congr_right fun _ => and_congr_left fun hx => ?_)
    subst hx
    exact ⟨fun hq => ⟨c, hq ▸ ho⟩, fun ⟨c', hq⟩ => (hs.slot_unique hq ho).1⟩
  mem_live c' x := by
    simp only [hsame.isSlot_iff]
    rw [hm.live, at_moved, h.mem_live]
    refine or_congr_right (and_congr_right fun _ => and_congr_left fun hx => ?_)
    subst hx
    exact ⟨fun hc => ⟨p, hc ▸ ho⟩, fun ⟨q, hq⟩ => (hs.slot_unique hq ho).2⟩

section

omit [DecidableEq ι] [DecidableEq κ]

section
variable (h : Objects E live s L place)
include h

/-- An object is on one freelist only. -/
theorem Objects.cpu_eq (hs : Shape E s) {c' : ι} {k' : κ} (ho : o ∈ L.cpu c k)
    (ho' : o ∈ L.cpu c' k') : c' = c ∧ k' = k := by
  obtain ⟨⟨q, hq⟩, hk⟩ := (h.mem_cpu c k o).1 ho
  obtain ⟨⟨q', hq'⟩, hk'⟩ := (h.mem_cpu c' k' o).1 ho'
  exact ⟨(hs.slot_unique hq' hq).2, Place.cpu.inj (hk'.symm.trans hk)⟩

theorem Objects.page_eq (hs : Shape E s) {p' : ℕ} (ho : o ∈ L.page p) (ho' : o ∈ L.page p') :
    p' = p := by
  obtain ⟨⟨c, hq⟩, -⟩ := (h.mem_page p o).1 ho
  obtain ⟨⟨c', hq'⟩, -⟩ := (h.mem_page p' o).1 ho'
  exact (hs.slot_unique hq' hq).1

theorem Objects.not_page_of_cpu (ho : o ∈ L.cpu c k) (q : ℕ) : o ∉ L.page q := fun hq => by
  have hk := ((h.mem_cpu c k o).1 ho).2
  rw [((h.mem_page q o).1 hq).2] at hk
  exact absurd hk (by simp)

theorem Objects.not_cpu_of_page (ho : o ∈ L.page p) (c : ι) (k : κ) :
    o ∉ L.cpu c k := fun hk => h.not_page_of_cpu hk p ho

theorem Objects.not_listed (ho : o ∈ live c) : (∀ c' k, o ∉ L.cpu c' k) ∧ ∀ q, o ∉ L.page q := by
  have hlive := ((h.mem_live c o).1 ho).2
  constructor
  · intro c' k hk
    exact absurd (hlive.symm.trans ((h.mem_cpu c' k o).1 hk).2) (by simp)
  · intro q hq
    exact absurd (hlive.symm.trans ((h.mem_page q o).1 hq).2) (by simp)

theorem Objects.not_live_of_cpu (ho : o ∈ L.cpu c k) (c' : ι) : o ∉ live c' := fun hl => by
  have hk := ((h.mem_cpu c k o).1 ho).2
  rw [((h.mem_live c' o).1 hl).2] at hk
  exact absurd hk (by simp)

theorem Objects.not_live_of_page (ho : o ∈ L.page p) (c' : ι) : o ∉ live c' := fun hl => by
  have hk := ((h.mem_page p o).1 ho).2
  rw [((h.mem_live c' o).1 hl).2] at hk
  exact absurd hk (by simp)

end

/-- A list of other objects is a chain still after a store to the object `o`. -/
theorem Shape.chain_store (hs : Shape E s) (ho : IsSlot E s c p o) {m : Mem} {v a : ℕ} {l : List ℕ}
    (hl : Chain (load 8 m) 0 a l) (hslots : ∀ x ∈ l, ∃ c' q, IsSlot E s c' q x) (hno : o ∉ l) :
    Chain (load 8 (store 8 m o v)) 0 a l :=
  hl.congr fun x hx => by
    obtain ⟨c', q, hq⟩ := hslots x hx
    have h8 := hs.size_ge c
    have h8' := hs.size_ge c'
    refine Bytes.load_store_of_disjoint m v ?_
    rcases hs.slot_apart ho hq (fun hox => hno (hox ▸ hx)) with hd | hd <;> omega

section
variable (hs : Shape E s) {m : Mem} {a : ℕ} {l : List ℕ} (hl : Chain (load 8 m) 0 a l)
  (hslots : ∀ x ∈ l, ∃ c' q, IsSlot E s c' q x)
include hs hl hslots

theorem Shape.chain_head_lt : a < 256 ^ 8 := by
  cases l with
  | nil => rw [show a = 0 from hl]; norm_num
  | cons x l =>
    obtain ⟨rfl, -, -⟩ := hl
    obtain ⟨c', q, hq⟩ := hslots a (.head _)
    exact hs.slot_lt hq

theorem Shape.chain_head_dvd : 8 ∣ a := by
  cases l with
  | nil => rw [show a = 0 from hl]; exact dvd_zero 8
  | cons x l =>
    obtain ⟨rfl, -, -⟩ := hl
    obtain ⟨c', q, hq⟩ := hslots a (.head _)
    exact hs.slot_dvd hq

end

theorem Objects.cpu_slots (h : Objects E live s L place) :
    ∀ x ∈ L.cpu c k, ∃ c' q, IsSlot E s c' q x := fun x hx => by
  obtain ⟨⟨q, hq⟩, -⟩ := (h.mem_cpu c k x).1 hx
  exact ⟨c, q, hq⟩

theorem Objects.page_slots (h : Objects E live s L place) :
    ∀ x ∈ L.page p, ∃ c' q, IsSlot E s c' q x := fun x hx => by
  obtain ⟨⟨c', hq⟩, -⟩ := (h.mem_page p x).1 hx
  exact ⟨c', p, hq⟩

end

section
variable (h : Inv E live s L place)
include h

/-- A CPU hands out the first object of its freelist. -/
theorem Inv.takeCpu {t : List ℕ} (hl : L.cpu c k = o :: t) :
    Inv E (hold live c o) (s.setCpu c k fun u => { u with freelist := load 8 s.mem o })
      (L.setCpu c k t) (update place o .live) := by
  have hmem : o ∈ L.cpu c k := by simp [hl]
  obtain ⟨p, hpage, ho⟩ := h.cpu_active c k o hmem
  have hnd := h.objects.cpuNodup c k
  have hchain := h.objects.cpuChain c k
  rw [hl] at hnd hchain
  obtain ⟨-, -, htail⟩ := hchain
  rw [nodup_cons] at hnd
  have hsame : SameShape s (s.setCpu c k fun u => { u with freelist := load 8 s.mem o }) :=
    (refl s).setCpu c k _
  have hmoved : Moved c p o .live live (hold live c o) L (L.setCpu c k t) := by
    refine ⟨fun c' k' x => ?_, fun q x => ?_, fun c' x => ?_⟩
    · simp only [Lists.setCpu, reduceCtorEq, false_and, or_false]
      split_ifs with heq
      · rw [heq.1, heq.2, hl, mem_cons]
        grind
      · have := fun hx : o ∈ L.cpu c' k' => h.objects.cpu_eq h.shape hmem hx
        grind
    · have := h.objects.not_page_of_cpu hmem q
      simp only [Lists.setCpu, reduceCtorEq, false_and, or_false]
      grind
    · have := h.objects.not_live_of_cpu hmem c'
      rw [mem_hold]
      grind
  refine ⟨h.shape.congr hsame, h.objects.move h.shape ho hsame hmoved ?_ ?_ h.objects.pageNodup,
    h.pages.congr (fun _ => rfl) (fun _ => rfl) (fun _ => rfl) (by simp)
      (by simp), ?_, h.partial_free⟩
  · intro c' k'
    simp only [setCpu_percpu, setCpu_mem, Lists.setCpu]
    split
    · exact ⟨htail, hnd.2⟩
    · exact ⟨h.objects.cpuChain c' k', h.objects.cpuNodup c' k'⟩
  · exact fun q c' hq => ⟨h.objects.pageChain q c' hq, h.objects.inuse q c' hq⟩
  · intro c' k' x hx
    simp only [hsame.isSlot_iff, setCpu_freelist_page]
    rw [hmoved.cpu] at hx
    exact h.cpu_active c' k' x (by simpa using hx.elim And.left (fun hx => absurd hx.1 (by simp)))

omit [DecidableEq ι] [DecidableEq κ] in
theorem Inv.eq_of_live (ho : IsSlot E s c p o) (hx : o ∈ live c') : c' = c := by
  obtain ⟨⟨q, hq⟩, -⟩ := (h.objects.mem_live c' o).1 hx
  exact (h.shape.slot_unique hq ho).2

/-- An object that is held goes to the front of the freelist of the CPU whose
active page it is cut from. -/
theorem Inv.putCpu (ho : IsSlot E s c p o) (hlive : o ∈ live c)
    (hp : ((s.cache c).percpu k).page = some p) : Inv E (drop live c o)
      ((s.setMem (store 8 s.mem o ((s.cache c).percpu k).freelist)).setCpu c k
        fun u => { u with freelist := o })
      (L.setCpu c k (o :: L.cpu c k)) (update place o (.cpu k)) := by
  obtain ⟨hncpu, hnpage⟩ := h.objects.not_listed hlive
  have hsame : SameShape s ((s.setMem (store 8 s.mem o ((s.cache c).percpu k).freelist)).setCpu c k
      fun u => { u with freelist := o }) := ((refl s).setMem _).setCpu c k _
  have hmoved : Moved c p o (.cpu k) live (drop live c o) L (L.setCpu c k (o :: L.cpu c k)) := by
    refine ⟨fun c' k' x => ?_, fun q x => ?_, fun c' x => ?_⟩
    · have := hncpu c' k'
      simp only [Lists.setCpu, Place.cpu.injEq]
      split <;> grind
    · have := hnpage q
      simp only [Lists.setCpu, reduceCtorEq, false_and, or_false]
      grind
    · have hc : o ∈ live c' → c' = c := h.eq_of_live ho
      rw [mem_drop]
      grind
  refine ⟨h.shape.congr hsame, h.objects.move h.shape ho hsame hmoved ?_ ?_ h.objects.pageNodup,
    h.pages.congr (fun _ => rfl) (fun _ => rfl) (fun _ => rfl) (by simp)
      (by simp), ?_, h.partial_free⟩
  · intro c' k'
    simp only [setCpu_percpu, setCpu_mem, setMem_mem, setMem_cache, Lists.setCpu]
    have hold := h.shape.chain_store ho (v := ((s.cache c).percpu k).freelist)
      (h.objects.cpuChain c' k') h.objects.cpu_slots (hncpu c' k')
    split_ifs with heq
    · rw [heq.1, heq.2] at hold
      have hlink : load 8 (store 8 s.mem o ((s.cache c).percpu k).freelist) o =
          ((s.cache c).percpu k).freelist :=
        Bytes.load_store _ (h.shape.chain_head_lt (h.objects.cpuChain c k) h.objects.cpu_slots)
      exact ⟨hold.push (h.shape.slot_pos ho) hlink fun _ _ => rfl,
        nodup_cons.2 ⟨hncpu c k, h.objects.cpuNodup c k⟩⟩
    · exact ⟨hold, h.objects.cpuNodup c' k'⟩
  · intro q c' hq
    exact ⟨h.shape.chain_store ho (h.objects.pageChain q c' hq) h.objects.page_slots (hnpage q),
      h.objects.inuse q c' hq⟩
  · intro c' k' x hx
    simp only [hsame.isSlot_iff, setCpu_freelist_page, setMem_cache]
    rw [hmoved.cpu] at hx
    obtain ⟨hx, -⟩ | ⟨hk, rfl, rfl⟩ := hx
    · exact h.cpu_active c' k' x hx
    · exact ⟨p, Place.cpu.inj hk ▸ hp, ho⟩

section

omit [DecidableEq κ]

/-- A page hands out its first free object. -/
theorem Inv.takePage (hc : (s.page p).slabCache = some c) (hpart : p ∉ L.partials c) {t : List ℕ}
    (hl : L.page p = o :: t) : Inv E (hold live c o)
      (s.setPage p fun g => { g with
        freelist := slubPtrIncTag (load 8 s.mem o) (s.page p).freelist
        inuse := g.inuse + 1 })
      (L.setPage p t) (update place o .live) := by
  have hmem : o ∈ L.page p := by simp [hl]
  have ho : IsSlot E s c p o := by
    obtain ⟨⟨c', hq⟩, -⟩ := (h.objects.mem_page p o).1 hmem
    exact Option.some.inj (hq.1.symm.trans hc) ▸ hq
  have hnd := h.objects.pageNodup p
  have hchain := h.objects.pageChain p c hc
  have hinuse := h.objects.inuse p c hc
  have hslots := h.objects.page_slots (p := p)
  rw [hl] at hnd hchain hinuse hslots
  obtain ⟨-, -, htail⟩ := hchain
  rw [nodup_cons] at hnd
  have hdvd : 8 ∣ load 8 s.mem o :=
    h.shape.chain_head_dvd htail fun x hx => hslots x (.tail _ hx)
  have hsame : SameShape s (s.setPage p fun g => { g with
      freelist := slubPtrIncTag (load 8 s.mem o) (s.page p).freelist
      inuse := g.inuse + 1 }) := (refl s).setPage p fun _ => ⟨rfl, rfl, rfl⟩
  have hmoved : Moved c p o .live live (hold live c o) L (L.setPage p t) := by
    refine ⟨fun c' k' x => ?_, fun q x => ?_, fun c' x => ?_⟩
    · have := h.objects.not_cpu_of_page hmem c' k'
      simp only [Lists.setPage, reduceCtorEq, false_and, or_false]
      grind
    · simp only [Lists.setPage, reduceCtorEq, false_and, or_false]
      split_ifs with heq
      · rw [heq, hl, mem_cons]
        grind
      · have := fun hx : o ∈ L.page q => h.objects.page_eq h.shape hmem hx
        grind
    · have := h.objects.not_live_of_page hmem c'
      rw [mem_hold]
      grind
  refine ⟨h.shape.congr hsame, h.objects.move h.shape ho hsame hmoved
      (fun c' k' => ⟨h.objects.cpuChain c' k', h.objects.cpuNodup c' k'⟩) ?_ ?_,
    h.pages.congr hsame.slabCache (fun q => setPage_keeps _ p q _ (·.slabState) rfl)
      (fun q => setPage_keeps _ p q _ (·.partialNext) rfl) (fun _ => rfl) (fun _ _ => rfl), ?_, ?_⟩
  · intro q c' hq
    simp only [setPage_page, setPage_mem, Lists.setPage]
    split
    · refine ⟨by rw [untag_incTag hdvd]; exact htail, ?_⟩
      simp only [hinuse, length_cons]
      push_cast
      ring
    · exact ⟨h.objects.pageChain q c' hq, h.objects.inuse q c' hq⟩
  · intro q
    simp only [Lists.setPage]
    split
    · exact hnd.2
    · exact h.objects.pageNodup q
  · intro c' k' x hx
    simp only [hsame.isSlot_iff]
    exact h.cpu_active c' k' x hx
  · intro c' q hq
    simp only [Lists.setPage]
    split_ifs with heq
    · subst heq
      exact absurd (Option.some.inj (((h.pages.mem_partials c' q).1 hq).1.symm.trans hc) ▸ hq) hpart
    · exact h.partial_free c' q hq

/-- A held object goes back to its page. -/
theorem Inv.putPage (ho : IsSlot E s c p o) (hlive : o ∈ live c) :
    Inv E (drop live c o) (freeToPage p o s) (L.setPage p (o :: L.page p))
      (update place o .page) := by
  obtain ⟨hncpu, hnpage⟩ := h.objects.not_listed hlive
  have hpos := h.shape.slot_pos ho
  rw [freeToPage, if_neg hpos]
  simp only
  have hsame : SameShape s ((s.setMem (store 8 s.mem o (slubPtrUntag (s.page p).freelist))).setPage
    p
      fun g => { g with
        freelist := slubPtrIncTag o (s.page p).freelist
        inuse := g.inuse - 1 }) :=
    ((refl s).setMem _).setPage p fun _ => ⟨rfl, rfl, rfl⟩
  have hmoved : Moved c p o .page live (drop live c o) L (L.setPage p (o :: L.page p)) := by
    refine ⟨fun c' k' x => ?_, fun q x => ?_, fun c' x => ?_⟩
    · have := hncpu c' k'
      simp only [Lists.setPage, reduceCtorEq, false_and, or_false]
      grind
    · have := hnpage q
      simp only [Lists.setPage]
      split <;> grind
    · have hc : o ∈ live c' → c' = c := h.eq_of_live ho
      rw [mem_drop]
      grind
  refine ⟨h.shape.congr hsame, h.objects.move h.shape ho hsame hmoved ?_ ?_ ?_,
    h.pages.congr hsame.slabCache (fun q => setPage_keeps _ p q _ (·.slabState) rfl)
      (fun q => setPage_keeps _ p q _ (·.partialNext) rfl) (fun _ => rfl) (fun _ _ => rfl), ?_, ?_⟩
  · intro c' k'
    exact ⟨h.shape.chain_store ho (h.objects.cpuChain c' k') h.objects.cpu_slots (hncpu c' k'),
      h.objects.cpuNodup c' k'⟩
  · intro q c' hq
    have hold := h.shape.chain_store ho (v := slubPtrUntag (s.page p).freelist)
      (h.objects.pageChain q c' hq) h.objects.page_slots (hnpage q)
    simp only [setPage_page, setMem_page, setPage_mem, setMem_mem, Lists.setPage]
    split_ifs with heq
    · subst heq
      have hlink : load 8 (store 8 s.mem o (slubPtrUntag (s.page q).freelist)) o =
          slubPtrUntag (s.page q).freelist :=
        Bytes.load_store _ (h.shape.chain_head_lt (h.objects.pageChain q c' hq)
          h.objects.page_slots)
      refine ⟨by rw [untag_incTag (h.shape.slot_dvd ho)]; exact hold.push hpos hlink fun _ _ => rfl,
        ?_⟩
      simp only [h.objects.inuse q c' hq, length_cons]
      push_cast
      ring
    · exact ⟨hold, h.objects.inuse q c' hq⟩
  · intro q
    simp only [Lists.setPage]
    split
    · exact nodup_cons.2 ⟨hnpage p, h.objects.pageNodup p⟩
    · exact h.objects.pageNodup q
  · intro c' k' x hx
    simp only [hsame.isSlot_iff]
    exact h.cpu_active c' k' x hx
  · intro c' q hq
    simp only [Lists.setPage]
    split
    · simp
    · exact h.partial_free c' q hq

end

end

end

end Intewell.Slub
