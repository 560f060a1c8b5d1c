/-
# A tick of the periodic tasks

What a periodic task should do is a matter of that task alone (`Phase`): it waits until an
instant, is released there, has a deadline `durationTime` later, and waits again, for the
instant `periodTime` after its release.  `Phase.tick` says what one task does at a tick.

The queues hold the instants of all the tasks (`Sim`).  A notification takes the tasks that
are due one after the other, first those that are released (`waitNotify_spec`), then those
at their deadlines (`expireNotify_spec`); each such change is `Phase.tick` of one task, and
no task is taken twice (`Ticked`).  So a tick is `Phase.tick` for every task
(`tbspClockNotify_spec`).
-/

import Intewell.Period.Queue

namespace Intewell.Period

open State Prod Queue DeltaQueue List Function Option
open Sched (Returns TaskState TTOS_TASK_DORMANT TTOS_TASK_READY TTOS_TASK_SUSPEND
  TTOS_TASK_PWAITING TTOS_TASK_CWAITING)

/-! ## One task -/

/-- The period of a task, and the time from its release to its deadline. -/
structure Timing where
  period : ℕ
  duration : ℕ

/-- Where a task is: in no queue; waiting for its release at `r`; released at `r`, with its
work done or not. -/
inductive Phase where
  | off
  | waiting (r : ℕ)
  | released (r : ℕ) (done : Bool)

variable {τ : Type*}

/-- **What a task does at tick `b`.** -/
def Phase.tick (t : τ) (n : Timing) (b : ℕ) : Phase → Phase × List (Event τ)
  | off => (off, [])
  | waiting r => if r = b then (released b false, [.released t]) else (waiting r, [])
  | released r done =>
    if r + n.duration = b then
      if n.duration = n.period then (released b false, hook t done ++ [.released t])
      else (waiting (r + n.period), hook t done)
    else (released r done, [])

def Phase.DueAt (n : Timing) (b : ℕ) : Phase → Prop
  | off => False
  | waiting r => r = b
  | released r _ => r + n.duration = b

/-- A deadline is after the release, and not after the next one. -/
structure Timing.Valid (n : Timing) : Prop where
  pos : n.duration ≠ 0
  le : n.duration ≤ n.period

variable {t u : τ} {n : Timing} {b : ℕ} {p : Phase}

theorem Phase.tick_of_not_dueAt (h : ¬p.DueAt n b) : p.tick t n b = (p, []) := by
  cases p with
  | off => rfl
  | waiting r => exact if_neg h
  | released r done => exact if_neg h

theorem Phase.not_dueAt_tick (hn : n.Valid) (p : Phase) : ¬(p.tick t n b).1.DueAt n b := by
  have hpos := hn.pos
  cases p with
  | off => exact id
  | waiting r =>
    simp only [tick]
    split_ifs with h
    · simpa only [DueAt] using fun h : b + n.duration = b => hpos (by omega)
    · exact h
  | released r done =>
    simp only [tick]
    split_ifs with h he
    · simpa only [DueAt] using fun h : b + n.duration = b => hpos (by omega)
    · simpa only [DueAt] using fun h : r + n.period = b => he (by omega)
    · exact h

def Event.task : Event τ → τ
  | released t => t
  | missed t => t

theorem task_of_mem_hook {e : Event τ} {done : Bool} (h : e ∈ hook t done) : e.task = t := by
  cases done with
  | false => rw [mem_singleton.1 h, Event.task]
  | true => cases h

theorem Phase.task_of_mem_tick {e : Event τ} (h : e ∈ (p.tick t n b).2) : e.task = t := by
  cases p with
  | off => cases h
  | waiting r =>
    simp only [tick] at h
    split_ifs at h
    · rw [mem_singleton.1 h, Event.task]
    · cases h
  | released r done =>
    simp only [tick] at h
    split_ifs at h
    · rcases mem_append.1 h with h | h
      · exact task_of_mem_hook h
      · rw [mem_singleton.1 h, Event.task]
    · exact task_of_mem_hook h
    · cases h

/-! ## The queues hold the instants -/

def State.timing (s : State τ) (t : τ) : Timing := ⟨(s.node t).periodTime, (s.node t).durationTime⟩

/-- The bits of the state word that tell the queue of a task. -/
def pwaits (state : TaskState) : Bool := state.getLsbD 7

def dormant (state : TaskState) : Bool := state.getLsbD 0

/-- The control block of a task is that of its phase. -/
structure Fits (s : State τ) (t : τ) (p : Phase) : Prop where
  valid : s.created t = true → (s.timing t).Valid
  replenish : s.created t = true → (s.node t).replenishTime = 0
  phase : match p with
    | .off => s.created t = true → dormant (s.state t) = true → (s.node t).jobCompleted = false
    | .waiting _ => s.created t = true ∧ pwaits (s.state t) = true ∧
        dormant (s.state t) = false ∧ (s.node t).jobCompleted = false
    | .released _ done => s.created t = true ∧ pwaits (s.state t) = false ∧
        dormant (s.state t) = false ∧ (s.node t).jobCompleted = done

/-- The two queues, counted from tick `b`, hold the instants that the phases name. -/
structure Sim (s : State τ) (wq eq : List (τ × ℕ)) (b : ℕ) (φ : τ → Phase) : Prop where
  waits : ∀ t r, (t, r) ∈ times b wq ↔ φ t = .waiting r
  expires : ∀ t d, (t, d) ∈ times b eq ↔
    ∃ r done, φ t = .released r done ∧ d = r + (s.timing t).duration
  waitNodup : (wq.map fst).Nodup
  expireNodup : (eq.map fst).Nodup
  fits : ∀ t, Fits s t (φ t)

variable {s s' : State τ} {wq eq q : List (τ × ℕ)} {φ φ₀ : τ → Phase} {r : ℕ} {done : Bool}

theorem Fits.created (h : Fits s t p) (hp : p ≠ .off) : s.created t = true := by
  have := h.phase
  cases p with
  | off => exact absurd rfl hp
  | waiting r => exact this.1
  | released r done => exact this.1

section
variable (hs : Sim s wq eq b φ)
include hs

theorem Sim.not_mem_wait (hp : ∀ r, φ t ≠ .waiting r) : t ∉ wq.map fst := by
  rw [← map_fst_times b]
  rintro h
  obtain ⟨⟨_, r⟩, hx, rfl⟩ := mem_map.1 h
  exact hp r ((hs.waits _ _).1 hx)

theorem Sim.not_mem_expire (hp : ∀ r done, φ t ≠ .released r done) : t ∉ eq.map fst := by
  rw [← map_fst_times b]
  rintro h
  obtain ⟨⟨_, d⟩, hx, rfl⟩ := mem_map.1 h
  obtain ⟨r, done, hφ, -⟩ := (hs.expires _ _).1 hx
  exact hp r done hφ

/-- A queue without tasks that are due, in terms of the phases. -/
theorem Sim.not_dueAt (hw : Future wq b) (he : Future eq b) (t : τ) :
    ¬(φ t).DueAt (s.timing t) b := by
  rcases hp : φ t with _ | r | ⟨r, done⟩
  · exact id
  · rintro rfl
    exact absurd (hw _ ((hs.waits t r).2 hp)) (Nat.lt_irrefl r)
  · intro hd
    have := he _ ((hs.expires t b).2 ⟨r, done, hp, hd.symm⟩)
    exact absurd this (Nat.lt_irrefl b)

end

theorem not_mem_times_of_not_mem {d : ℕ} (h : t ∉ q.map fst) : (t, d) ∉ times b q := by
  rw [← map_fst_times b] at h
  exact fun hm => h (mem_map.2 ⟨_, hm, rfl⟩)

theorem mem_times_insert_of_ne {w d : ℕ} (h : u ≠ t) :
    (u, d) ∈ times b (insert (· < ·) t w q) ↔ (u, d) ∈ times b q := by
  simp [mem_times_insert stops_lt, h]

theorem mem_times_insert_self {w d : ℕ} (h : t ∉ q.map fst) :
    (t, d) ∈ times b (insert (· < ·) t w q) ↔ d = b + w := by
  simp [mem_times_insert stops_lt, not_mem_times_of_not_mem h]

theorem nodup_insert {w : ℕ} (h : t ∉ q.map fst) (hn : (q.map fst).Nodup) :
    ((insert (· < ·) t w q).map fst).Nodup :=
  (keys_insert stops_lt t w q).nodup_iff.2 (nodup_cons.2 ⟨h, hn⟩)

@[simp] theorem addIfRunnable_eq : addIfRunnable t s = { s with
    ready := if s.state t &&& Sched.TTOS_TASK_NONRUNNING_STATE = 0 then
      (ttosPeriodPrioReadyQueueAdd t s).ready else s.ready } := by
  rw [addIfRunnable]
  split_ifs <;> rfl

@[simp] theorem pwaits_and (x y : TaskState) : pwaits (x &&& y) = (pwaits x && pwaits y) := by
  simp [pwaits]

@[simp] theorem pwaits_or (x y : TaskState) : pwaits (x ||| y) = (pwaits x || pwaits y) := by
  simp [pwaits]

@[simp] theorem dormant_and (x y : TaskState) : dormant (x &&& y) = (dormant x && dormant y) := by
  simp [dormant]

@[simp] theorem dormant_or (x y : TaskState) : dormant (x ||| y) = (dormant x || dormant y) := by
  simp [dormant]

/-- A change that no task sees. -/
theorem Sim.frame (hs : Sim s wq eq b φ) (hn : s'.node = s.node) (hc : s'.created = s.created)
    (hp : ∀ t, pwaits (s'.state t) = pwaits (s.state t))
    (hd : ∀ t, dormant (s'.state t) = dormant (s.state t)) : Sim s' wq eq b φ where
  waits := hs.waits
  expires t d := by
    rw [timing, hn]
    exact hs.expires t d
  waitNodup := hs.waitNodup
  expireNodup := hs.expireNodup
  fits t := by
    obtain ⟨hv, hr, hf⟩ := hs.fits t
    refine ⟨?_, ?_, ?_⟩
    · rw [timing, hn, hc]
      exact hv
    · rw [hn, hc]
      exact hr
    · rw [hn, hc, hp, hd]
      exact hf

/-- A change of one task: its own entries follow its phase, and the others' stay. -/
structure Move (t : τ) (p : Phase) (b : ℕ) (s s' : State τ) (wq wq' eq eq' : List (τ × ℕ)) :
    Prop where
  node : ∀ u ≠ t, s'.node u = s.node u
  created : ∀ u ≠ t, s'.created u = s.created u
  pwaits : ∀ u ≠ t, pwaits (s'.state u) = pwaits (s.state u)
  dormant : ∀ u ≠ t, dormant (s'.state u) = dormant (s.state u)
  wait : ∀ u ≠ t, ∀ r, (u, r) ∈ times b wq' ↔ (u, r) ∈ times b wq
  expire : ∀ u ≠ t, ∀ d, (u, d) ∈ times b eq' ↔ (u, d) ∈ times b eq
  waitOwn : ∀ r, (t, r) ∈ times b wq' ↔ p = .waiting r
  expireOwn : ∀ d, (t, d) ∈ times b eq' ↔
    ∃ r done, p = .released r done ∧ d = r + (s'.timing t).duration
  waitNodup : (wq'.map fst).Nodup
  expireNodup : (eq'.map fst).Nodup
  fits : Fits s' t p

variable [DecidableEq τ]

theorem Sim.move {wq' eq' : List (τ × ℕ)} (hs : Sim s wq eq b φ)
    (h : Move t p b s s' wq wq' eq eq') : Sim s' wq' eq' b (update φ t p) where
  waits u r := by
    by_cases hu : u = t
    · rw [hu, update_self]
      exact h.waitOwn r
    · rw [update_of_ne hu, h.wait u hu]
      exact hs.waits u r
  expires u d := by
    by_cases hu : u = t
    · rw [hu, update_self]
      exact h.expireOwn d
    · rw [update_of_ne hu, h.expire u hu, timing, h.node u hu]
      exact hs.expires u d
  waitNodup := h.waitNodup
  expireNodup := h.expireNodup
  fits u := by
    by_cases hu : u = t
    · rw [hu, update_self]
      exact h.fits
    · obtain ⟨hv, hr, hp⟩ := hs.fits u
      rw [update_of_ne hu]
      refine ⟨?_, ?_, ?_⟩
      · rw [timing, h.node u hu, h.created u hu]
        exact hv
      · rw [h.node u hu, h.created u hu]
        exact hr
      · rw [h.node u hu, h.created u hu, h.pwaits u hu, h.dormant u hu]
        exact hp

/-! ## The changes of a tick -/

/-- The events of one task. -/
def eventsOf (t : τ) (es : List (Event τ)) : List (Event τ) := es.filter fun e => e.task = t

open Phase

theorem eventsOf_tick_self : eventsOf t (p.tick t n b).2 = (p.tick t n b).2 :=
  filter_eq_self.2 fun _ he => by simpa using task_of_mem_tick he

theorem eventsOf_tick_of_ne (h : u ≠ t) : eventsOf u (p.tick t n b).2 = [] :=
  filter_eq_nil_iff.2 fun _ he => by
    simpa [task_of_mem_tick he] using fun hu : t = u => h hu.symm

/-- Some tasks have had their tick, and the others are as they were. -/
def Ticked (T : τ → Timing) (b : ℕ) (φ₀ φ : τ → Phase) (es : List (Event τ)) : Prop :=
  ∀ t, φ t = φ₀ t ∧ eventsOf t es = [] ∨ (φ t, eventsOf t es) = (φ₀ t).tick t (T t) b

theorem Ticked.refl (T : τ → Timing) (b : ℕ) (φ : τ → Phase) : Ticked T b φ φ [] :=
  fun _ => .inl ⟨rfl, rfl⟩

section
variable {T : τ → Timing} {φ₀ φ : τ → Phase} {es : List (Event τ)} (h : Ticked T b φ₀ φ es)
include h

theorem Ticked.step (hn : (T t).Valid) (hd : (φ t).DueAt (T t) b) :
    Ticked T b φ₀ (update φ t ((φ t).tick t (T t) b).1) (es ++ ((φ t).tick t (T t) b).2) := by
  intro u
  rw [show eventsOf u (es ++ _) = eventsOf u es ++ eventsOf u _ from filter_append ..]
  by_cases hu : u = t
  · subst hu
    rw [update_self, eventsOf_tick_self]
    rcases h u with ⟨hφ, he⟩ | he
    · rw [he, nil_append, ← hφ]
      exact .inr rfl
    · rw [(mk.inj he).1] at hd
      exact absurd hd (not_dueAt_tick hn _)
  · rw [update_of_ne hu, eventsOf_tick_of_ne hu, append_nil]
    exact h u

theorem Ticked.all (hd : ∀ t, ¬(φ t).DueAt (T t) b) (t : τ) :
    (φ t, eventsOf t es) = (φ₀ t).tick t (T t) b := by
  rcases h t with ⟨hφ, he⟩ | h
  · have hd := hd t
    rw [hφ] at hd ⊢
    rw [he, tick_of_not_dueAt hd]
  · exact h

end

/-- The first task of the waiting queue is released. -/
theorem Sim.on_release (hs : Sim s ((t, 0) :: q) s.expire.rest b φ) (he : Ok s.expire) :
    φ t = .waiting b ∧
      Sim (release t s) q (release t s).expire.rest b (update φ t (.released b false)) ∧
      Ok (release t s).expire ∧ (release t s).expire.rest =
        insert (· < ·) t (s.timing t).duration s.expire.rest ∧
      (release t s).timing = s.timing := by
  have hφ : φ t = .waiting b := (hs.waits t b).1 (by simp)
  have hq : t ∉ q.map fst := (nodup_cons.1 hs.waitNodup).1
  have hne : t ∉ s.expire.rest.map fst := hs.not_mem_expire (by simp [hφ])
  have hfit := hs.fits t
  have hc : s.created t = true := hfit.created (by simp [hφ])
  have hphase := hfit.phase
  simp only [hφ] at hphase
  obtain ⟨-, -, hdorm, hjob⟩ := hphase
  obtain ⟨hrest, hok⟩ := rest_insert he (hfit.valid hc).pos (by rwa [has, ← map_fst_rest])
  have hexp : (release t s).expire = s.expire.insert t (s.timing t).duration := by
    simp [release, timing]
  have hnode : (release t s).node = s.node := by simp [release]
  have hstate : (release t s).state = update s.state t (s.state t &&& ~~~TTOS_TASK_PWAITING) := by
    simp [release]
  have hcr : (release t s).created = s.created := by simp [release]
  have htime : (release t s).timing = s.timing := by
    funext u
    rw [timing, timing, hnode]
  rw [hexp, hrest]
  refine ⟨hφ, hs.move ⟨fun _ _ => by rw [hnode], fun _ _ => by rw [hcr], fun u hu => ?_,
    fun u hu => ?_, fun u hu r => ?_, fun u hu d => mem_times_insert_of_ne hu, fun r => ?_,
    fun d => ?_, (nodup_cons.1 hs.waitNodup).2, nodup_insert hne hs.expireNodup, ?_⟩, hok, rfl,
      htime⟩
  · rw [hstate, update_of_ne hu]
  · rw [hstate, update_of_ne hu]
  · simp [hu]
  · simp [not_mem_times_of_not_mem hq]
  · rw [mem_times_insert_self hne, htime]
    simp
  · refine ⟨fun h => ?_, fun h => ?_, ⟨?_, ?_, ?_, ?_⟩⟩
    · rw [htime]
      exact hfit.valid hc
    · rw [hnode]
      exact hfit.replenish hc
    · rw [hcr]
      exact hc
    · rw [hstate, update_self, pwaits_and, show pwaits (~~~TTOS_TASK_PWAITING) = false by decide,
        Bool.and_false]
    · rw [hstate, update_self, dormant_and, hdorm, Bool.false_and]
    · rw [hnode]
      exact hjob

/-- The control block of a task whose deadline has passed. -/
def nextNode (n : Node) : Node := { n with replenishTime := 0, jobCompleted := false }

theorem deadline_of_pos {w : ℕ} (hw : (s.node t).periodTime - (s.node t).durationTime -
    (s.node t).replenishTime = w) (h : w ≠ 0) : deadline t s = (hook t (s.node t).jobCompleted,
      { s with
        node := update s.node t (nextNode (s.node t))
        wait := s.wait.insert t w
        state := update s.state t (s.state t &&& ~~~TTOS_TASK_CWAITING &&& ~~~TTOS_TASK_READY |||
          TTOS_TASK_PWAITING) }) := by
  simp [deadline, hw, h, nextNode]

theorem deadline_of_zero (hw : (s.node t).periodTime - (s.node t).durationTime -
    (s.node t).replenishTime = 0) :
    (deadline t s).1 = hook t (s.node t).jobCompleted ++ [.released t] ∧
      (deadline t s).2.wait = s.wait ∧ (deadline t s).2.expire.chain =
        insert (· < ·) t (s.node t).durationTime s.expire.chain ∧
      (deadline t s).2.node = update s.node t (nextNode (s.node t)) ∧
      (deadline t s).2.state = update s.state t (s.state t &&& ~~~TTOS_TASK_CWAITING) ∧
      (deadline t s).2.created = s.created := by
  cases hj : (s.node t).jobCompleted <;>
    simp [deadline, hw, hj, nextNode, insertWaited_zero]

theorem timing_nextNode (hn : s'.node = update s.node t (nextNode (s.node t))) :
    s'.timing = s.timing := by
  funext u
  rw [timing, hn]
  by_cases hu : u = t
  · rw [hu, update_self]
    rfl
  · rw [update_of_ne hu]
    rfl

/-- The task has a new job, which it has begun or waits for. -/
theorem fits_nextNode (hv : (s.timing t).Valid) (hc : s'.created t = true)
    (hn : s'.node = update s.node t (nextNode (s.node t))) (hd : dormant (s'.state t) = false)
    (hp : p = .released b false ∧ pwaits (s'.state t) = false ∨
      p = .waiting b ∧ pwaits (s'.state t) = true) : Fits s' t p := by
  have hnode : s'.node t = nextNode (s.node t) := by rw [hn, update_self]
  refine ⟨fun _ => ?_, fun _ => ?_, ?_⟩
  · rwa [timing_nextNode hn]
  · rw [hnode]
    rfl
  · rcases hp with ⟨rfl, hp⟩ | ⟨rfl, hp⟩ <;> exact ⟨hc, hp, hd, by rw [hnode]; rfl⟩

/-- What `deadline` does to a task that is at its deadline. -/
structure Passed (t : τ) (b : ℕ) (φ : τ → Phase) (s : State τ) : Prop where
  events : (deadline t s).1 = ((φ t).tick t (s.timing t) b).2
  sim : Sim (deadline t s).2 (deadline t s).2.wait.rest (deadline t s).2.expire.chain b
    (update φ t ((φ t).tick t (s.timing t) b).1)
  ok : Ok (deadline t s).2.wait
  future : Future (deadline t s).2.wait.rest b
  timing : (deadline t s).2.timing = s.timing
  chain : (deadline t s).2.expire.chain = s.expire.chain ∨ (deadline t s).2.expire.chain =
    insert (· < ·) t (s.timing t).duration s.expire.chain

section
variable (hs : Sim s s.wait.rest ((t, 0) :: s.expire.chain) b φ) (hw : Ok s.wait)
  (hf : Future s.wait.rest b) {r : ℕ} {done : Bool} (hφ : φ t = .released r done)
  (hb : b = r + (s.timing t).duration) (hq : t ∉ s.expire.chain.map fst)
  (hnw : t ∉ s.wait.rest.map fst) (hfit : Fits s t (.released r done))
include hs hw hf hφ hb hq hnw hfit

/-- The next period begins at once. -/
theorem Sim.deadline_again (he : (s.timing t).duration = (s.timing t).period) : Passed t b φ s := by
  obtain ⟨hv, -, hc, hpw, hdorm, hjob⟩ := hfit
  have hz : (s.node t).periodTime - (s.node t).durationTime - (s.node t).replenishTime = 0 := by
    simp only [State.timing] at he
    omega
  obtain ⟨hev, hwait, hchain, hnode, hstate, hcr⟩ := deadline_of_zero hz
  have htime := timing_nextNode hnode
  have htick : (φ t).tick t (s.timing t) b = (.released b false, hook t done ++ [.released t]) := by
    rw [hφ, tick, if_pos hb.symm, if_pos he]
  refine ⟨by rw [htick, hev, hjob], ?_, hwait ▸ hw, hwait ▸ hf, htime, .inr hchain⟩
  rw [htick, hwait, hchain]
  refine hs.move ⟨fun u hu => ?_, fun _ _ => by rw [hcr], fun u hu => ?_, fun u hu => ?_,
    fun u hu r => Iff.rfl, fun u hu d => ?_, fun r => ?_, fun d => ?_, hs.waitNodup,
    nodup_insert hq (nodup_cons.1 hs.expireNodup).2, ?_⟩
  · rw [hnode, update_of_ne hu]
  · rw [hstate, update_of_ne hu]
  · rw [hstate, update_of_ne hu]
  · rw [mem_times_insert_of_ne hu]
    simp [hu]
  · simp [not_mem_times_of_not_mem hnw]
  · rw [mem_times_insert_self hq, htime]
    simp [State.timing]
  · refine fits_nextNode (hv hc) (hcr ▸ hc) hnode ?_ (.inl ⟨rfl, ?_⟩)
    · rw [hstate, update_self, dormant_and, hdorm, Bool.false_and]
    · rw [hstate, update_self, pwaits_and, hpw, Bool.false_and]

/-- The task waits for its next period. -/
theorem Sim.deadline_wait (he : (s.timing t).duration ≠ (s.timing t).period) : Passed t b φ s := by
  obtain ⟨hv, hrep, hc, -, hdorm, hjob⟩ := hfit
  have hle := (hv hc).le
  have hw' : (s.node t).periodTime - (s.node t).durationTime - (s.node t).replenishTime =
      (s.timing t).period - (s.timing t).duration := by
    rw [hrep hc]
    rfl
  have hne : (s.timing t).period - (s.timing t).duration ≠ 0 := by omega
  have hnext : b + ((s.timing t).period - (s.timing t).duration) = r + (s.timing t).period := by
    omega
  obtain ⟨hrest, hok⟩ := rest_insert hw hne (by rwa [has, ← map_fst_rest])
  have htick : (φ t).tick t (s.timing t) b = (.waiting (r + (s.timing t).period), hook t done) := by
    rw [hφ, tick, if_pos hb.symm, if_neg he]
  have hdl := deadline_of_pos hw' hne
  refine ⟨by rw [htick, hdl, hjob], ?_, by rw [hdl]; exact hok, ?_,
    timing_nextNode (by rw [hdl]), .inl (by rw [hdl])⟩
  · rw [htick, hdl]
    dsimp only
    rw [hrest]
    refine hs.move ⟨fun u hu => update_of_ne hu _ _, fun u hu => rfl,
      fun u hu => congrArg pwaits (update_of_ne hu _ _),
      fun u hu => congrArg dormant (update_of_ne hu _ _), fun u hu r => mem_times_insert_of_ne hu,
      fun u hu d => by simp [hu], fun r => ?_, fun d => by simp [not_mem_times_of_not_mem hq],
      nodup_insert hnw hs.waitNodup, (nodup_cons.1 hs.expireNodup).2, ?_⟩
    · rw [mem_times_insert_self hnw, hnext, waiting.injEq, eq_comm]
    · refine fits_nextNode (hv hc) hc rfl ?_ (.inr ⟨rfl, ?_⟩)
      · simp only [update_self, dormant_or, dormant_and, hdorm]
        decide
      · simp only [update_self, pwaits_or]
        rw [show pwaits TTOS_TASK_PWAITING = true by decide, Bool.or_true]
  · rw [hdl, hrest]
    exact future_insert hf hne

end

/-- The first task of the queue of deadlines is at its deadline. -/
theorem Sim.on_deadline (hs : Sim s s.wait.rest ((t, 0) :: s.expire.chain) b φ) (hw : Ok s.wait)
    (hf : Future s.wait.rest b) : (φ t).DueAt (s.timing t) b ∧ Passed t b φ s := by
  obtain ⟨r, done, hφ, hb⟩ := (hs.expires t b).1 (by simp)
  have hq : t ∉ s.expire.chain.map fst := (nodup_cons.1 hs.expireNodup).1
  have hnw : t ∉ s.wait.rest.map fst := hs.not_mem_wait (by simp [hφ])
  have hfit : Fits s t (.released r done) := hφ ▸ hs.fits t
  refine ⟨by rw [hφ]; exact hb.symm, ?_⟩
  by_cases he : (s.timing t).duration = (s.timing t).period
  · exact hs.deadline_again hw hf hφ hb hq hnw hfit he
  · exact hs.deadline_wait hw hf hφ hb hq hnw hfit he

/-! ## A notification -/

/-- What holds between two changes of a notification at tick `b`. -/
structure Within (T : τ → Timing) (b : ℕ) (φ₀ φ : τ → Phase) (es : List (Event τ))
    (s : State τ) (wq eq : List (τ × ℕ)) : Prop where
  sim : Sim s wq eq b φ
  ticked : Ticked T b φ₀ φ es
  timing : s.timing = T

variable {T : τ → Timing} {es : List (Event τ)}

/-- No task waits for its release any more, and the queue of deadlines has later ones only. -/
def Notified (T : τ → Timing) (b : ℕ) (φ₀ : τ → Phase) (es : List (Event τ)) (s : State τ)
    (r : List (Event τ) × State τ) : Prop :=
  ∃ φ', Within T b φ₀ φ' (es ++ r.1) r.2 r.2.wait.rest r.2.expire.rest ∧
    Ok r.2.wait ∧ Ok r.2.expire ∧ Future r.2.wait.rest b ∧
    ((∃ t l, s.expire.rest = (t, 0) :: l) → ∃ t l, r.2.expire.rest = (t, 0) :: l) ∧
    (Future s.expire.rest b → Future r.2.expire.rest b)

/-- **All the tasks that are due are released**, and the counters are set for the next. -/
theorem waitNotify_spec (first : Bool) (hfirst : first = true → ∃ t l, q = (t, 0) :: l)
    (hs : Within T b φ₀ φ es s q s.expire.rest) (he : Ok s.expire) :
    Notified T b φ₀ es s (waitNotify first q s) := by
  induction q generalizing first s φ es with
  | nil =>
    refine ⟨φ, ?_, ok_of_chain_nil rfl, he, future_nil, id, id⟩
    rw [waitNotify, append_nil]
    exact ⟨hs.sim.frame rfl rfl (fun _ => rfl) fun _ => rfl, hs.ticked, hs.timing⟩
  | cons x q ih =>
    obtain ⟨t, w⟩ := x
    by_cases hw : w = 0
    · subst hw
      obtain ⟨hφ, hsim, hok, hrest, htime⟩ := hs.sim.on_release he
      have hrec : waitNotify first ((t, 0) :: q) s =
          (.released t :: (waitNotify false q (release t s)).1,
            (waitNotify false q (release t s)).2) := by
        simp [waitNotify]
      have hv : (T t).Valid := by
        rw [← hs.timing]
        exact (hs.sim.fits t).valid ((hs.sim.fits t).created (by simp [hφ]))
      have htick : (φ t).tick t (T t) b = (.released b false, [.released t]) := by
        rw [hφ, tick, if_pos rfl]
      have hstep := hs.ticked.step hv (by rw [hφ]; rfl)
      rw [htick] at hstep
      have hpos : (s.timing t).duration ≠ 0 := by
        rw [hs.timing]
        exact hv.pos
      obtain ⟨φ', hw', ho1, ho2, hf, hhead, hfut⟩ :=
        ih false (fun h => nomatch h) ⟨hsim, hstep, htime.trans hs.timing⟩ hok
      rw [hrec]
      refine ⟨φ', by simpa using hw', ho1, ho2, hf, fun ⟨u, l, hl⟩ => hhead ?_, fun h => hfut ?_⟩
      · rw [hrest, hl]
        exact ⟨u, _, rfl⟩
      · rw [hrest]
        exact future_insert h hpos
    · have hf : first = false := by
        rcases Bool.eq_false_or_eq_true first with h | h
        · obtain ⟨u, l, hl⟩ := hfirst h
          exact absurd (congrArg snd (cons.inj hl).1) hw
        · exact h
      have hstop : waitNotify first ((t, w) :: q) s =
          ([], { s with wait := setTick { s.wait with chain := (t, w) :: q } w }) := by
        rw [waitNotify, if_pos ⟨hf, hw⟩]
      obtain ⟨hr, hok⟩ := setTick_spec (q := { s.wait with chain := (t, w) :: q }) rfl hw
      rw [hstop]
      unfold Notified
      rw [append_nil, hr]
      exact ⟨φ, ⟨hs.sim.frame rfl rfl (fun _ => rfl) fun _ => rfl, hs.ticked, hs.timing⟩, hok, he,
        future_cons (Nat.pos_of_ne_zero hw), id, id⟩

/-- The tasks at the front of a queue that are due. -/
def dueCount (l : List (τ × ℕ)) : ℕ := (l.takeWhile fun x => x.2 = 0).length

section

omit [DecidableEq τ]

theorem dueCount_cons_zero (t : τ) (l : List (τ × ℕ)) :
    dueCount ((t, 0) :: l) = dueCount l + 1 := by
  simp [dueCount]

/-- A task with time to wait does not get between those that are due. -/
theorem dueCount_insert {w : ℕ} (hw : w ≠ 0) (l : List (τ × ℕ)) :
    dueCount (DeltaQueue.insert (· < ·) t w l) = dueCount l := by
  induction l with
  | nil => simp [DeltaQueue.insert, dueCount, hw]
  | cons x l ih =>
    obtain ⟨u, d⟩ := x
    by_cases hd : d = 0
    · subst hd
      rw [DeltaQueue.insert, if_neg (Nat.not_lt_zero w), Nat.sub_zero, dueCount_cons_zero, ih,
        dueCount_cons_zero]
    · rw [DeltaQueue.insert]
      split_ifs
      · simp [dueCount, hw, hd]
      · simp [dueCount, hd]

end

/-- **All the tasks at their deadlines are taken**, and the counters are set for the next. -/
theorem expireNotify_spec (first : Bool)
    (hfirst : first = true → ∃ t l, s.expire.chain = (t, 0) :: l)
    (hs : Within T b φ₀ φ es s s.wait.rest s.expire.chain) (hw : Ok s.wait)
    (hf : Future s.wait.rest b) :
    ∃ φ' es' s', (∀ n > dueCount s.expire.chain, expireNotify n first s = some (es', s')) ∧
      Within T b φ₀ φ' (es ++ es') s' s'.wait.rest s'.expire.rest ∧
      Ok s'.wait ∧ Ok s'.expire ∧ Future s'.wait.rest b ∧ Future s'.expire.rest b := by
  -- on the number of tasks that are due: none of those that enter again is
  induction hm : dueCount s.expire.chain generalizing first s φ es with
  | zero =>
    rcases hc : s.expire.chain with _ | ⟨⟨t, w⟩, q⟩
    · refine ⟨φ, [], s, fun n hn => ?_, ?_, hw, ok_of_chain_nil hc, hf, ?_⟩
      · obtain ⟨n, rfl⟩ : ∃ m, n = m + 1 := ⟨n - 1, by omega⟩
        simp [expireNotify, hc]
      · have hr : s.expire.rest = s.expire.chain := by simp [rest, hc]
        rw [append_nil, hr]
        exact hs
      · simp [rest, hc, future_nil]
    · have hw0 : w ≠ 0 := fun h => by simp [dueCount, hc, h] at hm
      have hff : first = false := by
        rcases Bool.eq_false_or_eq_true first with h | h
        · obtain ⟨u, l, hl⟩ := hfirst h
          rw [hc] at hl
          exact absurd (congrArg snd (cons.inj hl).1) hw0
        · exact h
      obtain ⟨hr, hok⟩ := setTick_spec hc hw0
      refine ⟨φ, [], { s with expire := s.expire.setTick w }, fun n hn => ?_, ?_, hw, hok, hf, ?_⟩
      · obtain ⟨n, rfl⟩ : ∃ m, n = m + 1 := ⟨n - 1, by omega⟩
        simp [expireNotify, hc, hff, hw0]
      · rw [append_nil]
        refine ⟨?_, hs.ticked, hs.timing⟩
        rw [hr]
        exact hs.sim.frame rfl rfl (fun _ => rfl) fun _ => rfl
      · rw [hr, hc]
        exact future_cons (Nat.pos_of_ne_zero hw0)
  | succ m ih =>
    obtain ⟨t, q, hc⟩ : ∃ t q, s.expire.chain = (t, 0) :: q := by
      rcases hc : s.expire.chain with _ | ⟨⟨t, w⟩, q⟩
      · simp [dueCount, hc] at hm
      · by_cases hw0 : w = 0
        · exact ⟨t, q, by rw [hw0]⟩
        · simp [dueCount, hc, hw0] at hm
    set s1 : State τ := { s with expire := { s.expire with chain := q } } with hs1
    have hsim : Sim s1 s1.wait.rest ((t, 0) :: s1.expire.chain) b φ := by
      rw [← hc]
      exact hs.sim.frame rfl rfl (fun _ => rfl) fun _ => rfl
    obtain ⟨hdue, hev, hsim', hok, hfut, htime, hchain⟩ := hsim.on_deadline hw hf
    have htm : s1.timing t = T t := congrFun hs.timing t
    have hv : (s1.timing t).Valid := (hsim.fits t).valid ((hsim.fits t).created fun h => by
      rw [h] at hdue
      exact hdue)
    have hstep := hs.ticked.step (by rwa [← htm]) (by rwa [← htm])
    rw [← htm] at hstep
    have hcount : dueCount (deadline t s1).2.expire.chain = m := by
      have hq : dueCount s1.expire.chain = m := by
        rw [hc, dueCount_cons_zero] at hm
        exact Nat.succ.inj hm
      rcases hchain with h | h
      · rw [h, hq]
      · rw [h, dueCount_insert hv.pos, hq]
    obtain ⟨φ', es', s', hrun, hwithin, ho1, ho2, hf1, hf2⟩ :=
      ih false (by simp) ⟨hsim', hstep, htime.trans hs.timing⟩ hok hfut hcount
    refine ⟨φ', (deadline t s1).1 ++ es', s', fun n hn => ?_, ?_, ho1, ho2, hf1, hf2⟩
    · obtain ⟨n, rfl⟩ : ∃ m, n = m + 1 := ⟨n - 1, by omega⟩
      simp only [expireNotify, hc, ne_eq, not_true_eq_false, and_false, if_false]
      rw [← hs1, hrun n (by omega), map_some]
    · rw [hev, ← append_assoc]
      exact hwithin

theorem expireNotify_mono {n m : ℕ} {first : Bool} {r : List (Event τ) × State τ}
    (hr : expireNotify n first s = some r) (hm : n ≤ m) : expireNotify m first s = some r := by
  induction n generalizing m first s r with
  | zero => cases hr
  | succ n ih =>
    obtain ⟨m, rfl⟩ : ∃ m', m = m' + 1 := ⟨m - 1, by omega⟩
    rcases hq : s.expire.chain with _ | ⟨⟨i, w⟩, q⟩
    · simpa only [expireNotify, hq] using hr
    · simp only [expireNotify, hq] at hr ⊢
      split_ifs at hr ⊢ with hw
      · exact hr
      · obtain ⟨r', hr', rfl⟩ := map_eq_some_iff.1 hr
        rw [ih hr' (by omega), map_some]

theorem tbspClockNotify_mono {n m : ℕ} {r : List (Event τ) × State τ}
    (hr : tbspClockNotify n s = some r) (hm : n ≤ m) : tbspClockNotify m s = some r := by
  simp only [tbspClockNotify] at hr ⊢
  by_cases hc : s.wait.countDown.1 = false ∧ s.expire.countDown.1 = false
  · rw [if_pos hc] at hr ⊢
    exact hr
  · rw [if_neg hc] at hr ⊢
    obtain ⟨r', hr', rfl⟩ := map_eq_some_iff.1 hr
    rw [map_eq_some_iff]
    refine ⟨r', ?_, rfl⟩
    rw [notifyExpired] at hr' ⊢
    split_ifs at hr' ⊢
    · exact expireNotify_mono hr' hm
    · exact hr'

/-- What holds between the calls, at tick `b`. -/
structure At (s : State τ) (b : ℕ) (φ : τ → Phase) : Prop where
  sim : Sim s s.wait.rest s.expire.rest b φ
  waitOk : Ok s.wait
  expireOk : Ok s.expire
  waitFuture : Future s.wait.rest b
  expireFuture : Future s.expire.rest b

theorem pwaits_setReady (x : TaskState) : pwaits (setReady x) = pwaits x := by
  rw [setReady]
  split_ifs
  · rfl
  · rw [pwaits_or, show pwaits TTOS_TASK_READY = false by decide, Bool.or_false]

theorem dormant_setReady (x : TaskState) : dormant (setReady x) = dormant x := by
  rw [setReady]
  split_ifs
  · rfl
  · rw [dormant_or, show dormant TTOS_TASK_READY = false by decide, Bool.or_false]

/-- The tasks that were released are made ready. -/
theorem At.setReady (hs : At s b φ) : At (ttosPeriodPrioReadyQueueSetReady s) b φ := by
  refine ⟨hs.sim.frame rfl rfl (fun t => ?_) fun t => ?_, hs.waitOk, hs.expireOk, hs.waitFuture,
    hs.expireFuture⟩
  · simp only [ttosPeriodPrioReadyQueueSetReady]
    split_ifs
    · exact pwaits_setReady _
    · rfl
  · simp only [ttosPeriodPrioReadyQueueSetReady]
    split_ifs
    · exact dormant_setReady _
    · rfl

/-- The counters have been counted down: the tasks are as before, a tick later. -/
theorem At.within_countedDown (hs : At s b φ) : Within s.timing (b + 1) φ φ []
      { s with wait := countedDown s.wait, expire := countedDown s.expire }
      (countedDown s.wait).rest (countedDown s.expire).rest := by
  obtain ⟨-, hwt⟩ := countedDown_spec hs.waitOk hs.waitFuture
  obtain ⟨-, het⟩ := countedDown_spec hs.expireOk hs.expireFuture
  have hsim : Sim { s with wait := countedDown s.wait, expire := countedDown s.expire }
      s.wait.rest s.expire.rest b φ := hs.sim.frame rfl rfl (fun _ => rfl) fun _ => rfl
  refine ⟨⟨?_, ?_, ?_, ?_, hsim.fits⟩, Ticked.refl _ _ _, rfl⟩
  · rw [hwt]
    exact hsim.waits
  · rw [het]
    exact hsim.expires
  · rw [← map_fst_times (b + 1), hwt, map_fst_times]
    exact hsim.waitNodup
  · rw [← map_fst_times (b + 1), het, map_fst_times]
    exact hsim.expireNodup

theorem Within.all (hs : Within T b φ₀ φ es s s.wait.rest s.expire.rest) (hwo : Ok s.wait)
    (heo : Ok s.expire) (hwf : Future s.wait.rest b) (hef : Future s.expire.rest b) :
    At s b (fun t => ((φ₀ t).tick t (T t) b).1) ∧
      ∀ t, eventsOf t es = ((φ₀ t).tick t (T t) b).2 := by
  have hall := hs.ticked.all fun t => by
    rw [← hs.timing]
    exact hs.sim.not_dueAt hwf hef t
  have hφ : (fun t => ((φ₀ t).tick t (T t) b).1) = φ := funext fun t => by rw [← hall t]
  refine ⟨⟨?_, hwo, heo, hwf, hef⟩, fun t => by rw [← hall t]⟩
  rw [hφ]
  exact hs.sim

section
variable (due : Bool) (hs : Within T b φ₀ φ es s s.wait.rest s.expire.rest) (hwo : Ok s.wait)
  (heo : Ok s.expire)
include due hs hwo heo

theorem notifyWaiting_spec (hnone : due = false → Future s.wait.rest b)
    (hsome : due = true → ∃ t l, s.wait.chain = (t, 0) :: l ∧ s.wait.rest = s.wait.chain) :
    Notified T b φ₀ es s (notifyWaiting due s) := by
  cases due with
  | true =>
    obtain ⟨t, l, hcl, hr⟩ := hsome rfl
    rw [hr] at hs
    exact waitNotify_spec true (fun _ => ⟨t, l, hcl⟩) hs heo
  | false =>
    refine ⟨φ, ?_, hwo, heo, hnone rfl, id, id⟩
    simpa [notifyWaiting] using hs

theorem notifyExpired_spec (hwf : Future s.wait.rest b)
    (hnone : due = false → Future s.expire.rest b)
    (hsome : due = true → ∃ t l, s.expire.rest = (t, 0) :: l) :
    ∃ φ' es' s', Returns (notifyExpired · due s) (es', s') ∧
      Within T b φ₀ φ' (es ++ es') s' s'.wait.rest s'.expire.rest ∧
      Ok s'.wait ∧ Ok s'.expire ∧ Future s'.wait.rest b ∧ Future s'.expire.rest b := by
  cases due with
  | true =>
    obtain ⟨t, l, hr⟩ := hsome rfl
    have hcr := chain_eq_rest heo hr
    rw [← hcr] at hs
    obtain ⟨φ', es', s', hrun, hrest⟩ := expireNotify_spec true
      (fun _ => ⟨t, l, hcr.trans hr⟩) hs hwo hwf
    exact ⟨φ', es', s', ⟨_, hrun⟩, hrest⟩
  | false =>
    refine ⟨φ, [], s, ⟨0, fun _ _ => rfl⟩, ?_, hwo, heo, hwf, hnone rfl⟩
    simpa using hs

end

/-- **A tick is a tick of every task.** -/
theorem tbspClockNotify_spec (hs : At s b φ) : ∃ es s', Returns (tbspClockNotify · s) (es, s') ∧
      At s' (b + 1) (fun t => ((φ t).tick t (s.timing t) (b + 1)).1) ∧
      s'.timing = s.timing ∧ ∀ t, eventsOf t es = ((φ t).tick t (s.timing t) (b + 1)).2 := by
  have hwo := (countedDown_spec hs.waitOk hs.waitFuture).1
  have heo := (countedDown_spec hs.expireOk hs.expireFuture).1
  have hw := hs.within_countedDown
  set s1 : State τ := { s with wait := countedDown s.wait, expire := countedDown s.expire } with hs1
  by_cases hc : s.wait.countDown.1 = false ∧ s.expire.countDown.1 = false
  · obtain ⟨hat, hev⟩ := Within.all hw hwo heo (future_of_countDown hs.waitOk hs.waitFuture hc.1)
      (future_of_countDown hs.expireOk hs.expireFuture hc.2)
    refine ⟨[], ttosPeriodPrioReadyQueueSetReady s1, ⟨0, fun n _ => ?_⟩, hat.setReady, rfl, hev⟩
    exact if_pos hc
  · obtain ⟨hwm, hwnone, hwsome⟩ := merge_spec hwo
    obtain ⟨hem, henone, hesome⟩ := merge_spec heo
    obtain ⟨φ1, hw1, hwo1, heo1, hwf1, hhead, hef1⟩ :=
      notifyWaiting_spec (countedDown s.wait).merge.1 hw hwo heo hwnone hwsome
    obtain ⟨φ2, es, s2, ⟨N, hrun⟩, hw2, hwo2, heo2, hwf2, hef2⟩ :=
      notifyExpired_spec (countedDown s.expire).merge.1 hw1 hwo1 heo1 hwf1
        (fun h => hef1 (henone h)) fun h => hhead (by
          obtain ⟨t, l, hcl, hr⟩ := hesome h
          exact ⟨t, l, hr.trans hcl⟩)
    obtain ⟨hat, hev⟩ := hw2.all hwo2 heo2 hwf2 hef2
    refine ⟨_, _, ⟨N, fun n hn => ?_⟩, hat.setReady, hw2.timing, hev⟩
    simp only [tbspClockNotify]
    rw [if_neg hc, hwm, hem, ← hs1]
    exact congrArg (Option.map _) (hrun n hn)

end Intewell.Period
