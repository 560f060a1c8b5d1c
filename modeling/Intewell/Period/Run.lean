/-
# Every run of the periodic tasks

A run is made of the calls that start and stop periodic tasks, of `TTOS_WaitPeriod`, of
`period_sched_group_exit` and of ticks.  Beside it runs, for every task on its own, what
the task should do: its `Phase`, and the events it should show.  Neither looks at another
task.  `period_runs` says that the queues hold the instants of the phases and that the
events of every task are its own, in every run that

* creates no task with no time to its deadline,
* creates no periodic task while a queue has waited for its first task already, since
  `ttosSetPWaitAndExpireTick` starts the counters anew, and
* calls `period_sched_group_exit` only for a task that nobody's time is counted from.
-/

import Intewell.Period.Tick

namespace Intewell.Period

open Prod Queue Relation List
open State (timing)
open Function
open DeltaQueue (times mem_times_remove keys_remove map_fst_times remove)
open Sched (Returns TaskState TTOS_TASK_DORMANT TTOS_TASK_READY TTOS_TASK_PWAITING
  TTOS_TASK_CWAITING)

variable {τ : Type*} [DecidableEq τ]

/-- The calls.  `other` stands for the rest of the kernel, which changes the state of a
task but neither its wait for the period nor whether it is dormant. -/
inductive Op (τ : Type*) where
  | create (t : τ) (periodTime durationTime delayTime : ℕ) (autoStarted : Bool)
  | active (t : τ)
  | waitPeriod (t : τ)
  | stop (t : τ)
  | delete (t : τ)
  | exit (group : Bool) (t : τ)
  | other (t : τ) (state : TaskState)

def Op.run (s : State τ) : Op τ → Option (State τ)
  | create t periodTime durationTime delayTime autoStarted =>
    some (createTask t periodTime durationTime delayTime autoStarted s)
  | active t => some (activeTask t s)
  | waitPeriod t => some (Period.waitPeriod t s)
  | stop t => stopTask t s
  | delete t => deleteTask t s
  | exit group t => period_sched_group_exit group t s
  | other t state => some { s with state := update s.state t state }

/-- A task is created on an object that is not in use, and `TTOS_WaitPeriod` is called by a
task that runs, and so has been released. -/
def Op.Possible (s : State τ) : Op τ → Prop
  | create t .. => s.created t = false
  | waitPeriod t => s.expire.has t
  | other t state => pwaits state = pwaits (s.state t) ∧ dormant state = dormant (s.state t)
  | _ => True

/-- **The condition on a run.** -/
def Op.Careful (s : State τ) : Op τ → Prop
  | create _ periodTime durationTime _ _ =>
    durationTime ≤ periodTime → durationTime ≠ 0 ∧ s.wait.Fresh ∧ s.expire.Fresh
  | exit group t => group = true →
    (s.wait.has t → Harmless t s.wait) ∧ (s.expire.has t → Harmless t s.expire)
  | _ => True

/-- A task is started at tick `b`. -/
def started (b delayTime : ℕ) : Phase :=
  if delayTime ≠ 0 then .waiting (b + delayTime) else .released b false

/-- The phase of the task after the call, which is made at tick `b`. -/
def Op.phase (s : State τ) (b : ℕ) (φ : τ → Phase) : Op τ → τ → Phase
  | create t periodTime durationTime delayTime autoStarted =>
    if durationTime ≤ periodTime ∧ autoStarted = true then update φ t (started b delayTime) else φ
  | active t =>
    if s.created t = true ∧ s.state t = TTOS_TASK_DORMANT then
      update φ t (started b (s.node t).delayTime)
    else φ
  | waitPeriod t =>
    match φ t with
    | .released r _ => update φ t (.released r true)
    | _ => φ
  | stop t => update φ t .off
  | delete t => update φ t .off
  | exit group t => if group then update φ t .off else φ
  | other _ _ => φ

variable {s s' : State τ} {t u : τ} {b w : ℕ} {φ : τ → Phase} {p : Phase} {q : Queue τ}

/-! ## Entering and leaving the queues -/

theorem remove_of_not_mem {l : List (τ × ℕ)} (h : t ∉ l.map fst) : remove t l = l := by
  induction l with
  | nil => rfl
  | cons x l ih =>
    rw [map_cons, mem_cons, not_or] at h
    rw [remove, if_neg fun hx => h.1 hx.symm, ih h.2]

/-- What a call changes beside the queues: one task. -/
structure Touch (t : τ) (s s' : State τ) : Prop where
  node : ∀ u ≠ t, s'.node u = s.node u
  created : ∀ u ≠ t, s'.created u = s.created u
  state : ∀ u ≠ t, s'.state u = s.state u

omit [DecidableEq τ] in
theorem At.not_mem_of_off (hs : At s b φ) (hoff : φ t = .off) :
    t ∉ s.wait.rest.map fst ∧ t ∉ s.expire.rest.map fst :=
  ⟨hs.sim.not_mem_wait (by simp [hoff]), hs.sim.not_mem_expire (by simp [hoff])⟩

section
variable (hs : At s b φ) (ht : Touch t s s')
include hs ht

theorem At.enter_wait (hoff : φ t = .off) (hw : w ≠ 0)
    (hwq : s'.wait = s.wait.insert t w) (heq : s'.expire = s.expire)
    (hfit : Fits s' t (.waiting (b + w))) : At s' b (update φ t (.waiting (b + w))) := by
  obtain ⟨hnw, hne⟩ := hs.not_mem_of_off hoff
  obtain ⟨hrest, hok⟩ := rest_insert hs.waitOk hw (by rwa [has, ← map_fst_rest])
  refine ⟨hs.sim.move ⟨ht.node, ht.created, fun u hu => by rw [ht.state u hu],
    fun u hu => by rw [ht.state u hu], fun u hu r => ?_, fun u hu d => by rw [heq], fun r => ?_,
    fun d => ?_, ?_, ?_, hfit⟩, by rwa [hwq], by rw [heq]; exact hs.expireOk, ?_,
    by rw [heq]; exact hs.expireFuture⟩
  · rw [hwq, hrest, mem_times_insert_of_ne hu]
  · rw [hwq, hrest, mem_times_insert_self hnw, Phase.waiting.injEq, eq_comm]
  · rw [heq]
    simp [not_mem_times_of_not_mem hne]
  · rw [hwq, hrest]
    exact nodup_insert hnw hs.sim.waitNodup
  · rw [heq]
    exact hs.sim.expireNodup
  · rw [hwq, hrest]
    exact future_insert hs.waitFuture hw

theorem At.enter_expire (hoff : φ t = .off) (hwq : s'.wait = s.wait)
    (heq : s'.expire = s.expire.insert t (s'.timing t).duration) (hw : (s'.timing t).duration ≠ 0)
    (hfit : Fits s' t (.released b false)) : At s' b (update φ t (.released b false)) := by
  obtain ⟨hnw, hne⟩ := hs.not_mem_of_off hoff
  obtain ⟨hrest, hok⟩ := rest_insert hs.expireOk hw (by rwa [has, ← map_fst_rest])
  refine ⟨hs.sim.move ⟨ht.node, ht.created, fun u hu => by rw [ht.state u hu],
    fun u hu => by rw [ht.state u hu], fun u hu r => by rw [hwq], fun u hu d => ?_, fun r => ?_,
    fun d => ?_, ?_, ?_, hfit⟩, by rw [hwq]; exact hs.waitOk, by rwa [heq],
    by rw [hwq]; exact hs.waitFuture, ?_⟩
  · rw [heq, hrest, mem_times_insert_of_ne hu]
  · rw [hwq]
    simp [not_mem_times_of_not_mem hnw]
  · rw [heq, hrest, mem_times_insert_self hne]
    simp
  · rw [hwq]
    exact hs.sim.waitNodup
  · rw [heq, hrest]
    exact nodup_insert hne hs.sim.expireNodup
  · rw [heq, hrest]
    exact future_insert hs.expireFuture hw

theorem At.leave (hwq : s'.wait.rest = remove t s.wait.rest ∧ Ok s'.wait)
    (heq : s'.expire.rest = remove t s.expire.rest ∧ Ok s'.expire)
    (hfit : Fits s' t .off) : At s' b (update φ t .off) := by
  have hmw {x : τ × ℕ} : x ∈ times b s'.wait.rest ↔ x.1 ≠ t ∧ x ∈ times b s.wait.rest := by
    rw [hwq.1, mem_times_remove hs.sim.waitNodup]
  have hme {x : τ × ℕ} : x ∈ times b s'.expire.rest ↔ x.1 ≠ t ∧ x ∈ times b s.expire.rest := by
    rw [heq.1, mem_times_remove hs.sim.expireNodup]
  refine ⟨hs.sim.move ⟨ht.node, ht.created, fun u hu => by rw [ht.state u hu],
    fun u hu => by rw [ht.state u hu], fun u hu r => ?_, fun u hu d => ?_, fun r => ?_,
    fun d => ?_, ?_, ?_, hfit⟩, hwq.2, heq.2, fun x hx => hs.waitFuture x (hmw.1 hx).2,
    fun x hx => hs.expireFuture x (hme.1 hx).2⟩
  · simp [hmw, hu]
  · simp [hme, hu]
  · simp [hmw]
  · simp [hme]
  · rw [hwq.1, keys_remove]
    exact hs.sim.waitNodup.erase t
  · rw [heq.1, keys_remove]
    exact hs.sim.expireNodup.erase t

end

/-! ## The calls -/

section
variable (hs : At s b φ)
include hs

section

omit [DecidableEq τ]

theorem At.phase_of_wait_has (h : s.wait.has t) : ∃ r, φ t = .waiting r := by
  rw [has, ← map_fst_rest, ← map_fst_times b] at h
  obtain ⟨⟨_, r⟩, hx, rfl⟩ := mem_map.1 h
  exact ⟨r, (hs.sim.waits _ _).1 hx⟩

theorem At.phase_of_expire_has (h : s.expire.has t) : ∃ r done, φ t = .released r done := by
  rw [has, ← map_fst_rest, ← map_fst_times b] at h
  obtain ⟨⟨_, d⟩, hx, rfl⟩ := mem_map.1 h
  obtain ⟨r, done, hφ, -⟩ := (hs.sim.expires _ _).1 hx
  exact ⟨r, done, hφ⟩

theorem At.off_of_not_created (h : s.created t = false) : φ t = .off := by
  by_contra hne
  have := (hs.sim.fits t).created hne
  simp [h] at this

theorem At.not_dormant (hne : φ t ≠ .off) : dormant (s.state t) = false := by
  have hp := (hs.sim.fits t).phase
  rcases hφ : φ t with _ | r | ⟨r, done⟩
  · exact absurd hφ hne
  · simp only [hφ] at hp
    exact hp.2.2.1
  · simp only [hφ] at hp
    exact hp.2.2.1

theorem At.off_of_dormant (h : s.state t = TTOS_TASK_DORMANT) : φ t = .off := by
  by_contra hne
  have := hs.not_dormant hne
  rw [h] at this
  exact absurd this (by decide)

end

theorem At.stay_off (ht : Touch t s s') (hoff : φ t = .off) (hwq : s'.wait = s.wait)
    (heq : s'.expire = s.expire) (hfit : Fits s' t .off) : At s' b φ := by
  obtain ⟨hnw, hne⟩ := hs.not_mem_of_off hoff
  have h := hs.leave ht ⟨by rw [hwq, remove_of_not_mem hnw], by rw [hwq]; exact hs.waitOk⟩
    ⟨by rw [heq, remove_of_not_mem hne], by rw [heq]; exact hs.expireOk⟩ hfit
  rwa [← hoff, update_eq_self] at h

theorem At.createTask {periodTime durationTime delayTime : ℕ} {autoStarted : Bool}
    (hc : s.created t = false)
    (hok : (Op.create t periodTime durationTime delayTime autoStarted).Careful s) :
    At (createTask t periodTime durationTime delayTime autoStarted s) b
      ((Op.create t periodTime durationTime delayTime autoStarted).phase s b φ) := by
  have hoff := hs.off_of_not_created hc
  obtain ⟨hnw, hne⟩ := hs.not_mem_of_off hoff
  rw [map_fst_rest] at hnw hne
  simp only [Period.createTask, ttosSetPWaitAndExpireTick, Op.phase]
  by_cases hle : durationTime ≤ periodTime
  · obtain ⟨hpos, hwf, hef⟩ := hok hle
    have hv : (⟨periodTime, durationTime⟩ : Timing).Valid := ⟨hpos, hle⟩
    rw [if_neg (Nat.not_lt.2 hle)]
    cases autoStarted with
    | false =>
      simp only [Bool.false_eq_true, if_false, and_false]
      refine hs.stay_off ⟨fun u hu => update_of_ne hu _ _, fun u hu => update_of_ne hu _ _,
        fun u hu => update_of_ne hu _ _⟩ hoff (restart_of_fresh hs.waitOk hwf)
        (restart_of_fresh hs.expireOk hef) ⟨fun _ => ?_, fun _ => ?_, fun _ _ => ?_⟩
      · simpa [timing] using hv
      · simp
      · simp
    | true =>
      simp only [if_true, hle, and_self, started]
      by_cases hd : delayTime ≠ 0
      · rw [if_pos hd, if_pos hd]
        refine hs.enter_wait ⟨fun u hu => update_of_ne hu _ _,
          fun u hu => update_of_ne hu _ _, fun u hu => update_of_ne hu _ _⟩ hoff hd
          (restart_insertWaited hs.waitOk hwf hd hnw)
          (restart_of_fresh hs.expireOk hef) ⟨fun _ => ?_, fun _ => ?_, ⟨?_, ?_, ?_, ?_⟩⟩
        · simpa [timing] using hv
        · simp
        · simp
        · simp only [update_self]
          decide
        · simp only [update_self]
          decide
        · simp
      · rw [if_neg hd, if_neg hd]
        refine hs.enter_expire ⟨fun u hu => update_of_ne hu _ _,
          fun u hu => update_of_ne hu _ _, fun u hu => update_of_ne hu _ _⟩ hoff
          (restart_of_fresh hs.waitOk hwf) ?_ ?_ ⟨fun _ => ?_, fun _ => ?_, ⟨?_, ?_, ?_, ?_⟩⟩
        · simpa [timing] using restart_insertWaited hs.expireOk hef hpos hne
        · simpa [timing] using hpos
        · simpa [timing] using hv
        · simp
        · simp
        · simp only [update_self]
          decide
        · simp only [update_self]
          decide
        · simp
  · rw [if_pos (Nat.lt_of_not_le hle), if_neg fun h => hle h.1]
    exact hs

theorem At.ttosStartPeriod (hc : s.created t = true) (hd : s.state t = TTOS_TASK_DORMANT) :
    At (ttosStartPeriod t s) b (update φ t (started b (s.node t).delayTime)) := by
  have hoff := hs.off_of_dormant hd
  have hfit := hs.sim.fits t
  have hjob : (s.node t).jobCompleted = false := by
    have hp := hfit.phase
    simp only [hoff] at hp
    exact hp hc (by rw [hd]; decide)
  simp only [Period.ttosStartPeriod, started]
  by_cases hdl : (s.node t).delayTime ≠ 0
  · rw [if_pos hdl, if_pos hdl]
    refine hs.enter_wait ⟨fun _ _ => rfl, fun _ _ => rfl, fun u hu => update_of_ne hu _ _⟩ hoff hdl
      rfl
      rfl ⟨hfit.valid, hfit.replenish, ⟨hc, ?_, ?_, hjob⟩⟩
    · simp only [update_self]
      decide
    · simp only [update_self]
      decide
  · rw [if_neg hdl, if_neg hdl]
    refine hs.enter_expire ⟨fun _ _ => rfl, fun _ _ => rfl, fun u hu => update_of_ne hu _ _⟩ hoff
      rfl
      rfl (hfit.valid hc).pos ⟨hfit.valid, hfit.replenish, ⟨hc, ?_, ?_, hjob⟩⟩
    · simp only [update_self, pwaits_setReady]
      decide
    · simp only [update_self, dormant_setReady]
      decide

theorem At.activeTask : At (activeTask t s) b ((Op.active t).phase s b φ) := by
  simp only [Period.activeTask, Op.phase]
  by_cases hc : s.created t = true
  · by_cases hd : s.state t = TTOS_TASK_DORMANT
    · simpa [hc, hd] using hs.ttosStartPeriod hc hd
    · simpa [hc, hd] using hs
  · simpa [hc] using hs

theorem At.waitPeriod (hh : s.expire.has t) :
    At (waitPeriod t s) b ((Op.waitPeriod t).phase s b φ) := by
  obtain ⟨r, done, hφ⟩ := hs.phase_of_expire_has hh
  have hfit := hs.sim.fits t
  have hp := hfit.phase
  simp only [hφ] at hp
  obtain ⟨hc, hpw, hdorm, -⟩ := hp
  have htime : (Period.waitPeriod t s).timing = s.timing := by
    funext u
    by_cases hu : u = t
    · simp [timing, Period.waitPeriod, hu]
    · simp [timing, Period.waitPeriod, hu]
  simp only [Op.phase, hφ]
  refine ⟨hs.sim.move ⟨fun u hu => update_of_ne hu _ _, fun _ _ => rfl, fun u hu => ?_, fun u hu =>
    ?_,
    fun _ _ _ => Iff.rfl, fun _ _ _ => Iff.rfl, fun r' => ?_, fun d => ?_, hs.sim.waitNodup,
    hs.sim.expireNodup, ⟨fun _ => ?_, fun h => ?_, ⟨hc, ?_, ?_, ?_⟩⟩⟩, hs.waitOk, hs.expireOk,
    hs.waitFuture, hs.expireFuture⟩
  · exact congrArg pwaits (update_of_ne hu _ _)
  · exact congrArg dormant (update_of_ne hu _ _)
  · exact (hs.sim.waits t r').trans (by simp [hφ])
  · rw [htime]
    exact (hs.sim.expires t d).trans (by simp [hφ])
  · rw [htime]
    exact hfit.valid hc
  · simpa [Period.waitPeriod] using hfit.replenish h
  · simp only [Period.waitPeriod, update_self, pwaits_and, pwaits_or, hpw]
    decide
  · simp only [Period.waitPeriod, update_self, dormant_and, dormant_or, hdorm]
    decide
  · simp [Period.waitPeriod]

end

/-- The block of a task that is stopped. -/
theorem Fits.stopped (hfit : Fits s t p) (hn : s'.node = update s.node t (nextNode (s.node t)))
    (hc : s'.created = s.created) : Fits s' t .off := by
  have htime := timing_nextNode hn
  refine ⟨fun h => ?_, fun _ => ?_, fun _ _ => ?_⟩
  · rw [htime]
    rw [hc] at h
    exact hfit.valid h
  · rw [hn, update_self]
    rfl
  · rw [hn, update_self]
    rfl

section
variable (hs : At s b φ)
include hs

theorem At.stopTask (h : stopTask t s = some s') : At s' b (update φ t .off) := by
  have touch {state : TaskState} (wq eq : Queue τ) : Touch t s
      { s with
        node := update s.node t (nextNode (s.node t))
        state := update s.state t state
        wait := wq
        expire := eq } :=
    ⟨fun u hu => update_of_ne hu _ _, fun _ _ => rfl, fun u hu => update_of_ne hu _ _⟩
  rw [Period.stopTask] at h
  split_ifs at h with hno
  · cases h
    have hoff : φ t = .off := hno.elim hs.off_of_not_created hs.off_of_dormant
    rwa [← hoff, update_eq_self]
  · simp only [ttosStopTask] at h
    split_ifs at h with hp hw he
    · obtain ⟨r, hr⟩ := hs.phase_of_wait_has hw
      cases h
      exact hs.leave (touch _ _) (rest_exact hs.waitOk hs.waitFuture)
        ⟨(remove_of_not_mem (hs.sim.not_mem_expire (by simp [hr]))).symm, hs.expireOk⟩
        ((hs.sim.fits t).stopped rfl rfl)
    · obtain ⟨r, done, hr⟩ := hs.phase_of_expire_has he
      cases h
      exact hs.leave (touch _ _)
        ⟨(remove_of_not_mem (hs.sim.not_mem_wait (by simp [hr]))).symm, hs.waitOk⟩
        (rest_exact hs.expireOk hs.expireFuture) ((hs.sim.fits t).stopped rfl rfl)

section

omit [DecidableEq τ]

end

theorem At.deleteTask (h : deleteTask t s = some s') : At s' b (update φ t .off) := by
  obtain ⟨s1, h1, rfl⟩ := Option.map_eq_some_iff.1 h
  exact (hs.stopTask h1).stay_off
    ⟨fun _ _ => rfl, fun u hu => update_of_ne hu _ _, fun _ _ => rfl⟩ (update_self ..) rfl rfl
    ⟨fun h => by simp at h, fun h => by simp at h, fun h => by simp at h⟩

theorem At.exit {group : Bool} (h : period_sched_group_exit group t s = some s')
    (hok : (Op.exit group t).Careful s) : At s' b ((Op.exit group t).phase s b φ) := by
  rw [period_sched_group_exit] at h
  cases group with
  | false =>
    cases h
    exact hs
  | true =>
    simp only [if_true] at h
    obtain ⟨hw, he⟩ := hok rfl
    have unlinked (q : Queue τ) (hq : Ok q) (hn : (q.chain.map fst).Nodup)
        (hh : q.has t → Harmless t q) :
        (q.unlink t).rest = remove t q.rest ∧ Ok (q.unlink t) := by
      by_cases ht : q.has t
      · exact rest_unlink hq hn (hh ht)
      · rw [unlink_of_not_has ht]
        rw [has, ← map_fst_rest] at ht
        exact ⟨(remove_of_not_mem ht).symm, hq⟩
    split_ifs at h with hin
    cases h
    have hne : φ t ≠ .off := by
      rcases hin with hin | hin
      · obtain ⟨r, hr⟩ := hs.phase_of_wait_has hin
        simp [hr]
      · obtain ⟨r, done, hr⟩ := hs.phase_of_expire_has hin
        simp [hr]
    have hnw := hs.sim.waitNodup
    have hne' := hs.sim.expireNodup
    rw [map_fst_rest] at hnw hne'
    refine hs.leave ⟨fun _ _ => rfl, fun _ _ => rfl, fun _ _ => rfl⟩ (unlinked _ hs.waitOk hnw hw)
      (unlinked _ hs.expireOk hne' he)
      ⟨(hs.sim.fits t).valid, (hs.sim.fits t).replenish, fun _ hd => ?_⟩
    have hnd := hs.not_dormant hne
    exact absurd (hd : dormant (s.state t) = true) (by simp [hnd])

/-- **A call moves nobody else's instants.** -/
theorem At.call {op : Op τ} (hp : op.Possible s) (hok : op.Careful s) (h : op.run s = some s') :
    At s' b (op.phase s b φ) := by
  cases op with
  | create t periodTime durationTime delayTime autoStarted =>
    cases h
    exact hs.createTask hp hok
  | active t =>
    cases h
    exact hs.activeTask
  | waitPeriod t =>
    cases h
    exact hs.waitPeriod hp
  | stop t => exact hs.stopTask h
  | delete t => exact hs.deleteTask h
  | exit group t => exact hs.exit h hok
  | other t state =>
    cases h
    exact ⟨hs.sim.frame rfl rfl (update_proj pwaits hp.1) (update_proj dormant hp.2), hs.waitOk,
      hs.expireOk, hs.waitFuture, hs.expireFuture⟩

end

/-! ## Runs -/

/-- The tasks, the tick, and the events so far; beside them, for each task on its own, its
phase and the events that it should show. -/
structure World (τ : Type*) where
  st : State τ
  now : ℕ
  log : List (ℕ × Event τ)
  phase : τ → Phase
  plan : τ → List (ℕ × Event τ)

/-- A call that meets `ok`, or a tick. -/
inductive Step (ok : State τ → Op τ → Prop) : World τ → World τ → Prop
  | call (w : World τ) (op : Op τ) (s' : State τ) (hp : op.Possible w.st) (hok : ok w.st op)
    (h : op.run w.st = some s') :
    Step ok w { w with st := s', phase := op.phase w.st w.now w.phase }
  | tick (w : World τ) (n : ℕ) (es : List (Event τ)) (s' : State τ)
    (h : tbspClockNotify n w.st = some (es, s')) :
    Step ok w
      { st := s', now := w.now + 1, log := w.log ++ es.map (w.now + 1, ·)
        phase := fun t => ((w.phase t).tick t (w.st.timing t) (w.now + 1)).1
        plan := fun t => w.plan t ++
          ((w.phase t).tick t (w.st.timing t) (w.now + 1)).2.map (w.now + 1, ·) }

/-- No task is created; the counters may hold anything. -/
def start (node : τ → Node) (state : τ → TaskState) (pwait pexpire : ℕ × ℕ) : World τ :=
  ⟨⟨fun _ => false, node, state, ⟨[], pwait.1, pwait.2⟩, ⟨[], pexpire.1, pexpire.2⟩, []⟩, 0, [],
    fun _ => .off, fun _ => []⟩

/-- What holds of the periodic tasks between the calls. -/
structure Good (w : World τ) : Prop where
  /-- The tasks that wait, and the instants at which they will be released. -/
  waits : ∀ t r, (t, r) ∈ times w.now w.st.wait.rest ↔ w.phase t = .waiting r
  /-- The tasks that have been released, and the instants of their deadlines. -/
  expires : ∀ t d, (t, d) ∈ times w.now w.st.expire.rest ↔
    ∃ r done, w.phase t = .released r done ∧ d = r + (w.st.node t).durationTime
  /-- No instant has passed. -/
  future : Future w.st.wait.rest w.now ∧ Future w.st.expire.rest w.now
  /-- The releases and the calls of the hook are those that every task should show. -/
  log : ∀ t, (w.log.filter fun e => e.2.task = t) = w.plan t
  /-- A task can be stopped. -/
  stops : ∀ t, w.phase t ≠ .off → (stopTask t w.st).isSome
  /-- The next tick returns. -/
  returns : ∃ r, Returns (tbspClockNotify · w.st) r

theorem Step.keeps {w w' : World τ} (hstep : Step (fun s op => op.Careful s) w w')
    (hs : At w.st w.now w.phase ∧ ∀ t, (w.log.filter fun e => e.2.task = t) = w.plan t) :
    At w'.st w'.now w'.phase ∧ ∀ t, (w'.log.filter fun e => e.2.task = t) = w'.plan t := by
  cases hstep with
  | call op s' hp hok h => exact ⟨hs.1.call hp hok h, hs.2⟩
  | tick n es s' h =>
    obtain ⟨es', s'', hr, hat, -, hev⟩ := tbspClockNotify_spec hs.1
    cases hr.eq fun m => tbspClockNotify_mono h
    refine ⟨hat, fun t => ?_⟩
    rw [filter_append, hs.2 t, filter_map]
    exact congrArg (fun l => w.plan t ++ l.map (w.now + 1, ·)) (hev t)

end Intewell.Period
