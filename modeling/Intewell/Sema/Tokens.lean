/-
# The units of a counting semaphore

A unit is in the value, with a task that has obtained it, or on its way to a task that has
been taken out of the queue; a task that waits, or that has stopped waiting and has not run
since, has a unit of debt in the value.  `Effect` lists what a step can do to one counting
semaphore, and `Ledger` is the account that every effect keeps.

`tokens_break` has the calls that break the account, or the promise that goes with it.
-/

import Intewell.Sema.Inside

namespace Intewell.Sema

open Relation List
open Option (some_ne_none)
open State (granted returning setSema setTcb withdrawn)
open SemaControlBlock (enqueue isInherit isMutex isPriorityCeiling)
open Function ReturnCode

variable {σ τ : Type*} {s s' s'' : State σ τ} {t u : τ} {m m' : σ} {w w' : World σ τ} {v : ℕ}

variable [DecidableEq σ] [DecidableEq τ]

/-! ## What a step does to a counting semaphore -/

/-- **The condition on a run.**  A call that finds no unit waits, without a signal pending, and
not when there would be one without the debts of those that have stopped waiting; and the value
has room for a release. -/
def Op.Counted (m : σ) (s : State σ τ) : Op σ τ → Prop
  | obtain isISR t semaID ticks is_interruptable pending =>
    isISR = false → (s.tcb t).isIdle = false → semaID = some m → (s.sema m).semaControlValue ≤ 0 →
      ticks ≠ 0 ∧ (is_interruptable && pending) = false ∧
        (s.sema m).semaControlValue + s.withdrawn m ≤ 0
  | release _ _ semaID => semaID = some m → (s.sema m).semaControlValue < INT_MAX
  | _ => True

/-- The new value, queue and tasks on their way back, and the calls that have returned. -/
structure Change (m : σ) (w w' : World σ τ) (d : ℤ) (q r : List τ) (o n : ℕ) : Prop where
  counting : (w'.st.sema m).isMutex = false
  value : (w'.st.sema m).semaControlValue = (w.st.sema m).semaControlValue + d
  waitQueue : (w'.st.sema m).waitQueue = q
  resuming : w'.st.resuming m = r
  obtained : w'.obtained m = w.obtained m + o
  released : w'.released m = w.released m + n

/-- The codes of the tasks inside are kept, but for one. -/
def Codes (m : σ) (s s' : State σ τ) (t : Option τ) : Prop :=
  ∀ u ∈ s.inside m, some u ≠ t → (s'.tcb u).returnCode = (s.tcb u).returnCode

inductive Effect (m : σ) (w w' : World σ τ) : Prop
  | other (h : Change m w w' 0 (w.st.sema m).waitQueue (w.st.resuming m) 0 0)
    (hc : Codes m w.st w'.st none)
  | got (hv : 0 < (w.st.sema m).semaControlValue)
    (h : Change m w w' (-1) (w.st.sema m).waitQueue (w.st.resuming m) 1 0)
    (hc : Codes m w.st w'.st none)
  | queued (t : τ) (ht : t ∉ w.st.inside m) (hv : (w.st.sema m).semaControlValue ≤ 0)
    (hd : (w.st.sema m).semaControlValue + w.st.withdrawn m ≤ 0)
    (h : Change m w w' (-1) ((w.st.sema m).waitQueue ++ [t]) (w.st.resuming m) 0 0)
    (hc : Codes m w.st w'.st none) (ho : (w'.st.tcb t).returnCode = TTOS_OK)
  | given (hq : (w.st.sema m).waitQueue = []) (h : Change m w w' 1 [] (w.st.resuming m) 0 1)
    (hc : Codes m w.st w'.st none)
  | handed (t : τ) (q : List τ) (hq : (w.st.sema m).waitQueue = t :: q)
    (h : Change m w w' 1 q (t :: w.st.resuming m) 0 1) (hc : Codes m w.st w'.st none)
  | ended (t : τ) (ht : t ∈ (w.st.sema m).waitQueue)
    (h : Change m w w' 0 ((w.st.sema m).waitQueue.erase t) (t :: w.st.resuming m) 0 0)
    (hc : Codes m w.st w'.st (some t)) (ho : (w'.st.tcb t).returnCode ≠ TTOS_OK)
  | resumed (t : τ) (ht : t ∈ w.st.resuming m) (hok : (w.st.tcb t).returnCode = TTOS_OK)
    (h : Change m w w' 0 (w.st.sema m).waitQueue ((w.st.resuming m).erase t) 1 0)
    (hc : Codes m w.st w'.st none)
  | restored (t : τ) (ht : t ∈ w.st.resuming m) (hok : (w.st.tcb t).returnCode ≠ TTOS_OK)
    (h : Change m w w' 1 (w.st.sema m).waitQueue ((w.st.resuming m).erase t) 0 0)
    (hc : Codes m w.st w'.st none)

omit [DecidableEq σ] in
theorem Effect.of_kept (hc : (w.st.sema m).isMutex = false) (h : Kept m w.st w'.st)
    (ho : w'.obtained m = w.obtained m) (hr : w'.released m = w.released m) : Effect m w w' := by
  refine .other ⟨?_, ?_, ?_, h.resuming, ho, hr⟩ fun t ht _ => h.code t ht
  · rw [h.sema_eq hc, hc]
  · rw [h.sema_eq hc, Int.add_zero]
  · rw [h.sema_eq hc]

omit [DecidableEq τ] in
theorem attributeSet_of_not_mutex {b : SemaControlBlock τ} (h : b.isMutex = false) :
    b.attributeSet = .counting := by
  unfold isMutex at h
  split at h
  · assumption
  · cases h

section
variable (hc : (w.st.sema m).isMutex = false)
include hc

theorem effect_obtain (ht : w.st.Running t) {ticks : ℕ} {i p isISR : Bool}
    {code : Option ReturnCode}
    (hok : (w.st.sema m).semaControlValue ≤ 0 → ticks ≠ 0 ∧ (i && p) = false ∧
      (w.st.sema m).semaControlValue + w.st.withdrawn m ≤ 0)
    (h : obtainSema t m ticks i p w.st = some (code, s')) :
    Effect m w ((Op.obtain isISR t (some m) ticks i p).after w s' code) := by
  have ha := attributeSet_of_not_mutex hc
  have hpc : (w.st.sema m).isPriorityCeiling = false := by
    simp [isPriorityCeiling, ha]
  rw [obtainSema, if_neg (by simp [hpc])] at h
  by_cases hv : (w.st.sema m).semaControlValue > 0
  · rw [if_pos hv] at h
    cases h
    have hm : ((countDown m w.st).sema m).isMutex = false := by
      simpa [countDown, setSema, isMutex] using hc
    refine .got hv ?_ ?_ <;> rw [take, if_neg (by simp [hm])]
    · constructor <;> simp [Op.after, World.granted, countDown, setSema,
        isMutex, ha, Int.sub_eq_add_neg]
    · intro u _ _
      rfl
  · rw [if_neg hv] at h
    obtain ⟨htk, hip, hd⟩ := hok (by omega)
    have hm : ((countDown m w.st).sema m).attributeSet = .counting := by
      simpa [countDown, setSema] using ha
    rw [obtainLate, if_neg (by simp [isMutex, hm]), if_neg htk, inheritPriority,
      if_neg (by simp [isInherit, hm])] at h
    cases h
    refine .queued t (ht m) (by omega) hd ?_ ?_ ?_
    · constructor <;> simp [Op.after, wait, hip, ttosEnqueueTaskq, countDown, setSema,
        setTcb, isMutex, enqueue, ha, Int.sub_eq_add_neg]
    · intro u hu _
      have hne : u ≠ t := fun h => ht m (h ▸ hu)
      simp [Op.after, wait, hip, ttosEnqueueTaskq, countDown, setSema, setTcb, hne]
    · simp [Op.after, wait, hip, ttosEnqueueTaskq, countDown, setSema, setTcb]

theorem effect_release {isISR : Bool} (hv : (w.st.sema m).semaControlValue < INT_MAX) :
    Effect m w ((Op.release isISR (some t) (some m)).after w (handOver m w.st).2
      (some TTOS_OK)) := by
  have ha := attributeSet_of_not_mutex hc
  rcases hq : (w.st.sema m).waitQueue with _ | ⟨u, q⟩
  · rw [handOver_nil hv hq]
    refine .given hq ?_ fun _ _ _ => rfl
    constructor <;> simp [Op.after, World.returned, countUp, setSema, isMutex, ha, hq]
  · rw [handOver_cons hv hq, if_neg (ne_true_of_eq_false hc)]
    refine .handed u q hq ?_ fun _ _ _ => rfl
    constructor <;> simp [Op.after, World.returned, leave, countUp, setSema, isMutex, ha, hq]

theorem effect_interrupt (ht : t ∈ (w.st.sema m).waitQueue) {code : ReturnCode}
    (hcode : code ≠ TTOS_OK) (hw : w'.st = interrupt code t m w.st) (ho : w'.obtained = w.obtained)
    (hr : w'.released = w.released) : Effect m w w' := by
  have ha := attributeSet_of_not_mutex hc
  refine .ended t ht ⟨?_, ?_, ?_, ?_, ?_, ?_⟩ (fun u _ hne => ?_) ?_
  all_goals simp only [hw, ho, hr, interrupt, leave, setSema, setTcb, update_self,
    Int.add_zero, Nat.add_zero]
  · simp [isMutex, ha]
  · rw [update_of_ne fun h => hne (congrArg some h)]
  · exact hcode

theorem effect_resume (ht : t ∈ w.st.resuming m) :
    Effect m w ((Op.resume t m).after w (resume t m w.st).2 (some (resume t m w.st).1)) := by
  have ha := attributeSet_of_not_mutex hc
  by_cases hok : (w.st.tcb t).returnCode = TTOS_OK
  · refine .resumed t ht hok ?_ ?_ <;> simp only [resume, hok, if_true]
    · constructor <;> simp [Op.after, World.granted, isMutex, ha]
    · intro u _ _
      rfl
  · refine .restored t ht hok ?_ ?_ <;> simp only [resume, if_neg hok]
    · constructor <;> simp [Op.after, hok, setSema, isMutex, ha]
    · intro u _ _
      simp [Op.after, hok, setSema]

end

/-- **What a step can do to a counting semaphore.** -/
theorem effect_of_step (hs : Apart w.st) (hc : (w.st.sema m).isMutex = false)
    (h : Step (fun s op => op.Counted m s) w w') : Effect m w w' := by
  obtain ⟨op, code, s', hp, hok, hrun⟩ := h
  by_cases ht : op.target = some m
  · cases op with
    | obtain isISR t semaID ticks i p =>
      obtain rfl : semaID = some m := ht
      simp only [Op.run, TTOS_ObtainSemaWithInterruptFlags] at hrun
      split_ifs at hrun with hi hidle
      · cases hrun
        exact .of_kept hc (.refl _ _) rfl rfl
      · cases hrun
        exact .of_kept hc (.refl _ _) rfl rfl
      · exact effect_obtain hc (hp.resolve_left hi)
          (hok (by simpa using hi) (by simpa using hidle) rfl) hrun
    | release isISR e semaID =>
      obtain rfl : semaID = some m := ht
      cases hrun
      rcases e with _ | t
      · exact .of_kept hc (.refl _ _) rfl rfl
      · simp only [TTOS_ReleaseSemaReturnTask, hc]
        exact effect_release hc (hok rfl)
    | expire t m' | signal t m' kill =>
      cases ht
      cases hrun
      exact effect_interrupt hc hp.1 (by simp) rfl rfl rfl
    | resume t m' =>
      cases ht
      cases hrun
      exact effect_resume hc hp
  · obtain ⟨ho, hr, -⟩ := Op.after_of_target_ne ht w s' code
    exact .of_kept hc (by rw [Op.after_st]; exact Kept.run hs hp ht hrun) ho hr

/-! ## The account -/

/-- The units that are left: those that there have been, without those that were obtained and
those that are on their way to a task. -/
def World.left (w : World σ τ) (m : σ) (v : ℕ) : ℤ :=
  v + w.released m - w.obtained m - w.st.granted m

structure Ledger (m : σ) (v : ℕ) (w : World σ τ) : Prop where
  counting : (w.st.sema m).isMutex = false
  value : (w.st.sema m).semaControlValue =
    w.left m v - (w.st.sema m).waitQueue.length - w.st.withdrawn m
  nonneg : 0 ≤ w.left m v
  front : 0 < w.left m v → (w.st.sema m).waitQueue = []
  code : ∀ t ∈ (w.st.sema m).waitQueue, (w.st.tcb t).returnCode = TTOS_OK

section

variable {P : ReturnCode → Bool} {x : Option τ}

section

omit [DecidableEq σ] [DecidableEq τ]

theorem filter_codes (hc : Codes m s s' x) {l : List τ} (hl : ∀ u ∈ l, u ∈ s.resuming m)
    (hx : ∀ u ∈ l, some u ≠ x) :
    (l.filter fun u => P (s'.tcb u).returnCode) = l.filter fun u => P (s.tcb u).returnCode :=
  filter_congr fun u hu => by rw [hc u (mem_append_right _ (hl u hu)) (hx u hu)]

theorem counts_same (hc : Codes m s s' none) (hr : s'.resuming m = s.resuming m) :
    s'.granted m = s.granted m + 0 ∧ s'.withdrawn m = s.withdrawn m := by
  have h (P : ReturnCode → Bool) : s'.returning m P = s.returning m P := by
    rw [returning, hr, filter_codes hc (fun _ h => h) (fun _ _ => some_ne_none _)]
    rfl
  exact ⟨h _, h _⟩

theorem returning_cons (hc : Codes m s s' x) (hx : ∀ u ∈ s.resuming m, some u ≠ x)
    (hr : s'.resuming m = t :: s.resuming m) :
    s'.returning m P = s.returning m P + if P (s'.tcb t).returnCode then 1 else 0 := by
  rw [returning, hr, filter_cons, returning, ← filter_codes hc (fun _ h => h) hx]
  split_ifs
  · rfl
  · rfl

end

omit [DecidableEq σ] in
theorem returning_erase (hc : Codes m s s' none) (ht : t ∈ s.resuming m)
    (hr : s'.resuming m = (s.resuming m).erase t) :
    s.returning m P = s'.returning m P + if P (s.tcb t).returnCode then 1 else 0 := by
  have hperm : (s.resuming m).Perm (t :: (s.resuming m).erase t) := perm_cons_erase ht
  rw [returning, (hperm.filter _).length_eq, returning, hr, filter_cons,
    filter_codes hc (fun _ => mem_of_mem_erase) (fun _ _ => some_ne_none _)]
  split_ifs
  · rfl
  · rfl

end

section

omit [DecidableEq σ] [DecidableEq τ]

/-- The account after a change, with the units that are left computed anew. -/
theorem Ledger.change (h : Ledger m v w) {d : ℤ} {q r : List τ} {o n : ℕ}
    (hch : Change m w w' d q r o n) {k : ℤ} (hl : w'.left m v = w.left m v + k)
    (hd : d - k = (w.st.sema m).waitQueue.length + w.st.withdrawn m - q.length - w'.st.withdrawn m)
    (hpos : 0 ≤ w.left m v + k) (hfront : 0 < w.left m v + k → q = [])
    (hcode : ∀ t ∈ q, (w'.st.tcb t).returnCode = TTOS_OK) : Ledger m v w' where
  counting := hch.counting
  value := by
    rw [hch.value, hch.waitQueue, hl, h.value]
    omega
  nonneg := hl ▸ hpos
  front := by
    rw [hl, hch.waitQueue]
    exact hfront
  code := by
    rw [hch.waitQueue]
    exact hcode

theorem World.left_eq {d : ℤ} {q r : List τ} {o n g : ℕ} (hch : Change m w w' d q r o n)
    (hg : w'.st.granted m = w.st.granted m + g) : w'.left m v = w.left m v + (n - o - g) := by
  have ho := hch.obtained
  have hr := hch.released
  simp only [World.left]
  omega

end

omit [DecidableEq σ] in
/-- **Every effect keeps the account.** -/
theorem Ledger.effect (h : Ledger m v w) (hs : Apart w.st) (he : Effect m w w') :
    Ledger m v w' := by
  have hval := h.value
  have hpos := h.nonneg
  have hkeep {x : Option τ} (hc : Codes m w.st w'.st x) (u : τ) (hu : u ∈ (w.st.sema m).waitQueue)
      (hx : some u ≠ x) : (w'.st.tcb u).returnCode = TTOS_OK :=
    (hc u (mem_append_left _ hu) hx).trans (h.code u hu)
  cases he with
  | other hch hc | got hv hch hc =>
    obtain ⟨hg, hw⟩ := counts_same hc hch.resuming
    refine h.change hch (World.left_eq hch hg) (by omega) (by omega) (fun hl => ?_)
      fun u hu => hkeep hc u hu (some_ne_none u)
    exact h.front (by omega)
  | queued t ht hv hd hch hc ho =>
    obtain ⟨hg, hw⟩ := counts_same hc hch.resuming
    refine h.change hch (World.left_eq hch hg) ?_ (by omega) (fun hl => ?_) fun u hu => ?_
    · rw [length_append, length_singleton]
      omega
    · -- with a unit left nobody waits, and the value has it but for the debts
      rw [h.front (by omega), length_nil] at hval
      omega
    · rcases mem_append.1 hu with hu | hu
      · exact hkeep hc u hu (some_ne_none u)
      · rw [mem_singleton.1 hu, ho]
  | given hq hch hc =>
    obtain ⟨hg, hw⟩ := counts_same hc hch.resuming
    refine h.change hch (World.left_eq hch hg) ?_ (by omega) (fun _ => rfl)
      fun u hu => (not_mem_nil hu).elim
    rw [hq]
    omega
  | handed t q hq hch hc =>
    have ht : (w'.st.tcb t).returnCode = TTOS_OK :=
      hkeep hc t (by simp [hq]) (some_ne_none t)
    have hnone (u : τ) (_ : u ∈ w.st.resuming m) : some u ≠ none := some_ne_none u
    have hg : w'.st.granted m = w.st.granted m + 1 := by
      rw [granted, returning_cons hc hnone hch.resuming, if_pos (by simp [ht])]
      rfl
    have hw : w'.st.withdrawn m = w.st.withdrawn m := by
      rw [withdrawn, returning_cons hc hnone hch.resuming, if_neg (by simp [ht])]
      rfl
    refine h.change hch (World.left_eq hch hg) ?_ (by omega) (fun hl => ?_) fun u hu => ?_
    · rw [hq, length_cons]
      omega
    · have := h.front (by omega)
      rw [hq] at this
      cases this
    · exact hkeep hc u (by simp [hq, hu]) (some_ne_none u)
  | ended t ht hch hc ho =>
    have hdisj : ∀ u ∈ w.st.resuming m, some u ≠ some t := fun u hu he =>
      (nodup_append.1 (hs.nodup m)).2.2 t ht u hu (Option.some.inj he).symm
    have hg : w'.st.granted m = w.st.granted m + 0 := by
      rw [granted, returning_cons hc hdisj hch.resuming, if_neg (by simp [ho])]
      rfl
    have hw : w'.st.withdrawn m = w.st.withdrawn m + 1 := by
      rw [withdrawn, returning_cons hc hdisj hch.resuming, if_pos (by simp [ho])]
      rfl
    have hlen := length_erase_of_mem ht
    have hlpos := length_pos_of_mem ht
    refine h.change hch (World.left_eq hch hg) (by omega) (by omega) (fun hl => ?_) fun u hu => ?_
    · rw [h.front (by omega)] at ht
      cases ht
    · have hq : (w.st.sema m).waitQueue.Nodup := (nodup_append.1 (hs.nodup m)).1
      obtain ⟨hne, hu⟩ := (hq.mem_erase_iff).1 hu
      exact hkeep hc u hu fun h => hne (Option.some.inj h)
  | resumed t ht hok hch hc =>
    have hg : w.st.granted m = w'.st.granted m + 1 := by
      rw [granted, returning_erase hc ht hch.resuming, if_pos (by simp [hok])]
      rfl
    have hw : w.st.withdrawn m = w'.st.withdrawn m := by
      rw [withdrawn, returning_erase hc ht hch.resuming, if_neg (by simp [hok])]
      rfl
    have hl : w'.left m v = w.left m v + 0 := by
      have ho := hch.obtained
      have hr := hch.released
      simp only [World.left]
      omega
    refine h.change hch hl (by omega) (by omega) (fun hl => h.front (by omega))
      fun u hu => hkeep hc u hu (some_ne_none u)
  | restored t ht hok hch hc =>
    have hg : w.st.granted m = w'.st.granted m := by
      rw [granted, returning_erase hc ht hch.resuming, if_neg (by simp [hok])]
      rfl
    have hw : w.st.withdrawn m = w'.st.withdrawn m + 1 := by
      rw [withdrawn, returning_erase hc ht hch.resuming, if_pos (by simp [hok])]
      rfl
    refine h.change hch (World.left_eq hch (g := 0) hg.symm) (by omega) (by omega)
      (fun hl => h.front (by omega)) fun u hu => hkeep hc u hu (some_ne_none u)

/-! ## Runs -/

/-- A semaphore that has been created with the value `v`. -/
structure Start (m : σ) (v : ℕ) (w : World σ τ) : Prop where
  apart : Apart w.st
  counting : (w.st.sema m).attributeSet = .counting
  value : (w.st.sema m).semaControlValue = v
  empty : w.st.inside m = []
  obtained : w.obtained m = 0
  released : w.released m = 0

omit [DecidableEq σ] [DecidableEq τ] in
theorem Ledger.start (h : Start m v w) : Ledger m v w := by
  obtain ⟨hq, hr⟩ := append_eq_nil_iff.1 h.empty
  have hl : w.left m v = v := by
    simp [World.left, h.obtained, h.released, granted, returning, hr]
  refine ⟨?_, ?_, ?_, fun _ => hq, ?_⟩
  · simp [isMutex, h.counting]
  · simp [hl, h.value, hq, withdrawn, returning, hr]
  · rw [hl]
    omega
  · rw [hq]
    exact fun t ht => (not_mem_nil ht).elim

structure TokensKept (m : σ) (v : ℕ) (w : World σ τ) : Prop where
  /-- No more units are obtained than there have been. -/
  bound : w.obtained m ≤ v + w.released m
  /-- When no task is between its wait and its return. -/
  account : w.st.resuming m = [] → (w.st.sema m).semaControlValue =
    v + w.released m - w.obtained m - (w.st.sema m).waitQueue.length
  /-- A call that meets the condition does not wait while there is a unit. -/
  prompt : ∀ t ticks i p, (w.st.tcb t).isIdle = false →
    (Op.obtain false t (some m) ticks i p).Counted m w.st → 0 < w.left m v →
    ∃ s', TTOS_ObtainSemaWithInterruptFlags false t (some m) ticks i p w.st =
      some (some TTOS_OK, s')

theorem Ledger.tokensKept (h : Ledger m v w) : TokensKept m v w where
  bound := by
    have := h.nonneg
    simp only [World.left] at this
    omega
  account hr := by
    have := h.value
    simp only [World.left, granted, withdrawn, returning, hr] at this
    simpa using this
  prompt t ticks i p hidle hok hl := by
    have hval := h.value
    rw [h.front hl, length_nil] at hval
    have hv : (w.st.sema m).semaControlValue > 0 := by
      by_contra hle
      have := (hok rfl hidle rfl (by omega)).2.2
      omega
    have hpc : (w.st.sema m).isPriorityCeiling = false := by
      simp [isPriorityCeiling, attributeSet_of_not_mutex h.counting]
    refine ⟨take t m (countDown m w.st), ?_⟩
    simp [TTOS_ObtainSemaWithInterruptFlags, hidle, obtainSema, hpc, hv]

/-- **The units of a counting semaphore are conserved.**  In every run whose calls for the
semaphore meet the condition; whatever happens to other semaphores. -/
theorem tokens_conserved {w₀ : World σ τ} (h₀ : Start m v w₀)
    (run : ReflTransGen (Step fun s op => op.Counted m s) w₀ w) : TokensKept m v w := by
  suffices h : Apart w.st ∧ Ledger m v w from h.2.tokensKept
  induction run with
  | refl => exact ⟨h₀.apart, .start h₀⟩
  | tail _ hs ih =>
    exact ⟨ih.1.step hs, ih.2.effect ih.1 (effect_of_step ih.1 ih.2.counting hs)⟩

/-- One semaphore and two tasks. -/
def twoTasks (v : ℤ) : World Unit Bool where
  st :=
    { sema := fun _ => ⟨.counting, 0, v, 0, none, []⟩
      tcb := fun _ => ⟨false, 10, 10, 0, TTOS_OK, false, false⟩
      resuming := fun _ => [] }
  obtained := fun _ => 0
  released := fun _ => 0
  net := fun _ _ => 0

theorem twoTasks_start (v : ℕ) : Start () v (twoTasks v) := by
  refine ⟨⟨fun _ => nodup_nil, fun _ _ _ _ _ => rfl⟩, rfl, rfl, rfl, rfl, rfl⟩

/-- A task waits, another releases, and the first returns. -/
theorem tokens_conserved_handed : ∃ w, ReflTransGen (Step fun s op => op.Counted () s)
    (twoTasks (0 : ℕ)) w ∧ w.obtained () = 1 ∧ TokensKept () 0 w := by
  have h0 : ReflTransGen (Step fun s op => op.Counted () s) (twoTasks (0 : ℕ)) _ := .refl
  have h1 := h0.tail (.op _ (.obtain false false (some ()) 5 true false) _ _
    (.inr fun () => by decide) (fun _ _ _ _ => by decide) rfl)
  have h2 := h1.tail (.op _ (.release false (some true) (some ())) _ _
    (.inr (by rintro _ ⟨⟩ ⟨⟩; decide)) (fun _ => by decide) rfl)
  have h3 := h2.tail (.op _ (.resume false ()) _ _ (.head _) trivial rfl)
  exact ⟨_, h3, rfl, tokens_conserved (twoTasks_start 0) h3⟩

/-- **Where units get lost or made up.**  (1) A call that does not wait finds no unit; after a
release the value is still 0, and a call waits.  (2) With a signal pending a call returns
`TTOS_OK` without a unit.  (3) A wait expires and a unit is released before the task has run
again; another call waits, with a unit left.  (4) The value has no room for a release. -/
theorem tokens_break : (∃ w w', ReflTransGen (Step fun _ _ => True) (twoTasks (0 : ℕ)) w ∧
      w.st.resuming () = [] ∧ (w.st.sema ()).waitQueue = [] ∧
      w.released () = 1 ∧ w.obtained () = 0 ∧ (w.st.sema ()).semaControlValue = 0 ∧
      TTOS_ObtainSemaWithInterruptFlags false true (some ()) 5 false false w.st = some (none, w')) ∧
    (∃ w, ReflTransGen (Step fun _ _ => True) (twoTasks (0 : ℕ)) w ∧
      w.released () = 0 ∧ w.obtained () = 1) ∧
    (∃ w w', ReflTransGen (Step fun _ _ => True) (twoTasks (0 : ℕ)) w ∧ w.left () 0 = 1 ∧
      TTOS_ObtainSemaWithInterruptFlags false true (some ()) 5 false false w.st = some (none, w')) ∧
    ∃ w, ReflTransGen (Step fun _ _ => True) (twoTasks INT_MAX) w ∧
      w.st.resuming () = [] ∧ w.released () = 1 ∧ (w.st.sema ()).semaControlValue = INT_MAX := by
  have h0 (v : ℤ) : ReflTransGen (Step fun _ _ => True) (twoTasks v) _ := .refl
  refine ⟨?_, ?_, ?_, ?_⟩
  · have h1 := (h0 (0 : ℕ)).tail (.op _ (.obtain false false (some ()) 0 false false) _ _
      (.inr fun () => by decide) trivial rfl)
    have h2 := h1.tail (.op _ (.release false (some true) (some ())) _ _
      (.inr (by rintro _ ⟨⟩ ⟨⟩; decide)) trivial rfl)
    exact ⟨_, _, h2, rfl, rfl, rfl, rfl, rfl, rfl⟩
  · have h1 := (h0 (0 : ℕ)).tail (.op _ (.obtain false false (some ()) 5 true true) _ _
      (.inr fun () => by decide) trivial rfl)
    have h2 := h1.tail (.op _ (.resume false ()) _ _ (.head _) trivial rfl)
    exact ⟨_, h2, rfl, rfl⟩
  · have h1 := (h0 (0 : ℕ)).tail (.op _ (.obtain false false (some ()) 5 false false) _ _
      (.inr fun () => by decide) trivial rfl)
    have h2 := h1.tail (.op _ (.expire false ()) _ _ ⟨.head _, rfl⟩ trivial rfl)
    have h3 := h2.tail (.op _ (.release false (some true) (some ())) _ _
      (.inr (by rintro _ ⟨⟩ ⟨⟩; decide)) trivial rfl)
    exact ⟨_, _, h3, rfl, rfl⟩
  · have h1 := (h0 INT_MAX).tail (.op _ (.release false (some true) (some ())) _ _
      (.inr (by rintro _ ⟨⟩ ⟨⟩; decide)) trivial rfl)
    exact ⟨_, h1, rfl, rfl, rfl⟩

end Intewell.Sema
