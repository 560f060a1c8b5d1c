/-
# The priorities of those who hold and wait for mutexes

Every function keeps three facts: a queue of a mutex is in the order of the present
priorities; `resourceCount` is the number of the mutexes that a task holds; and the holder of a
mutex of the inherit kind is at least as urgent as each task that waits for it.  The last asks
for something where a task that waits becomes more urgent, since nobody passes that on.
-/

import Intewell.Sema.Inside

namespace Intewell.Sema

open SemaControlBlock State List
open List.Sublist (refl)
open Function ReturnCode

variable {σ τ : Type*} {s s' : State σ τ} {t u : τ} {m m' : σ} {prio : τ → ℕ} {q : List τ}

/-- The task is in no queue. -/
def NotQueued (s : State σ τ) (t : τ) : Prop := ∀ m, t ∉ (s.sema m).waitQueue

theorem State.Running.notQueued (h : s.Running t) : NotQueued s t :=
  fun m hm => h m (mem_append_left _ hm)

/-- The mutexes that the task holds, as a list. -/
def Holds (s : State σ τ) (t : τ) (l : List σ) : Prop :=
  l.Nodup ∧ ∀ m, m ∈ l ↔ (s.sema m).isMutex = true ∧ (s.sema m).semHolder = some t

structure Ranked (s : State σ τ) : Prop where
  sorted : ∀ m, (s.sema m).isMutex = true →
    (s.sema m).waitQueue.Pairwise fun t u => s.prio t ≤ s.prio u
  inherit : ∀ m h, (s.sema m).isInherit = true → (s.sema m).semHolder = some h →
    ∀ u ∈ (s.sema m).waitQueue, s.prio h ≤ s.prio u
  resources : ∀ t, ∃ l, Holds s t l ∧ (s.tcb t).resourceCount = l.length

theorem sorted_ttosEnqueuePriority (hq : q.Pairwise fun t u => prio t ≤ prio u) (t : τ) :
    (ttosEnqueuePriority prio t q).Pairwise fun t u => prio t ≤ prio u := by
  obtain ⟨X, Y, rfl, h, hX, hY⟩ := enqueued_ttosEnqueuePriority prio t hq
  obtain ⟨hsX, hsY, hXY⟩ := pairwise_append.1 hq
  rw [h]
  refine pairwise_append.2 ⟨hsX, pairwise_cons.2 ⟨fun y hy => (hY y hy).le, hsY⟩, ?_⟩
  intro x hx y hy
  rcases mem_cons.1 hy with rfl | hy
  · exact hX x hx
  · exact hXY x hx y hy

theorem Holds.congr {l : List σ} (h : Holds s t l)
    (hm : ∀ m, (s'.sema m).isMutex = (s.sema m).isMutex)
    (hh : ∀ m, (s'.sema m).semHolder = (s.sema m).semHolder) : Holds s' t l :=
  ⟨h.1, fun m => by rw [hm, hh]; exact h.2 m⟩

variable [DecidableEq σ]

section

variable {b : SemaControlBlock τ}

section
variable (hb : b.attributeSet = (s.sema m).attributeSet)
include hb

theorem setSema_isMutex (k : σ) : ((s.setSema m b).sema k).isMutex = (s.sema k).isMutex :=
  update_proj isMutex (by simp [isMutex, hb]) k

theorem setSema_isInherit (k : σ) : ((s.setSema m b).sema k).isInherit = (s.sema k).isInherit :=
  update_proj isInherit (by simp [isInherit, hb]) k

end

section
variable (h : Ranked s) (hb : b.attributeSet = (s.sema m).attributeSet)
  (hq : b.waitQueue.Sublist (s.sema m).waitQueue)
include h hb hq

/-- A semaphore loses tasks, and perhaps its holder. -/
theorem setSema_sorted (k : σ) (hk : ((s.setSema m b).sema k).isMutex = true) :
    ((s.setSema m b).sema k).waitQueue.Pairwise fun t u => s.prio t ≤ s.prio u := by
  rw [setSema_isMutex hb] at hk
  by_cases hkm : k = m
  · subst hkm
    simpa [setSema] using (h.sorted k hk).sublist hq
  · simpa [setSema, hkm] using h.sorted k hk

theorem Ranked.setSema (hh : b.semHolder = (s.sema m).semHolder) : Ranked (s.setSema m b) := by
  have hholder (k : σ) : ((s.setSema m b).sema k).semHolder = (s.sema k).semHolder :=
    update_proj semHolder hh k
  refine ⟨setSema_sorted h hb hq, fun k g hk hg u hu => ?_, fun t => ?_⟩
  · rw [setSema_isInherit hb] at hk
    rw [hholder] at hg
    refine h.inherit k g hk hg u ?_
    by_cases hkm : k = m
    · subst hkm
      exact hq.subset (by simpa [State.setSema] using hu)
    · simpa [State.setSema, hkm] using hu
  · obtain ⟨l, hl, hc⟩ := h.resources t
    exact ⟨l, hl.congr (setSema_isMutex hb) hholder, hc⟩

end

end

variable [DecidableEq τ]

section

omit [DecidableEq σ]

theorem Ranked.setTcb (h : Ranked s) {c : Tcb} (hp : c.taskCurPriority = (s.tcb t).taskCurPriority)
    (hr : c.resourceCount = (s.tcb t).resourceCount) : Ranked (s.setTcb t c) := by
  have hprio (u : τ) : (s.setTcb t c).prio u = s.prio u := update_proj Tcb.taskCurPriority hp u
  refine ⟨fun m hm => ?_, fun m g hm hg u hu => ?_, fun u => ?_⟩
  · simp only [hprio]
    exact h.sorted m hm
  · rw [hprio, hprio]
    exact h.inherit m g hm hg u hu
  · obtain ⟨l, hl, hc⟩ := h.resources u
    exact ⟨l, hl, (update_proj Tcb.resourceCount hr u).trans hc⟩

theorem prio_taskChangePriority (t : τ) (p : ℕ) (s : State σ τ) :
    (taskChangePriority t p s).prio = update s.prio t p := funext fun u => by
  by_cases hu : u = t
  · subst hu
    simp [prio, taskChangePriority, setTcb]
  · simp [prio, taskChangePriority, setTcb, hu]

/-- But for the order of its queue a semaphore is as before. -/
theorem taskChangePriority_sema (t : τ) (p : ℕ) (s : State σ τ) (m : σ) :
    ∃ q, q.Perm (s.sema m).waitQueue ∧
      (taskChangePriority t p s).sema m = { s.sema m with waitQueue := q } := by
  obtain ⟨q, hq, -, he⟩ := (Kept.taskChangePriority (s := s) t p).sema
  exact ⟨q, hq, he⟩

end

omit [DecidableEq σ] in
/-- **A change of priority**, if it leaves every holder of an inherit mutex urgent enough. -/
theorem Ranked.taskChangePriority (h : Ranked s) (hs : Apart s) {p : ℕ}
    (hp : ∀ m g, (s.sema m).isInherit = true → (s.sema m).semHolder = some g →
      ∀ u ∈ (s.sema m).waitQueue, update s.prio t p g ≤ update s.prio t p u) :
    Ranked (taskChangePriority t p s) := by
  refine ⟨fun m hm => ?_, fun m g hm hg u hu => ?_, fun u => ?_⟩
  · rw [prio_taskChangePriority]
    by_cases ht : t ∈ (s.sema m).waitQueue ∧ (s.sema m).isMutex = true
    · rw [taskChangePriority_sema_of_mem ht.1 ht.2, prio_taskChangePriority]
      refine sorted_ttosEnqueuePriority ?_ t
      -- the others keep their priorities
      have hnodup : (s.sema m).waitQueue.Nodup := (nodup_append.1 (hs.nodup m)).1
      have hne {a : τ} (ha : a ∈ (s.sema m).waitQueue.erase t) : a ≠ t :=
        (hnodup.mem_erase_iff.1 ha).1
      refine ((h.sorted m ht.2).sublist erase_sublist).imp_of_mem fun ha hb hab => ?_
      rwa [update_of_ne (hne ha), update_of_ne (hne hb)]
    · rw [taskChangePriority_sema_of_not ht] at hm ⊢
      refine (h.sorted m hm).imp_of_mem fun ha hb hab => ?_
      have hne {a : τ} (ha : a ∈ (s.sema m).waitQueue) : a ≠ t := fun e => ht ⟨e ▸ ha, hm⟩
      rwa [update_of_ne (hne ha), update_of_ne (hne hb)]
  · obtain ⟨q, hq, he⟩ := taskChangePriority_sema t p s m
    rw [he] at hm hg hu
    rw [prio_taskChangePriority]
    exact hp m g hm hg u (hq.mem_iff.1 hu)
  · obtain ⟨l, hl, hc⟩ := h.resources u
    refine ⟨l, hl.congr (fun m => ?_) (fun m => ?_), ?_⟩
    · obtain ⟨q, -, he⟩ := taskChangePriority_sema t p s m
      rw [he]
      rfl
    · obtain ⟨q, -, he⟩ := taskChangePriority_sema t p s m
      rw [he]
    · exact (update_proj Tcb.resourceCount (by rfl) u).trans hc

/-! ## The holder of a mutex -/

section

variable {b : SemaControlBlock τ} {c : Tcb}

theorem Ranked.setHolder (h : Ranked s) (hb : b.attributeSet = (s.sema m).attributeSet)
    (hbq : b.waitQueue = (s.sema m).waitQueue) (hp : c.taskCurPriority = (s.tcb t).taskCurPriority)
    (hin : ∀ g, b.semHolder = some g → ∀ u ∈ (s.sema m).waitQueue, s.prio g ≤ s.prio u)
    (hres : ∀ u, ∃ l, Holds ((s.setSema m b).setTcb t c) u l ∧
      (((s.setSema m b).setTcb t c).tcb u).resourceCount = l.length) :
    Ranked ((s.setSema m b).setTcb t c) := by
  have hprio (u : τ) : ((s.setSema m b).setTcb t c).prio u = s.prio u :=
    update_proj Tcb.taskCurPriority hp u
  refine ⟨fun k hk => ?_, fun k g hk hg u hu => ?_, hres⟩
  · simp only [hprio]
    exact setSema_sorted h hb (hbq ▸ refl _) k hk
  · rw [hprio, hprio]
    change ((s.setSema m b).sema k).isInherit = true at hk
    rw [setSema_isInherit hb] at hk
    by_cases hkm : k = m
    · subst hkm
      simp only [State.setTcb, State.setSema, update_self, hbq] at hg hu
      exact hin g hg u hu
    · simp only [State.setTcb, State.setSema, update_of_ne hkm] at hg hu
      exact h.inherit k g hk hg u hu

/-- The mutexes of a task that has no part in the change. -/
theorem Holds.setHolder {l : List σ} (hl : Holds s u l)
    (hb : b.attributeSet = (s.sema m).attributeSet) (hold : (s.sema m).semHolder ≠ some u)
    (hnew : b.semHolder ≠ some u) : Holds ((s.setSema m b).setTcb t c) u l := by
  refine ⟨hl.1, fun k => (hl.2 k).trans ?_⟩
  change _ ↔ ((s.setSema m b).sema k).isMutex = true ∧ ((s.setSema m b).sema k).semHolder = some u
  rw [setSema_isMutex hb]
  by_cases hk : k = m
  · subst hk
    simp [setSema, hold, hnew]
  · simp [setSema, hk]

variable (h : Ranked s) (hm : (s.sema m).isMutex = true)
  (hb : b.attributeSet = (s.sema m).attributeSet) (hbq : b.waitQueue = (s.sema m).waitQueue)
  (hp : c.taskCurPriority = (s.tcb t).taskCurPriority)
include h hm hb hbq hp

/-- A task gets a mutex that nobody holds, if none of those that wait is more urgent. -/
theorem Ranked.hold (hn : (s.sema m).semHolder = none)
    (hq : ∀ u ∈ (s.sema m).waitQueue, s.prio t ≤ s.prio u) (hbh : b.semHolder = some t)
    (hr : c.resourceCount = (s.tcb t).resourceCount + 1) : Ranked ((s.setSema m b).setTcb t c) := by
  refine h.setHolder hb hbq hp (fun g hg => ?_) fun u => ?_
  · rw [hbh] at hg
    rw [← Option.some.inj hg]
    exact hq
  · obtain ⟨l, hl, hc⟩ := h.resources u
    by_cases hu : u = t
    · subst hu
      have hml : m ∉ l := fun hml => by
        have := ((hl.2 m).1 hml).2
        rw [hn] at this
        cases this
      refine ⟨m :: l, ⟨nodup_cons.2 ⟨hml, hl.1⟩, fun k => ?_⟩, by simp [State.setTcb, hr, hc]⟩
      change k ∈ m :: l ↔ ((s.setSema m b).sema k).isMutex = true ∧ _
      rw [mem_cons, setSema_isMutex hb]
      by_cases hk : k = m
      · subst hk
        simp [hm, State.setTcb, State.setSema, hbh]
      · simp [hk, hl.2 k, State.setTcb, State.setSema]
    · refine ⟨l, hl.setHolder hb (by simp [hn]) ?_, ?_⟩
      · simpa [hbh] using Ne.symm hu
      · simpa [State.setTcb, State.setSema, hu] using hc

theorem Ranked.drop (hh : (s.sema m).semHolder = some t) (hbh : b.semHolder = none)
    (hr : c.resourceCount = (s.tcb t).resourceCount - 1) : Ranked ((s.setSema m b).setTcb t c) := by
  refine h.setHolder hb hbq hp (fun g hg => ?_) fun u => ?_
  · rw [hbh] at hg
    cases hg
  · obtain ⟨l, hl, hc⟩ := h.resources u
    by_cases hu : u = t
    · subst hu
      have hml : m ∈ l := (hl.2 m).2 ⟨hm, hh⟩
      refine ⟨l.erase m, ⟨hl.1.erase m, fun k => ?_⟩, ?_⟩
      · change k ∈ l.erase m ↔ ((s.setSema m b).sema k).isMutex = true ∧ _
        rw [hl.1.mem_erase_iff, setSema_isMutex hb]
        by_cases hk : k = m
        · subst hk
          simp [State.setTcb, State.setSema, hbh]
        · simp [hk, hl.2 k, State.setTcb, State.setSema]
      · simp [State.setTcb, hr, hc, length_erase_of_mem hml]
    · refine ⟨l, hl.setHolder hb ?_ (by simp [hbh]), ?_⟩
      · simpa [hh] using Ne.symm hu
      · simpa [State.setTcb, State.setSema, hu] using hc

end

/-! ## The functions -/

omit [DecidableEq τ] in
theorem notQueued_setSema {b : SemaControlBlock τ} (hb : b.waitQueue = (s.sema m).waitQueue)
    (ht : NotQueued s t) : NotQueued (s.setSema m b) t := fun k h =>
  ht k (update_proj waitQueue hb k ▸ h)

section
variable (h : Ranked s)
include h

theorem Ranked.own (hs : Apart s) (hm : (s.sema m).isMutex = true)
    (hn : (s.sema m).semHolder = none) (hq : ∀ u ∈ (s.sema m).waitQueue, s.prio t ≤ s.prio u)
    (ht : NotQueued s t) : Ranked (own t m s) := by
  set b : SemaControlBlock τ := { s.sema m with nestCount := 1, semHolder := some t } with hb
  set c : Tcb := { s.tcb t with resourceCount := (s.tcb t).resourceCount + 1 } with hc
  have h1 : Ranked ((s.setSema m b).setTcb t c) := h.hold hm rfl rfl rfl hn hq rfl rfl
  have hs1 : Apart ((s.setSema m b).setTcb t c) :=
    hs.same ((inside_setSema (b := b) rfl).trans (inside_setTcb c))
  simp only [Sema.own]
  split_ifs with hceil
  · -- a task that is in no queue becomes more urgent
    refine h1.taskChangePriority hs1 fun k g hk hg u hu => ?_
    have hnq : NotQueued ((s.setSema m b).setTcb t c) t := notQueued_setSema rfl ht
    have hut : u ≠ t := fun e => hnq k (e ▸ hu)
    rw [update_of_ne hut]
    by_cases hgt : g = t
    · subst hgt
      rw [update_self]
      exact hceil.2.le.trans (h1.inherit k g hk hg u hu)
    · rw [update_of_ne hgt]
      exact h1.inherit k g hk hg u hu
  · exact h1

theorem Ranked.disown (hs : Apart s) (hm : (s.sema m).isMutex = true)
    (hh : (s.sema m).semHolder = some t) (ht : NotQueued s t) : Ranked (disown t m s) := by
  set b : SemaControlBlock τ := { s.sema m with nestCount := 0, semHolder := none } with hb
  set c : Tcb := { s.tcb t with resourceCount := (s.tcb t).resourceCount - 1 } with hc
  have h1 : Ranked ((s.setSema m b).setTcb t c) := h.drop hm rfl rfl rfl hh rfl rfl
  have hs1 : Apart ((s.setSema m b).setTcb t c) :=
    hs.same ((inside_setSema (b := b) rfl).trans (inside_setTcb c))
  have ht1 : NotQueued ((s.setSema m b).setTcb t c) t := notQueued_setSema rfl ht
  simp only [Sema.disown]
  split_ifs with hrest
  · -- the task holds nothing and waits for nothing
    refine h1.taskChangePriority hs1 fun k g hk hg u hu => ?_
    obtain ⟨l, hl, hcount⟩ := h1.resources t
    have hnil : l = [] := length_eq_zero_iff.1 (hcount.symm.trans hrest.1)
    have hgt : g ≠ t := fun e => by
      have hmut : (((s.setSema m b).setTcb t c).sema k).isMutex = true := by
        simp only [isInherit, decide_eq_true_eq] at hk
        simp [isMutex, hk]
      have hmem := (hl.2 k).2 ⟨hmut, e ▸ hg⟩
      rw [hnil] at hmem
      cases hmem
    have hut : u ≠ t := fun e => ht1 k (e ▸ hu)
    rw [update_of_ne hgt, update_of_ne hut]
    exact h1.inherit k g hk hg u hu
  · exact h1

theorem Ranked.leave (t : τ) (m : σ) : Ranked (leave t m s) := by
  have h1 : Ranked (s.setSema m { s.sema m with waitQueue := (s.sema m).waitQueue.erase t }) :=
    h.setSema rfl erase_sublist rfl
  exact ⟨h1.sorted, h1.inherit, h1.resources⟩

theorem Ranked.enqueue {ticks : ℕ} {i : Bool}
    (hq : ∀ g, (s.sema m).isInherit = true → (s.sema m).semHolder = some g → s.prio g ≤ s.prio t) :
    Ranked (ttosEnqueueTaskq t m ticks i s) := by
  have h1 : Ranked (s.setTcb t
      { s.tcb t with
        timed := ticks ≠ TTOS_WAIT_FOREVER
        interruptible := i }) := h.setTcb rfl rfl
  simp only [ttosEnqueueTaskq]
  set s1 := s.setTcb t
    { s.tcb t with
      timed := ticks ≠ TTOS_WAIT_FOREVER
      interruptible := i } with hs1
  have hprio (u : τ) : s1.prio u = s.prio u := update_proj Tcb.taskCurPriority (by rfl) u
  refine ⟨fun k hk => ?_, fun k g hk hg u hu => ?_, fun u => ?_⟩
  · by_cases hkm : k = m
    · subst hkm
      have hk' : (s1.sema k).isMutex = true := by
        simpa [State.setSema, isMutex] using hk
      simp only [State.setSema, update_self, enqueue, if_pos hk']
      exact sorted_ttosEnqueuePriority (h1.sorted k hk') t
    · simp only [State.setSema, update_of_ne hkm] at hk ⊢
      exact h1.sorted k hk
  · by_cases hkm : k = m
    · subst hkm
      simp only [State.setSema, update_self] at hk hg hu
      have hk' : (s1.sema k).isInherit = true := hk
      rcases mem_cons.1 ((enqueue_perm _ _ t).mem_iff.1 hu) with rfl | hu
      · change s1.prio g ≤ s1.prio u
        rw [hprio, hprio]
        exact hq g hk' hg
      · exact h1.inherit k g hk' hg u hu
    · simp only [State.setSema, update_of_ne hkm] at hk hg hu
      exact h1.inherit k g hk hg u hu
  · obtain ⟨l, hl, hc⟩ := h1.resources u
    exact ⟨l, hl.congr (setSema_isMutex rfl) (update_proj semHolder (by rfl)), hc⟩

omit [DecidableEq σ] [DecidableEq τ] in
/-- A semaphore is looked at without its value, and a task without its code. -/
theorem Ranked.resuming (r : σ → List τ) : Ranked { s with resuming := r } :=
  ⟨h.sorted, h.inherit, h.resources⟩

theorem Ranked.wait {ticks : ℕ} {i p : Bool}
    (hq : ∀ g, (s.sema m).isInherit = true → (s.sema m).semHolder = some g → s.prio g ≤ s.prio t) :
    Ranked (wait t m ticks i p s) := by
  have h1 : Ranked (s.setTcb t { s.tcb t with returnCode := TTOS_OK }) := h.setTcb rfl rfl
  have hprio (u : τ) : (s.setTcb t { s.tcb t with returnCode := TTOS_OK }).prio u = s.prio u :=
    update_proj Tcb.taskCurPriority (by rfl) u
  simp only [Sema.wait]
  split_ifs
  · exact h1.resuming _
  · refine h1.enqueue fun g hg hh => ?_
    rw [hprio, hprio]
    exact hq g hg hh

theorem Ranked.interrupt (code : ReturnCode) (t : τ) (m : σ) : Ranked (interrupt code t m s) := by
  refine Ranked.leave (h.setTcb ?_ ?_) t m
  · rfl
  · rfl

theorem Ranked.resume (t : τ) (m : σ) : Ranked (resume t m s).2 := by
  simp only [Sema.resume]
  split_ifs
  · exact h.resuming _
  · exact (h.resuming _).setSema rfl (refl _) rfl

section
variable (hm : (s.sema m).isMutex = false)
include hm

omit [DecidableEq τ] in
/-- A counting semaphore has no part in any of this. -/
theorem Ranked.setCounting {b : SemaControlBlock τ} (hb : b.attributeSet = (s.sema m).attributeSet)
    : Ranked (s.setSema m b) := by
  have hne {k : σ} (hk : (s.sema k).isMutex = true) : k ≠ m := fun e => by
    rw [e, hm] at hk
    cases hk
  have hsame {k : σ} (hk : k ≠ m) : (s.setSema m b).sema k = s.sema k := update_of_ne hk _ _
  have hin {k : σ} (hk : (s.sema k).isInherit = true) : (s.sema k).isMutex = true := by
    simp only [isInherit, decide_eq_true_eq] at hk
    simp [isMutex, hk]
  refine ⟨fun k hk => ?_, fun k g hk hg u hu => ?_, fun t => ?_⟩
  · rw [setSema_isMutex hb] at hk
    rw [hsame (hne hk)]
    exact h.sorted k hk
  · rw [setSema_isInherit hb] at hk
    rw [hsame (hne (hin hk))] at hg hu
    exact h.inherit k g hk hg u hu
  · obtain ⟨l, hl, hc⟩ := h.resources t
    refine ⟨l, ⟨hl.1, fun k => (hl.2 k).trans ?_⟩, hc⟩
    rw [setSema_isMutex hb]
    refine and_congr_right fun hk => ?_
    rw [hsame (hne hk)]

theorem Ranked.handOver_counting : Ranked (handOver m s).2 := by
  simp only [Sema.handOver]
  set s1 := if (s.sema m).semaControlValue < INT_MAX then
      s.setSema m { s.sema m with semaControlValue := (s.sema m).semaControlValue + 1 }
    else s with hs1
  have h1 : Ranked s1 := by
    rw [hs1]
    split_ifs
    · exact h.setCounting hm rfl
    · exact h
  have hm1 : (s1.sema m).isMutex = false := by
    rw [hs1]
    split_ifs
    · simpa [State.setSema, isMutex] using hm
    · exact hm
  unfold ttosDequeueTaskq
  rcases (s1.sema m).waitQueue with _ | ⟨t, q⟩
  · exact h1
  · have hm2 : ((Sema.leave t m s1).sema m).isMutex = false := by
      simpa [Sema.leave, State.setSema, isMutex] using hm1
    simp only [hm2]
    exact h1.leave t m

theorem Ranked.obtain_counting {ticks : ℕ} {i p : Bool} {code : Option ReturnCode}
    (ho : obtainSema t m ticks i p s = some (code, s')) : Ranked s' := by
  have h1 : Ranked (countDown m s) := h.setSema rfl (refl _) rfl
  have hm1 : ((countDown m s).sema m).isMutex = false := by
    simpa [countDown, State.setSema, isMutex] using hm
  have hin : ((countDown m s).sema m).isInherit = false := by
    rcases hb : ((countDown m s).sema m).isInherit with _ | _
    · rfl
    · simp only [isInherit, decide_eq_true_eq] at hb
      simp [isMutex, hb] at hm1
  unfold obtainSema at ho
  split_ifs at ho
  · cases ho
    exact h
  · cases ho
    rw [take, if_neg (by simp [hm1])]
    exact h1.setCounting hm1 rfl
  · rw [obtainLate, if_neg (by simp [hm1])] at ho
    split_ifs at ho
    · cases ho
      exact h1
    · rw [inheritPriority, if_neg (by simp [hin])] at ho
      cases ho
      exact h1.wait fun g hg => by simp [hin] at hg

end

end

end Intewell.Sema
