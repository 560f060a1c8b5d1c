/-
# Who is inside a call

A task is inside of one call at most, in the wait queue or on its way back.  Besides that, what
the functions leave alone: a counting semaphore is touched only by the calls for it, since a
change of priority moves no task in a queue that is not ordered by priority.
-/

import Intewell.Sema.Basic

namespace Intewell.Sema

open State List Function
open Relation (ReflTransGen)
open ReturnCode

variable {σ τ : Type*} {s s' s'' : State σ τ} {t u : τ} {m m' : σ} {prio : τ → ℕ}
  {q : List τ}

/-- The tasks on their way back, by the code that they will return. -/
def State.returning (s : State σ τ) (m : σ) (P : ReturnCode → Bool) : ℕ :=
  ((s.resuming m).filter fun t => P (s.tcb t).returnCode).length

/-- Those that have got a unit. -/
def State.granted (s : State σ τ) (m : σ) : ℕ := s.returning m (· = TTOS_OK)

/-- Those that have not, and have yet to give back their debt. -/
def State.withdrawn (s : State σ τ) (m : σ) : ℕ := s.returning m (· ≠ TTOS_OK)

/-- A task is inside one call. -/
structure Apart (s : State σ τ) : Prop where
  nodup : ∀ m, (s.inside m).Nodup
  one : ∀ t m m', t ∈ s.inside m → t ∈ s.inside m' → m = m'

/-- The same tasks are inside. -/
def SameInside (s s' : State σ τ) : Prop := ∀ m, (s'.inside m).Perm (s.inside m)

theorem SameInside.refl (s : State σ τ) : SameInside s s := fun _ => .refl _

theorem SameInside.trans (h : SameInside s s') (h' : SameInside s' s'') : SameInside s s'' :=
  fun m => (h' m).trans (h m)

theorem SameInside.mem_iff (h : SameInside s s') : t ∈ s'.inside m ↔ t ∈ s.inside m := (h m).mem_iff

theorem SameInside.running (h : SameInside s s') : s'.Running t ↔ s.Running t :=
  forall_congr' fun _ => not_congr h.mem_iff

theorem Apart.same (hs : Apart s) (h : SameInside s s') : Apart s' where
  nodup m := (h m).nodup_iff.2 (hs.nodup m)
  one t m m' hm hm' := hs.one t m m' (h.mem_iff.1 hm) (h.mem_iff.1 hm')

theorem Apart.enter (hs : Apart s) (ht : s.Running t) (hm : (s'.inside m).Perm (t :: s.inside m))
    (ho : ∀ m', m' ≠ m → (s'.inside m').Perm (s.inside m')) : Apart s' := by
  have hmem (u : τ) (k : σ) (hu : u ∈ s'.inside k) : u = t ∧ k = m ∨ u ∈ s.inside k := by
    by_cases hk : k = m
    · subst hk
      rcases mem_cons.1 (hm.mem_iff.1 hu) with h | h
      · exact .inl ⟨h, rfl⟩
      · exact .inr h
    · exact .inr ((ho k hk).mem_iff.1 hu)
  constructor
  · intro k
    by_cases hk : k = m
    · subst hk
      exact hm.nodup_iff.2 (nodup_cons.2 ⟨ht k, hs.nodup k⟩)
    · exact (ho k hk).nodup_iff.2 (hs.nodup k)
  · intro u k k' hk hk'
    rcases hmem u k hk with ⟨rfl, rfl⟩ | h <;> rcases hmem u k' hk' with ⟨h', rfl⟩ | h'
    · rfl
    · exact (ht k' h').elim
    · exact (ht k (h' ▸ h)).elim
    · exact hs.one u k k' h h'

theorem Apart.exit (hs : Apart s) (hm : (t :: s'.inside m).Perm (s.inside m))
    (ho : ∀ m', m' ≠ m → (s'.inside m').Perm (s.inside m')) : Apart s' := by
  have hmem (u : τ) (k : σ) (hu : u ∈ s'.inside k) : u ∈ s.inside k := by
    by_cases hk : k = m
    · subst hk
      exact hm.mem_iff.1 (.tail _ hu)
    · exact (ho k hk).mem_iff.1 hu
  constructor
  · intro k
    by_cases hk : k = m
    · subst hk
      exact (nodup_cons.1 (hm.nodup_iff.2 (hs.nodup k))).2
    · exact (ho k hk).nodup_iff.2 (hs.nodup k)
  · exact fun u k k' hk hk' => hs.one u k k' (hmem u k hk) (hmem u k' hk')

/-! ## The order by priority -/

/-- The list that a mutex waits in is the one that Intewell.Sched.TaskqRun speaks of. -/
theorem enqueued_ttosEnqueuePriority (prio : τ → ℕ) (t : τ)
    (hq : q.Pairwise fun t u => prio t ≤ prio u) :
    Sched.Enqueued prio t q (ttosEnqueuePriority prio t q) := by
  induction q with
  | nil => exact ⟨[], [], rfl, rfl, by simp, by simp⟩
  | cons u q ih =>
    obtain ⟨hu, hq⟩ := pairwise_cons.1 hq
    by_cases h : prio t < prio u
    · refine ⟨[], u :: q, rfl, by simp [ttosEnqueuePriority, h], by simp, fun y hy => ?_⟩
      rcases mem_cons.1 hy with rfl | hy
      · exact h
      · exact h.trans_le (hu y hy)
    · obtain ⟨X, Y, rfl, h', hX, hY⟩ := ih hq
      refine ⟨u :: X, Y, rfl, ?_, fun x hx => ?_, hY⟩
      · simpa [ttosEnqueuePriority, h] using h'
      · rcases mem_cons.1 hx with rfl | hx
        · exact Nat.le_of_not_lt h
        · exact hX x hx

theorem ttosEnqueuePriority_perm (prio : τ → ℕ) (t : τ) (q : List τ) :
    (ttosEnqueuePriority prio t q).Perm (t :: q) := perm_orderedInsert _ t q

theorem enqueue_perm (b : SemaControlBlock τ) (prio : τ → ℕ) (t : τ) :
    (b.enqueue prio t).Perm (t :: b.waitQueue) := by
  unfold SemaControlBlock.enqueue
  split_ifs
  · exact ttosEnqueuePriority_perm prio t b.waitQueue
  · exact perm_append_singleton t b.waitQueue

variable [DecidableEq σ]

/-! ## The functions -/

theorem inside_setSema {b : SemaControlBlock τ} (hb : b.waitQueue = (s.sema m).waitQueue) :
    SameInside s (s.setSema m b) := fun k => by
  by_cases hk : k = m
  · subst hk
    simp [inside, setSema, hb]
  · simp [inside, setSema, hk]

theorem inside_countDown (m : σ) (s : State σ τ) :
    SameInside s (countDown m s) := inside_setSema rfl

variable [DecidableEq τ]

section

omit [DecidableEq σ]

theorem inside_setTcb (c : Tcb) : SameInside s (s.setTcb t c) := fun _ => .refl _

theorem taskChangePriority_sema_of_mem {p : ℕ} (h : t ∈ (s.sema m).waitQueue)
    (hm : (s.sema m).isMutex = true) : (taskChangePriority t p s).sema m =
      { s.sema m with
        waitQueue := ttosEnqueuePriority (taskChangePriority t p s).prio t
          ((s.sema m).waitQueue.erase t) } :=
  if_pos ⟨h, hm⟩

theorem taskChangePriority_sema_of_not {p : ℕ}
    (h : ¬(t ∈ (s.sema m).waitQueue ∧ (s.sema m).isMutex = true)) :
    (taskChangePriority t p s).sema m = s.sema m := if_neg h

theorem inside_taskChangePriority (t : τ) (p : ℕ) (s : State σ τ) :
    SameInside s (taskChangePriority t p s) := fun k => by
  refine List.Perm.append_right _ ?_
  by_cases h : t ∈ (s.sema k).waitQueue ∧ (s.sema k).isMutex
  · rw [taskChangePriority_sema_of_mem h.1 h.2]
    exact (ttosEnqueuePriority_perm _ t _).trans (perm_cons_erase h.1).symm
  · rw [taskChangePriority_sema_of_not h]

end

theorem inside_leave (h : t ∈ (s.sema m).waitQueue) : SameInside s (leave t m s) := fun k => by
  by_cases hk : k = m
  · subst hk
    simp only [inside, leave, setSema, update_self]
    exact (perm_middle.trans (List.Perm.cons t (List.Perm.refl _))).trans
      ((perm_cons_erase h).symm.append_right _)
  · simp [inside, leave, setSema, hk]

/-! ## What the functions are made of -/

/-- What a call for the semaphore `k` does besides the begin and the end of a wait. -/
inductive Edit (k : σ) (s : State σ τ) : State σ τ → Prop
  | sema (b : SemaControlBlock τ) (ha : b.attributeSet = (s.sema k).attributeSet)
    (hq : b.waitQueue = (s.sema k).waitQueue) : Edit k s (s.setSema k b)
  | tcb (t : τ) (n : ℕ) : Edit k s (s.setTcb t { s.tcb t with resourceCount := n })
  | prio (t : τ) (p : ℕ) : Edit k s (taskChangePriority t p s)
  | leave (t : τ) (ht : t ∈ (s.sema k).waitQueue) : Edit k s (leave t k s)

def Edits (k : σ) : State σ τ → State σ τ → Prop := ReflTransGen (Edit k)

theorem edits_own (t : τ) (m : σ) (s : State σ τ) : Edits m s (own t m s) := by
  have h := (ReflTransGen.single (Edit.sema
    { s.sema m with nestCount := 1, semHolder := some t } rfl rfl)).tail
    (.tcb t ((s.tcb t).resourceCount + 1))
  simp only [own]
  split_ifs
  · exact h.tail (.prio _ _)
  · exact h

theorem edits_take (t : τ) (m : σ) (s : State σ τ) : Edits m s (take t m s) := by
  unfold take
  split_ifs
  · exact edits_own t m s
  · exact .single (.sema _ rfl rfl)

theorem edits_handOver (m : σ) (s : State σ τ) : Edits m s (handOver m s).2 := by
  simp only [handOver]
  set s1 := if (s.sema m).semaControlValue < INT_MAX then
      s.setSema m { s.sema m with semaControlValue := (s.sema m).semaControlValue + 1 }
    else s with hs1
  have h1 : Edits m s s1 := by
    rw [hs1]
    split_ifs
    · exact .single (.sema _ rfl rfl)
    · exact .refl
  unfold ttosDequeueTaskq
  rcases hq : (s1.sema m).waitQueue with _ | ⟨t, q⟩
  · exact h1
  · have h2 : Edits m s (leave t m s1) := h1.tail (.leave t (by simp [hq]))
    simp only
    split_ifs
    · exact h2.trans (edits_own t m _)
    · exact h2

/-- One more in the value. -/
def countUp (m : σ) (s : State σ τ) : State σ τ :=
  s.setSema m { s.sema m with semaControlValue := (s.sema m).semaControlValue + 1 }

theorem handOver_nil (hv : (s.sema m).semaControlValue < INT_MAX)
    (hq : (s.sema m).waitQueue = []) : (handOver m s).2 = countUp m s := by
  simp [handOver, hv, ttosDequeueTaskq, setSema, hq, countUp]

theorem handOver_cons {q : List τ} (hv : (s.sema m).semaControlValue < INT_MAX)
    (hq : (s.sema m).waitQueue = u :: q) : (handOver m s).2 =
      if (s.sema m).isMutex then own u m (leave u m (countUp m s)) else leave u m
        (countUp m s) := by
  have hm : ((leave u m (countUp m s)).sema m).isMutex = (s.sema m).isMutex := by
    simp [leave, countUp, setSema, SemaControlBlock.isMutex]
  have hd : ttosDequeueTaskq m (countUp m s) = (some u, leave u m (countUp m s)) := by
    simp [ttosDequeueTaskq, countUp, setSema, hq]
  have hc : (if (s.sema m).semaControlValue < INT_MAX then
      s.setSema m { s.sema m with semaControlValue := (s.sema m).semaControlValue + 1 }
    else s) = countUp m s := if_pos hv
  simp only [handOver]
  rw [hc, hd]
  simp only [hm]

theorem edits_adopt (t : τ) (m : σ) (s : State σ τ) : Edits m s (adopt t m s) := by
  unfold adopt
  split_ifs
  · exact (ReflTransGen.single (Edit.sema _ (by rfl) (by rfl))).tail (.tcb t _)
  · exact .refl

theorem edits_disown (t : τ) (m : σ) (s : State σ τ) : Edits m s (disown t m s) := by
  have h := (ReflTransGen.single (Edit.sema
    { s.sema m with nestCount := 0, semHolder := none } rfl rfl)).tail
    (.tcb t ((s.tcb t).resourceCount - 1))
  simp only [disown]
  split_ifs
  · exact h.tail (.prio _ _)
  · exact h

theorem edits_releaseMutex (t : τ) (m : σ) (s : State σ τ) : Edits m s (releaseMutex t m s).2 := by
  have h := edits_adopt t m s
  simp only [releaseMutex]
  split_ifs
  · exact .refl
  · exact h
  · exact h.tail (.sema _ rfl rfl)
  · exact h.trans (edits_disown t m _)

theorem edits_release (isISR : Bool) (e : Option τ) (m : σ) (s : State σ τ) :
    Edits m s (TTOS_ReleaseSemaReturnTask isISR e (some m) s).2.2 := by
  rcases e with _ | t
  · exact .refl
  · simp only [TTOS_ReleaseSemaReturnTask]
    split_ifs
    · exact .refl
    · have h := edits_releaseMutex t m s
      rcases hr : releaseMutex t m s with ⟨_ | code, s1⟩ <;> rw [hr] at h
      · exact h.trans (edits_handOver m s1)
      · exact h
    · exact edits_handOver m s

omit [DecidableEq σ] in
theorem inheritPriority_eq (h : inheritPriority t m s = some s') :
    s' = s ∨ ∃ u, s' = taskChangePriority u (s.prio t) s := by
  unfold inheritPriority at h
  split_ifs at h
  · split at h
    · cases h
    · cases h
      split_ifs
      · exact .inr ⟨_, rfl⟩
      · exact .inl rfl
  · cases h
    exact .inl rfl

variable {code : Option ReturnCode}

/-- A call waits at the end, or it does not. -/
theorem edits_obtain {ticks : ℕ} {i p : Bool} (h : obtainSema t m ticks i p s = some (code, s')) :
    Edits m s s' ∨ ∃ s1, Edits m s s1 ∧ s' = wait t m ticks i p s1 := by
  have h1 : Edits m s (countDown m s) := .single (.sema _ rfl rfl)
  unfold obtainSema at h
  split_ifs at h
  · cases h
    exact .inl .refl
  · cases h
    exact .inl (h1.trans (edits_take t m _))
  · unfold obtainLate at h
    split_ifs at h
    · cases h
      exact .inl (h1.tail (.sema _ rfl rfl))
    · cases h
      exact .inl h1
    · obtain ⟨s2, h2, h⟩ := Option.map_eq_some_iff.1 h
      cases h
      refine .inr ⟨s2, ?_, rfl⟩
      rcases inheritPriority_eq h2 with rfl | ⟨u, rfl⟩
      · exact h1
      · exact h1.tail (.prio u _)

/-- A call in a step, which may be refused first. -/
theorem Op.edits_obtain {isISR : Bool} {semaID : Option σ} {ticks : ℕ} {i p : Bool}
    (hp : (Op.obtain isISR t semaID ticks i p).Possible s)
    (h : (Op.obtain isISR t semaID ticks i p).run s = some (code, s')) :
    s' = s ∨ ∃ m, semaID = some m ∧ s.Running t ∧
      (Edits m s s' ∨ ∃ s1, Edits m s s1 ∧ s' = wait t m ticks i p s1) := by
  simp only [Op.run, TTOS_ObtainSemaWithInterruptFlags] at h
  split_ifs at h with hi
  · cases h
    exact .inl rfl
  · cases h
    exact .inl rfl
  · rcases semaID with _ | m
    · cases h
      exact .inl rfl
    · exact .inr ⟨m, rfl, hp.resolve_left hi, Sema.edits_obtain h⟩

theorem Edits.inside (h : Edits m s s') : SameInside s s' := by
  induction h with
  | refl => exact .refl s
  | tail _ h ih =>
    refine ih.trans ?_
    cases h with
    | sema b ha hq => exact inside_setSema hq
    | tcb t n => exact inside_setTcb _
    | prio t p => exact inside_taskChangePriority t p _
    | leave t ht => exact inside_leave ht

theorem Edits.attributeSet (h : Edits m s s') (k : σ) :
    (s'.sema k).attributeSet = (s.sema k).attributeSet := by
  induction h with
  | refl => rfl
  | @tail s1 _ _ h ih =>
    rw [← ih]
    cases h with
    | sema b ha hq =>
      exact update_proj SemaControlBlock.attributeSet ha k
    | tcb t n => rfl
    | prio t p =>
      by_cases h : t ∈ (s1.sema k).waitQueue ∧ (s1.sema k).isMutex = true
      · rw [taskChangePriority_sema_of_mem h.1 h.2]
      · rw [taskChangePriority_sema_of_not h]
    | leave t ht =>
      exact update_proj SemaControlBlock.attributeSet (by rfl) k

theorem inside_wait (t : τ) (m : σ) (ticks : ℕ) (i p : Bool) (s : State σ τ) :
    ((wait t m ticks i p s).inside m).Perm (t :: s.inside m) ∧
      ∀ m', m' ≠ m → ((wait t m ticks i p s).inside m').Perm (s.inside m') := by
  simp only [wait]
  split_ifs
  · constructor
    · simp [inside, setTcb]
    · intro k hk
      simp [inside, setTcb, hk]
  · constructor
    · simp only [ttosEnqueueTaskq, inside, setTcb, setSema, update_self]
      exact (enqueue_perm _ _ t).append_right _
    · intro k hk
      simp [ttosEnqueueTaskq, inside, setTcb, setSema, hk]

theorem inside_resume (h : t ∈ s.resuming m) : (t :: (resume t m s).2.inside m).Perm (s.inside m) ∧
      ∀ m', m' ≠ m → ((resume t m s).2.inside m').Perm (s.inside m') := by
  have hp : (t :: ((s.sema m).waitQueue ++ (s.resuming m).erase t)).Perm (s.inside m) :=
    perm_middle.symm.trans ((perm_cons_erase h).symm.append_left _)
  simp only [resume]
  split_ifs
  · refine ⟨by simpa [inside] using hp, fun k hk => ?_⟩
    simp [inside, hk]
  · refine ⟨by simpa [inside, setSema] using hp, fun k hk => ?_⟩
    simp [inside, setSema, hk]

@[simp] theorem Op.after_st (op : Op σ τ) (w : World σ τ) (s' : State σ τ)
    (code : Option ReturnCode) : (op.after w s' code).st = s' := by
  unfold Op.after
  split <;> rfl

/-- **In every run a task is inside one call.** -/
theorem Apart.step {w w' : World σ τ} {ok : State σ τ → Op σ τ → Prop} (hs : Apart w.st)
    (h : Step ok w w') : Apart w'.st := by
  obtain ⟨op, code, s', hp, -, hrun⟩ := h
  rw [Op.after_st]
  cases op with
  | obtain isISR t semaID ticks i p =>
    rcases Op.edits_obtain hp hrun with rfl | ⟨m, rfl, ht, h | ⟨s1, h, rfl⟩⟩
    · exact hs
    · exact hs.same h.inside
    · obtain ⟨hm, ho⟩ := inside_wait t m ticks i p s1
      exact (hs.same h.inside).enter (h.inside.running.2 ht) hm ho
  | release isISR e semaID =>
    cases hrun
    rcases semaID with _ | m
    · rcases e with _ | t <;> exact hs
    · exact hs.same (edits_release isISR e m w.st).inside
  | expire t m | signal t m kill =>
    cases hrun
    exact (hs.same (inside_setTcb _)).same (inside_leave hp.1)
  | resume t m =>
    cases hrun
    obtain ⟨hm, ho⟩ := inside_resume hp
    exact hs.exit hm ho

/-! ## What a step for another semaphore does -/

/-- A step that does not touch the semaphore, but for the order of the tasks in its queue if
that is ordered by priority. -/
structure Kept (m : σ) (s s' : State σ τ) : Prop where
  sema : ∃ q, q.Perm (s.sema m).waitQueue ∧
    ((s.sema m).isMutex = false → q = (s.sema m).waitQueue) ∧
    s'.sema m = { s.sema m with waitQueue := q }
  resuming : s'.resuming m = s.resuming m
  code : ∀ t ∈ s.inside m, (s'.tcb t).returnCode = (s.tcb t).returnCode

namespace Kept

section

omit [DecidableEq σ] [DecidableEq τ]

theorem of_eq (hm : s'.sema m = s.sema m) (hr : s'.resuming m = s.resuming m)
    (hc : ∀ t ∈ s.inside m, (s'.tcb t).returnCode = (s.tcb t).returnCode) : Kept m s s' :=
  ⟨⟨_, .refl _, fun _ => rfl, hm⟩, hr, hc⟩

theorem refl (m : σ) (s : State σ τ) : Kept m s s := of_eq rfl rfl fun _ _ => rfl

theorem inside (h : Kept m s s') : (s'.inside m).Perm (s.inside m) := by
  obtain ⟨q, hq, -, he⟩ := h.sema
  rw [State.inside, he, h.resuming]
  exact hq.append_right _

theorem trans (h : Kept m s s') (h' : Kept m s' s'') : Kept m s s'' := by
  obtain ⟨q, hq, hc, he⟩ := h.sema
  obtain ⟨q', hq', hc', he'⟩ := h'.sema
  refine ⟨⟨q', ?_, fun hm => ?_, ?_⟩, h'.resuming.trans h.resuming, fun t ht => ?_⟩
  · rw [he] at hq'
    exact hq'.trans hq
  · rw [hc' (by rw [he]; exact hm), he]
    exact hc hm
  · rw [he', he]
  · exact (h'.code t (h.inside.mem_iff.2 ht)).trans (h.code t ht)

/-- A counting semaphore keeps its queue as it is. -/
theorem sema_eq (h : Kept m s s') (hm : (s.sema m).isMutex = false) : s'.sema m = s.sema m := by
  obtain ⟨q, -, hc, he⟩ := h.sema
  rw [he, hc hm]

end

omit [DecidableEq τ] in
theorem setSema (hm : m' ≠ m) (b : SemaControlBlock τ) : Kept m s (s.setSema m' b) :=
  of_eq (update_of_ne hm.symm _ _) rfl fun _ _ => rfl

section

omit [DecidableEq σ]

theorem setTcb {c : Tcb} (hc : c.returnCode = (s.tcb t).returnCode) : Kept m s (s.setTcb t c) :=
  of_eq rfl rfl fun u _ => update_proj Tcb.returnCode hc u

theorem setTcb_of_not_mem (ht : t ∉ s.inside m) (c : Tcb) : Kept m s (s.setTcb t c) :=
  of_eq rfl rfl fun u hu => by
    have hne : u ≠ t := fun h => ht (h ▸ hu)
    simp [State.setTcb, hne]

theorem taskChangePriority (t : τ) (p : ℕ) : Kept m s (taskChangePriority t p s) := by
  refine (setTcb (c := { s.tcb t with taskCurPriority := p }) rfl).trans ⟨?_, rfl, fun _ _ => rfl⟩
  by_cases h : t ∈ (s.sema m).waitQueue ∧ (s.sema m).isMutex = true
  · refine ⟨_, ?_, fun hm => ?_, taskChangePriority_sema_of_mem h.1 h.2⟩
    · exact (ttosEnqueuePriority_perm _ t _).trans (perm_cons_erase h.1).symm
    · have hm' : (s.sema m).isMutex = false := hm
      rw [h.2] at hm'
      cases hm'
  · exact ⟨_, .refl _, fun _ => rfl, taskChangePriority_sema_of_not h⟩

theorem inheritPriority (h : inheritPriority t m' s = some s') : Kept m s s' := by
  rcases inheritPriority_eq h with rfl | ⟨u, rfl⟩
  · exact .refl _ _
  · exact taskChangePriority _ _

end

theorem wait (ht : t ∉ s.inside m) (hm : m' ≠ m) (ticks : ℕ) (i p : Bool) :
    Kept m s (wait t m' ticks i p s) := by
  simp only [Sema.wait]
  have h : Kept m s (s.setTcb t { s.tcb t with returnCode := TTOS_OK }) := setTcb_of_not_mem ht _
  split_ifs
  · exact h.trans (of_eq rfl (update_of_ne hm.symm _ _) fun _ _ => rfl)
  · refine h.trans (.trans ?_ (setSema hm _))
    exact setTcb rfl

section
variable (hm : m' ≠ m)
include hm

theorem leave (t : τ) : Kept m s (leave t m' s) :=
  (setSema hm { s.sema m' with waitQueue := (s.sema m').waitQueue.erase t }).trans
    (of_eq rfl (update_of_ne hm.symm _ _) fun _ _ => rfl)

theorem edits (h : Edits m' s s') : Kept m s s' := by
  induction h with
  | refl => exact .refl _ _
  | tail _ h ih =>
    refine ih.trans ?_
    cases h with
    | sema b ha hq => exact setSema hm b
    | tcb t n => exact setTcb rfl
    | prio t p => exact taskChangePriority t p
    | leave t ht => exact leave hm t

theorem resume (t : τ) : Kept m s (resume t m' s).2 := by
  have h : Kept m s { s with resuming := update s.resuming m' ((s.resuming m').erase t) } :=
    of_eq rfl (update_of_ne hm.symm _ _) fun _ _ => rfl
  simp only [Sema.resume]
  split_ifs
  · exact h
  · exact h.trans (setSema hm _)

theorem interrupt (ht : t ∉ s.inside m) (code : ReturnCode) : Kept m s (interrupt code t m' s) :=
  (setTcb_of_not_mem ht { s.tcb t with returnCode := code }).trans (leave hm t)

end

end Kept

/-- The semaphore that a step is about. -/
def Op.target : Op σ τ → Option σ
  | obtain _ _ semaID _ _ _ => semaID
  | release _ _ semaID => semaID
  | expire _ m => some m
  | signal _ m _ => some m
  | resume _ m => some m

theorem Op.after_of_target_ne {op : Op σ τ} (h : op.target ≠ some m) (w : World σ τ)
    (s' : State σ τ) (code : Option ReturnCode) : (op.after w s' code).obtained m = w.obtained m ∧
      (op.after w s' code).released m = w.released m ∧ (op.after w s' code).net m = w.net m := by
  unfold Op.after
  split
  all_goals simp_all [Op.target, World.granted, World.returned, World.addNet, update_of_ne, eq_comm]

/-- **A step for another semaphore.** -/
theorem Kept.run {op : Op σ τ} (hs : Apart s) (hp : op.Possible s) (ht : op.target ≠ some m)
    (h : op.run s = some (code, s')) : Kept m s s' := by
  have hne {m' : σ} (h : some m' ≠ some m) : m' ≠ m := fun he => h (congrArg some he)
  have hout {t : τ} {m' : σ} (hm : m' ≠ m) (ht : t ∈ s.inside m') : t ∉ s.inside m :=
    fun h => hm (hs.one t m' m ht h)
  cases op with
  | obtain isISR t semaID ticks i p =>
    rcases Op.edits_obtain hp h with rfl | ⟨m', rfl, hr, he | ⟨s1, he, rfl⟩⟩
    · exact .refl _ _
    · exact .edits (hne ht) he
    · refine (Kept.edits (hne ht) he).trans (.wait (fun h => ?_) (hne ht) ticks i p)
      exact hr m (he.inside.mem_iff.1 h)
  | release isISR e semaID =>
    cases h
    rcases semaID with _ | m'
    · rcases e with _ | t <;> exact .refl _ _
    · exact .edits (hne ht) (edits_release isISR e m' s)
  | expire t m' | signal t m' kill =>
    cases h
    exact Kept.interrupt (hne ht) (hout (hne ht) (mem_append_left _ hp.1)) _
  | resume t m' =>
    cases h
    exact Kept.resume (hne ht) t

end Intewell.Sema
