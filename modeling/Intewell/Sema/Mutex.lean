/-
# Mutexes

The holder of a mutex, its depth and its value.  `Held` says how they hang together: the value
is 1, without the depth, the tasks that wait and those that have stopped waiting and have not
run since.

The condition on a run leaves out the calls that break this.  A call that does not wait for a
mutex that another task holds keeps its debt, and so does one that finds a signal pending.
While nobody holds a mutex but a task that has stopped waiting has not given its debt back, a
call waits for nobody, or reads the priority of no holder, and a release by anybody takes the
mutex over.  And where the holder of an inherit mutex waits for another, its new priority is
not passed on.
-/

import Intewell.Lib.Exec
import Intewell.Sema.Priority
import Mathlib.Data.Fintype.Basic

namespace Intewell.Sema

open List.Sublist SemaControlBlock Relation Option
open State (setSema setTcb)
open List Function ReturnCode

variable {σ τ : Type*} [DecidableEq σ] [DecidableEq τ] {s s' : State σ τ} {t u h : τ} {m m' : σ}
  {w w' : World σ τ}

/-! ## The condition on a run -/

/-- The task may wait for a mutex that `h` holds. -/
def MayWait (s : State σ τ) (t h : τ) (m : σ) (ticks : ℕ) (is_interruptable pending : Bool) :
    Prop :=
  ticks ≠ 0 ∧ (is_interruptable && pending) = false ∧
    ((s.sema m).isInherit = true → s.prio t < s.prio h →
      ∀ m' g, (s.sema m').isInherit = true → (s.sema m').semHolder = some g →
        h ∈ (s.sema m').waitQueue → s.prio g ≤ s.prio t)

/-- **The condition on a run.**  `semaControlValue`, a `T_WORD`, can be counted down once more; by
`MutexKept.words` no word wraps then. -/
def Op.Orderly (s : State σ τ) : Op σ τ → Prop
  | obtain isISR t semaID ticks is_interruptable pending =>
    isISR = false → (s.tcb t).isIdle = false → ∀ m, semaID = some m → (s.sema m).isMutex = true →
      ¬((s.sema m).isPriorityCeiling = true ∧ (s.sema m).priorityCeiling > s.prio t) →
      -2 ^ 31 < (s.sema m).semaControlValue ∧
      ((s.sema m).semHolder = none → s.withdrawn m = 0) ∧
      ∀ h, (s.sema m).semHolder = some h → h ≠ t → MayWait s t h m ticks is_interruptable pending
  | release isISR _ semaID =>
    isISR = false → ∀ m, semaID = some m → (s.sema m).isMutex = true →
      (s.sema m).semHolder = none → s.withdrawn m = 0
  | _ => True

/-! ## Holder, depth and value -/

/-- A task on its way back that has got the mutex. -/
def Granted (r : List τ) (code : τ → ReturnCode) (t : τ) : Prop := t ∈ r ∧ code t = TTOS_OK

instance (r : List τ) (code : τ → ReturnCode) (t : τ) : Decidable (Granted r code t) :=
  inferInstanceAs (Decidable (_ ∧ _))

/-- Of a mutex, the tasks on their way back and their codes, and by how many the calls of a
task that obtained it exceed those that released it. -/
structure Held (b : SemaControlBlock τ) (r : List τ) (code : τ → ReturnCode) (net : τ → ℤ) :
    Prop where
  depth : b.nestCount = 0 ↔ b.semHolder = none
  value : b.semaControlValue =
    1 - b.nestCount - b.waitQueue.length - (r.filter fun t => code t ≠ TTOS_OK).length
  free : b.semHolder = none → b.waitQueue = []
  wait : ∀ t ∈ b.waitQueue, code t = TTOS_OK
  granted : ∀ t, Granted r code t → b.semHolder = some t ∧ b.nestCount = 1
  net : ∀ t, net t + (if Granted r code t then 1 else 0) =
    if b.semHolder = some t then (b.nestCount : ℤ) else 0
  other : ∀ h, b.semHolder = some h → h ∉ b.waitQueue

def World.Held (w : World σ τ) (m : σ) : Prop :=
  Sema.Held (w.st.sema m) (w.st.resuming m) (fun t => (w.st.tcb t).returnCode) (w.net m)

omit [DecidableEq τ] in
/-- Only the codes of those on their way back matter. -/
theorem granted_congr {r : List τ} {code code' : τ → ReturnCode} (hc : ∀ t ∈ r, code' t = code t) :
    (∀ t, Granted r code' t ↔ Granted r code t) ∧
      (r.filter fun t => code' t ≠ TTOS_OK) = r.filter fun t => code t ≠ TTOS_OK :=
  ⟨fun t => and_congr_right fun ht => by rw [hc t ht], filter_congr fun t ht => by rw [hc t ht]⟩

/-- The order of the queue does not matter, nor codes of tasks outside. -/
theorem Held.congr {b : SemaControlBlock τ} {r q : List τ} {code code' : τ → ReturnCode}
    {net : τ → ℤ} (h : Held b r code net) (hq : q.Perm b.waitQueue)
    (hc : ∀ t ∈ b.waitQueue ++ r, code' t = code t) :
    Held { b with waitQueue := q } r code' net := by
  obtain ⟨hg, hf⟩ := granted_congr fun t ht => hc t (mem_append_right _ ht)
  refine ⟨h.depth, ?_, fun hn => ?_, fun t ht => ?_, fun t ht => ?_, fun t => ?_, fun g hg hm => ?_⟩
  · rw [hf]
    simpa [hq.length_eq] using h.value
  · have hnil := h.free hn
    rw [hnil] at hq
    exact hq.eq_nil
  · have ht' := hq.mem_iff.1 ht
    rw [hc t (mem_append_left _ ht')]
    exact h.wait t ht'
  · exact h.granted t ((hg t).1 ht)
  · simp only [hg]
    exact h.net t
  · exact h.other g hg (hq.mem_iff.1 hm)

open Sema.Held

omit [DecidableEq σ] in
theorem World.Held.kept (h : w.Held m) (hk : Kept m w.st w'.st) (hn : w'.net m = w.net m) :
    w'.Held m := by
  obtain ⟨q, hq, -, he⟩ := hk.sema
  unfold World.Held
  rw [he, hk.resuming, hn]
  exact congr h hq hk.code

namespace Held

variable {b : SemaControlBlock τ} {r q : List τ} {code code' : τ → ReturnCode} {net : τ → ℤ}

/-- Nobody else is on the way to a mutex that a task holds which is not. -/
theorem not_granted (h : Held b r code net) (hh : ∀ u, b.semHolder = some u → u = t) (ht : t ∉ r)
    (u : τ) : ¬Granted r code u := fun hg => ht (hh u (h.granted u hg).1 ▸ hg.1)

/-- The task that holds the mutex, or gets it, changes its depth by `d`. -/
theorem recount (h : Held b r code net) (hh : ∀ u, b.semHolder = some u → u = t) (ht : t ∉ r)
    {d v : ℤ} {n : ℕ} {o : Option τ} (hv : v = b.semaControlValue - d) (hn : n = b.nestCount + d)
    (ho : o = if n = 0 then none else some t) (hq : n = 0 → b.waitQueue = []) :
    Held { b with semaControlValue := v, nestCount := n, semHolder := o } r code
      (update net t (net t + d)) := by
  have hg := h.not_granted hh ht
  have hnt : net t = b.nestCount := by
    have ht := h.net t
    rcases hb : b.semHolder with _ | u
    · simpa [hg t, hb, h.depth.2 hb] using ht
    · obtain rfl := hh u hb
      simpa [hg u, hb] using ht
  have ho' (u : τ) : o = some u ↔ n ≠ 0 ∧ t = u := by
    rw [ho]
    split_ifs with h0 <;> simp [h0]
  refine ⟨?_, ?_, fun hn0 => hq ?_, h.wait, fun u hu => (hg u hu).elim, fun u => ?_,
    fun u hu hm => ?_⟩
  · rw [ho]
    split_ifs with h0 <;> simp [h0]
  · have := h.value
    simp only at this ⊢
    omega
  · by_contra h0
    rw [ho, if_neg h0] at hn0
    cases hn0
  · simp only [hg u, ho', if_false]
    by_cases hut : u = t
    · subst hut
      rw [update_self, hnt, ← hn]
      by_cases h0 : n = 0 <;> simp [h0]
    · have hu := h.net u
      rw [if_neg (hg u), if_neg fun e => hut (hh u e)] at hu
      rw [update_of_ne hut, hu, if_neg fun e => hut e.2.symm]
  · obtain ⟨h0, rfl⟩ := (ho' u).1 hu
    rcases hb : b.semHolder with _ | u
    · rw [h.free hb] at hm
      cases hm
    · obtain rfl := hh u hb
      exact h.other u hb hm

theorem queued (h : Held b r code net) {g : τ} (hh : b.semHolder = some g) (hne : g ≠ t)
    (ht : t ∉ b.waitQueue ++ r) (hq : q.Perm (t :: b.waitQueue)) (ho : code' t = TTOS_OK)
    (hc : ∀ u ∈ b.waitQueue ++ r, code' u = code u) :
    Held { b with semaControlValue := b.semaControlValue - 1, waitQueue := q } r code' net := by
  obtain ⟨hgr, hf⟩ := granted_congr fun u hu => hc u (mem_append_right _ hu)
  refine ⟨h.depth, ?_, fun hn => ?_, fun u hu => ?_, fun u hu => ?_, fun u => ?_, fun k hk hm => ?_⟩
  · have := h.value
    rw [hf, hq.length_eq, length_cons]
    simp only at this ⊢
    omega
  · rw [hh] at hn
    cases hn
  · rcases mem_cons.1 (hq.mem_iff.1 hu) with rfl | hu
    · exact ho
    · rw [hc u (mem_append_left _ hu)]
      exact h.wait u hu
  · exact h.granted u ((hgr u).1 hu)
  · simp only [hgr]
    exact h.net u
  · obtain rfl : g = k := some.inj (hh.symm.trans hk)
    rcases mem_cons.1 (hq.mem_iff.1 hm) with he | hm
    · exact hne he
    · exact h.other g hk hm

theorem handed (h : Held b r code net) (hh : b.semHolder = some t) (hd : b.nestCount = 1)
    (hq : b.waitQueue = u :: q) (hin : (b.waitQueue ++ r).Nodup) (ht : t ∉ b.waitQueue ++ r) :
    Held { b with
        semHolder := some u
        semaControlValue := b.semaControlValue + 1
        waitQueue := q } (u :: r) code (update net t (net t + -1)) := by
  have htr : t ∉ r := fun hr => ht (mem_append_right _ hr)
  have hg := h.not_granted (fun u hu => some.inj (hu.symm.trans hh)) htr
  have hu : code u = TTOS_OK := h.wait u (by simp [hq])
  rw [hq, cons_append, nodup_cons] at hin
  have hut : u ≠ t := fun e => ht (by simp [hq, e])
  have hgr (k : τ) : Granted (u :: r) code k ↔ k = u := by
    constructor
    · rintro ⟨hk, hc⟩
      rcases mem_cons.1 hk with he | hk
      · exact he
      · exact (hg k ⟨hk, hc⟩).elim
    · rintro rfl
      exact ⟨.head _, hu⟩
  refine ⟨by simp [hd], ?_, (fun hn => by cases hn), fun k hk => h.wait k (by simp [hq, hk]),
    fun k hk => ?_, fun k => ?_, fun k hk hm => ?_⟩
  · have := h.value
    rw [filter_cons, if_neg (by simp [hu])]
    simp only [hd, hq, length_cons] at this ⊢
    omega
  · rw [(hgr k).1 hk]
    exact ⟨rfl, hd⟩
  · have hk := h.net k
    simp only [hg k, hh, hd, if_false] at hk
    simp only [hgr k, hd]
    by_cases hkt : k = t
    · subst hkt
      simp at hk ⊢
      simp [hut, Ne.symm hut]
      omega
    · by_cases hku : k = u
      · subst hku
        simp [hkt, Ne.symm hkt] at hk ⊢
        omega
      · simp [hkt, Ne.symm hkt, hku, Ne.symm hku] at hk ⊢
        exact hk
  · cases hk
    exact hin.1 (mem_append_left _ hm)

theorem ended (h : Held b r code net) (ht : t ∈ b.waitQueue) (hin : (b.waitQueue ++ r).Nodup)
    (ho : code' t ≠ TTOS_OK) (hc : ∀ u, u ≠ t → code' u = code u) :
    Held { b with waitQueue := b.waitQueue.erase t } (t :: r) code' net := by
  obtain ⟨hnq, -, hdis⟩ := nodup_append.1 hin
  have htr : t ∉ r := fun hr => hdis t ht t hr rfl
  have hcr (u : τ) (hu : u ∈ r) : code' u = code u := hc u fun e => htr (e ▸ hu)
  obtain ⟨hg, hf⟩ := granted_congr hcr
  have hgr (u : τ) : Granted (t :: r) code' u ↔ Granted r code u := by
    rw [← hg]
    refine ⟨fun ⟨hu, hcu⟩ => ⟨(mem_cons.1 hu).resolve_left ?_, hcu⟩,
      fun ⟨hu, hcu⟩ => ⟨.tail _ hu, hcu⟩⟩
    rintro rfl
    exact ho hcu
  refine ⟨h.depth, ?_, fun hn => ?_, fun u hu => ?_, fun u hu => ?_, fun u => ?_, fun k hk hm => ?_⟩
  · have := h.value
    have hlen := length_erase_of_mem ht
    have hpos := length_pos_of_mem ht
    rw [filter_cons, if_pos (by simpa using ho), hf, length_cons]
    simp only at this ⊢
    omega
  · have := h.free hn
    rw [this] at ht
    cases ht
  · obtain ⟨hne, hu⟩ := hnq.mem_erase_iff.1 hu
    rw [hc u hne]
    exact h.wait u hu
  · exact h.granted u ((hgr u).1 hu)
  · simp only [hgr]
    exact h.net u
  · exact h.other k hk (mem_of_mem_erase hm)

theorem resumed (h : Held b r code net) (hr : r.Nodup) (ht : t ∈ r) (ho : code t = TTOS_OK) :
    Held b (r.erase t) code (update net t (net t + 1)) := by
  have hgt : Granted r code t := ⟨ht, ho⟩
  have hh := (h.granted t hgt).1
  have hg (u : τ) : ¬Granted (r.erase t) code u := fun hg => by
    obtain ⟨hne, hu⟩ := hr.mem_erase_iff.1 hg.1
    have := (h.granted u ⟨hu, hg.2⟩).1
    rw [hh] at this
    exact hne (some.inj this).symm
  refine ⟨h.depth, ?_, h.free, h.wait, fun u hu => (hg u hu).elim, fun u => ?_, h.other⟩
  · have := h.value
    rw [((perm_cons_erase ht).filter _).length_eq, filter_cons, if_neg (by simp [ho])] at this
    exact this
  · have hu := h.net u
    simp only [hg u, if_false]
    by_cases hut : u = t
    · subst hut
      simp only [hgt, if_true, update_self] at hu ⊢
      rw [← hu, Int.add_zero]
    · have hgu : ¬Granted r code u := fun hgu => by
        have := (h.granted u hgu).1
        rw [hh] at this
        exact hut (some.inj this).symm
      simp only [hgu, if_false] at hu
      rw [update_of_ne hut, hu]

theorem restored (h : Held b r code net) (hr : r.Nodup) (ht : t ∈ r) (ho : code t ≠ TTOS_OK) :
    Held { b with semaControlValue := b.semaControlValue + 1 } (r.erase t) code net := by
  have hgr (u : τ) : Granted (r.erase t) code u ↔ Granted r code u := by
    constructor
    · exact fun hg => ⟨mem_of_mem_erase hg.1, hg.2⟩
    · rintro ⟨hu, hcu⟩
      exact ⟨hr.mem_erase_iff.2 ⟨fun e => ho (e ▸ hcu), hu⟩, hcu⟩
  refine ⟨h.depth, ?_, h.free, h.wait, fun u hu => h.granted u ((hgr u).1 hu), fun u => ?_, h.other⟩
  · have := h.value
    rw [((perm_cons_erase ht).filter _).length_eq, filter_cons,
      if_pos (by simpa using ho), length_cons] at this
    simp only at this ⊢
    omega
  · simp only [hgr]
    exact h.net u

end Held

/-! ## What the functions do to a mutex -/

/-- A mutex gets another holder, or none, and the task perhaps another priority. -/
theorem setHolder_spec (ht : NotQueued s t) {b : SemaControlBlock τ}
    (hb : b.waitQueue = (s.sema m).waitQueue) {c : Tcb}
    (hc : c.returnCode = (s.tcb t).returnCode) {s1 : State σ τ} {p : ℕ}
    (h1 : s1 = taskChangePriority t p ((s.setSema m b).setTcb t c) ∨
      s1 = (s.setSema m b).setTcb t c) : s1.sema = update s.sema m b ∧ s1.resuming = s.resuming ∧
      ∀ u, (s1.tcb u).returnCode = (s.tcb u).returnCode := by
  have hcode (u : τ) : (((s.setSema m b).setTcb t c).tcb u).returnCode = (s.tcb u).returnCode :=
    update_proj Tcb.returnCode hc u
  rcases h1 with rfl | rfl
  · have ht1 : NotQueued ((s.setSema m b).setTcb t c) t := notQueued_setSema hb ht
    refine ⟨funext fun k => taskChangePriority_sema_of_not fun h => ht1 k h.1, rfl, fun u => ?_⟩
    exact (update_proj Tcb.returnCode (by rfl) u).trans (hcode u)
  · exact ⟨rfl, rfl, hcode⟩

theorem own_spec (ht : NotQueued s t) (m : σ) :
    (own t m s).sema = update s.sema m { s.sema m with nestCount := 1, semHolder := some t } ∧
      (own t m s).resuming = s.resuming ∧
      ∀ u, ((own t m s).tcb u).returnCode = (s.tcb u).returnCode := by
  simp only [own]
  split_ifs
  · exact setHolder_spec ht (by rfl) (by rfl) (.inl rfl)
  · exact setHolder_spec ht (by rfl) (by rfl) (p := 0) (.inr rfl)

theorem disown_spec (ht : NotQueued s t) (m : σ) :
    (disown t m s).sema = update s.sema m { s.sema m with nestCount := 0, semHolder := none } ∧
      (disown t m s).resuming = s.resuming ∧
      ∀ u, ((disown t m s).tcb u).returnCode = (s.tcb u).returnCode := by
  simp only [disown]
  split_ifs
  · exact setHolder_spec ht (by rfl) (by rfl) (.inl rfl)
  · exact setHolder_spec ht (by rfl) (by rfl) (p := 0) (.inr rfl)

variable {i p : Bool}

theorem wait_spec (t : τ) (m : σ) (ticks : ℕ) (s : State σ τ) (hip : (i && p) = false) :
    (∃ q, q.Perm (t :: (s.sema m).waitQueue) ∧
      (wait t m ticks i p s).sema m = { s.sema m with waitQueue := q }) ∧
    (wait t m ticks i p s).resuming = s.resuming ∧
    ((wait t m ticks i p s).tcb t).returnCode = TTOS_OK ∧
    ∀ u, u ≠ t → ((wait t m ticks i p s).tcb u).returnCode = (s.tcb u).returnCode := by
  simp only [wait, hip, Bool.false_eq_true, if_false]
  refine ⟨⟨_, ?_, update_self _ _ _⟩, rfl, ?_, fun u hu => ?_⟩
  · exact enqueue_perm (s.sema m) _ t
  · simp [ttosEnqueueTaskq, setSema, setTcb]
  · simp [ttosEnqueueTaskq, setSema, setTcb, hu]

omit [DecidableEq σ] in
theorem inheritPriority_some (hh : (s.sema m).semHolder = some h) :
    ∃ s1, inheritPriority t m s = some s1 ∧
      (s1 = s ∨ (s.sema m).isInherit = true ∧ s.prio t < s.prio h ∧
        s1 = taskChangePriority h (s.prio t) s) ∧
      ((s.sema m).isInherit = true → s1.prio h ≤ s.prio t) := by
  by_cases hi : (s.sema m).isInherit = true
  · simp only [inheritPriority, hi, hh, if_true]
    by_cases hp : s.prio h > s.prio t
    · refine ⟨_, rfl, .inr ⟨trivial, hp, if_pos hp⟩, fun _ => ?_⟩
      rw [if_pos hp, prio_taskChangePriority, update_self]
    · refine ⟨_, rfl, .inl (if_neg hp), fun _ => ?_⟩
      rw [if_neg hp]
      exact Nat.le_of_not_lt hp
  · exact ⟨s, if_neg hi, .inl rfl, fun h => (hi h).elim⟩

/-! ## Steps -/

/-- **What a run keeps.** -/
structure Sound (w : World σ τ) : Prop where
  apart : Apart w.st
  ranked : Ranked w.st
  held : ∀ m, (w.st.sema m).isMutex = true → w.Held m
  low : ∀ m, (w.st.sema m).isMutex = true → -2 ^ 31 ≤ (w.st.sema m).semaControlValue

theorem Held.value_le {b : SemaControlBlock τ} {r : List τ} {code : τ → ReturnCode} {net : τ → ℤ}
    (hb : Held b r code net) (hh : b.semHolder = some h) : b.semaControlValue ≤ 0 := by
  have h0 : b.nestCount ≠ 0 := fun h0 => by
    have := hb.depth.1 h0
    rw [hh] at this
    cases this
  have := hb.value
  omega

omit [DecidableEq σ] in
/-- That of one that is free is 1, when nobody has debts. -/
theorem World.Held.value_free (hb : w.Held m) (hh : (w.st.sema m).semHolder = none)
    (hd : w.st.withdrawn m = 0) : (w.st.sema m).semaControlValue = 1 := by
  have hv := value hb
  rw [free hb hh, (depth hb).2 hh] at hv
  have hd' : ((w.st.resuming m).filter fun t => (w.st.tcb t).returnCode ≠ TTOS_OK).length = 0 := hd
  rw [hd'] at hv
  simpa using hv

/-- The ways through a call for a mutex. -/
inductive Obtain (t : τ) (m : σ) (ticks : ℕ) (i p : Bool) (s : State σ τ) :
    Option ReturnCode → State σ τ → Prop
  | refused : Obtain t m ticks i p s (some TTOS_UNSATISFIED) s
  | first (hl : -2 ^ 31 < (s.sema m).semaControlValue) (hh : (s.sema m).semHolder = none) :
    Obtain t m ticks i p s (some TTOS_OK) (own t m (countDown m s))
  | nested (hl : -2 ^ 31 < (s.sema m).semaControlValue) (hh : (s.sema m).semHolder = some t) :
    Obtain t m ticks i p s (some TTOS_OK) ((countDown m s).setSema m
      { (countDown m s).sema m with nestCount := ((countDown m s).sema m).nestCount + 1 })
  | waits (hl : -2 ^ 31 < (s.sema m).semaControlValue) (h : τ)
    (hh : (s.sema m).semHolder = some h) (hne : h ≠ t)
    (hm : MayWait s t h m ticks i p) (s₁ : State σ τ)
    (h₁ : inheritPriority t m (countDown m s) = some s₁) :
    Obtain t m ticks i p s none (wait t m ticks i p s₁)

variable {ticks : ℕ}

theorem obtain_cases (hb : w.Held m) (hm : (w.st.sema m).isMutex = true) {code : Option ReturnCode}
    (hok : ¬((w.st.sema m).isPriorityCeiling = true ∧ (w.st.sema m).priorityCeiling > w.st.prio t) →
      -2 ^ 31 < (w.st.sema m).semaControlValue ∧
      ((w.st.sema m).semHolder = none → w.st.withdrawn m = 0) ∧
      ∀ h, (w.st.sema m).semHolder = some h → h ≠ t → MayWait w.st t h m ticks i p)
    (ho : obtainSema t m ticks i p w.st = some (code, s')) : Obtain t m ticks i p w.st code s' := by
  have hm1 : ((countDown m w.st).sema m).isMutex = true := by
    simpa [countDown, setSema, isMutex] using hm
  have hh1 : ((countDown m w.st).sema m).semHolder = (w.st.sema m).semHolder := by
    simp [countDown, setSema]
  unfold obtainSema at ho
  by_cases hceil : (w.st.sema m).isPriorityCeiling = true ∧
      (w.st.sema m).priorityCeiling > w.st.prio t
  · rw [if_pos hceil] at ho
    cases ho
    exact .refused
  · rw [if_neg hceil] at ho
    obtain ⟨hl, hfree, hwait⟩ := hok hceil
    rcases hh : (w.st.sema m).semHolder with _ | g
    · have hv := hb.value_free hh (hfree hh)
      rw [if_pos (by omega), take, if_pos hm1] at ho
      cases ho
      exact .first hl hh
    · have hv := value_le hb hh
      rw [if_neg (by omega), obtainLate, hh1, hh] at ho
      by_cases hgt : g = t
      · subst hgt
        rw [if_pos ⟨hm1, rfl⟩] at ho
        cases ho
        exact .nested hl hh
      · have hmay := hwait g hh hgt
        rw [if_neg (by simp [hgt]), if_neg hmay.1] at ho
        obtain ⟨s1, h1, ho⟩ := map_eq_some_iff.1 ho
        cases ho
        exact .waits hl g hh hgt hmay s1 h1

open Held

theorem Obtain.held (hb : w.Held m) (ht : w.st.Running t) {isISR : Bool} {code : Option ReturnCode}
    (h : Obtain t m ticks i p w.st code s') :
    ((Op.obtain isISR t (some m) ticks i p).after w s' code).Held m ∧
      (-2 ^ 31 ≤ (w.st.sema m).semaControlValue → -2 ^ 31 ≤ (s'.sema m).semaControlValue) := by
  have htr : t ∉ w.st.resuming m := fun h => ht m (mem_append_right _ h)
  have hnet (d : ℤ) : w.addNet m t d m = update (w.net m) t (w.net m t + d) := update_self _ _ _
  cases h with
  | refused => exact ⟨hb, id⟩
  | first hl hh =>
    have htq : NotQueued (countDown m w.st) t := notQueued_setSema rfl ht.notQueued
    obtain ⟨hsema, hres, hcode⟩ := own_spec htq m
    have hm : (own t m (countDown m w.st)).sema m =
        { w.st.sema m with
          semaControlValue := (w.st.sema m).semaControlValue - 1
          nestCount := 1
          semHolder := some t } := by
      rw [hsema, update_self]
      simp [countDown, setSema]
    refine ⟨?_, fun _ => by rw [hm]; exact Int.le_sub_one_of_lt hl⟩
    simp only [Op.after, World.granted, World.Held, hm, hres, hcode, hnet]
    exact recount hb (fun u hu => by simp [hh] at hu) htr rfl
      (by simp [(depth hb).2 hh]) rfl (by simp)
  | nested hl hh =>
    have hm : ((countDown m w.st).setSema m { (countDown m w.st).sema m with
          nestCount := ((countDown m w.st).sema m).nestCount + 1 }).sema m =
        { w.st.sema m with
          semaControlValue := (w.st.sema m).semaControlValue - 1
          nestCount := (w.st.sema m).nestCount + 1 } := by
      simp [countDown, setSema]
    refine ⟨?_, fun _ => by rw [hm]; exact Int.le_sub_one_of_lt hl⟩
    simp only [Op.after, World.granted, World.Held, hm, hnet]
    exact recount hb (fun u hu => some.inj (hu.symm.trans hh)) htr rfl rfl (by simp [hh]) (by simp)
  | waits hl g hh hne hmay s1 h1 =>
    obtain ⟨⟨q, hq, hm⟩, hres, hok, hcode⟩ := wait_spec t m ticks s1 hmay.2.1
    have hk := Kept.inheritPriority (m := m) h1
    obtain ⟨q1, hq1, -, hm1⟩ := hk.sema
    have hm' : (wait t m ticks i p s1).sema m =
        { w.st.sema m with
          semaControlValue := (w.st.sema m).semaControlValue - 1
          waitQueue := q } := by
      rw [hm, hm1]
      simp [countDown, setSema]
    have hperm : q.Perm (t :: (w.st.sema m).waitQueue) := by
      rw [hm1] at hq
      refine hq.trans (hq1.cons t |>.trans ?_)
      simp [countDown, setSema]
    refine ⟨?_, fun _ => by rw [hm']; exact Int.le_sub_one_of_lt hl⟩
    simp only [Op.after, World.Held, hm', hres, hk.resuming]
    refine queued hb hh hne (ht m) hperm hok fun u hu => ?_
    have hut : u ≠ t := fun e => ht m (e ▸ hu)
    rw [hcode u hut]
    exact hk.code u (((inside_countDown m w.st) m).mem_iff.2 hu)

theorem Obtain.ranked (hw : Sound w) (hm : (w.st.sema m).isMutex = true) (ht : w.st.Running t)
    {code : Option ReturnCode} (h : Obtain t m ticks i p w.st code s') : Ranked s' := by
  have h1 : Ranked (countDown m w.st) := hw.ranked.setSema rfl (refl _) rfl
  have hs1 : Apart (countDown m w.st) := hw.apart.same (inside_countDown m w.st)
  cases h with
  | refused => exact hw.ranked
  | first hl hh =>
    refine h1.own hs1 ?_ ?_ (fun u hu => ?_) (notQueued_setSema rfl ht.notQueued)
    · simpa [countDown, setSema, isMutex] using hm
    · simpa [countDown, setSema] using hh
    · have hq := free (hw.held m hm) hh
      simp [countDown, setSema, hq] at hu
  | nested hl hh => exact h1.setSema rfl (refl _) rfl
  | waits hl g hh hne hmay s1 hinh =>
    have hsame (k : σ) : ((countDown m w.st).sema k).waitQueue = (w.st.sema k).waitQueue ∧
        ((countDown m w.st).sema k).semHolder = (w.st.sema k).semHolder ∧
        ((countDown m w.st).sema k).isInherit = (w.st.sema k).isInherit :=
      ⟨update_proj waitQueue (by rfl) k, update_proj semHolder (by rfl) k,
        update_proj isInherit (by rfl) k⟩
    have hh1 : ((countDown m w.st).sema m).semHolder = some g := (hsame m).2.1.trans hh
    obtain ⟨s2, hs2, hcase, hle⟩ := inheritPriority_some hh1
    obtain rfl : s1 = s2 := some.inj (hinh.symm.trans hs2)
    have hprio : s1.prio t = w.st.prio t := by
      rcases hcase with rfl | ⟨-, -, rfl⟩
      · rfl
      · rw [prio_taskChangePriority, update_of_ne (Ne.symm hne)]
        rfl
    have hk := Kept.inheritPriority (m := m) hinh
    obtain ⟨q, -, -, hm1⟩ := hk.sema
    have hr1 : Ranked s1 := by
      rcases hcase with rfl | ⟨hin, hlt, rfl⟩
      · exact h1
      · -- the holder becomes as urgent as the caller
        refine h1.taskChangePriority hs1 fun k g' hk hg' u hu => ?_
        have hk' := (hsame k).2.2.symm.trans hk
        have hg'' := (hsame k).2.1.symm.trans hg'
        rw [(hsame k).1] at hu
        have hmut : (w.st.sema k).isMutex = true := by
          simp only [isInherit, decide_eq_true_eq] at hk'
          simp [isMutex, hk']
        have hother := other (hw.held k hmut) g' hg''
        by_cases hug : u = g
        · subst hug
          have hne' : g' ≠ u := fun e => hother (e ▸ hu)
          rw [update_self, update_of_ne hne']
          exact hmay.2.2 ((hsame m).2.2.symm.trans hin) hlt k g' hk' hg'' hu
        · rw [update_of_ne hug]
          have hrank := hw.ranked.inherit k g' hk' hg'' u hu
          by_cases hgg : g' = g
          · subst hgg
            rw [update_self]
            exact hlt.le.trans hrank
          · rw [update_of_ne hgg]
            exact hrank
    refine hr1.wait fun g' hin hg' => ?_
    rw [hm1] at hin hg'
    obtain rfl : g = g' := some.inj (hh1.symm.trans hg')
    rw [hprio]
    exact hle hin

/-! ## A release -/

/-- The ways through the release of a mutex. -/
inductive Release (t : τ) (m : σ) (s : State σ τ) : ReturnCode → State σ τ → Prop
  | refused (code : ReturnCode) (hc : code ≠ TTOS_OK) : Release t m s code s
  | nested (hh : (s.sema m).semHolder = some t) (hd : (s.sema m).nestCount - 1 ≠ 0) :
    Release t m s TTOS_OK (s.setSema m
      { s.sema m with
        nestCount := (s.sema m).nestCount - 1
        semaControlValue := (s.sema m).semaControlValue + 1 })
  | last (hh : (s.sema m).semHolder = some t) (hd : (s.sema m).nestCount = 1) :
    Release t m s TTOS_OK (handOver m (disown t m s)).2

theorem release_cases (t : τ) (isISR : Bool) (hb : w.Held m) (hm : (w.st.sema m).isMutex = true)
    (hok : isISR = false → (w.st.sema m).semHolder = none → w.st.withdrawn m = 0) :
    Release t m w.st (TTOS_ReleaseSemaReturnTask isISR (some t) (some m) w.st).1
      (TTOS_ReleaseSemaReturnTask isISR (some t) (some m) w.st).2.2 := by
  simp only [TTOS_ReleaseSemaReturnTask, if_pos hm]
  by_cases hi : isISR = true
  · rw [if_pos hi]
    exact .refused _ (by simp)
  · rw [if_neg hi]
    rcases hh : (w.st.sema m).semHolder with _ | g
    · have hv := hb.value_free hh (hok (by simpa using hi) hh)
      rw [releaseMutex, if_pos (by omega)]
      exact .refused _ (by simp)
    · have hv := value_le hb hh
      have hd0 : (w.st.sema m).nestCount ≠ 0 := fun h0 => by
        have := (depth hb).1 h0
        rw [hh] at this
        cases this
      have had : adopt t m w.st = w.st := if_neg hd0
      have hr : releaseMutex t m w.st =
          if (w.st.sema m).semHolder ≠ some t then (some TTOS_NOT_OWNER_OF_RESOURCE, w.st)
          else if (w.st.sema m).nestCount - 1 ≠ 0 then
            (some TTOS_OK, w.st.setSema m
              { w.st.sema m with
                nestCount := (w.st.sema m).nestCount - 1
                semaControlValue := (w.st.sema m).semaControlValue + 1 })
          else (none, disown t m w.st) := by
        rw [releaseMutex, if_neg (by omega)]
        simp only [had]
      rw [hr]
      by_cases hgt : g = t
      · subst hgt
        rw [if_neg (not_not.2 hh)]
        by_cases hd : (w.st.sema m).nestCount - 1 ≠ 0
        · rw [if_pos hd]
          exact .nested hh hd
        · rw [if_neg hd]
          exact .last hh (by omega)
      · rw [if_pos (by simpa [hh] using hgt)]
        exact .refused _ (by simp)

theorem notQueued_leave (hs : Apart s) (hu : u ∈ (s.sema m).waitQueue) :
    NotQueued (leave u m s) u := fun k hk => by
  by_cases hkm : k = m
  · subst hkm
    simp only [leave, setSema, update_self] at hk
    exact (nodup_append.1 (hs.nodup k)).1.not_mem_erase hk
  · simp only [leave, setSema, update_of_ne hkm] at hk
    exact hkm (hs.one u k m (mem_append_left _ hk) (mem_append_left _ hu))

/-- The mutex, when its holder has given it up. -/
theorem disown_self (hb : w.Held m) (ht : w.st.Running t) (hh : (w.st.sema m).semHolder = some t) :
    (disown t m w.st).sema m = { w.st.sema m with nestCount := 0, semHolder := none } ∧
      ((disown t m w.st).sema m).semaControlValue < INT_MAX := by
  have hself := congrFun (disown_spec ht.notQueued m).1 m
  rw [update_self] at hself
  rw [hself]
  exact ⟨rfl, (value_le hb hh).trans_lt (by decide)⟩

theorem Release.held (hs : Apart w.st) (hb : w.Held m) (hm : (w.st.sema m).isMutex = true)
    (ht : w.st.Running t) {isISR : Bool} {code : ReturnCode} (h : Release t m w.st code s') :
    ((Op.release isISR (some t) (some m)).after w s' (some code)).Held m ∧
      (w.st.sema m).semaControlValue ≤ (s'.sema m).semaControlValue := by
  have htr : t ∉ w.st.resuming m := fun h => ht m (mem_append_right _ h)
  have hnet (d : ℤ) : w.addNet m t d m = update (w.net m) t (w.net m t + d) := update_self _ _ _
  cases h with
  | refused code hc =>
    have : (Op.release isISR (some t) (some m)).after w w.st (some code) = w := by
      cases code <;> simp_all [Op.after]
    rw [this]
    exact ⟨hb, le_rfl⟩
  | nested hh hd =>
    constructor
    · simp only [Op.after, World.returned, World.Held, setSema, update_self, hnet]
      exact recount hb (fun u hu => some.inj (hu.symm.trans hh)) htr (by omega) (by omega)
        (by simp [hh, hd]) fun h => (hd h).elim
    · simp [setSema]
  | last hh hd =>
    obtain ⟨-, hres, hcode⟩ := disown_spec ht.notQueued m
    obtain ⟨hself, hv⟩ := disown_self hb ht hh
    rcases hq : (w.st.sema m).waitQueue with _ | ⟨u, q⟩
    · rw [handOver_nil hv (by rw [hself]; exact hq)]
      have hm' : (countUp m (disown t m w.st)).sema m =
          { w.st.sema m with
            nestCount := 0
            semHolder := none
            semaControlValue := (w.st.sema m).semaControlValue + 1 } := by
        simp [countUp, setSema, hself]
      refine ⟨?_, by rw [hm']; exact Int.le_add_one le_rfl⟩
      simp only [Op.after, World.returned, World.Held, hm', hnet]
      simp only [countUp, setSema, hres, hcode]
      exact recount hb (fun u hu => some.inj (hu.symm.trans hh)) htr (by omega)
        (by simp [hd]) rfl fun _ => hq
    · have hq' : ((disown t m w.st).sema m).waitQueue = u :: q := by
        rw [hself]
        exact hq
      have hmut : ((disown t m w.st).sema m).isMutex = true := by
        rw [hself]
        exact hm
      rw [handOver_cons hv hq', if_pos hmut]
      have hs1 : Apart (countUp m (disown t m w.st)) :=
        (hs.same (edits_disown t m w.st).inside).same (inside_setSema rfl)
      have hu1 : u ∈ ((countUp m (disown t m w.st)).sema m).waitQueue := by
        simp [countUp, setSema, hq']
      obtain ⟨hsema2, hres2, hcode2⟩ := own_spec (notQueued_leave hs1 hu1) m
      have hm' : (own u m (leave u m (countUp m (disown t m w.st)))).sema m =
          { w.st.sema m with
            semHolder := some u
            semaControlValue := (w.st.sema m).semaControlValue + 1
            waitQueue := q } := by
        rw [hsema2, update_self]
        simp [leave, countUp, setSema, hself, hq, hd]
      refine ⟨?_, by rw [hm']; exact Int.le_add_one le_rfl⟩
      simp only [Op.after, World.returned, World.Held, hm', hnet, hres2, hcode2]
      simp only [leave, countUp, setSema, update_self, hres, hcode]
      exact handed hb hh hd hq (hs.nodup m) (ht m)

theorem Release.ranked (hw : Sound w) (hm : (w.st.sema m).isMutex = true) (ht : w.st.Running t)
    {code : ReturnCode} (h : Release t m w.st code s') : Ranked s' := by
  cases h with
  | refused code hc => exact hw.ranked
  | nested hh hd => exact hw.ranked.setSema rfl (refl _) rfl
  | last hh hd =>
    have h1 := hw.ranked.disown hw.apart hm hh ht.notQueued
    obtain ⟨hself, hv⟩ := disown_self (hw.held m hm) ht hh
    have h2 : Ranked (countUp m (disown t m w.st)) := h1.setSema rfl (refl _) rfl
    rcases hq : ((disown t m w.st).sema m).waitQueue with _ | ⟨u, q⟩
    · rw [handOver_nil hv hq]
      exact h2
    · have hmut : ((disown t m w.st).sema m).isMutex = true := by
        rw [hself]
        exact hm
      rw [handOver_cons hv hq, if_pos hmut]
      have hs1 : Apart (countUp m (disown t m w.st)) :=
        (hw.apart.same (edits_disown t m w.st).inside).same (inside_setSema rfl)
      have hu1 : u ∈ ((countUp m (disown t m w.st)).sema m).waitQueue := by
        simp [countUp, setSema, hq]
      refine (h2.leave u m).own (hs1.same (inside_leave hu1)) ?_ ?_ ?_ (notQueued_leave hs1 hu1)
      · simpa [leave, countUp, setSema, isMutex] using hmut
      · simp [leave, countUp, setSema, hself]
      · -- the first of the queue is the most urgent of those that wait
        intro v hvq
        have hsorted := h1.sorted m hmut
        rw [hq, pairwise_cons] at hsorted
        refine hsorted.1 v ?_
        simpa [leave, countUp, setSema, hq] using hvq

/-! ## Runs -/

theorem World.Held.interrupt (hs : Apart w.st) (hb : w.Held m) (ht : t ∈ (w.st.sema m).waitQueue)
    {code : ReturnCode} (hc : code ≠ TTOS_OK) (hw : w'.st = interrupt code t m w.st)
    (hn : w'.net = w.net) : w'.Held m := by
  simp only [World.Held, hw, hn, Sema.interrupt, leave, setSema, setTcb, update_self]
  refine ended hb ht (hs.nodup m) (by simpa using hc) fun u hu => ?_
  rw [update_of_ne hu]

theorem World.Held.resume (hs : Apart w.st) (hb : w.Held m) (ht : t ∈ w.st.resuming m) :
    ((Op.resume t m).after w (resume t m w.st).2 (some (resume t m w.st).1)).Held m := by
  have hr : (w.st.resuming m).Nodup := (nodup_append.1 (hs.nodup m)).2.1
  have hnet (d : ℤ) : w.addNet m t d m = update (w.net m) t (w.net m t + d) := update_self _ _ _
  by_cases hok : (w.st.tcb t).returnCode = TTOS_OK
  · simp only [Sema.resume, hok, if_true, Op.after, World.granted, World.Held, update_self, hnet]
    exact resumed hb hr ht hok
  · have ha : (Op.resume t m).after w (Sema.resume t m w.st).2 (some (Sema.resume t m w.st).1) =
        { w with st := (Sema.resume t m w.st).2 } := by
      simp [Sema.resume, hok, Op.after]
    rw [ha]
    simp only [World.Held, Sema.resume, if_neg hok, setSema, update_self]
    exact restored hb hr ht hok

theorem Edits.isMutex (h : Edits m s s') : (s'.sema m).isMutex = (s.sema m).isMutex := by
  unfold SemaControlBlock.isMutex
  rw [h.attributeSet m]

theorem isMutex_obtain {code : Option ReturnCode}
    (ho : obtainSema t m ticks i p s = some (code, s')) :
    (s'.sema m).isMutex = (s.sema m).isMutex := by
  rcases edits_obtain ho with h | ⟨s1, h, rfl⟩
  · exact h.isMutex
  · rw [← h.isMutex]
    simp only [wait]
    split_ifs
    · rfl
    · simp [ttosEnqueueTaskq, setSema, setTcb, isMutex]

/-- A step for the semaphore, with what is to be shown of it. -/
theorem Sound.target {op : Op σ τ} {code : Option ReturnCode} (hw : Sound w)
    (hp : op.Possible w.st) (ht : op.target = some m) (hrun : op.run w.st = some (code, s'))
    (hr : Ranked s')
    (hh : (s'.sema m).isMutex = true → (op.after w s' code).Held m ∧
      -2 ^ 31 ≤ (s'.sema m).semaControlValue) :
    Sound (op.after w s' code) := by
  have hstep : Step (fun _ _ => True) w (op.after w s' code) := .op w op code s' hp trivial hrun
  refine ⟨hw.apart.step hstep, ?_, fun k hk => ?_, fun k hk => ?_⟩
  · rw [Op.after_st]
    exact hr
  · rw [Op.after_st] at hk
    by_cases hkm : k = m
    · subst hkm
      exact (hh hk).1
    · have hkt : op.target ≠ some k := fun e => hkm (some.inj (e.symm.trans ht))
      have hkept := Kept.run hw.apart hp hkt hrun
      obtain ⟨q, -, -, he⟩ := hkept.sema
      rw [he] at hk
      refine (hw.held k hk).kept ?_ (Op.after_of_target_ne hkt w s' code).2.2
      rw [Op.after_st]
      exact hkept
  · rw [Op.after_st] at hk ⊢
    by_cases hkm : k = m
    · subst hkm
      exact (hh hk).2
    · have hkt : op.target ≠ some k := fun e => hkm (some.inj (e.symm.trans ht))
      obtain ⟨q, -, -, he⟩ := (Kept.run hw.apart hp hkt hrun).sema
      rw [he] at hk ⊢
      exact hw.low k hk

/-- **Every step keeps the mutexes sound.** -/
theorem Sound.step (hw : Sound w) (h : Step (fun s op => op.Orderly s) w w') : Sound w' := by
  obtain ⟨op, code, s', hp, hok, hrun⟩ := h
  cases op with
  | obtain isISR t semaID ticks i p =>
    have hrun' := hrun
    simp only [Op.run, TTOS_ObtainSemaWithInterruptFlags] at hrun
    rcases semaID with _ | m
    · split_ifs at hrun <;> (cases hrun; exact hw)
    · split_ifs at hrun with hi hidle
      · cases hrun
        exact hw
      · cases hrun
        exact hw
      · have ht := hp.resolve_left hi
        rcases hm : (w.st.sema m).isMutex with _ | _
        · refine hw.target hp rfl hrun' (hw.ranked.obtain_counting hm hrun) fun hm' => ?_
          rw [isMutex_obtain hrun, hm] at hm'
          cases hm'
        · have hcase := obtain_cases (hw.held m hm) hm
            (hok (by simpa using hi) (by simpa using hidle) m rfl hm) hrun
          exact hw.target hp rfl hrun' (hcase.ranked hw hm ht) fun _ =>
            (hcase.held (hw.held m hm) ht).imp_right fun hl => hl (hw.low m hm)
  | release isISR e semaID =>
    rcases e with _ | t
    · cases hrun
      exact hw
    · rcases semaID with _ | m
      · cases hrun
        exact hw
      · have hrun' := hrun
        rcases hm : (w.st.sema m).isMutex with _ | _
        · simp only [Op.run, TTOS_ReleaseSemaReturnTask, hm] at hrun
          cases hrun
          refine hw.target hp rfl hrun' (hw.ranked.handOver_counting hm) fun hm' => ?_
          exact absurd ((edits_handOver m w.st).isMutex.symm.trans hm') (by simp [hm])
        · by_cases hi : isISR = true
          · simp only [Op.run, TTOS_ReleaseSemaReturnTask, hm, hi, if_true] at hrun
            cases hrun
            exact hw
          · have ht := hp.resolve_left hi t rfl
            cases hrun
            have hcase := release_cases t isISR (hw.held m hm) hm fun h0 => hok h0 m rfl hm
            exact hw.target hp rfl hrun' (hcase.ranked hw hm ht) fun _ =>
              (hcase.held hw.apart (hw.held m hm) hm ht).imp_right (hw.low m hm).trans
  | expire t m | signal t m kill =>
    have hrun' := hrun
    cases hrun
    refine hw.target hp rfl hrun' (hw.ranked.interrupt _ t m) fun hm => ?_
    replace hm : (w.st.sema m).isMutex = true := by
      simpa [interrupt, leave, setSema, setTcb, isMutex] using hm
    refine ⟨World.Held.interrupt hw.apart (hw.held m hm) hp.1 (by simp) rfl rfl, ?_⟩
    simpa [interrupt, leave, setSema, setTcb] using hw.low m hm
  | resume t m =>
    have hrun' := hrun
    cases hrun
    refine hw.target hp rfl hrun' (hw.ranked.resume t m) fun hm => ?_
    replace hm : (w.st.sema m).isMutex = true := by
      simp only [resume] at hm
      split_ifs at hm
      · exact hm
      · simpa [setSema, isMutex] using hm
    refine ⟨World.Held.resume hw.apart (hw.held m hm) hp, (hw.low m hm).trans ?_⟩
    simp only [resume]
    split_ifs
    · rfl
    · simp [setSema]

/-- Mutexes that have been created with the value 1. -/
structure Created (w : World σ τ) : Prop where
  apart : Apart w.st
  mutex : ∀ m, (w.st.sema m).isMutex = true → (w.st.sema m).semaControlValue = 1 ∧
    (w.st.sema m).nestCount = 0 ∧ (w.st.sema m).semHolder = none ∧ w.st.inside m = [] ∧
    ∀ t, w.net m t = 0
  resources : ∀ t, (w.st.tcb t).resourceCount = 0

omit [DecidableEq σ] in
theorem Created.sound (h : Created w) : Sound w := by
  refine ⟨h.apart, ⟨fun m hm => ?_, fun m g hm hg => ?_, fun t => ?_⟩, fun m hm => ?_, fun m hm =>
    ?_⟩
  · obtain ⟨-, -, -, hin, -⟩ := h.mutex m hm
    rw [(append_eq_nil_iff.1 hin).1]
    exact List.Pairwise.nil
  · have hmut : (w.st.sema m).isMutex = true := by
      simp only [isInherit, decide_eq_true_eq] at hm
      simp [isMutex, hm]
    rw [(h.mutex m hmut).2.2.1] at hg
    cases hg
  · refine ⟨[], ⟨nodup_nil, fun m => ?_⟩, h.resources t⟩
    constructor
    · intro hm
      cases hm
    · rintro ⟨hm, hg⟩
      rw [(h.mutex m hm).2.2.1] at hg
      cases hg
  · obtain ⟨hv, hd, hh, hin, hn⟩ := h.mutex m hm
    obtain ⟨hq, hr⟩ := append_eq_nil_iff.1 hin
    unfold World.Held
    rw [hr]
    constructor
    · simp [hd, hh]
    · simp [hv, hd, hq]
    · exact fun _ => hq
    · simp [hq]
    · simp [Granted]
    · simp [Granted, hn, hh]
    · simp [hh]
  · rw [(h.mutex m hm).1]
    decide

/-- What holds of a mutex between two steps. -/
structure MutexKept (m : σ) (w : World σ τ) : Prop where
  /-- Two tasks do not both have more calls that obtained it than calls that released it. -/
  one : ∀ t u, 0 < w.net m t → 0 < w.net m u → t = u
  held : 0 < (w.st.sema m).nestCount ↔ ∃ t, (w.st.sema m).semHolder = some t
  /-- The depth is the excess of the holder, and no other task has one; the call of a task that
  the mutex was handed to has obtained it before it returns. -/
  holder : ∀ t, w.net m t +
      (if Granted (w.st.resuming m) (fun t => (w.st.tcb t).returnCode) t then 1 else 0) =
    if (w.st.sema m).semHolder = some t then ((w.st.sema m).nestCount : ℤ) else 0
  /-- A call for a mutex that nobody holds succeeds, if it meets the condition and the ceiling
  allows it. -/
  next : (w.st.sema m).semHolder = none → (w.st.sema m).waitQueue = [] ∧
    ∀ t ticks i p, (w.st.tcb t).isIdle = false →
      ¬((w.st.sema m).isPriorityCeiling = true ∧ (w.st.sema m).priorityCeiling > w.st.prio t) →
      (Op.obtain false t (some m) ticks i p).Orderly w.st →
      ∃ s', TTOS_ObtainSemaWithInterruptFlags false t (some m) ticks i p w.st =
        some (some TTOS_OK, s')
  inherit : (w.st.sema m).isInherit = true → ∀ h, (w.st.sema m).semHolder = some h →
    ∀ u ∈ (w.st.sema m).waitQueue, w.st.prio h ≤ w.st.prio u
  /-- `semaControlValue` is a `T_WORD` and `nestCount` a `T_UWORD`. -/
  words : -2 ^ 31 ≤ (w.st.sema m).semaControlValue ∧ (w.st.sema m).semaControlValue ≤ 1 ∧
    (w.st.sema m).nestCount < 2 ^ 32

theorem Sound.mutexKept (hw : Sound w) (hm : (w.st.sema m).isMutex = true) : MutexKept m w := by
  have hb := hw.held m hm
  have hholder := net hb
  have howner (t : τ) (ht : 0 < w.net m t) : (w.st.sema m).semHolder = some t := by
    have := hholder t
    by_contra hne
    rw [if_neg hne] at this
    split_ifs at this <;> omega
  refine ⟨fun t u ht hu => ?_, ?_, hholder, fun hh => ⟨free hb hh, ?_⟩, ?_, ?_⟩
  · exact some.inj ((howner t ht).symm.trans (howner u hu))
  · rw [Nat.pos_iff_ne_zero, ne_eq, depth hb]
    exact ne_none_iff_exists'
  · intro t ticks i p hidle hceil hok
    have hv := hb.value_free hh ((hok rfl hidle m rfl hm hceil).2.1 hh)
    refine ⟨take t m (countDown m w.st), ?_⟩
    simp [TTOS_ObtainSemaWithInterruptFlags, hidle, obtainSema, if_neg hceil, hv]
  · exact fun hin h hh => hw.ranked.inherit m h hin hh
  · have hv := value hb
    have hlow := hw.low m hm
    exact ⟨hlow, by omega, by omega⟩

/-- **Mutexes keep their promise.**  In every run whose calls for mutexes meet the condition,
with any counting semaphores besides. -/
theorem mutexes_kept {w₀ : World σ τ} (h₀ : Created w₀)
    (run : ReflTransGen (Step fun s op => op.Orderly s) w₀ w) (m : σ)
    (hm : (w.st.sema m).isMutex = true) : MutexKept m w := by
  suffices h : Sound w from h.mutexKept hm
  clear hm
  induction run with
  | refl => exact h₀.sound
  | tail _ hs ih => exact ih.step hs

/-- Two mutexes of one kind, and three tasks of the priorities 30, 20 and 10. -/
def threeTasks (a : MutexWait) : World Bool (Fin 3) where
  st :=
    { sema := fun _ => ⟨.mutex a, 0, 1, 0, none, []⟩
      tcb := fun t => ⟨false, 30 - 10 * t, 30 - 10 * t, 0, TTOS_OK, false, false⟩
      resuming := fun _ => [] }
  obtained := fun _ => 0
  released := fun _ => 0
  net := fun _ _ => 0

theorem threeTasks_created (a : MutexWait) : Created (threeTasks a) where
  apart := ⟨fun _ => nodup_nil, fun _ _ _ h => by cases h⟩
  mutex _ _ := ⟨rfl, rfl, rfl, rfl, fun _ => rfl⟩
  resources _ := rfl

/-- A task waits for an inherit mutex, and its holder becomes as urgent. -/
theorem mutexes_kept_inherit : ∃ w, ReflTransGen (Step fun s op => op.Orderly s)
    (threeTasks .inherit) w ∧ w.st.prio 0 = 10 ∧ (w.st.sema true).isMutex = true ∧
      MutexKept true w := by
  have h0 : ReflTransGen (Step fun s op => op.Orderly s) (threeTasks .inherit) _ := .refl
  have h1 := h0.tail (.op _ (.obtain false 0 (some true) 5 false false) _ _
    (.inr fun m => by cases m <;> decide)
    (fun _ _ m hm _ _ => by
      cases hm
      exact ⟨by decide, fun _ => rfl, fun h hh => by cases hh⟩) rfl)
  have h2 := h1.tail (.op _ (.obtain false 2 (some true) 5 false false) _ _
    (.inr fun m => by cases m <;> decide)
    (fun _ _ m hm _ _ => by
      cases hm
      refine ⟨by decide, fun hh => (by cases hh), fun h hh _ => ?_⟩
      obtain rfl : 0 = h := some.inj hh
      exact ⟨by decide, rfl, fun _ _ m' g _ _ hin => by cases m' <;> cases hin⟩) rfl)
  exact ⟨_, h2, rfl, rfl, mutexes_kept (threeTasks_created .inherit) h2 true rfl⟩

section

variable [Fintype σ]

instance (s : State σ τ) (t : τ) : Decidable (s.Running t) := inferInstanceAs (Decidable (∀ _, _))

instance (s : State σ τ) : (op : Op σ τ) → Decidable (op.Possible s)
  | .obtain isISR t _ _ _ _ => inferInstanceAs (Decidable (isISR = true ∨ s.Running t))
  | .release isISR e _ => inferInstanceAs (Decidable (isISR = true ∨ ∀ t ∈ e, s.Running t))
  | .expire t m => inferInstanceAs (Decidable (t ∈ (s.sema m).waitQueue ∧ (s.tcb t).timed = true))
  | .signal t m kill => inferInstanceAs (Decidable
      (t ∈ (s.sema m).waitQueue ∧ (kill = true ∨ (s.tcb t).interruptible = true)))
  | .resume t m => inferInstanceAs (Decidable (t ∈ s.resuming m))

/-- A step that is possible. -/
def Op.next (w : World σ τ) (op : Op σ τ) : Option (World σ τ) :=
  if op.Possible w.st then (op.run w.st).map fun r => op.after w r.2 r.1 else none

theorem exists_run (ops : List (Op σ τ)) {P : World σ τ → Prop} [DecidablePred P]
    (h : ((exec Op.next w ops).map fun w => decide (P w)) = some true) :
    ∃ w', ReflTransGen (Step fun _ _ => True) w w' ∧ P w' := by
  refine exists_exec (fun w op w' h => ?_) ops h
  unfold Op.next at h
  split_ifs at h with hp
  obtain ⟨⟨code, s'⟩, hr, rfl⟩ := map_eq_some_iff.1 h
  exact .op w op code s' hp trivial hr

end

/-- **What goes wrong.**  (1) A call that does not wait for a mutex that is held; when the mutex
has been released, the next call waits although nobody holds it, and (2) for an inherit mutex it
reads the NULL holder.  (3) A wait has expired and the task has not run since; the holder
releases the mutex, another task releases it too, and then two tasks obtain it.  (4) A task
that waits for a mutex becomes more urgent through another, and the holder stays behind. -/
theorem mutexes_break : (∃ w, ReflTransGen (Step fun _ _ => True) (threeTasks .fifo) w ∧
      (∀ t, w.net true t = 0) ∧ w.st.inside true = [] ∧
      (TTOS_ObtainSemaWithInterruptFlags false 1 (some true) 5 false false w.st).map Prod.fst =
        some none) ∧ (∃ w, ReflTransGen (Step fun _ _ => True) (threeTasks .inherit) w ∧
      (∀ t, w.net true t = 0) ∧ w.st.inside true = [] ∧
      (TTOS_ObtainSemaWithInterruptFlags false 1 (some true) 5 false false w.st).map Prod.fst =
        none) ∧ (∃ w, ReflTransGen (Step fun _ _ => True) (threeTasks .fifo) w ∧
      w.net true 0 = 1 ∧ w.net true 1 = 1) ∧
    ∃ w, ReflTransGen (Step fun _ _ => True) (threeTasks .inherit) w ∧
      (w.st.sema true).semHolder = some 0 ∧ 1 ∈ (w.st.sema true).waitQueue ∧
      w.st.prio 1 = 10 ∧ w.st.prio 0 = 20 := by
  refine ⟨?_, ?_, ?_, ?_⟩
  iterate 2
    exact exists_run [.obtain false 0 (some true) 5 false false,
      .obtain false 1 (some true) 0 false false, .release false (some 0) (some true)]
      (by decide +kernel)
  · exact exists_run [.obtain false 0 (some true) 5 false false,
      .obtain false 1 (some true) 5 false false, .expire 1 true,
      .release false (some 0) (some true), .release false (some 2) (some true), .resume 1 true,
      .obtain false 0 (some true) 5 false false, .obtain false 1 (some true) 5 false false]
      (by decide +kernel)
  · exact exists_run [.obtain false 0 (some true) 5 false false,
      .obtain false 1 (some false) 5 false false, .obtain false 1 (some true) 5 false false,
      .obtain false 2 (some false) 5 false false]
      (by decide +kernel)

end Intewell.Sema
