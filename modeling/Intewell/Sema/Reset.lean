/-
# A semaphore is reset

TTOS_ResetSema (ttosResetSema.c).  The kernel lock is held and the interrupts are off, so that the
tasks that are released do not run before the end.  **The loop ignores what TTOS_ReleaseSema
returns**: for a mutex that another task holds it does not end.  It does not end either when the
mutex has been handed to the first task that waits and one more release is to come
(`reset_returns_iff`).
-/

import Intewell.Sema.Mutex

namespace Intewell.Sema

open State SemaControlBlock Function ReturnCode

variable {σ τ : Type*} [DecidableEq σ] [DecidableEq τ]

/-! ## The level of the dispatch -/

/-- `ttosDisableTaskDispatchWithLock`, which `ttosGetObjectById` calls for an object it finds. -/
def ttosDisableTaskDispatchWithLock (w : State σ τ × ℕ) : State σ τ × ℕ := (w.1, w.2 + 1)

def ttosEnableTaskDispatchWithLock (w : State σ τ × ℕ) : State σ τ × ℕ := (w.1, w.2 - 1)

/-- With the level of the dispatch.  Without a running task the call returns before it looks for the
semaphore. -/
def TTOS_ReleaseSema (isISR : Bool) (executing : Option τ) (m : σ) (w : State σ τ × ℕ) :
    State σ τ × ℕ :=
  match executing with
  | none => w
  | some t =>
    let (s, level) := ttosDisableTaskDispatchWithLock w
    if (s.sema m).isMutex then
      if isISR then ttosEnableTaskDispatchWithLock (s, level)
      else
        match releaseMutex t m s with
        | (some _, s) => ttosEnableTaskDispatchWithLock (s, level)
        | (none, s) => ttosEnableTaskDispatchWithLock ((handOver m s).2, level)
    else ttosEnableTaskDispatchWithLock ((handOver m s).2, level)

/-- `while (sema->semaControlValue < count)`. -/
def resetLoop (isISR : Bool) (executing : Option τ) (count : ℤ) (m : σ) :
    ℕ → State σ τ × ℕ → Option (State σ τ × ℕ)
  | 0, _ => none
  | n + 1, w =>
    if (w.1.sema m).semaControlValue < count then
      resetLoop isISR executing count m n (TTOS_ReleaseSema isISR executing m w)
    else some w

def TTOS_ResetSema (n : ℕ) (isISR : Bool) (executing : Option τ) (count : ℤ) (semaID : Option σ)
    (s : State σ τ) (level : ℕ) : Option (ReturnCode × State σ τ × ℕ) :=
  match semaID with
  | none => some (TTOS_INVALID_ID, s, level)
  | some m =>
    (resetLoop isISR executing count m n (ttosDisableTaskDispatchWithLock (s, level))).map fun w =>
      (TTOS_OK, ttosEnableTaskDispatchWithLock
        (w.1.setSema m { w.1.sema m with semaControlValue := count }, w.2))

variable {isISR : Bool} {t : τ} {m : σ} {count : ℤ} {s s' : State σ τ} {d : ℕ}

/-- The state after a release by `t`. -/
abbrev released (isISR : Bool) (t : τ) (m : σ) (s : State σ τ) : State σ τ :=
  (TTOS_ReleaseSemaReturnTask isISR (some t) (some m) s).2.2

/-- Every way through a release leaves the level as it was. -/
theorem TTOS_ReleaseSema_eq (level : ℕ) : TTOS_ReleaseSema isISR (some t) m (s, level) =
    (released isISR t m s, level) := by
  simp only [TTOS_ReleaseSema, released, TTOS_ReleaseSemaReturnTask,
    ttosDisableTaskDispatchWithLock,
    ttosEnableTaskDispatchWithLock, Nat.add_sub_cancel]
  by_cases hm : (s.sema m).isMutex = true
  · rw [if_pos hm, if_pos hm]
    split_ifs
    · rfl
    · rcases releaseMutex t m s with ⟨_ | _, _⟩ <;> rfl
  · rw [if_neg hm, if_neg hm]

/-! ## One release -/

/-- No release by `t` is refused, however many there are. -/
def Releasable (isISR : Bool) (t : τ) (b : SemaControlBlock τ) : Prop :=
  b.isMutex = false ∨ isISR = false ∧ b.waitQueue = [] ∧ (b.nestCount = 0 ∨ b.semHolder = some t)

/-- One more unit, and the first task that waits is released. -/
structure Released (m : σ) (s s' : State σ τ) : Prop where
  value : (s'.sema m).semaControlValue = (s.sema m).semaControlValue + 1
  waitQueue : (s'.sema m).waitQueue = (s.sema m).waitQueue.tail
  resuming : s'.resuming m = (s.sema m).waitQueue.head?.toList ++ s.resuming m

theorem released_handOver (hv : (s.sema m).semaControlValue < INT_MAX)
    (hm : (s.sema m).isMutex = false) : Released m s (handOver m s).2 := by
  cases hw : (s.sema m).waitQueue with
  | nil =>
    rw [handOver_nil hv hw]
    constructor <;> simp [countUp, setSema, hw]
  | cons u q =>
    rw [handOver_cons hv hw, if_neg (ne_true_of_eq_false hm)]
    constructor <;> simp [countUp, setSema, leave, hw]

/-- A mutex is given up by a task that does not wait for it. -/
theorem disown_sema (hq : t ∉ (s.sema m).waitQueue) :
    (disown t m s).sema m = { s.sema m with nestCount := 0, semHolder := none } ∧
      (disown t m s).resuming = s.resuming := by
  unfold disown
  dsimp only
  split_ifs
  · constructor
    · rw [taskChangePriority_sema_of_not] <;> simp [setTcb, setSema, hq]
    · rfl
  · simp [setTcb, setSema]

/-- The task that releases a mutex holds it, if nobody did. -/
theorem adopt_sema (hown : (s.sema m).nestCount = 0 ∨ (s.sema m).semHolder = some t) :
    (adopt t m s).sema m =
        { s.sema m with nestCount := max (s.sema m).nestCount 1, semHolder := some t } ∧
      (adopt t m s).resuming = s.resuming := by
  unfold adopt
  split_ifs with h
  · simp [setTcb, setSema, h]
  · have hmax : max (s.sema m).nestCount 1 = (s.sema m).nestCount := by omega
    rw [hmax, ← hown.resolve_left h]
    exact ⟨rfl, rfl⟩

section
variable (hm : (s.sema m).isMutex = true) (hv : (s.sema m).semaControlValue ≤ 0)
include hm hv

/-- A mutex that is held several times is held once less. -/
theorem release_nested (hd : 2 ≤ (s.sema m).nestCount) (hown : (s.sema m).semHolder = some t) :
    (released false t m s).sema m =
        { s.sema m with
          nestCount := (s.sema m).nestCount - 1
          semaControlValue := (s.sema m).semaControlValue + 1 } ∧
      (released false t m s).resuming = s.resuming := by
  have had : adopt t m s = s := if_neg (by omega)
  simp only [released, TTOS_ReleaseSemaReturnTask, hm, if_true, Bool.false_eq_true, if_false,
    releaseMutex,
    had]
  rw [if_neg (by omega), if_neg (by simp [hown]), if_pos (by omega)]
  simp [setSema]

/-- The last one: the mutex is free, or goes to the first task that waits. -/
theorem release_last (hd : (s.sema m).nestCount ≤ 1)
    (hown : (s.sema m).nestCount = 0 ∨ (s.sema m).semHolder = some t)
    (hq : t ∉ (s.sema m).waitQueue) :
    (handOver m (disown t m (adopt t m s))).2 = (released false t m s) ∧
      (disown t m (adopt t m s)).sema m =
        { s.sema m with nestCount := 0, semHolder := none } ∧
      (disown t m (adopt t m s)).resuming = s.resuming := by
  obtain ⟨hsema, hres⟩ := adopt_sema hown
  obtain ⟨hsema', hres'⟩ := disown_sema (t := t) (m := m) (s := adopt t m s) (by rwa [hsema])
  rw [hsema] at hsema'
  refine ⟨?_, hsema', hres'.trans hres⟩
  simp only [released, TTOS_ReleaseSemaReturnTask, hm, if_true, Bool.false_eq_true, if_false,
    releaseMutex]
  have hone : ((adopt t m s).sema m).nestCount = 1 := by
    rw [hsema]
    exact max_eq_right hd
  rw [if_neg (by omega), if_neg (by simp [hsema]), if_neg (by omega)]

/-- A release that is refused changes nothing. -/
theorem release_refused
    (hno : isISR = true ∨ (s.sema m).nestCount ≠ 0 ∧ (s.sema m).semHolder ≠ some t) :
    (released isISR t m s) = s := by
  simp only [released, TTOS_ReleaseSemaReturnTask, hm, if_true]
  by_cases hi : isISR = true
  · rw [if_pos hi]
  · obtain ⟨hn, hh⟩ := hno.resolve_left hi
    have had : adopt t m s = s := if_neg hn
    rw [if_neg hi, releaseMutex, if_neg (by omega)]
    simp only [had]
    rw [if_pos hh]

end

/-- A release that is not refused, and the next one is not either. -/
theorem released_release (hf : Releasable isISR t (s.sema m))
    (hv : (s.sema m).semaControlValue < count)
    (hc : count ≤ if (s.sema m).isMutex then 1 else INT_MAX) :
    Released m s (released isISR t m s) ∧
      Releasable isISR t ((released isISR t m s).sema m) := by
  by_cases hm : (s.sema m).isMutex = false
  · simp only [released, TTOS_ReleaseSemaReturnTask, hm, Bool.false_eq_true, if_false] at hc ⊢
    exact ⟨released_handOver (hv.trans_le hc) hm, .inl ((edits_handOver m s).isMutex.trans hm)⟩
  · -- for a mutex the loop runs only while the value is not positive
    obtain ⟨rfl, hq, hown⟩ := hf.resolve_left hm
    rw [Bool.not_eq_false] at hm
    rw [hm, if_pos rfl] at hc
    by_cases hd : 2 ≤ (s.sema m).nestCount
    · obtain ⟨hsema, hres⟩ := release_nested hm (by omega) hd (hown.resolve_left (by omega))
      constructor
      · constructor <;> simp [hsema, hres, hq]
      · exact .inr ⟨rfl, by simp [hsema, hq], .inr (by simp [hsema, hown.resolve_left (by omega)])⟩
    · obtain ⟨he, hsema, hres⟩ := release_last hm (by omega) (by omega) hown (by simp [hq])
      rw [← he, handOver_nil (by rw [hsema]; exact hv.trans_le (hc.trans (by decide)))
        (by rw [hsema, hq])]
      constructor
      · constructor <;> simp [countUp, setSema, hsema, hres, hq]
      · exact .inr ⟨rfl, by simp [countUp, setSema, hsema, hq],
          .inl (by simp [countUp, setSema, hsema])⟩

/-- The last release of a mutex that `u` waits for: it is the mutex of `u`. -/
theorem release_handed {u : τ} {q : List τ} (hs : Apart s) (ht : s.Running t)
    (hm : (s.sema m).isMutex = true) (hv : (s.sema m).semaControlValue ≤ 0)
    (hd : (s.sema m).nestCount ≤ 1)
    (hown : (s.sema m).nestCount = 0 ∨ (s.sema m).semHolder = some t)
    (hq : (s.sema m).waitQueue = u :: q) :
    (released false t m s).sema m =
        { s.sema m with
          nestCount := 1
          semHolder := some u
          semaControlValue := (s.sema m).semaControlValue + 1
          waitQueue := q } ∧
      (released false t m s).resuming m = u :: s.resuming m := by
  have htq : t ∉ (s.sema m).waitQueue := fun hin => ht m (List.mem_append_left _ hin)
  obtain ⟨he, hsema, hres⟩ := release_last hm hv hd hown htq
  have hmut : ((disown t m (adopt t m s)).sema m).isMutex = true := by
    rw [hsema]
    exact hm
  have hs1 : Apart (countUp m (disown t m (adopt t m s))) :=
    ((hs.same (edits_adopt t m s).inside).same (edits_disown t m _).inside).same
    (inside_setSema rfl)
  have hu : u ∈ ((countUp m (disown t m (adopt t m s))).sema m).waitQueue := by
    simp [countUp, setSema, hsema, hq]
  obtain ⟨hsema', hres', -⟩ := own_spec (notQueued_leave hs1 hu) m
  rw [← he, handOver_cons (by rw [hsema]; exact hv.trans_lt (by decide)) (by rw [hsema, hq]),
    if_pos hmut]
  constructor
  · rw [hsema', update_self]
    simp [leave, countUp, setSema, hsema, hq]
  · rw [hres']
    simp [leave, countUp, setSema, hres]

/-! ## The loop -/

theorem resetLoop_lt {n level : ℕ} (hv : (s.sema m).semaControlValue < count) :
    resetLoop isISR (some t) count m (n + 1) (s, level) = resetLoop isISR (some t) count m n
        (released isISR t m s, level) := by
  rw [← TTOS_ReleaseSema_eq]
  exact if_pos hv

theorem resetLoop_le {n level : ℕ} (hn : 0 < n) (hv : count ≤ (s.sema m).semaControlValue) :
    resetLoop isISR (some t) count m n (s, level) = some (s, level) := by
  obtain ⟨n, rfl⟩ := Nat.exists_eq_add_one_of_ne_zero hn.ne'
  exact if_neg (not_lt.2 hv)

/-- **A release that is refused is refused for ever.** -/
theorem resetLoop_refused {level : ℕ} (hm : (s.sema m).isMutex = true)
    (hv : (s.sema m).semaControlValue < count) (hc : count ≤ 1)
    (hno : isISR = true ∨ (s.sema m).nestCount ≠ 0 ∧ (s.sema m).semHolder ≠ some t) (n : ℕ) :
    resetLoop isISR (some t) count m n (s, level) = none := by
  induction n with
  | zero => rfl
  | succ n ih => rw [resetLoop_lt hv, release_refused hm (by omega) hno, ih]

/-- The loop ends after as many releases as the count is above the value. -/
theorem resetLoop_spec (level : ℕ) (hf : (s.sema m).semaControlValue < count →
      Releasable isISR t (s.sema m))
    (hc : count ≤ if (s.sema m).isMutex then 1 else INT_MAX)
    (hd : (count - (s.sema m).semaControlValue).toNat = d) :
    ∃ s', (∀ n > d, resetLoop isISR (some t) count m n (s, level) = some (s', level)) ∧
      (s'.sema m).waitQueue = (s.sema m).waitQueue.drop d ∧
      s'.resuming m = ((s.sema m).waitQueue.take d).reverse ++ s.resuming m := by
  induction d generalizing s with
  | zero => exact ⟨s, fun n hn => resetLoop_le hn (by omega), rfl, rfl⟩
  | succ d ih =>
    have hv : (s.sema m).semaControlValue < count := by omega
    obtain ⟨h, hf'⟩ := released_release (hf hv) hv hc
    obtain ⟨s', hrun, hwait, hres⟩ := ih (fun _ => hf')
      (by rwa [(edits_release isISR (some t) m s).isMutex]) (by rw [h.value]; omega)
    refine ⟨s', fun n hn => ?_, ?_, ?_⟩
    · obtain ⟨n, rfl⟩ := Nat.exists_eq_add_one_of_ne_zero (show n ≠ 0 by omega)
      rw [resetLoop_lt hv]
      exact hrun n (by omega)
    · rw [hwait, h.waitQueue, List.drop_tail]
    · rw [hres, h.waitQueue, h.resuming]
      cases (s.sema m).waitQueue <;> simp

/-- **A mutex that is waited for.**  Up to its depth the loop counts releases; with the last one the
mutex is that of the first task that waits, and any further release is refused. -/
theorem resetLoop_waited {u : τ} {q : List τ} (level : ℕ) (hs : Apart s) (ht : s.Running t)
    (hm : (s.sema m).isMutex = true) (hc : count ≤ 1)
    (hown : (s.sema m).nestCount = 0 ∨ (s.sema m).semHolder = some t)
    (hq : (s.sema m).waitQueue = u :: q) (hd : count - (s.sema m).semaControlValue = d) :
    (d < max (s.sema m).nestCount 1 → ∃ s',
      (∀ n > d, resetLoop false (some t) count m n (s, level) = some (s', level)) ∧
        (s'.sema m).waitQueue = u :: q) ∧
    (d = max (s.sema m).nestCount 1 → ∃ s',
      (∀ n > d, resetLoop false (some t) count m n (s, level) = some (s', level)) ∧
        (s'.sema m).waitQueue = q ∧ s'.resuming m = u :: s.resuming m) ∧
    (max (s.sema m).nestCount 1 < d → ∀ n,
      resetLoop false (some t) count m n (s, level) = none) := by
  induction d generalizing s with
  | zero =>
    exact ⟨fun _ => ⟨s, fun n hn => resetLoop_le hn (by omega), hq⟩, fun h => by omega,
      fun h => by omega⟩
  | succ d ih =>
    have hv : (s.sema m).semaControlValue < count := by omega
    have hmut := (edits_release false (some t) m s).isMutex.trans hm
    -- the first release, and what the others make of the state it leaves
    have hfirst {s₁ : State σ τ} {n : ℕ} (hn : n > d + 1)
        (hrun : ∀ n > d, resetLoop false (some t) count m n
          (released false t m s, level) = some (s₁, level)) :
        resetLoop false (some t) count m n (s, level) = some (s₁, level) := by
      obtain ⟨n, rfl⟩ := Nat.exists_eq_add_one_of_ne_zero (show n ≠ 0 by omega)
      rw [resetLoop_lt hv]
      exact hrun n (by omega)
    have hnone (hall : ∀ n, resetLoop false (some t) count m n
          (released false t m s, level) = none) (n : ℕ) :
        resetLoop false (some t) count m n (s, level) = none := by
      cases n with
      | zero => rfl
      | succ n => rw [resetLoop_lt hv, hall]
    by_cases hnest : 2 ≤ (s.sema m).nestCount
    · obtain ⟨hsema, hres⟩ := release_nested hm (by omega) hnest (hown.resolve_left (by omega))
      have hin := (edits_release false (some t) m s).inside
      obtain ⟨h1, h2, h3⟩ := ih (hs.same hin) (fun k hk => ht k (hin.mem_iff.1 hk)) hmut
        (.inr (by rw [hsema]; exact hown.resolve_left (by omega))) (by rw [hsema]; exact hq)
        (by rw [hsema]; push_cast at hd; dsimp only; omega)
      rw [hsema] at h1 h2 h3
      dsimp only at h1 h2 h3
      refine ⟨fun h => ?_, fun h => ?_, fun h => hnone (h3 (by omega))⟩
      · obtain ⟨s', hrun, hwait⟩ := h1 (by omega)
        exact ⟨s', fun n hn => hfirst hn hrun, hwait⟩
      · obtain ⟨s', hrun, hwait, hr⟩ := h2 (by omega)
        exact ⟨s', fun n hn => hfirst hn hrun, hwait, hr.trans (by rw [hres])⟩
    · obtain ⟨hsema, hres⟩ := release_handed hs ht hm (by omega) (by omega) hown hq
      have hu : u ≠ t := fun he => ht m (List.mem_append_left _ (by simp [hq, he]))
      refine ⟨fun h => by omega, fun h => ?_, fun h => hnone fun n => ?_⟩
      · refine ⟨_, fun n hn => hfirst hn fun k hk => resetLoop_le (by omega) ?_, ?_, hres⟩
        · rw [hsema]
          dsimp only
          omega
        · rw [hsema]
      · refine resetLoop_refused hmut ?_ hc (.inr ⟨?_, ?_⟩) n
        · rw [hsema]
          dsimp only
          omega
        · rw [hsema]
          exact one_ne_zero
        · rw [hsema]
          simpa using hu

/-! ## The call -/

/-- **What a reset is to do**: from some number of rounds on it returns, with the count, all the
tasks that waited released in their order, and the level of the dispatch as before. -/
def Resets (isISR : Bool) (t : τ) (count : ℤ) (m : σ) (s : State σ τ) (level : ℕ) : Prop :=
  ∃ s' N, (∀ n > N, TTOS_ResetSema n isISR (some t) count (some m) s level =
      some (TTOS_OK, s', level)) ∧
    (s'.sema m).semaControlValue = count ∧ (s'.sema m).waitQueue = [] ∧
    s'.resuming m = (s.sema m).waitQueue.reverse ++ s.resuming m

/-- **The condition.**  The value is not below the count and nobody waits; or it is a counting
semaphore with no more tasks waiting than the count is above the value; or a mutex, not in an
interrupt, that nobody or the caller holds, and either nobody waits for it or one task does and the
depth is as much as the count is above the value. -/
def Resettable (isISR : Bool) (t : τ) (count : ℤ) (b : SemaControlBlock τ) : Prop :=
  (count ≤ b.semaControlValue ∧ b.waitQueue = []) ∨
  (b.isMutex = false ∧ (b.waitQueue.length : ℤ) ≤ count - b.semaControlValue) ∨
  (b.isMutex = true ∧ isISR = false ∧ (b.nestCount = 0 ∨ b.semHolder = some t) ∧
    (b.waitQueue = [] ∨
      b.waitQueue.length = 1 ∧ count - b.semaControlValue = max b.nestCount 1))

theorem resets_iff {level N : ℕ}
    (hrun : ∀ n > N, resetLoop isISR (some t) count m n (s, level + 1) = some (s', level + 1)) :
    Resets isISR t count m s level ↔ (s'.sema m).waitQueue = [] ∧
      s'.resuming m = (s.sema m).waitQueue.reverse ++ s.resuming m := by
  have hreset (n : ℕ) (hn : n > N) : TTOS_ResetSema n isISR (some t) count (some m) s level =
      some (TTOS_OK, s'.setSema m { s'.sema m with semaControlValue := count }, level) :=
    congrArg (Option.map _) (hrun n hn)
  constructor
  · rintro ⟨s₁, N₁, hs₁, -, hwait, hres⟩
    have he := (hs₁ (max N N₁ + 1) (by omega)).symm.trans (hreset _ (by omega))
    obtain rfl : s₁ = s'.setSema m { s'.sema m with semaControlValue := count } := by simpa using he
    exact ⟨by simpa [setSema] using hwait, hres⟩
  · rintro ⟨hwait, hres⟩
    exact ⟨_, N, hreset, by simp [setSema], by simpa [setSema] using hwait, hres⟩

theorem not_resets {level : ℕ}
    (hnone : ∀ n, resetLoop isISR (some t) count m n (s, level + 1) = none) :
    ¬Resets isISR t count m s level := by
  rintro ⟨s', N, hrun, -⟩
  have he : TTOS_ResetSema (N + 1) isISR (some t) count (some m) s level = none :=
    congrArg (Option.map _) (hnone (N + 1))
  rw [hrun (N + 1) (by omega)] at he
  cases he

/-- **When a reset does its work**: exactly if the condition holds. -/
theorem reset_returns_iff (level : ℕ) (hs : Apart s) (ht : s.Running t)
    (hc : count ≤ if (s.sema m).isMutex then 1 else INT_MAX) :
    Resets isISR t count m s level ↔ Resettable isISR t count (s.sema m) := by
  have hlen : (s.sema m).waitQueue = [] ↔ (s.sema m).waitQueue.length = 0 :=
    List.length_eq_zero_iff.symm
  by_cases hv : count ≤ (s.sema m).semaControlValue
  · rw [resets_iff (N := 0) fun n hn => resetLoop_le hn hv]
    refine ⟨fun h => .inl ⟨hv, h.1⟩, fun h => ?_⟩
    have hnil : (s.sema m).waitQueue = [] := by
      rcases h with ⟨-, h⟩ | ⟨-, h⟩ | ⟨-, -, -, h | ⟨-, h⟩⟩
      · exact h
      · exact hlen.2 (by omega)
      · exact h
      · omega
    simp [hnil]
  · have hno : ¬(count ≤ (s.sema m).semaControlValue ∧ (s.sema m).waitQueue = []) := fun h => hv h.1
    by_cases hf : Releasable isISR t (s.sema m)
    · obtain ⟨s', hrun, hwait, hres⟩ := resetLoop_spec (level + 1) (fun _ => hf) hc rfl
      rw [resets_iff hrun, hwait, List.drop_eq_nil_iff]
      constructor
      · rintro ⟨hle, -⟩
        rcases hf with hm | ⟨rfl, hq, hown⟩
        · exact .inr (.inl ⟨hm, by omega⟩)
        · cases hm : (s.sema m).isMutex with
          | false => exact .inr (.inl ⟨hm, by omega⟩)
          | true => exact .inr (.inr ⟨hm, rfl, hown, .inl hq⟩)
      · intro h
        have hle : (s.sema m).waitQueue.length ≤ (count - (s.sema m).semaControlValue).toNat := by
          rcases h.resolve_left hno with ⟨-, h⟩ | ⟨-, -, -, h | ⟨h1, h2⟩⟩
          · omega
          · simp [h]
          · omega
        exact ⟨hle, by rw [hres, List.take_of_length_le hle]⟩
    · have hm : (s.sema m).isMutex = true := by
        by_contra hm
        exact hf (.inl (by simpa using hm))
      rw [hm, if_pos rfl] at hc
      by_cases hown : isISR = false ∧ ((s.sema m).nestCount = 0 ∨ (s.sema m).semHolder = some t)
      · obtain ⟨rfl, hown⟩ := hown
        cases hq : (s.sema m).waitQueue with
        | nil => exact absurd (.inr ⟨rfl, hq, hown⟩) hf
        | cons u q =>
          obtain ⟨h1, h2, h3⟩ := resetLoop_waited (d := (count - (s.sema m).semaControlValue).toNat)
            (level + 1) hs ht hm hc hown hq (by omega)
          have hiff : Resettable false t count (s.sema m) ↔
              q = [] ∧ (count - (s.sema m).semaControlValue).toNat =
                max (s.sema m).nestCount 1 := by
            constructor
            · intro h
              rcases h.resolve_left hno with ⟨h, -⟩ | ⟨-, -, -, h | ⟨h1, h2⟩⟩
              · rw [hm] at h
                cases h
              · rw [hq] at h
                cases h
              · rw [hq] at h1
                exact ⟨by simpa using h1, by omega⟩
            · rintro ⟨rfl, hd⟩
              exact .inr (.inr ⟨hm, rfl, hown, .inr ⟨by rw [hq]; rfl, by omega⟩⟩)
          rw [hiff]
          rcases Nat.lt_trichotomy (count - (s.sema m).semaControlValue).toNat
            (max (s.sema m).nestCount 1) with hd | hd | hd
          · obtain ⟨s', hrun, hwait⟩ := h1 hd
            rw [resets_iff hrun, hwait]
            simp [hd.ne]
          · obtain ⟨s', hrun, hwait, hres⟩ := h2 hd
            rw [resets_iff hrun, hwait, hres, hq]
            constructor
            · exact fun h => ⟨h.1, hd⟩
            · rintro ⟨rfl, -⟩
              exact ⟨rfl, rfl⟩
          · exact iff_of_false (not_resets (h3 hd)) fun h => hd.ne' h.2
      · refine iff_of_false (not_resets (resetLoop_refused hm (by omega) hc ?_)) fun h => ?_
        · cases isISR with
          | true => exact .inl rfl
          | false => exact .inr (not_or.1 fun h => hown ⟨rfl, h⟩)
        · rcases h.resolve_left hno with ⟨h, -⟩ | ⟨-, h1, h2, -⟩
          · rw [hm] at h
            cases h
          · exact hown ⟨h1, h2⟩

/-- A mutex that nobody holds. -/
def freeMutex : State Unit Bool where
  sema := fun _ => ⟨.mutex .fifo, 0, 1, 0, none, []⟩
  tcb := fun _ => ⟨false, 10, 10, 0, TTOS_OK, false, false⟩
  resuming := fun _ => []

/-- A task waits for the mutex that the caller holds, and the reset to 0 hands it over. -/
theorem reset_returns_awaited : Resets false true 0 ()
      { freeMutex with sema := fun _ => ⟨.mutex .fifo, 0, -1, 1, some true, [false]⟩ } 0 := by
  refine (reset_returns_iff (m := ()) 0 ⟨fun _ => by simp [inside, freeMutex], fun _ _ _ _ _ => rfl⟩
    (fun _ => by simp [inside, freeMutex]) (by decide)).2
      (.inr (.inr ⟨rfl, rfl, .inr rfl, .inr ?_⟩))
  exact ⟨rfl, rfl⟩

/-- Another task holds the mutex: the reset does not return. -/
theorem reset_loops : ∃ s,
    TTOS_ObtainSemaWithInterruptFlags false false (some ()) 0 false false freeMutex =
      some (some TTOS_OK, s) ∧
    ∀ n, TTOS_ResetSema n false (some true) 1 (some ()) s 0 = none := by
  refine ⟨_, rfl, fun n => Option.map_eq_none_iff.2 ?_⟩
  exact resetLoop_refused rfl (by decide) le_rfl (.inr ⟨by decide, by decide⟩) n

end Intewell.Sema
