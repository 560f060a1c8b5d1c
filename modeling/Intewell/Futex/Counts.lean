/-
# How many waiters futex_wake and futex_requeue wake and move

A table is any set of waiters of distinct tasks, each in the chain of its key (`Table`).  Some of
them may have been made ready already, by a tick or a signal, and have not left their chain: such
a task no longer waits, though the loops take it for a waiter.
-/

import Intewell.Futex.Loops
import Mathlib.Data.Set.Card

namespace Intewell.Futex

open List Function Sched Select Waiter

variable {τ : Type*}

/-- The waiters are of distinct tasks, each once in the chain of its key. -/
structure Sound (hash : Key → Bucket) (s : State τ) : Prop where
  placed : ∀ {i q}, q ∈ s.chain i → hash q.key = i
  unique : ∀ {i j q r}, q ∈ s.chain i → r ∈ s.chain j → q.task = r.task → q = r
  nodup : ∀ i, (s.chain i).Nodup

structure Table (hash : Key → Bucket) (τ : Type*) where
  state : State τ
  sound : Sound hash state

/-- Any waiters of distinct tasks make a table. -/
def Table.ofList (hash : Key → Bucket) (m : Manager τ) (l : List (Waiter τ))
    (hl : (l.map task).Nodup) : Table hash τ where
  state := { m with chain := fun i => l.filter (hash ·.key = i) }
  sound :=
    { placed := fun h => by simpa using (mem_filter.1 h).2
      unique := fun hq hr => inj_on_of_nodup_map hl (mem_of_mem_filter hq) (mem_of_mem_filter hr)
      nodup := fun _ => (hl.of_map _).filter _ }

/-- The task of a waiter has not been made ready by a tick or a signal. -/
def Still (s : State τ) (q : Waiter τ) : Prop :=
  (s.tcb q.task).state &&& TTOS_TASK_WAITING_FOR_FUTEX ≠ 0

instance (s : State τ) : DecidablePred (Still s) := fun _ => inferInstanceAs (Decidable (_ ≠ _))

/-- A waiter in its chain whose task still waits. -/
def Waits (s : State τ) (q : Waiter τ) : Prop := (∃ i, q ∈ s.chain i) ∧ Still s q

/-- The task has left the chains, waits for nothing, and is ready unless something else keeps it
from running. -/
structure Awake (s : State τ) (t : τ) : Prop where
  gone : ∀ {i q}, q ∈ s.chain i → q.task ≠ t
  rested : Rested (s.tcb t)

/-- A waiter that a call wakes. -/
def Woken (s s' : State τ) (q : Waiter τ) : Prop := Waits s q ∧ Awake s' q.task

/-- A waiter that a call moves to `key`. -/
def Moved (key : Key) (s s' : State τ) (q : Waiter τ) : Prop := Waits s q ∧ Waits s' (q.rekey key)

/-- A waiter is where it was, and its task is as it was. -/
def Untouched (s s' : State τ) (q : Waiter τ) : Prop :=
  (∀ i, q ∈ s.chain i → q ∈ s'.chain i) ∧ s'.tcb q.task = s.tcb q.task

variable [DecidableEq τ] (hash : Key → Bucket)

/-- What `futex_wake` with the number `n` is expected to do. -/
structure WakeCounts (s : State τ) (key : Key) (n : ℕ) (bitset : BitVec 32) : Prop where
  woken : {q | q.On key ∧ Woken s (futex_wake hash key n bitset s).2 q}.ncard =
    min n {q | Waits s q ∧ q.Matches key bitset}.ncard
  others : ∀ q, Waits s q → ¬q.On key → Untouched s (futex_wake hash key n bitset s).2 q
  returned : (futex_wake hash key n bitset s).1 =
    {q | q.On key ∧ Woken s (futex_wake hash key n bitset s).2 q}.ncard

/-- A task can be woken through `key`, and through no other key. -/
def OnlyThrough (key : Key) (s : State τ) (q : Waiter τ) : Prop :=
  (∀ bitset, q.bitset &&& bitset ≠ 0 → ∃ n : ℕ, Awake (futex_wake hash key n bitset s).2 q.task) ∧
  (∀ k, k ≠ key → ∀ number bitset, ¬Awake (futex_wake hash k number bitset s).2 q.task) ∧
  ∀ k k', k ≠ key → ∀ num_wake num_requeue,
    ¬Awake (futex_requeue hash k k' num_wake num_requeue s).2 q.task

/-- What `futex_requeue` with the numbers `n` and `m` is expected to do. -/
structure RequeueCounts (s : State τ) (key₁ key₂ : Key) (n m : ℕ) : Prop where
  woken : {q | q.On key₁ ∧ Woken s (futex_requeue hash key₁ key₂ n m s).2 q}.ncard =
    min n {q | Waits s q ∧ q.On key₁}.ncard
  moved : {q | q.On key₁ ∧ Moved key₂ s (futex_requeue hash key₁ key₂ n m s).2 q}.ncard =
    min m ({q | Waits s q ∧ q.On key₁}.ncard -
      {q | q.On key₁ ∧ Woken s (futex_requeue hash key₁ key₂ n m s).2 q}.ncard)
  others : ∀ q, Waits s q → ¬q.On key₁ → Untouched s (futex_requeue hash key₁ key₂ n m s).2 q
  through : ∀ q, q.On key₁ → Moved key₂ s (futex_requeue hash key₁ key₂ n m s).2 q →
    OnlyThrough hash key₂ (futex_requeue hash key₁ key₂ n m s).2 (q.rekey key₂)
  returned : (futex_requeue hash key₁ key₂ n m s).1 =
    {q | q.On key₁ ∧ Woken s (futex_requeue hash key₁ key₂ n m s).2 q}.ncard +
      {q | q.On key₁ ∧ Moved key₂ s (futex_requeue hash key₁ key₂ n m s).2 q}.ncard

/-! ## Which calls do it -/

/-- The waiters of a key in its chain. -/
def waiters (hash : Key → Bucket) (s : State τ) (p : Waiter τ → Prop) [DecidablePred p]
    (key : Key) :
    List (Waiter τ) := (s.chain (hash key)).filter (p ·)

/-- `bitset` is not 0, there is nothing to wake if `n` is 0, and the first `n` waiters that match
still wait. -/
structure WakeGood (s : State τ) (key : Key) (n : ℕ) (bitset : BitVec 32) : Prop where
  nonzero : bitset ≠ 0
  number : n = 0 → waiters hash s (Waiter.Matches key bitset) key = []
  still : ∀ q ∈ (waiters hash s (Waiter.Matches key bitset) key).take n, Still s q

/-- The keys differ, there is nothing to wake if `n` is 0 and nothing left to move if `m` is 0,
and the first `n + m` waiters still wait. -/
structure RequeueGood (s : State τ) (key₁ key₂ : Key) (n m : ℕ) : Prop where
  keys : key₁ ≠ key₂
  num_wake : n = 0 → waiters hash s (Waiter.On key₁) key₁ = []
  num_requeue : m = 0 → (waiters hash s (Waiter.On key₁) key₁).drop n = []
  still : ∀ q ∈ (waiters hash s (Waiter.On key₁) key₁).take (n + m), Still s q

/-! ## What a call leaves -/

/-- What a call does: `W` are the waiters that it wakes, `M` those that it moves to `key`, and the
rest stays. -/
structure Effect (key : Key) (W M : List (Waiter τ)) (s s' : State τ) : Prop where
  stays : ∀ {i q}, q ∈ s.chain i → q ∉ W → q ∉ M → q ∈ s'.chain i
  moves : ∀ {q}, q ∈ M → q.rekey key ∈ s'.chain (hash key)
  only : ∀ {i q}, q ∈ s'.chain i →
    (q ∈ s.chain i ∧ q ∉ W ∧ q ∉ M) ∨ i = hash key ∧ ∃ r ∈ M, q = r.rekey key
  nodup : ∀ i, (s'.chain i).Nodup
  rests : ∀ {t}, t ∈ W.map task → Rested (s'.tcb t)
  keeps : ∀ {t}, t ∉ W.map task → s'.tcb t = s.tcb t

variable {hash} {s s' : State τ} {key key₁ key₂ : Key} {W M : List (Waiter τ)} {q : Waiter τ}
  {i : Bucket}

omit [DecidableEq τ] in
theorem not_awake (h : q ∈ s.chain i) : ¬Awake s q.task := fun ha => ha.gone h rfl

/-- What is woken and moved are waiters of `key₁`, which is not `key₂`. -/
structure From (s : State τ) (key₁ key₂ : Key) (W M : List (Waiter τ)) : Prop where
  waked : ∀ {q}, q ∈ W → (∃ i, q ∈ s.chain i) ∧ q ∉ M
  moved : ∀ {q}, q ∈ M → (∃ i, q ∈ s.chain i) ∧ q.On key₁ ∧ key₁ ≠ key₂

namespace Effect

section

omit [DecidableEq τ]

section
variable (h : Effect hash key₂ W M s s')
include h

section
variable (hs : Sound hash s) (hf : From s key₁ key₂ W M)
include hs hf

theorem awake (hq : q ∈ W) : Awake s' q.task := by
  obtain ⟨⟨i, hi⟩, hM⟩ := hf.waked hq
  constructor
  · intro j r hr hrq
    rcases h.only hr with ⟨hr, hW, -⟩ | ⟨-, r', hr', rfl⟩
    · rw [hs.unique hr hi hrq] at hW
      exact hW hq
    · obtain ⟨⟨j', hj'⟩, -⟩ := hf.moved hr'
      rw [hs.unique hj' hi hrq] at hr'
      exact hM hr'
  · exact h.rests (mem_map_of_mem hq)

theorem awake_iff (hq : q ∈ s.chain i) : Awake s' q.task ↔ q ∈ W := by
  constructor
  · intro ha
    by_contra hW
    by_cases hM : q ∈ M
    · exact ha.gone (h.moves hM) rfl
    · exact ha.gone (h.stays hq hW hM) rfl
  · exact h.awake hs hf

theorem keeps_of_not_mem (hq : q ∈ s.chain i) (hW : q ∉ W) : s'.tcb q.task = s.tcb q.task := by
  refine h.keeps fun ht => ?_
  obtain ⟨r, hr, hrq⟩ := mem_map.1 ht
  obtain ⟨⟨j, hj⟩, -⟩ := hf.waked hr
  exact hW (hs.unique hj hq hrq ▸ hr)

theorem moved_iff (hq : Waits s q) (hk : q.On key₁) (hne : key₁ ≠ key₂) :
    Waits s' (q.rekey key₂) ↔ q ∈ M := by
  obtain ⟨⟨i, hi⟩, hstill⟩ := hq
  constructor
  · rintro ⟨⟨j, hj⟩, -⟩
    rcases h.only hj with ⟨hj, -, -⟩ | ⟨-, r, hr, hrq⟩
    · have := congrArg key (hs.unique hj hi rfl)
      exact absurd (hk.symm.trans this.symm) hne
    · obtain ⟨⟨j', hj'⟩, -⟩ := hf.moved hr
      rwa [hs.unique hi hj' (congrArg (fun q : Waiter τ => q.task) hrq :)]
  · intro hM
    refine ⟨⟨_, h.moves hM⟩, ?_⟩
    have hW : q ∉ W := fun hW => (hf.waked hW).2 hM
    unfold Still at hstill ⊢
    rwa [show (q.rekey key₂).task = q.task from rfl, h.keeps_of_not_mem hs hf hi hW]

theorem untouched (hq : q ∈ s.chain i) (hW : q ∉ W) (hM : q ∉ M) : Untouched s s' q :=
  ⟨fun _ hj => h.stays hj hW hM, h.keeps_of_not_mem hs hf hq hW⟩

theorem sound : Sound hash s' := by
  refine ⟨fun {i q} hq => ?_, fun {i j q r} hq hr hqr => ?_, h.nodup⟩
  · rcases h.only hq with ⟨hq, -⟩ | ⟨rfl, r, -, rfl⟩
    · exact hs.placed hq
    · rfl
  · rcases h.only hq with ⟨hq, -, hqM⟩ | ⟨-, q', hq', rfl⟩ <;>
      rcases h.only hr with ⟨hr, -, hrM⟩ | ⟨-, r', hr', rfl⟩
    · exact hs.unique hq hr hqr
    · obtain ⟨⟨j', hj'⟩, -⟩ := hf.moved hr'
      rw [hs.unique hq hj' hqr] at hqM
      exact absurd hr' hqM
    · obtain ⟨⟨j', hj'⟩, -⟩ := hf.moved hq'
      rw [← hs.unique hj' hr hqr] at hrM
      exact absurd hq' hrM
    · obtain ⟨⟨i', hi'⟩, -⟩ := hf.moved hq'
      obtain ⟨⟨j', hj'⟩, -⟩ := hf.moved hr'
      rw [hs.unique hi' hj' hqr]

end

end

end

end Effect

/-! ## futex_wake -/

variable {number : ℤ} {bitset : BitVec 32} {n m : ℕ}

/-- The waiters that `futex_wake` wakes. -/
def wakes (hash : Key → Bucket) (key : Key) (number : ℤ) (bitset : BitVec 32) (s : State τ) :
    List (Waiter τ) :=
  picked (Waiter.Matches key bitset) (budget number (s.chain (hash key)).length)
    (s.chain (hash key))

theorem futex_wake_eq (hb : bitset ≠ 0) : futex_wake hash key number bitset s =
      (((wakes hash key number bitset s).length : ℤ),
        ⟨((wakes hash key number bitset s).map task).foldl wakeTask s.toManager,
          update s.chain (hash key) (left (Waiter.Matches key bitset)
            (budget number (s.chain (hash key)).length) (s.chain (hash key)))⟩) := by
  rw [futex_wake, if_neg hb, wakeLoop_eq (room_budget ..)]
  simp [wakes]

variable {p : Waiter τ → Prop}

omit [DecidableEq τ] in
theorem not_mem_picked_of_mem_left [DecidablePred p] {k : ℕ} {l : List (Waiter τ)} (hl : l.Nodup)
    (hq : q ∈ left p k l) : q ∉ picked p k l := by
  have := (picked_append_left_perm (p := p) k l).nodup_iff.2 hl
  exact fun h => disjoint_of_nodup_append this h hq

theorem futex_wake_effect (hs : Sound hash s) (hb : bitset ≠ 0) :
    Effect hash key (wakes hash key number bitset s) [] s
      (futex_wake hash key number bitset s).2 := by
  rw [futex_wake_eq hb]
  constructor
  · intro i q hq hW _
    by_cases hi : i = hash key
    · subst hi
      simp only [update_self]
      exact (mem_append.1 ((picked_append_left_perm _ _).mem_iff.2 hq)).resolve_left hW
    · simpa [hi] using hq
  · intro q hq
    cases hq
  · intro i q hq
    by_cases hi : i = hash key
    · subst hi
      simp only [update_self] at hq
      exact .inl ⟨(left_sublist _ _).subset hq, not_mem_picked_of_mem_left (hs.nodup _) hq, by simp⟩
    · simp only [update_of_ne hi] at hq
      refine .inl ⟨hq, fun hW => hi ?_, by simp⟩
      exact (hs.placed hq).symm.trans (hs.placed (of_mem_picked hW).1)
  · intro i
    by_cases hi : i = hash key
    · subst hi
      simpa using (left_sublist _ _).nodup (hs.nodup _)
    · simpa [hi] using hs.nodup i
  · exact rested_wakeAll
  · exact wakeAll_tcb_of_notMem

omit [DecidableEq τ] in
theorem wakes_from : From s key key (wakes hash key number bitset s) [] :=
  ⟨fun h => ⟨⟨_, (of_mem_picked h).1⟩, by simp⟩, fun h => by cases h⟩

theorem ncard_eq_length {α : Type*} {S : Set α} {l : List α} (hl : l.Nodup)
    (h : ∀ a, a ∈ S ↔ a ∈ l) : S.ncard = l.length := by
  classical
  rw [show S = ↑l.toFinset by ext a; simp [h], Set.ncard_coe_finset, toFinset_card_of_nodup hl]

omit [DecidableEq τ] in
theorem ncard_waits (hs : Sound hash s) [DecidablePred p] (hp : ∀ q, p q → q.On key) :
    {q | Waits s q ∧ p q}.ncard = ((waiters hash s p key).filter (Still s ·)).length := by
  refine ncard_eq_length (((hs.nodup _).filter _).filter _) fun q => ?_
  simp only [Set.mem_ofPred_eq, mem_filter, waiters, decide_eq_true_eq]
  constructor
  · rintro ⟨⟨⟨i, hi⟩, hstill⟩, hq⟩
    have := hs.placed hi
    rw [hp q hq] at this
    exact ⟨⟨this ▸ hi, hq⟩, hstill⟩
  · rintro ⟨⟨hi, hq⟩, hstill⟩
    exact ⟨⟨⟨_, hi⟩, hstill⟩, hq⟩

section
variable (h : Effect hash key₂ W M s s') (hs : Sound hash s) (hf : From s key₁ key₂ W M)
include h hs hf

section

omit [DecidableEq τ]

/-- The waiters of `key` that are woken are those of `W` that still wait. -/
theorem Effect.ncard_woken (hW : W.Nodup) (hk : ∀ q ∈ W, q.On key) :
    {q | q.On key ∧ Woken s s' q}.ncard = (W.filter (Still s ·)).length := by
  refine ncard_eq_length (hW.filter _) fun q => ?_
  simp only [Set.mem_ofPred_eq, mem_filter, decide_eq_true_eq]
  constructor
  · rintro ⟨-, ⟨⟨i, hi⟩, hstill⟩, ha⟩
    exact ⟨(h.awake_iff hs hf hi).1 ha, hstill⟩
  · rintro ⟨hq, hstill⟩
    obtain ⟨⟨i, hi⟩, -⟩ := hf.waked hq
    exact ⟨hk q hq, ⟨⟨i, hi⟩, hstill⟩, h.awake hs hf hq⟩

theorem Effect.ncard_moved (hM : M.Nodup) (hne : key₁ ≠ key₂) :
    {q | q.On key₁ ∧ Moved key₂ s s' q}.ncard = (M.filter (Still s ·)).length := by
  refine ncard_eq_length (hM.filter _) fun q => ?_
  simp only [Set.mem_ofPred_eq, mem_filter, decide_eq_true_eq]
  constructor
  · rintro ⟨hk, hq, hm⟩
    exact ⟨(h.moved_iff hs hf hq hk hne).1 hm, hq.2⟩
  · rintro ⟨hq, hstill⟩
    obtain ⟨hi, hk, -⟩ := hf.moved hq
    exact ⟨hk, ⟨hi, hstill⟩, (h.moved_iff hs hf ⟨hi, hstill⟩ hk hne).2 hq⟩

end

end

section

omit [DecidableEq τ]

theorem picked_budget [DecidablePred p] (l : List (Waiter τ)) (n : ℕ) :
    picked p (budget n l.length) l = taken n (l.filter (p ·)) := by
  unfold picked budget taken
  rcases Nat.eq_zero_or_pos n with rfl | hn
  · simp [take_of_length_le, length_filter_le]
  · rw [if_pos (by omega), if_neg (by omega), Int.toNat_natCast]

theorem filter_left_budget [DecidablePred p] (l : List (Waiter τ)) (n : ℕ) :
    (left p (budget n l.length) l).filter (p ·) = rest n (l.filter (p ·)) := by
  rw [filter_left]
  unfold budget rest
  rcases Nat.eq_zero_or_pos n with rfl | hn
  · simp [length_filter_le]
  · rw [if_pos (by omega), if_neg (by omega), Int.toNat_natCast]

end

/-- **Which calls of `futex_wake` wake what they should.** -/
theorem wake_iff (hs : Sound hash s) :
    WakeCounts hash s key n bitset ↔ WakeGood hash s key n bitset := by
  by_cases hb : bitset = 0
  · refine ⟨fun h => ?_, fun h => absurd hb h.nonzero⟩
    have := h.returned
    rw [futex_wake, if_pos hb] at this
    unfold EINVAL at this
    omega
  have he : Effect hash key (wakes hash key n bitset s) [] s _ := futex_wake_effect hs hb
  have hk : ∀ q ∈ wakes hash key n bitset s, q.On key := fun q hq => (of_mem_picked hq).2.1
  have hw := he.ncard_woken hs wakes_from ((hs.nodup _).filter _).take hk
  have hall := ncard_waits hs (p := Waiter.Matches key bitset) fun q hq => (hq.1 : q.On key)
  have ht : wakes hash key n bitset s = taken n (waiters hash s (Waiter.Matches key bitset) key) :=
    picked_budget ..
  have hr : (futex_wake hash key n bitset s).1 = (wakes hash key n bitset s).length := by
    rw [futex_wake_eq hb]
  constructor
  · rintro ⟨h1, -, h3⟩
    rw [hw, hall, ht] at h1
    rw [hr, hw, ht] at h3
    obtain ⟨hn, hf⟩ := taken_exact_iff.1 ⟨Int.natCast_inj.1 h3, h1⟩
    exact ⟨hb, hn, hf⟩
  · rintro ⟨-, hn, hf⟩
    obtain ⟨h3, h1⟩ := taken_exact_iff.2 ⟨hn, hf⟩
    refine ⟨?_, fun q hq hne => ?_, ?_⟩
    · rw [hw, hall, ht, h1]
    · obtain ⟨⟨i, hi⟩, -⟩ := hq
      exact he.untouched hs wakes_from hi (fun h => hne (hk q h)) (by simp)
    · rw [hr, hw, ht, h3]

/-! ## futex_requeue -/

/-- The chain of `key₁` after the first loop of `futex_requeue`. -/
def afterWake (hash : Key → Bucket) (key₁ : Key) (num_wake : ℤ) (s : State τ) : List (Waiter τ) :=
  left (Waiter.On key₁) (budget num_wake (s.chain (hash key₁)).length) (s.chain (hash key₁))

/-- The waiters that `futex_requeue` wakes, and those that it moves. -/
def requeueWakes (hash : Key → Bucket) (key₁ : Key) (num_wake : ℤ) (s : State τ) :
    List (Waiter τ) :=
  picked (Waiter.On key₁) (budget num_wake (s.chain (hash key₁)).length) (s.chain (hash key₁))

def requeueMoves (hash : Key → Bucket) (key₁ : Key) (num_wake num_requeue : ℤ) (s : State τ) :
    List (Waiter τ) :=
  picked (Waiter.On key₁) (budget num_requeue (afterWake hash key₁ num_wake s).length)
    (afterWake hash key₁ num_wake s)

/-- The chains that it leaves: what is moved is behind the chain of `key₂`, whether or not that is
the chain of `key₁`. -/
def requeueChain (hash : Key → Bucket) (key₁ key₂ : Key) (num_wake num_requeue : ℤ) (s : State τ)
    (i : Bucket) : List (Waiter τ) :=
  (if i = hash key₁ then
      left (Waiter.On key₁) (budget num_requeue (afterWake hash key₁ num_wake s).length)
        (afterWake hash key₁ num_wake s)
    else s.chain i) ++
    if i = hash key₂ then
      (requeueMoves hash key₁ num_wake num_requeue s).map (rekey key₂)
    else []

variable {num_wake num_requeue : ℤ}

theorem futex_requeue_eq (hne : key₁ ≠ key₂) : futex_requeue hash key₁ key₂ num_wake num_requeue s =
      (((requeueWakes hash key₁ num_wake s).length : ℤ) +
          (requeueMoves hash key₁ num_wake num_requeue s).length,
        ⟨((requeueWakes hash key₁ num_wake s).map task).foldl wakeTask s.toManager,
          requeueChain hash key₁ key₂ num_wake num_requeue s⟩) := by
  have hlen := room_budget num_requeue (afterWake hash key₁ num_wake s).length
  simp only [futex_requeue, dif_neg hne, wakeLoop_eq (room_budget ..)]
  change (_, State.mk _ _) = (_, State.mk _ _)
  by_cases hb : hash key₁ = hash key₂
  · have hmove : moveLoop hne true num_requeue [] (afterWake hash key₁ num_wake s ++ []) [] 0 = _ :=
      moveLoop_same hlen (by simp)
    rw [append_nil] at hmove
    rw [decide_eq_true hb, ← afterWake, hmove]
    refine Prod.ext (by simp [requeueWakes, requeueMoves]) (congrArg (State.mk _) ?_)
    funext i
    by_cases hi : i = hash key₂
    · simp [requeueChain, requeueMoves, hi, hb]
    · simp [requeueChain, hi, hb]
  · rw [decide_eq_false hb, ← afterWake, moveLoop_apart hlen]
    refine Prod.ext (by simp [requeueWakes, requeueMoves]) (congrArg (State.mk _) ?_)
    funext i
    by_cases hi : i = hash key₂
    · simp [requeueChain, requeueMoves, hi, Ne.symm hb]
    · by_cases hi' : i = hash key₁
      · simp [requeueChain, hi', hb]
      · simp [requeueChain, hi, hi']

omit [DecidableEq τ] in
theorem of_mem_requeueMoves (hq : q ∈ requeueMoves hash key₁ num_wake num_requeue s) :
    q ∈ s.chain (hash key₁) ∧ q.On key₁ :=
  ⟨(left_sublist _ _).subset (of_mem_picked hq).1, (of_mem_picked hq).2⟩

section
variable (hs : Sound hash s)
include hs

section
variable (hne : key₁ ≠ key₂)
include hne

omit [DecidableEq τ] in
theorem requeueChain_nodup (i : Bucket) :
    (requeueChain hash key₁ key₂ num_wake num_requeue s i).Nodup := by
  have hl := hs.nodup (hash key₁)
  have hR : (afterWake hash key₁ num_wake s).Nodup := (left_sublist _ _).nodup hl
  refine List.Nodup.append ?_ ?_ ?_
  · split_ifs
    · exact (left_sublist _ _).nodup hR
    · exact hs.nodup i
  · split_ifs
    · refine List.Nodup.map_on (fun q hq r hr hqr => ?_) (hR.filter _).take
      exact hs.unique (of_mem_requeueMoves hq).1 (of_mem_requeueMoves hr).1
        (congrArg (fun q : Waiter τ => q.task) hqr :)
    · exact nodup_nil
  · intro q hq hq'
    have hqi : q ∈ s.chain i := by
      split_ifs at hq with hi
      · rw [hi]
        exact (left_sublist _ _).subset ((left_sublist _ _).subset hq)
      · exact hq
    split_ifs at hq'
    · obtain ⟨r, hr, rfl⟩ := mem_map.1 hq'
      obtain ⟨hr, hk⟩ := of_mem_requeueMoves hr
      -- a waiter that has moved has another key than it had
      have := congrArg key (hs.unique hqi hr rfl)
      exact hne (hk.symm.trans this.symm)
    · cases hq'

theorem futex_requeue_effect : Effect hash key₂ (requeueWakes hash key₁ num_wake s)
      (requeueMoves hash key₁ num_wake num_requeue s) s
      (futex_requeue hash key₁ key₂ num_wake num_requeue s).2 := by
  rw [futex_requeue_eq hne]
  have hl := hs.nodup (hash key₁)
  have hR : (afterWake hash key₁ num_wake s).Nodup := (left_sublist _ _).nodup hl
  have hRl : ∀ {q}, q ∈ afterWake hash key₁ num_wake s → q ∈ s.chain (hash key₁) :=
    fun h => (left_sublist _ _).subset h
  constructor
  · intro i q hq hW hM
    refine mem_append_left _ ?_
    by_cases hi : i = hash key₁
    · subst hi
      rw [if_pos rfl]
      have hq' : q ∈ afterWake hash key₁ num_wake s :=
        (mem_append.1 ((picked_append_left_perm _ _).mem_iff.2 hq)).resolve_left hW
      exact (mem_append.1 ((picked_append_left_perm _ _).mem_iff.2 hq')).resolve_left hM
    · rwa [if_neg hi]
  · intro q hq
    refine mem_append_right _ ?_
    rw [if_pos rfl]
    exact mem_map_of_mem hq
  · intro i q hq
    rcases mem_append.1 hq with hq | hq
    · left
      by_cases hi : i = hash key₁
      · subst hi
        rw [if_pos rfl] at hq
        have hq' := (left_sublist _ _).subset hq
        exact ⟨hRl hq', not_mem_picked_of_mem_left hl hq', not_mem_picked_of_mem_left hR hq⟩
      · rw [if_neg hi] at hq
        have hk : q ∉ s.chain (hash key₁) := fun h => hi ((hs.placed hq).symm.trans (hs.placed h))
        exact ⟨hq, fun h => hk (of_mem_picked h).1, fun h => hk (hRl (of_mem_picked h).1)⟩
    · right
      by_cases hi : i = hash key₂
      · rw [if_pos hi] at hq
        obtain ⟨r, hr, rfl⟩ := mem_map.1 hq
        exact ⟨hi, r, hr, rfl⟩
      · simp [hi] at hq
  · exact requeueChain_nodup hs hne
  · exact rested_wakeAll
  · exact wakeAll_tcb_of_notMem

omit [DecidableEq τ] in
theorem requeue_from : From s key₁ key₂ (requeueWakes hash key₁ num_wake s)
      (requeueMoves hash key₁ num_wake num_requeue s) := by
  refine ⟨fun h => ⟨⟨_, (of_mem_picked h).1⟩, fun hM => ?_⟩, fun h => ?_⟩
  · exact not_mem_picked_of_mem_left (hs.nodup _) (of_mem_picked hM).1 h
  · exact ⟨⟨_, (of_mem_requeueMoves h).1⟩, (of_mem_requeueMoves h).2, hne⟩

end

/-- A call for another key leaves a waiter in its chain. -/
theorem mem_futex_wake (hq : q ∈ s.chain i) (hk : ¬q.On key) :
    q ∈ (futex_wake hash key number bitset s).2.chain i := by
  by_cases hb : bitset = 0
  · rwa [futex_wake, if_pos hb]
  · exact (futex_wake_effect hs hb).stays hq (fun h => hk (of_mem_picked h).2.1) (by simp)

theorem mem_futex_requeue (hq : q ∈ s.chain i) (hk : ¬q.On key₁) :
    q ∈ (futex_requeue hash key₁ key₂ num_wake num_requeue s).2.chain i := by
  by_cases hne : key₁ = key₂
  · rwa [futex_requeue, dif_pos hne]
  · exact (futex_requeue_effect hs hne).stays hq (fun h => hk (of_mem_picked h).2)
      fun h => hk (of_mem_picked h).2

/-- A waiter can be woken only through the key in its entry. -/
theorem onlyThrough (hq : q ∈ s.chain (hash key)) (hk : q.On key) : OnlyThrough hash key s q := by
  refine ⟨fun bitset hb => ⟨(s.chain (hash key)).length, ?_⟩, fun k hne number bitset => ?_,
    fun k k' hne n m => ?_⟩
  · have hb0 : bitset ≠ 0 := fun h => hb (by rw [h]; exact BitVec.and_zero)
    refine (futex_wake_effect hs hb0).awake hs wakes_from ?_
    rw [wakes, picked_budget, taken_of_pos (length_pos_of_mem hq),
      take_of_length_le (length_filter_le ..)]
    exact mem_filter.2 ⟨hq, by simpa using ⟨hk, hb⟩⟩
  · exact not_awake (mem_futex_wake hs hq fun h => hne (h.symm.trans hk))
  · exact not_awake (mem_futex_requeue hs hq fun h => hne (h.symm.trans hk))

/-- **Which calls of `futex_requeue` wake and move what they should.** -/
theorem requeue_iff : RequeueCounts hash s key₁ key₂ n m ↔ RequeueGood hash s key₁ key₂ n m := by
  by_cases hne : key₁ = key₂
  · refine ⟨fun h => ?_, fun h => absurd hne h.keys⟩
    have := h.returned
    rw [futex_requeue, dif_pos hne] at this
    unfold EINVAL at this
    omega
  have he : Effect hash key₂ (requeueWakes hash key₁ n s) (requeueMoves hash key₁ n m s) s _ :=
    futex_requeue_effect hs hne
  have hf : From s key₁ key₂ (requeueWakes hash key₁ n s) (requeueMoves hash key₁ n m s) :=
    requeue_from hs hne
  have hR : (afterWake hash key₁ n s).Nodup := (left_sublist _ _).nodup (hs.nodup _)
  have hon : ∀ q ∈ requeueWakes hash key₁ n s, q.On key₁ := fun q hq => (of_mem_picked hq).2
  have hw := he.ncard_woken hs hf ((hs.nodup _).filter _).take hon
  have hm := he.ncard_moved hs hf (hR.filter _).take hne
  have hall := ncard_waits hs fun q hq => (hq : q.On key₁)
  set L := waiters hash s (Waiter.On key₁) key₁
  have hW : requeueWakes hash key₁ n s = taken n L := picked_budget ..
  have hM : requeueMoves hash key₁ n m s = taken m (rest n L) := by
    rw [requeueMoves, picked_budget, afterWake, filter_left_budget]
    rfl
  have hr : (futex_requeue hash key₁ key₂ n m s).1 =
      (requeueWakes hash key₁ n s).length + (requeueMoves hash key₁ n m s).length := by
    rw [futex_requeue_eq hne]
  rw [hW] at hw hr
  rw [hM] at hm hr
  constructor
  · rintro ⟨h1, h2, -, -, h5⟩
    rw [hr, hw, hm] at h5
    rw [hw, hall] at h1
    rw [hm, hall, hw] at h2
    obtain ⟨hn, hm, hstill⟩ := taken_rest_exact_iff.1 ⟨by omega, h1, h2⟩
    exact ⟨hne, hn, hm, hstill⟩
  · rintro ⟨-, hn, hm', hstill⟩
    obtain ⟨h5, h1, h2⟩ := (taken_rest_exact_iff (l := L)).2 ⟨hn, hm', hstill⟩
    refine ⟨by rw [hw, hall, h1], by rw [hm, hall, hw, h2], fun q hq hk => ?_, fun q hk hq => ?_,
      ?_⟩
    · obtain ⟨⟨i, hi⟩, -⟩ := hq
      exact he.untouched hs hf hi (fun h => hk (of_mem_picked h).2) fun h => hk (of_mem_picked h).2
    · have hq := (he.moved_iff hs hf hq.1 hk hne).1 hq.2
      exact onlyThrough (he.sound hs hf) (he.moves hq) rfl
    · rw [hr, hw, hm]
      omega

end

/-- **How many waiters are woken and moved.**  In any table of waiters, `futex_wake` wakes `n` of
the waiters that match, or all if they are fewer, and `futex_requeue` also moves `m` of those that
remain, or all; waiters of other keys are left alone, what is moved can only be woken through the
new key, and the counts are returned: exactly when the numbers 0 meet nothing to take, none of the
tasks met has been made ready already, and the arguments are not refused. -/
theorem futex_counts (T : Table hash τ) :
    (∀ key n bitset, WakeCounts hash T.state key n bitset ↔ WakeGood hash T.state key n bitset) ∧
      ∀ key₁ key₂ n m,
        RequeueCounts hash T.state key₁ key₂ n m ↔ RequeueGood hash T.state key₁ key₂ n m :=
  ⟨fun _ _ _ => wake_iff T.sound, fun _ _ _ _ => requeue_iff T.sound⟩

/-! ## Calls that do something else -/

/-- A task that waits for a futex, and one whose time has run out. -/
def exampleTcb (waiting : Bool) : Tcb where
  state :=
    if waiting then TTOS_TASK_INTERRUPTIBLE_BY_SIGNAL ||| TTOS_TASK_WAITING_FOR_FUTEX
    else TTOS_TASK_READY
  returnCode := if waiting then .TTOS_OK else .TTOS_TIMEOUT
  affinityCpuIndex := some 0
  cpuIndex := none

/-- Task 0 waits for the futex at 4096; task 1 did, and is ready. -/
def exampleManager : Manager (Fin 2) where
  tcb t := exampleTcb (t = 0)
  readied := [1]
  taskWaitedQueue := []

def exampleWaiter (t : Fin 2) : Waiter (Fin 2) := ⟨t, ⟨0, 4096⟩, FUTEX_BITSET_MATCH_ANY⟩

def exampleHash : Key → Bucket := fun _ => ⟨0, by decide⟩

/-- Some of the two tasks are in the chain. -/
def exampleTable (l : List (Fin 2)) (hl : l.Nodup) : Table exampleHash (Fin 2) :=
  .ofList exampleHash exampleManager (l.map exampleWaiter) (by
    rw [map_map, show task ∘ exampleWaiter = id from rfl, map_id]
    exact hl)

/-- **A number 0 wakes everybody, and a task whose time is over takes another's turn.**  FUTEX_WAKE
with 0 wakes the one waiter, FUTEX_REQUEUE with 1 and 0 moves the one that it should leave; and
FUTEX_WAKE with 1 returns 1 for task 1, which had been made ready, takes it out of the ready queue,
and leaves task 0 waiting. -/
theorem futex_counts_break : (∃ T : Table exampleHash (Fin 2),
      ¬WakeCounts exampleHash T.state ⟨0, 4096⟩ 0 FUTEX_BITSET_MATCH_ANY ∧
        (futex exampleHash .FUTEX_WAKE false false 0 4096 0 0 0 0 0 T.state).1 = 1) ∧
    (∃ T : Table exampleHash (Fin 2), ¬RequeueCounts exampleHash T.state ⟨0, 4096⟩ ⟨0, 8192⟩ 1 0 ∧
        (futex_requeue exampleHash ⟨0, 4096⟩ ⟨0, 8192⟩ 1 0 T.state).1 = 2) ∧
    ∃ T : Table exampleHash (Fin 2),
      ¬WakeCounts exampleHash T.state ⟨0, 4096⟩ 1 FUTEX_BITSET_MATCH_ANY ∧
        (futex_wake exampleHash ⟨0, 4096⟩ 1 FUTEX_BITSET_MATCH_ANY T.state).1 = 1 ∧
        exampleWaiter 0 ∈
          (futex_wake exampleHash ⟨0, 4096⟩ 1 FUTEX_BITSET_MATCH_ANY T.state).2.chain
            (exampleHash ⟨0, 4096⟩) ∧
        (futex_wake exampleHash ⟨0, 4096⟩ 1 FUTEX_BITSET_MATCH_ANY T.state).2.readied = [] := by
  refine ⟨⟨exampleTable [0] (by decide), ?_, by decide⟩, ⟨exampleTable [0, 1] (by decide), ?_, ?_⟩,
    exampleTable [1, 0] (by decide), ?_, by decide, by decide, by decide⟩
  · rw [wake_iff (Table.sound _)]
    exact fun h => absurd (h.number rfl) (by decide)
  · rw [requeue_iff (Table.sound _)]
    exact fun h => absurd (h.num_requeue rfl) (by decide)
  · rw [futex_requeue_eq (by decide)]
    decide
  · rw [wake_iff (Table.sound _)]
    exact fun h => absurd (h.still (exampleWaiter 1) (by decide)) (by decide)

end Intewell.Futex
