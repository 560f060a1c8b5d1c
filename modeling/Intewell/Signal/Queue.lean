/-
# Queues of pending signals

`struct k_sigpending_queue` (include/process_signal.h): the list of the signals that have been
queued, and the set of their numbers, each kept by itself.  The set operations are those of
kernel/process/signal/signal_set.c on one word (`K_SIGSET_NLONG` is 1), the queue operations those
of signal_core.c, and `signal_find_next_pending` is in signal_query.c.

The two stay in step (`Sound`) under every operation.
-/

import Intewell.Lib.WordSet
import Mathlib.Data.List.Basic

namespace Intewell.Signal

open WordSet List

/-- `k_sigset_t`: signal `n` is bit `n - 1`. -/
abbrev Sigset := BitVec 64

def SIGNAL_MAX : ℕ := 64
def SIGRTMIN : ℕ := 32

def sigmask (sig : ℕ) : Sigset := 1#64 <<< (sig - 1)

def signal_set_contains (set : Sigset) (sig : ℕ) : Bool :=
  if sig = 0 ∨ sig > SIGNAL_MAX then false else set &&& sigmask sig ≠ 0

def signal_set_add (set : Sigset) (sig : ℕ) : Sigset := set ||| sigmask sig

def signal_set_del (set : Sigset) (sig : ℕ) : Sigset := set &&& ~~~sigmask sig

def signal_set_and_not (set₀ set₁ : Sigset) : Sigset := set₀ &&& ~~~set₁

/-- `__builtin_ffsl`: one more than the index of the least significant bit that is set. -/
def ffsl (x : BitVec 64) : ℕ := (WordSet.least x).elim 0 (· + 1)

def ttos_ffz (x : BitVec 64) : ℕ := ffsl (~~~x) - 1

def signal_find_next_pending (pending mask : Sigset) : ℕ :=
  let unmasked_bits := pending &&& ~~~mask
  if unmasked_bits ≠ 0 then ttos_ffz (~~~unmasked_bits) + 1 else 0

/-- `ksiginfo_entry_t`: the number of the signal, and what else is sent with it. -/
structure Entry (ι : Type*) where
  signo : ℕ
  info : ι
deriving DecidableEq, Repr

structure Queue (ι : Type*) where
  siginfo_list : List (Entry ι)
  sigset_pending : Sigset
deriving DecidableEq, Repr

variable {ι : Type*}

/-- `process_sigqueue_init`. -/
def Queue.init : Queue ι := ⟨[], 0⟩

def sigqueue_isempty (q : Queue ι) : Bool := q.sigset_pending = 0

def sigqueue_peek (q : Queue ι) (mask : Sigset) :
    ℕ := signal_find_next_pending q.sigset_pending mask

/-- A signal goes to the front of the list. -/
def sigqueue_enqueue (q : Queue ι) (e : Entry ι) : Queue ι where
  siginfo_list := if q.siginfo_list ≠ [] then e :: q.siginfo_list else q.siginfo_list ++ [e]
  sigset_pending := signal_set_add q.sigset_pending e.signo

/-- The scan of `sigqueue_dequeue_single`: the first entry of a number, the list without it, and
whether there is another one. -/
def findFirst (signo : ℕ) : List (Entry ι) → Option (Entry ι × List (Entry ι) × Bool)
  | [] => none
  | e :: l =>
    if e.signo = signo then some (e, l, l.any (·.signo = signo))
    else (findFirst signo l).map fun r => (r.1, e :: r.2.1, r.2.2)

def sigqueue_dequeue_single (q : Queue ι) (signo : ℕ) : Option (Entry ι) × Queue ι :=
  match findFirst signo q.siginfo_list with
  | none => (none, q)
  | some (found, l, has_more) =>
    (some found, ⟨l, if has_more then q.sigset_pending else signal_set_del q.sigset_pending signo⟩)

def sigqueue_remove (remove_sigset : Sigset) (q : Queue ι) : Queue ι :=
  if remove_sigset &&& q.sigset_pending = 0 then q
  else
    { siginfo_list := q.siginfo_list.filter fun e => !signal_set_contains remove_sigset e.signo
      sigset_pending := signal_set_and_not q.sigset_pending remove_sigset }

/-- At most `fuel` rounds of the loop. -/
def sigqueue_discard_sigset (sigset : Sigset) : ℕ → Queue ι → Option (Queue ι)
  | 0, _ => none
  | fuel + 1, q =>
    match sigqueue_peek q (~~~sigset) with
    | 0 => some q
    | signo => sigqueue_discard_sigset sigset fuel (sigqueue_dequeue_single q signo).2

/-! ## Sets -/

/-- A number that a signal can have. -/
def Valid (n : ℕ) : Prop := 1 ≤ n ∧ n ≤ SIGNAL_MAX

instance (n : ℕ) : Decidable (Valid n) := inferInstanceAs (Decidable (_ ∧ _))

/-- A signal is in a set. -/
def Has (s : Sigset) (n : ℕ) : Prop := signal_set_contains s n = true

instance (s : Sigset) (n : ℕ) : Decidable (Has s n) := inferInstanceAs (Decidable (_ = true))

variable {s s' : Sigset} {n m : ℕ}

theorem has_iff : Has s n ↔ Valid n ∧ s.getLsbD (n - 1) = true := by
  unfold Has signal_set_contains Valid SIGNAL_MAX sigmask
  by_cases h : n = 0 ∨ n > 64
  · simp only [h, if_true, Bool.false_eq_true, false_iff]
    omega
  · rw [if_neg h, decide_eq_true_iff, and_bit_ne_zero (by omega)]
    have : 1 ≤ n ∧ n ≤ 64 := by omega
    simp [this]

theorem Has.valid (h : Has s n) : Valid n := (has_iff.1 h).1

theorem Valid.lt (h : Valid n) : n - 1 < 64 := by
  unfold Valid SIGNAL_MAX at h
  omega

theorem Valid.sub_one_inj (hn : Valid n) (hm : Valid m) : n - 1 = m - 1 ↔ n = m := by
  unfold Valid at hn hm
  omega

@[simp] theorem not_has_zero : ¬Has 0#64 n := by simp [has_iff]

theorem has_add (hn : Valid n) : Has (signal_set_add s n) m ↔ m = n ∨ Has s m := by
  by_cases hm : Valid m
  · rw [has_iff, has_iff, signal_set_add, sigmask, getLsbD_add hm.lt]
    simp [hm, hm.sub_one_inj hn, or_comm]
  · have hne : m ≠ n := fun h => hm (h ▸ hn)
    simp [has_iff, hm, hne]

theorem has_sigmask (hn : Valid n) : Has (sigmask n) m ↔ m = n := by
  rw [show sigmask n = signal_set_add 0 n from (BitVec.zero_or).symm, has_add hn]
  simp

theorem has_del (hn : Valid n) : Has (signal_set_del s n) m ↔ Has s m ∧ m ≠ n := by
  by_cases hm : Valid m
  · rw [has_iff, has_iff, signal_set_del, sigmask, getLsbD_del hm.lt]
    simp [hm, hm.sub_one_inj hn]
  · simp [has_iff, hm]

@[simp] theorem has_or : Has (s ||| s') n ↔ Has s n ∨ Has s' n := by
  simp only [has_iff, BitVec.getLsbD_or, Bool.or_eq_true]
  tauto

@[simp] theorem has_and : Has (s &&& s') n ↔ Has s n ∧ Has s' n := by
  simp only [has_iff, BitVec.getLsbD_and, Bool.and_eq_true]
  tauto

theorem has_not (hn : Valid n) : Has (~~~s) n ↔ ¬Has s n := by
  simp [has_iff, hn, hn.lt]

@[simp] theorem has_and_not : Has (signal_set_and_not s s') n ↔ Has s n ∧ ¬Has s' n := by
  rw [signal_set_and_not, has_and]
  exact and_congr_right fun h => has_not h.valid

theorem eq_zero_iff_not_has : s = 0 ↔ ∀ n, ¬Has s n := by
  rw [eq_zero_iff]
  constructor
  · intro h n hn
    obtain ⟨hv, hn⟩ := has_iff.1 hn
    rw [h _ hv.lt] at hn
    cases hn
  · intro h i hi
    have := h (i + 1)
    rw [has_iff, Nat.add_sub_cancel] at this
    have hv : Valid (i + 1) := ⟨by omega, hi⟩
    simpa [hv] using this

/-! ## The lowest signal -/

theorem ttos_ffz_not {x : BitVec 64} {i : ℕ} (h : least x = some i) : ttos_ffz (~~~x) = i := by
  simp [ttos_ffz, ffsl, h]

/-- A signal that is pending and not masked. -/
def Ready (pending mask : Sigset) (n : ℕ) : Prop := Has pending n ∧ ¬Has mask n

theorem ready_iff : Ready s s' n ↔ Has (s &&& ~~~s') n := by
  rw [has_and]
  exact (and_congr_right fun h => has_not h.valid).symm

/-- **`signal_find_next_pending` finds the lowest signal that is pending and not masked**, and 0 if
there is none. -/
theorem signal_find_next_pending_spec (pending mask : Sigset) :
    (signal_find_next_pending pending mask = 0 ∧ ∀ n, ¬Ready pending mask n) ∨
      Ready pending mask (signal_find_next_pending pending mask) ∧
        ∀ n < signal_find_next_pending pending mask, ¬Ready pending mask n := by
  simp only [ready_iff]
  unfold signal_find_next_pending
  by_cases h : pending &&& ~~~mask = 0
  · refine .inl ⟨by simp [h], ?_⟩
    rw [h]
    simp
  · right
    cases hl : least (pending &&& ~~~mask) with
    | none => exact absurd (eq_zero_iff.2 (by simpa [least] using hl)) h
    | some i =>
      obtain ⟨hi, hx, hlt⟩ := least_eq_some_iff.1 hl
      simp only [ne_eq, h, not_false_eq_true, if_true, ttos_ffz_not hl]
      refine ⟨has_iff.2 ⟨⟨by omega, hi⟩, hx⟩, fun n hn hh => ?_⟩
      obtain ⟨hv, hn'⟩ := has_iff.1 hh
      rw [hlt (n - 1) (by unfold Valid at hv; omega)] at hn'
      cases hn'

theorem signal_find_next_pending_eq_zero :
    signal_find_next_pending s s' = 0 ↔ ∀ n, ¬Ready s s' n := by
  refine ⟨fun h => ?_, fun h => ?_⟩
  · rcases signal_find_next_pending_spec s s' with h' | h'
    · exact h'.2
    · rw [h] at h'
      exact absurd h'.1.1.valid.1 (by decide)
  · rcases signal_find_next_pending_spec s s' with h' | h'
    · exact h'.1
    · exact absurd h'.1 (h _)

/-! ## Set and list in step -/

/-- The numbers are those of signals, and a number is in the set exactly if it is in the list. -/
structure Sound (q : Queue ι) : Prop where
  valid : ∀ e ∈ q.siginfo_list, Valid e.signo
  bits : ∀ n, Has q.sigset_pending n ↔ ∃ e ∈ q.siginfo_list, e.signo = n

variable {q : Queue ι} {e : Entry ι} {l : List (Entry ι)}

/-- Whatever the list is, the signal goes to its front. -/
theorem sigqueue_enqueue_list : (sigqueue_enqueue q e).siginfo_list = e :: q.siginfo_list := by
  unfold sigqueue_enqueue
  split_ifs with h
  · rfl
  · simp_all

theorem Sound.enqueue (h : Sound q) (he : Valid e.signo) : Sound (sigqueue_enqueue q e) := by
  constructor
  · rw [sigqueue_enqueue_list]
    simpa [he] using h.valid
  · intro n
    rw [sigqueue_enqueue_list]
    simp [sigqueue_enqueue, has_add he, h.bits, eq_comm]

/-- The entries of a number, in the order of the list. -/
def instances (n : ℕ) (l : List (Entry ι)) : List (Entry ι) := l.filter fun e => e.signo = n

theorem findFirst_eq_none : findFirst n l = none ↔ ∀ e ∈ l, e.signo ≠ n := by
  induction l with
  | nil => simp [findFirst]
  | cons e l ih =>
    by_cases h : e.signo = n
    · simp [findFirst, h]
    · simp [findFirst, h, ih]

theorem findFirst_eq_some {r : Entry ι × List (Entry ι) × Bool} (h : findFirst n l = some r) :
    r.1.signo = n ∧ instances n l = r.1 :: instances n r.2.1 ∧
      (∀ m ≠ n, instances m r.2.1 = instances m l) ∧
      r.2.1.Sublist l ∧ (r.2.2 = true ↔ ∃ e ∈ r.2.1, e.signo = n) := by
  induction l generalizing r with
  | nil => cases h
  | cons e l ih =>
    by_cases he : e.signo = n
    · rw [findFirst, if_pos he, Option.some.injEq] at h
      subst h
      refine ⟨he, by simp [instances, he], fun m hm => ?_, sublist_cons_self .., by simp⟩
      simp [instances, he, hm.symm]
    · rw [findFirst, if_neg he, Option.map_eq_some_iff] at h
      obtain ⟨r', hr', rfl⟩ := h
      obtain ⟨h1, h2, h3, h4, h5⟩ := ih hr'
      refine ⟨h1, by simpa [instances, he] using h2, fun m hm => ?_,
        h4.cons_cons e, by simp [he, h5]⟩
      have := h3 m hm
      simp only [instances] at this
      simp only [instances, filter_cons, this]

theorem Sound.dequeue (h : Sound q) : Sound (sigqueue_dequeue_single q n).2 := by
  unfold sigqueue_dequeue_single
  cases hf : findFirst n q.siginfo_list with
  | none => exact h
  | some r =>
    obtain ⟨e, l, more⟩ := r
    obtain ⟨hen, hn, hm, hsub, hmore⟩ := findFirst_eq_some hf
    simp only at hen hn hm hsub hmore ⊢
    refine ⟨fun e he => h.valid e (hsub.subset he), fun m => ?_⟩
    have hv : Valid n := by
      have : e ∈ instances n q.siginfo_list := by simp [hn]
      exact hen ▸ h.valid e (mem_of_mem_filter this)
    by_cases hmn : m = n
    · subst hmn
      cases more with
      | true =>
        simp only [if_true, h.bits]
        exact ⟨fun _ => hmore.1 rfl, fun ⟨e', he', hs⟩ => ⟨e', hsub.subset he', hs⟩⟩
      | false =>
        simp only [Bool.false_eq_true, if_false, has_del hv, ne_eq, not_true_eq_false, and_false,
          false_iff]
        exact fun h => Bool.false_ne_true (hmore.2 h)
    · have hin : (∃ e ∈ l, e.signo = m) ↔ ∃ e ∈ q.siginfo_list, e.signo = m := by
        have := hm m hmn
        simp only [instances] at this
        constructor
        · rintro ⟨e', he', hs⟩
          exact ⟨e', hsub.subset he', hs⟩
        · rintro ⟨e', he', hs⟩
          have : e' ∈ l.filter fun e => e.signo = m := by
            rw [this]
            exact mem_filter.2 ⟨he', by simpa using hs⟩
          exact ⟨e', mem_of_mem_filter this, hs⟩
      rw [hin, ← h.bits]
      split_ifs
      · rfl
      · rw [has_del hv]
        simp [hmn]

/-- **A number that is pending is dequeued**: the first entry of it in the list is returned, and
what else is queued stays as it is. -/
theorem Sound.dequeue_eq (h : Sound q) (hn : Has q.sigset_pending n) :
    ∃ e, (sigqueue_dequeue_single q n).1 = some e ∧ instances n q.siginfo_list =
        e :: instances n (sigqueue_dequeue_single q n).2.siginfo_list ∧
      (∀ m ≠ n, instances m (sigqueue_dequeue_single q n).2.siginfo_list =
        instances m q.siginfo_list) ∧
      (sigqueue_dequeue_single q n).2.siginfo_list.Sublist q.siginfo_list := by
  obtain ⟨e', he', hs⟩ := (h.bits n).1 hn
  unfold sigqueue_dequeue_single
  cases hf : findFirst n q.siginfo_list with
  | none => exact absurd hs (findFirst_eq_none.1 hf e' he')
  | some r =>
    obtain ⟨-, h1, h2, h3, -⟩ := findFirst_eq_some hf
    exact ⟨r.1, rfl, h1, h2, h3⟩

/-- A dequeue makes nothing pending, whether or not the list is that of the set. -/
theorem has_of_dequeue (h : Has (sigqueue_dequeue_single q n).2.sigset_pending m) :
    Has q.sigset_pending m := by
  unfold sigqueue_dequeue_single at h
  split at h
  · exact h
  · dsimp only at h
    split_ifs at h
    · exact h
    · exact (has_and.1 h).1

theorem Sound.remove (h : Sound q) (set : Sigset) : Sound (sigqueue_remove set q) := by
  unfold sigqueue_remove
  split_ifs with h0
  · exact h
  · refine ⟨fun e he => h.valid e (mem_of_mem_filter he), fun n => ?_⟩
    simp only [has_and_not, h.bits, mem_filter, Bool.not_eq_true']
    constructor
    · rintro ⟨⟨e, he, rfl⟩, hn⟩
      exact ⟨e, ⟨he, by simpa [Has] using hn⟩, rfl⟩
    · rintro ⟨e, ⟨he, hn⟩, rfl⟩
      exact ⟨⟨e, he, rfl⟩, by simp [Has, hn]⟩

theorem has_remove {set : Sigset} :
    Has (sigqueue_remove set q).sigset_pending n ↔ Has q.sigset_pending n ∧ ¬Has set n := by
  unfold sigqueue_remove
  split_ifs with h0
  · have := eq_zero_iff_not_has.1 h0 n
    rw [has_and] at this
    tauto
  · simp

theorem sigqueue_remove_sublist (set : Sigset) (q : Queue ι) :
    (sigqueue_remove set q).siginfo_list.Sublist q.siginfo_list := by
  unfold sigqueue_remove
  split_ifs
  · exact .refl _
  · exact filter_sublist

/-- `sigqueue_discard_sigset` comes to an end, and has the signals of the set removed. -/
theorem Sound.discard (h : Sound q) (set : Sigset) {fuel : ℕ} (hf : q.siginfo_list.length < fuel) :
    ∃ q', sigqueue_discard_sigset set fuel q = some q' ∧ Sound q' ∧
      q'.siginfo_list.Sublist q.siginfo_list ∧
      ∀ n, instances n q'.siginfo_list = if Has set n then [] else instances n q.siginfo_list := by
  induction fuel generalizing q with
  | zero => omega
  | succ fuel ih =>
    unfold sigqueue_discard_sigset sigqueue_peek
    cases hp : signal_find_next_pending q.sigset_pending (~~~set) with
    | zero =>
      refine ⟨q, rfl, h, .refl _, fun n => ?_⟩
      split_ifs with hn
      · refine filter_eq_nil_iff.2 fun e he hen => ?_
        refine signal_find_next_pending_eq_zero.1 hp n
          ⟨(h.bits n).2 ⟨e, he, by simpa using hen⟩, ?_⟩
        rw [has_not hn.valid]
        exact not_not_intro hn
      · rfl
    | succ k =>
      have hr : Ready q.sigset_pending (~~~set) _ :=
        ((signal_find_next_pending_spec _ _).resolve_left (by omega)).1
      rw [hp] at hr
      obtain ⟨e, -, h1, h2, h3⟩ := h.dequeue_eq hr.1
      have hlt : (sigqueue_dequeue_single q (k + 1)).2.siginfo_list.length <
        q.siginfo_list.length := by
        refine Nat.lt_of_le_of_ne h3.length_le fun heq => ?_
        rw [h3.eq_of_length heq] at h1
        simpa using congrArg List.length h1
      obtain ⟨q', hq', hs, hsub, hi⟩ := ih (h.dequeue (n := k + 1)) (by omega)
      refine ⟨q', hq', hs, hsub.trans h3, fun n => ?_⟩
      rw [hi]
      split_ifs with hn
      · rfl
      · refine h2 n fun hnk => hn ?_
        have := hr.2
        rw [has_not hr.1.valid, not_not] at this
        rwa [hnk]

end Intewell.Signal
