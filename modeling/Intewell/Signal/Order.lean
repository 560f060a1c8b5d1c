/-
# The order in which signals are delivered

Sequences of sends to a thread or to the process, of dequeues by `signal_dequeue` and by the rounds
of `signal_fetch_deliverable`, and of removals.  What is sent with a signal is here the number of
the send, so that the order of sending can be read off an entry.

The list of a queue is a stack: `sigqueue_enqueue` links at its front, where
`sigqueue_dequeue_single` starts to look; and nothing keeps a standard signal from being queued
again.  `pending_queue_exact` says which calls are as POSIX has them.
-/

import Intewell.Lib.Exec
import Intewell.Signal.Group

namespace Intewell.Signal.Order

open Nat Relation Function Option Queue
open List hiding set

variable {θ : Type*}

/-- A queue: that of a thread, or the shared one. -/
abbrev Place (θ : Type*) := Option θ

def queueAt {ι : Type*} (g : Group θ ι) : Place θ → Queue ι
  | some t => (g.thread t).sig_queue
  | none => g.shared

/-- The group, how many sends there were, and what was dequeued from where. -/
structure World (θ : Type*) where
  g : Group θ ℕ
  sent : ℕ
  delivered : List (Place θ × Entry ℕ)

def place (flag : Target) (t : θ) : Place θ :=
  match flag with
  | .TO_THREAD => some t
  | .TO_PROCESS => none

/-- What a dequeue by `t` takes: the number, or 0, and the queue. -/
def pick {ι : Type*} (t : θ) (mask : Sigset) (g : Group θ ι) : ℕ × Place θ :=
  let signo := signal_find_next_pending (g.thread t).sig_queue.sigset_pending mask
  if signo ≠ 0 then (signo, some t)
  else (signal_find_next_pending g.shared.sigset_pending mask, none)

variable [DecidableEq θ]

/-- Another queue at a place. -/
def setQueue {ι : Type*} (g : Group θ ι) (p : Place θ) (q : Queue ι) : Group θ ι :=
  match p with
  | some t => g.modify t fun c => { c with sig_queue := q }
  | none => { g with shared := q }

inductive Op (θ : Type*) where
  | send (malloced : Bool) (t : θ) (signo : ℤ) (flag : Target)
  | dequeue (t : θ) (mask : Sigset)
  | collect (t : θ)
  | remove (p : Place θ) (set : Sigset)
  | discard (p : Place θ) (set : Sigset)

/-- The entry that was dequeued is delivered. -/
def World.deliver (w : World θ) (p : Place θ) (r : ℕ × Option (Entry ℕ) × Group θ ℕ) : World θ :=
  { w with g := r.2.2, delivered := w.delivered ++ r.2.1.toList.map (p, ·) }

/-- The loop of `sigqueue_discard_sigset` is given as many rounds as there are entries, and one
more. -/
def Op.run (w : World θ) : Op θ → Option (World θ)
  | send malloced t signo flag =>
    some { w with g := (signal_send malloced t signo w.sent flag w.g).2, sent := w.sent + 1 }
  | dequeue t mask => some (w.deliver (pick t mask w.g).2 (signal_dequeue t mask w.g))
  | collect t =>
    some (w.deliver (pick t (w.g.thread t).blocked w.g).2 (signal_collect_next_pending t w.g))
  | remove p set => some { w with g := setQueue w.g p (sigqueue_remove set (queueAt w.g p)) }
  | discard p set =>
    (sigqueue_discard_sigset set ((queueAt w.g p).siginfo_list.length + 1) (queueAt w.g p)).map
      fun q => { w with g := setQueue w.g p q }

/-- One call; between two calls the group may change in what is not a queue. -/
inductive Step (ok : World θ → Op θ → Prop) : World θ → World θ → Prop where
  | call {w w'} (op : Op θ) (hok : ok w op) (h : op.run w = some w') : Step ok w w'
  | other {w} (g : Group θ ℕ) (h : ∀ p, queueAt g p = queueAt w.g p) : Step ok w { w with g := g }

/-- What was dequeued of a number from a queue, in this order. -/
def World.deliveredOf (w : World θ) (p : Place θ) (n : ℕ) : List (Entry ℕ) :=
  (w.delivered.filter fun d => d.1 = p ∧ d.2.signo = n).map Prod.snd

/-- The entries of a number in a queue. -/
def World.pendingOf (w : World θ) (p : Place θ) (n : ℕ) : List (Entry ℕ) :=
  instances n (queueAt w.g p).siginfo_list

/-- What a dequeue returns: the lowest signal of the thread's queue that is not masked, if there is
one; else that of the shared queue; else nothing. -/
def Lowest {ι : Type*} (t : θ) (mask : Sigset) (g : Group θ ι)
    (r : ℕ × Option (Entry ι) × Group θ ι) : Prop :=
  let own := Ready (g.thread t).sig_queue.sigset_pending mask
  let shared := Ready g.shared.sigset_pending mask
  (own r.1 ∧ (∀ n < r.1, ¬own n) ∨ (∀ n, ¬own n) ∧ shared r.1 ∧ ∀ n < r.1, ¬shared n) ∧
      (∃ e, r.2.1 = some e ∧ e.signo = r.1) ∨
    r.1 = 0 ∧ r.2.1 = none ∧ ∀ n, ¬own n ∧ ¬shared n

/-- What is expected of the queues. -/
structure Exact (w : World θ) : Prop where
  bits : ∀ p n, Has (queueAt w.g p).sigset_pending n ↔ ∃ e ∈ (queueAt w.g p).siginfo_list,
    e.signo = n
  lowest : ∀ t, (∀ mask, Lowest t mask w.g (signal_dequeue t mask w.g)) ∧
    Lowest t (w.g.thread t).blocked w.g (signal_collect_next_pending t w.g)
  order : ∀ p n, SIGRTMIN ≤ n → (w.deliveredOf p n).Pairwise (·.info < ·.info) ∧
      ∀ d ∈ w.deliveredOf p n, ∀ e ∈ w.pendingOf p n, d.info < e.info
  single : ∀ p n, n < SIGRTMIN → (w.pendingOf p n).length ≤ 1

/-- The calls that keep to it: a standard signal that is queued is not pending there, and of a
real-time signal that is dequeued there is one instance. -/
def Careful (w : World θ) : Op θ → Prop
  | .send malloced t signo flag =>
    malloced = true → (signal_send_prepare t signo w.g).1 = none → signo < SIGRTMIN →
      ¬Has (queueAt w.g (place flag t)).sigset_pending signo.toNat
  | .dequeue t mask =>
    SIGRTMIN ≤ (pick t mask w.g).1 →
      (w.pendingOf (pick t mask w.g).2 (pick t mask w.g).1).length ≤ 1
  | .collect t =>
    SIGRTMIN ≤ (pick t (w.g.thread t).blocked w.g).1 →
      (w.pendingOf (pick t (w.g.thread t).blocked w.g).2
        (pick t (w.g.thread t).blocked w.g).1).length ≤ 1
  | .remove _ _ => True
  | .discard _ _ => True

/-! ## The calls by what they do to the queues -/

section

variable {ι : Type*} {g : Group θ ι} {t : θ} {p p' : Place θ} {mask : Sigset}

theorem queueAt_setQueue {q : Queue ι} :
    queueAt (setQueue g p q) p' = if p' = p then q else queueAt g p' := by
  cases p <;> cases p' <;> simp only [setQueue, queueAt, Group.modify, reduceCtorEq, if_false,
    if_true]
  · simp only [some.injEq, update_apply]
    split_ifs <;> simp_all

theorem signal_dequeue_eq : signal_dequeue t mask g = if (pick t mask g).1 = 0 then (0, none, g)
      else ((pick t mask g).1,
          (sigqueue_dequeue_single (queueAt g (pick t mask g).2) (pick t mask g).1).1,
          setQueue g (pick t mask g).2
            (sigqueue_dequeue_single (queueAt g (pick t mask g).2) (pick t mask g).1).2) := by
  unfold signal_dequeue pick
  by_cases h : signal_find_next_pending (g.thread t).sig_queue.sigset_pending mask = 0
  · by_cases h' : signal_find_next_pending g.shared.sigset_pending mask = 0
    · simp [h, h']
    · simp [h, h', queueAt, setQueue]
  · simp [h, queueAt, setQueue]

theorem peek_of_isempty {q : Queue ι} (h : sigqueue_isempty q = true) :
    sigqueue_peek q mask = 0 := by
  have h0 : q.sigset_pending = 0 := by simpa [sigqueue_isempty] using h
  rw [sigqueue_peek, signal_find_next_pending_eq_zero, h0]
  exact fun n hn => not_has_zero hn.1

/-- A round of `signal_fetch_deliverable` dequeues as `signal_dequeue` does, with the mask of the
thread. -/
theorem signal_collect_eq :
    signal_collect_next_pending t g = signal_dequeue t (g.thread t).blocked g := by
  have hown : (if sigqueue_isempty (g.thread t).sig_queue = true then 0
      else sigqueue_peek (g.thread t).sig_queue (g.thread t).blocked) =
      sigqueue_peek (g.thread t).sig_queue (g.thread t).blocked := by
    split_ifs with h
    · exact (peek_of_isempty h).symm
    · rfl
  unfold signal_collect_next_pending peek_signal signal_dequeue
  simp only [hown]
  by_cases h : sigqueue_peek (g.thread t).sig_queue (g.thread t).blocked = 0
  · cases hs : sigqueue_isempty g.shared with
    | true =>
      have hsh : sigqueue_peek g.shared (g.thread t).blocked = 0 := peek_of_isempty hs
      simp only [sigqueue_peek] at h hsh
      simp [sigqueue_peek, h, hsh]
    | false =>
      by_cases hsh : sigqueue_peek g.shared (g.thread t).blocked = 0
      · simp only [sigqueue_peek] at h hsh
        simp [sigqueue_peek, h, hsh]
      · simp only [sigqueue_peek] at h hsh
        simp [sigqueue_peek, h, hsh]
  · simp only [sigqueue_peek] at h
    simp [sigqueue_peek, h]

theorem queueAt_remove_all (set : Sigset) (p : Place θ) :
    queueAt (sigqueue_remove_private set (sigqueue_remove_shared set g)) p = queueAt g p ∨
      queueAt (sigqueue_remove_private set (sigqueue_remove_shared set g)) p =
        sigqueue_remove set (queueAt g p) := by
  cases p with
  | none => exact .inr rfl
  | some t =>
    by_cases ht : t ∈ g.thread_group
    · right
      simp [queueAt, sigqueue_remove_private, sigqueue_remove_shared, Group.modifyAll, ht]
    · left
      simp [queueAt, sigqueue_remove_private, sigqueue_remove_shared, Group.modifyAll, ht]

theorem queueAt_resume (p : Place θ) : queueAt (signal_resume_thread_group g) p = queueAt g p := by
  cases p with
  | none => rfl
  | some t =>
    simp only [queueAt, signal_resume_thread_group, Group.modifyAll]
    split_ifs <;> rfl

/-- What is done before a signal is queued only removes signals of other numbers. -/
theorem signal_prepare_send_queue (sig : ℕ) (force : Bool) (p : Place θ) :
    queueAt (signal_prepare_send sig t force g).2 p = queueAt g p ∨ ∃ set, ¬Has set sig ∧
        queueAt (signal_prepare_send sig t force g).2 p = sigqueue_remove set (queueAt g p) := by
  unfold signal_prepare_send
  split_ifs with h1 h2 h3
  · exact .inl rfl
  · rcases queueAt_remove_all (sigmask SIGCONT) p with h | h
    · exact .inl h
    · refine .inr ⟨sigmask SIGCONT, fun hs => ?_, h⟩
      rw [has_sigmask (by decide)] at hs
      rw [hs] at h2
      exact absurd h2 (by decide)
  · subst h3
    rw [signal_prepare_continue, queueAt_resume]
    exact (queueAt_remove_all PROCESS_SIG_STOP_SET p).imp id fun h => ⟨_, by decide, h⟩
  · exact .inl rfl

theorem signal_send_prepare_queue (signo : ℤ) (p : Place θ) :
    queueAt (signal_send_prepare t signo g).2 p = queueAt g p ∨ ∃ set, ¬Has set signo.toNat ∧
        queueAt (signal_send_prepare t signo g).2 p = sigqueue_remove set (queueAt g p) := by
  unfold signal_send_prepare
  split_ifs
  · exact .inl rfl
  · exact .inl rfl
  · exact .inl rfl
  · exact signal_prepare_send_queue ..

theorem queueAt_modify {f : Thread ι → Thread ι} (hf : ∀ c, (f c).sig_queue = c.sig_queue) :
    queueAt (g.modify t f) p = queueAt g p := by
  cases p with
  | none => rfl
  | some u =>
    simp only [queueAt, Group.modify, update_apply]
    split_ifs with h
    · rw [hf, h]
    · rfl

theorem queueAt_deliver {flag : Target} {e : Entry ι} : queueAt (signal_deliver flag t e g) p =
      if p = place flag t then sigqueue_enqueue (queueAt g p) e else queueAt g p := by
  have hq : queueAt (signal_deliver flag t e g) p = queueAt (signal_queue flag t e g).2 p := by
    simp only [signal_deliver]
    split
    · refine queueAt_modify fun c => ?_
      split_ifs <;> rfl
    · rfl
  rw [hq]
  cases flag with
  | TO_THREAD =>
    cases p with
    | none => rfl
    | some u =>
      simp only [queueAt, signal_queue, signal_queue_to_thread, Group.modify, place,
        update_apply, some.injEq]
      split_ifs with h
      · rw [h]
      · rfl
  | TO_PROCESS =>
    simp only [signal_queue, signal_queue_to_process]
    have hs : queueAt { g with shared := sigqueue_enqueue g.shared e } p =
        if p = place .TO_PROCESS t then sigqueue_enqueue (queueAt g p) e else queueAt g p := by
      cases p <;> simp [queueAt, place]
    split
    · refine Eq.trans (queueAt_modify ?_) hs
      exact fun _ => rfl
    · exact hs

end

/-! ## The invariant -/

/-- Sound queues, each a stack of what was sent, and what is expected of their order. -/
structure Inv (w : World θ) : Prop where
  sound : ∀ p, Sound (queueAt w.g p)
  stacked : ∀ p, (queueAt w.g p).siginfo_list.Pairwise fun e f => f.info < e.info
  fresh : ∀ p, ∀ e ∈ (queueAt w.g p).siginfo_list, e.info < w.sent
  past : ∀ d ∈ w.delivered, d.2.info < w.sent
  order : ∀ p n, SIGRTMIN ≤ n → (w.deliveredOf p n).Pairwise (·.info < ·.info) ∧
      ∀ d ∈ w.deliveredOf p n, ∀ e ∈ w.pendingOf p n, d.info < e.info
  single : ∀ p n, n < SIGRTMIN → (w.pendingOf p n).length ≤ 1

variable {w w' : World θ} {p : Place θ} {n : ℕ}

section
variable (h : Inv w)
include h

/-- Signals are removed, and nothing is delivered. -/
theorem Inv.shrink {g : Group θ ℕ} {k : ℕ} (hk : w.sent ≤ k)
    (hg : ∀ p, Sound (queueAt g p) ∧ (queueAt g p).siginfo_list.Sublist
      (queueAt w.g p).siginfo_list)
    : Inv { w with g := g, sent := k } := by
  have hsub : ∀ p n, (instances n (queueAt g p).siginfo_list).Sublist (w.pendingOf p n) :=
    fun p n => (hg p).2.filter _
  refine ⟨fun p => (hg p).1, fun p => (h.stacked p).sublist (hg p).2, fun p e he => ?_,
    fun d hd => Nat.lt_of_lt_of_le (h.past d hd) hk,
    fun p n hn => ⟨(h.order p n hn).1, fun d hd e he => ?_⟩, fun p n hn => ?_⟩
  · exact Nat.lt_of_lt_of_le (h.fresh p e ((hg p).2.subset he)) hk
  · exact (h.order p n hn).2 d hd e ((hsub p n).subset he)
  · exact Nat.le_trans (hsub p n).length_le (h.single p n hn)

open Order.World

/-- A signal is queued that is, if it is a standard one, not pending. -/
theorem Inv.enqueue (hv : Valid n) (hn : n < SIGRTMIN → ¬Has (queueAt w.g p).sigset_pending n)
    {g : Group θ ℕ}
    (hg : ∀ p', queueAt g p' = if p' =
      p then sigqueue_enqueue (queueAt w.g p') ⟨n, w.sent⟩ else queueAt w.g p')
    : Inv { w with g := g, sent := w.sent + 1 } := by
  have hlist : ∀ p', (queueAt g p').siginfo_list =
      if p' = p then ⟨n, w.sent⟩ :: (queueAt w.g p').siginfo_list
      else (queueAt w.g p').siginfo_list := by
    intro p'
    rw [hg]
    split_ifs
    · exact sigqueue_enqueue_list
    · rfl
  refine ⟨fun p' => ?_, fun p' => ?_, fun p' e he => ?_, fun d hd => lt_succ_of_lt (h.past d hd),
    fun p' m hm => ⟨(h.order p' m hm).1, fun d hd e he => ?_⟩, fun p' m hm => ?_⟩
  · rw [hg]
    split_ifs
    · exact (h.sound p').enqueue hv
    · exact h.sound p'
  · simp only [hlist]
    split_ifs
    · exact pairwise_cons.2 ⟨h.fresh p', h.stacked p'⟩
    · exact h.stacked p'
  · simp only [hlist] at he
    split_ifs at he
    · rcases mem_cons.1 he with rfl | he
      · exact lt_succ_self _
      · exact lt_succ_of_lt (h.fresh p' e he)
    · exact lt_succ_of_lt (h.fresh p' e he)
  · obtain ⟨he, hem⟩ := mem_filter.1 he
    simp only [hlist] at he
    have hold : e ∈ (queueAt w.g p').siginfo_list → d.info < e.info := fun he =>
      (h.order p' m hm).2 d hd e (mem_filter.2 ⟨he, hem⟩)
    split_ifs at he
    · rcases mem_cons.1 he with rfl | he
      · obtain ⟨x, hx, rfl⟩ := mem_map.1 hd
        exact h.past x (mem_filter.1 hx).1
      · exact hold he
    · exact hold he
  · simp only [pendingOf, hlist]
    have hold := h.single p' m hm
    split_ifs with hp
    · subst hp
      by_cases hmn : n = m
      · subst hmn
        have h0 : instances n (queueAt w.g p').siginfo_list = [] := by
          refine filter_eq_nil_iff.2 fun e he hen => hn hm ?_
          exact ((h.sound p').bits n).2 ⟨e, he, by simpa using hen⟩
        simp only [instances] at h0
        simp [instances, h0]
      · simpa [pendingOf, instances, hmn] using hold
    · exact hold

/-- A signal is dequeued that is, if it is a real-time one, the only instance. -/
theorem Inv.dequeue (hn : Has (queueAt w.g p).sigset_pending n)
    (hone : SIGRTMIN ≤ n → (w.pendingOf p n).length ≤ 1) :
    ∃ e, (sigqueue_dequeue_single (queueAt w.g p) n).1 = some e ∧ e.signo = n ∧
      Inv { w with
        g := setQueue w.g p (sigqueue_dequeue_single (queueAt w.g p) n).2
        delivered := w.delivered ++ [(p, e)] } := by
  obtain ⟨e, he, hi, hm, hsub⟩ := (h.sound p).dequeue_eq hn
  set q := (sigqueue_dequeue_single (queueAt w.g p) n).2
  have hen : e ∈ (queueAt w.g p).siginfo_list ∧ e.signo = n := by
    have : e ∈ instances n (queueAt w.g p).siginfo_list := by simp [hi]
    simpa [instances] using this
  have hq : ∀ p', Sound (queueAt (setQueue w.g p q) p') ∧
      (queueAt (setQueue w.g p q) p').siginfo_list.Sublist (queueAt w.g p').siginfo_list := by
    intro p'
    rw [queueAt_setQueue]
    split_ifs with hp
    · subst hp
      exact ⟨(h.sound p').dequeue, hsub⟩
    · exact ⟨h.sound p', .refl _⟩
  have hs := h.shrink (Nat.le_refl _) hq
  refine ⟨e, he, hen.2, hs.sound, hs.stacked, hs.fresh, fun d hd => ?_, fun p' m hmn => ?_,
    hs.single⟩
  · rcases mem_append.1 hd with hd | hd
    · exact h.past d hd
    · rw [mem_singleton.1 hd]
      exact h.fresh p e hen.1
  · have hd : deliveredOf { w with
        g := setQueue w.g p q
        delivered := w.delivered ++ [(p, e)] } p' m =
        w.deliveredOf p' m ++ if p = p' ∧ n = m then [e] else [] := by
      simp only [deliveredOf, filter_append, map_append, filter_cons, filter_nil, hen.2]
      split_ifs <;> simp_all
    rw [hd]
    obtain ⟨ho, hlt⟩ := hs.order p' m hmn
    split_ifs with hpm
    · obtain ⟨rfl, rfl⟩ := hpm
      have hnil : pendingOf { w with g := setQueue w.g p q } p n = [] := by
        have := hone hmn
        rw [pendingOf, hi] at this
        simpa [pendingOf, queueAt_setQueue] using this
      refine ⟨pairwise_append.2 ⟨ho, pairwise_singleton .., fun d hd f hf => ?_⟩, ?_⟩
      · rw [mem_singleton.1 hf]
        exact (h.order p n hmn).2 d hd e (by simp [pendingOf, hi])
      · intro d _ f hf
        change f ∈ pendingOf { w with g := setQueue w.g p q } p n at hf
        rw [hnil] at hf
        cases hf
    · rw [append_nil]
      exact ⟨ho, hlt⟩

/-- Two instances of a real-time signal are not delivered in the order of sending. -/
theorem not_order_of_two (hn : Has (queueAt w.g p).sigset_pending n)
    (htwo : 1 < (w.pendingOf p n).length) {e : Entry ℕ}
    (he : (sigqueue_dequeue_single (queueAt w.g p) n).1 = some e) :
    ∃ f ∈ instances n (sigqueue_dequeue_single (queueAt w.g p) n).2.siginfo_list,
      f.info < e.info := by
  obtain ⟨e', he', hi, -, -⟩ := (h.sound p).dequeue_eq hn
  obtain rfl : e' = e := some.inj (he'.symm.trans he)
  have hst := (h.stacked p).sublist (filter_sublist (p := fun e => decide (e.signo = n)))
  rw [pendingOf, hi] at htwo
  change (instances n _).Pairwise _ at hst
  rw [hi] at hst
  cases hf : instances n (sigqueue_dequeue_single (queueAt w.g p) n).2.siginfo_list with
  | nil => simp [hf] at htwo
  | cons f l =>
    rw [hf] at hst
    exact ⟨f, .head _, (pairwise_cons.1 hst).1 f (.head _)⟩

end

/-! ## Dequeues -/

section

variable {ι : Type*} {g : Group θ ι} {t : θ} {mask : Sigset}

section

omit [DecidableEq θ]

/-- What is picked is the lowest signal that is not masked, of the thread before the shared ones. -/
theorem pick_spec (t : θ) (mask : Sigset) (g : Group θ ι) :
    let own := Ready (g.thread t).sig_queue.sigset_pending mask
    let shared := Ready g.shared.sigset_pending mask
    (own (pick t mask g).1 ∧ (∀ n < (pick t mask g).1, ¬own n) ∧ (pick t mask g).2 = some t) ∨
      ((∀ n, ¬own n) ∧ shared (pick t mask g).1 ∧ (∀ n < (pick t mask g).1, ¬shared n) ∧
        (pick t mask g).2 = none) ∨
      (pick t mask g).1 = 0 ∧ ∀ n, ¬own n ∧ ¬shared n := by
  unfold pick
  rcases signal_find_next_pending_spec (g.thread t).sig_queue.sigset_pending mask with
    ⟨h1, h2⟩ | ⟨h1, h2⟩
  · simp only [h1, ne_eq, not_true_eq_false, if_false]
    rcases signal_find_next_pending_spec g.shared.sigset_pending mask with ⟨h3, h4⟩ | ⟨h3, h4⟩
    · exact .inr (.inr ⟨h3, fun n => ⟨h2 n, h4 n⟩⟩)
    · exact .inr (.inl ⟨h2, h3, h4, trivial⟩)
  · have h0 : signal_find_next_pending (g.thread t).sig_queue.sigset_pending mask ≠ 0 := by
      have := h1.1.valid.1
      omega
    simp only [ne_eq, h0, not_false_eq_true, if_true]
    exact .inl ⟨h1, h2, trivial⟩

theorem has_pick (h : (pick t mask g).1 ≠ 0) :
    Has (queueAt g (pick t mask g).2).sigset_pending (pick t mask g).1 := by
  rcases pick_spec t mask g with ⟨h1, -, h3⟩ | ⟨-, h1, -, h3⟩ | ⟨h1, -⟩
  · rw [h3]
    exact h1.1
  · rw [h3]
    exact h1.1
  · exact absurd h1 h

end

theorem signal_dequeue_lowest (hs : ∀ p, Sound (queueAt g p)) (t : θ) (mask : Sigset) :
    Lowest t mask g (signal_dequeue t mask g) := by
  rw [signal_dequeue_eq]
  by_cases h0 : (pick t mask g).1 = 0
  · rw [if_pos h0]
    refine .inr ⟨rfl, rfl, ?_⟩
    rcases pick_spec t mask g with ⟨h1, -⟩ | ⟨-, h1, -⟩ | ⟨-, h1⟩
    · exact absurd h1.1.valid.1 (by omega)
    · exact absurd h1.1.valid.1 (by omega)
    · exact h1
  · rw [if_neg h0]
    obtain ⟨e, he, hi, -, -⟩ := (hs _).dequeue_eq (has_pick h0)
    have hen : e.signo = (pick t mask g).1 := by
      have : e ∈ instances (pick t mask g).1 (queueAt g (pick t mask g).2).siginfo_list := by
        simp [hi]
      simpa [instances] using (mem_filter.1 this).2
    refine .inl ⟨?_, e, he, hen⟩
    rcases pick_spec t mask g with ⟨h1, h2, -⟩ | ⟨h1, h2, h3, -⟩ | ⟨h1, -⟩
    · exact .inl ⟨h1, h2⟩
    · exact .inr ⟨h1, h2, h3⟩
    · exact absurd h1 h0

end

theorem Inv.exact (h : Inv w) : Exact w := by
  refine ⟨fun p => (h.sound p).bits, fun t => ⟨signal_dequeue_lowest h.sound t, ?_⟩, h.order,
    h.single⟩
  rw [signal_collect_eq]
  exact signal_dequeue_lowest h.sound t _

/-! ## Calls and runs -/

/-- What a dequeue leads to, and when it is as expected. -/
theorem deliver_exact_iff (h : Inv w) (t : θ) (mask : Sigset) :
    (Exact (w.deliver (pick t mask w.g).2 (signal_dequeue t mask w.g)) ↔
      Careful w (.dequeue t mask)) ∧ (Careful w (.dequeue t mask) →
      Inv (w.deliver (pick t mask w.g).2 (signal_dequeue t mask w.g))) := by
  rw [signal_dequeue_eq]
  by_cases h0 : (pick t mask w.g).1 = 0
  · rw [if_pos h0]
    have hw : w.deliver (pick t mask w.g).2 (0, none, w.g) = w := by simp [World.deliver]
    have hc : Careful w (.dequeue t mask) := fun hn => absurd hn (by rw [h0]; decide)
    rw [hw]
    exact ⟨iff_of_true h.exact hc, fun _ => h⟩
  · rw [if_neg h0]
    have hhas := has_pick h0
    have hinv : Careful w (.dequeue t mask) → Inv (w.deliver (pick t mask w.g).2
        ((pick t mask w.g).1,
          (sigqueue_dequeue_single (queueAt w.g (pick t mask w.g).2) (pick t mask w.g).1).1,
          setQueue w.g (pick t mask w.g).2
            (sigqueue_dequeue_single (queueAt w.g (pick t mask w.g).2)
              (pick t mask w.g).1).2)) := by
      intro hc
      obtain ⟨e, he, -, hi⟩ := h.dequeue hhas hc
      rw [World.deliver, he]
      exact hi
    refine ⟨⟨fun hx hrt => ?_, fun hc => (hinv hc).exact⟩, hinv⟩
    by_contra htwo
    obtain ⟨e, he, hi, -, -⟩ := (h.sound _).dequeue_eq hhas
    obtain ⟨f, hf, hlt⟩ := not_order_of_two h hhas (by omega) he
    have hen : e.signo = (pick t mask w.g).1 := by
      have : e ∈ instances (pick t mask w.g).1 (queueAt w.g (pick t mask w.g).2).siginfo_list := by
        simp [hi]
      simpa [instances] using (mem_filter.1 this).2
    -- the newer instance is delivered, and the older one is still pending
    refine absurd ((hx.order (pick t mask w.g).2 _ hrt).2 e ?_ f ?_) (by omega)
    · simp [World.deliveredOf, World.deliver, he, hen]
    · simpa [World.pendingOf, World.deliver, queueAt_setQueue] using hf

theorem Inv.prepare (h : Inv w) (t : θ) (signo : ℤ) (p : Place θ) :
    Sound (queueAt (signal_send_prepare t signo w.g).2 p) ∧
      (queueAt (signal_send_prepare t signo w.g).2 p).siginfo_list.Sublist
        (queueAt w.g p).siginfo_list := by
  rcases signal_send_prepare_queue signo p with hq | ⟨set, -, hq⟩
  · rw [hq]
    exact ⟨h.sound p, .refl _⟩
  · rw [hq]
    exact ⟨(h.sound p).remove set, sigqueue_remove_sublist set _⟩

/-- None of those that are removed has the number that is sent. -/
theorem has_prepare (t : θ) (signo : ℤ) (g : Group θ ℕ) (p : Place θ) :
    Has (queueAt (signal_send_prepare t signo g).2 p).sigset_pending signo.toNat ↔
      Has (queueAt g p).sigset_pending signo.toNat := by
  rcases signal_send_prepare_queue signo p with hq | ⟨set, hset, hq⟩
  · rw [hq]
  · rw [hq, has_remove]
    simp [hset]

theorem send_exact_iff (h : Inv w) (malloced : Bool) (t : θ) (signo : ℤ) (flag : Target)
    (hr : (Op.send malloced t signo flag).run w = some w') :
    (Exact w' ↔ Careful w (.send malloced t signo flag)) ∧
      (Careful w (.send malloced t signo flag) → Inv w') := by
  cases hr
  have hprep := h.prepare t signo
  have hhas := has_prepare t signo w.g
  have hvalid := valid_of_send_prepare t signo w.g
  simp only [signal_send, Careful]
  generalize signal_send_prepare t signo w.g = r at hprep hhas hvalid
  obtain ⟨ret, g⟩ := r
  cases ret with
  | some ret =>
    have hi := h.shrink (le_succ _) hprep
    exact ⟨iff_of_true hi.exact (fun _ h' => absurd h' (by simp)), fun _ => hi⟩
  | none =>
    cases malloced with
    | false =>
      have hi := h.shrink (le_succ _) hprep
      exact ⟨iff_of_true hi.exact (fun h' => absurd h' (by simp)), fun _ => hi⟩
    | true =>
      have hi : Inv { w with g := g } := h.shrink (Nat.le_refl _) hprep
      have hv := hvalid rfl
      have hq : ∀ p', queueAt (signal_deliver flag t ⟨signo.toNat, w.sent⟩ g) p' =
          if p' = place flag t then sigqueue_enqueue (queueAt g p') ⟨signo.toNat, w.sent⟩
          else queueAt g p' := fun p' => queueAt_deliver
      have hinv : (signo < SIGRTMIN → ¬Has (queueAt w.g (place flag t)).sigset_pending
        signo.toNat) →
          Inv { w with
            g := signal_deliver flag t ⟨signo.toNat, w.sent⟩ g
            sent := w.sent + 1 } := by
        intro hc
        refine hi.enqueue hv (fun hlt => ?_) hq
        rw [hhas]
        exact hc (by omega)
      simp only [if_true, forall_const] at hinv ⊢
      refine ⟨⟨fun hx hlt hpend => ?_, fun hc => (hinv hc).exact⟩, hinv⟩
      -- there are two of the standard signal now
      obtain ⟨e, he, hen⟩ := ((hi.sound _).bits _).1 ((hhas _).2 hpend)
      have hpos := hv.1
      have hone := hx.single (place flag t) signo.toNat (by omega)
      have hmem : e ∈ instances signo.toNat (queueAt g (place flag t)).siginfo_list :=
        mem_filter.2 ⟨he, by simpa using hen⟩
      have hlen := length_pos_of_mem hmem
      simp only [World.pendingOf, hq, if_true, sigqueue_enqueue_list, instances,
        filter_cons, decide_true, length_cons] at hone hlen
      omega

theorem run_exact_iff (h : Inv w) {op : Op θ} (hr : op.run w = some w') :
    (Exact w' ↔ Careful w op) ∧ (Careful w op → Inv w') := by
  cases op with
  | send malloced t signo flag => exact send_exact_iff h malloced t signo flag hr
  | dequeue t mask =>
    cases hr
    exact deliver_exact_iff h t mask
  | collect t =>
    cases hr
    rw [signal_collect_eq]
    exact deliver_exact_iff h t _
  | remove p set =>
    cases hr
    have hi : Inv { w with g := setQueue w.g p (sigqueue_remove set (queueAt w.g p)) } := by
      refine h.shrink (Nat.le_refl _) fun p' => ?_
      rw [queueAt_setQueue]
      split_ifs with hp
      · subst hp
        exact ⟨(h.sound p').remove set, sigqueue_remove_sublist set _⟩
      · exact ⟨h.sound p', .refl _⟩
    exact ⟨iff_of_true hi.exact trivial, fun _ => hi⟩
  | discard p set =>
    obtain ⟨q, hq, rfl⟩ := map_eq_some_iff.1 hr
    obtain ⟨q', hq', hs, hsub, -⟩ := (h.sound p).discard set (lt_succ_self _)
    cases hq.symm.trans hq'
    have hi : Inv { w with g := setQueue w.g p q } := by
      refine h.shrink (Nat.le_refl _) fun p' => ?_
      rw [queueAt_setQueue]
      split_ifs with hp
      · subst hp
        exact ⟨hs, hsub⟩
      · exact ⟨h.sound p', .refl _⟩
    exact ⟨iff_of_true hi.exact trivial, fun _ => hi⟩

theorem Inv.step (h : Inv w) (hs : Step Careful w w') : Inv w' := by
  cases hs with
  | call op hok hr => exact (run_exact_iff h hr).2 hok
  | other g hg =>
    refine h.shrink (Nat.le_refl _) fun p => ?_
    rw [hg p]
    exact ⟨h.sound p, .refl _⟩

theorem exists_run (h : Inv w) (op : Op θ) : ∃ w', op.run w = some w' := by
  cases op with
  | discard p set =>
    obtain ⟨q', hq', -⟩ := (h.sound p).discard set (lt_succ_self _)
    exact ⟨_, by rw [Op.run, hq']; rfl⟩
  | _ => exact ⟨_, rfl⟩

/-- No signal is pending, and none was sent. -/
structure Start (w : World θ) : Prop where
  empty : ∀ p, queueAt w.g p = init
  delivered : w.delivered = []

theorem Start.inv (h : Start w) : Inv w := by
  have hd : ∀ p n, w.deliveredOf p n = [] := by simp [World.deliveredOf, h.delivered]
  refine ⟨fun p => ?_, fun p => ?_, fun p => ?_, ?_, fun p n _ => ?_, fun p n _ => ?_⟩
  · rw [h.empty]
    exact ⟨by simp [init], by simp [init]⟩
  · simp [h.empty, init]
  · simp [h.empty, init]
  · simp [h.delivered]
  · simp [hd]
  · simp [World.pendingOf, h.empty, init, instances]

/-- **Which calls keep the order of signals.**  From empty queues, in every run of sends that queue
no standard signal which is pending, of dequeues that take a real-time signal only if it is the one
instance, and of removals: the set of a queue is that of its list, a dequeue returns the lowest
signal that is not masked, the thread's own before the shared ones, instances of a real-time signal
are delivered in the order of sending, and no standard signal is queued twice.  And in every state
of such a run, every call returns, and it keeps to this exactly if it is such a call. -/
theorem pending_queue_exact {w₀ w : World θ} (h₀ : Start w₀)
    (hr : ReflTransGen (Step Careful) w₀ w) :
    Exact w ∧ ∀ op : Op θ, ∃ w', op.run w = some w' ∧ (Exact w' ↔ Careful w op) := by
  have hi : Inv w := by
    induction hr with
    | refl => exact h₀.inv
    | tail _ hs ih => exact ih.step hs
  refine ⟨hi.exact, fun op => ?_⟩
  obtain ⟨w', hw'⟩ := exists_run hi op
  exact ⟨w', hw', (run_exact_iff hi hw').1⟩

/-! ## Runs -/

/-- One thread, which handles every signal. -/
def start : World (Fin 1) where
  g :=
    { thread_group := [0]
      thread := fun _ => .idle
      shared := init
      sig_action := fun _ => .handler 0 false false
      jobctl := ⟨false, false, 0⟩
      jobctl_stopped := false
      exiting := false }
  sent := 0
  delivered := []

theorem start_start : Start start := by
  refine ⟨fun p => ?_, rfl⟩
  cases p <;> rfl

instance (w : World θ) : DecidablePred (Careful w)
  | .send .. => inferInstanceAs (Decidable (_ → _ → _ → _))
  | .dequeue .. => inferInstanceAs (Decidable (_ → _))
  | .collect _ => inferInstanceAs (Decidable (_ → _))
  | .remove .. => inferInstanceAs (Decidable True)
  | .discard .. => inferInstanceAs (Decidable True)

/-- A careful call. -/
def next (w : World θ) (op : Op θ) : Option (World θ) := if Careful w op then op.run w else none

theorem step_of_next (w : World θ) (op : Op θ) (w' : World θ) (h : next w op = some w') :
    Step Careful w w' := by
  unfold next at h
  split_ifs at h with hok
  exact .call op hok h

/-- Signal 40 is sent to the thread and to the process, and both are dequeued, the thread's first;
then signal 10 is sent, and removed. -/
theorem pending_queue_exact_two :
    ∃ w : World (Fin 1), w.delivered = [(some 0, ⟨40, 1⟩), (none, ⟨40, 0⟩)] ∧ Exact w := by
  obtain ⟨w, hw, hd⟩ : ∃ w, ReflTransGen (Step Careful) start w ∧
      w.delivered = [(some 0, ⟨40, 1⟩), (none, ⟨40, 0⟩)] :=
    exists_exec step_of_next
      [.send true 0 40 .TO_PROCESS, .send true 0 40 .TO_THREAD, .dequeue 0 0, .collect 0,
        .send true 0 10 .TO_THREAD, .remove (some 0) (sigmask 10), .discard none (sigmask 40)]
      (by decide +kernel)
  exact ⟨w, hd, (pending_queue_exact start_start hw).1⟩

/-- **Real-time signals are delivered last in, first out, and standard signals are queued twice.**
Signal 40 is sent twice to a thread, and the second instance is dequeued first; signal 10 is sent
twice, and is pending twice. -/
theorem pending_queue_breaks :
    (∃ w : World (Fin 1), ReflTransGen (Step fun _ _ => True) start w ∧
      w.deliveredOf (some 0) 40 = [⟨40, 1⟩, ⟨40, 0⟩] ∧ ¬Exact w) ∧
    ∃ w : World (Fin 1), ReflTransGen (Step fun _ _ => True) start w ∧
      w.pendingOf (some 0) 10 = [⟨10, 1⟩, ⟨10, 0⟩] ∧ ¬Exact w := by
  have hstep : ∀ (w : World (Fin 1)) op w', Op.run w op = some w' → Step (fun _ _ => True) w w' :=
    fun w op w' h => .call op trivial h
  constructor
  · obtain ⟨w, hw, hd⟩ : ∃ w : World (Fin 1), ReflTransGen (Step fun _ _ => True) start w ∧
        w.deliveredOf (some 0) 40 = [⟨40, 1⟩, ⟨40, 0⟩] :=
      exists_exec hstep
        [.send true 0 40 .TO_THREAD, .send true 0 40 .TO_THREAD, .dequeue 0 0, .dequeue 0 0]
        (by decide +kernel)
    refine ⟨w, hw, hd, fun hx => ?_⟩
    have := (hx.order (some 0) 40 (by decide)).1
    rw [hd] at this
    exact absurd this (by decide)
  · obtain ⟨w, hw, hp⟩ : ∃ w : World (Fin 1), ReflTransGen (Step fun _ _ => True) start w ∧
        w.pendingOf (some 0) 10 = [⟨10, 1⟩, ⟨10, 0⟩] :=
      exists_exec hstep [.send true 0 10 .TO_THREAD, .send true 0 10 .TO_THREAD] (by decide +kernel)
    refine ⟨w, hw, hp, fun hx => ?_⟩
    have := hx.single (some 0) 10 (by decide)
    rw [hp] at this
    exact absurd this (by decide)

end Intewell.Signal.Order
