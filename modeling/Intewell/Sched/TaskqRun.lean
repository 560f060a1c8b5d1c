/-
# Whole runs of a priority wait queue

The callers are recorded beside the queue: `live` are the tasks that were enqueued and
neither dequeued nor extracted, and `since` numbers the last time at which a task was
enqueued or its priority was set.  Priorities of tasks outside of the queue may change.

Setting the priority of a queued task puts it behind the tasks of that priority even if
it had this priority before (`taskq_same_priority`).
-/

import Intewell.Sched.Basic
import Intewell.Sched.TaskqOps

namespace Intewell.Sched.Taskq

open List
open Option (bind_eq_some_iff)
open Linked (Links Rings Free Seg)
open Function Node

variable {τ : Type*} [DecidableEq τ]

/-- The queue and its tasks, with the running number of the last time each was enqueued
or had its priority set. -/
structure World (τ : Type*) where
  st : TaskQueue τ
  live : Set τ
  since : τ → ℕ
  now : ℕ

/-- One call, or a change of priority of a task that is not in the queue. -/
inductive Step : World τ → World τ → Prop where
  | enqueue {w st'} (t : τ) (ht : t ∉ w.live) (hp : w.st.taskCurPriority t < 256)
      (h : Returns (fun n => ttosEnqueuePriority n t w.st) st') :
      Step w ⟨st', insert t w.live, update w.since t w.now, w.now + 1⟩
  | dequeue {w r st'} (h : ttosDequeuePriority w.st = some (r, st')) :
      Step w ⟨st', {t | t ∈ w.live ∧ r ≠ some t}, w.since, w.now⟩
  | extract {w L'} (t : τ) (ht : t ∈ w.live)
      (h : Returns (fun n => ttosExtractPriority n t w.st.links) L') :
      Step w ⟨⟨L', w.st.taskCurPriority⟩, w.live \ {t}, w.since, w.now⟩
  | change {w st'} (t : τ) (p : ℕ) (ht : t ∈ w.live) (hp : p < 256)
      (h : Returns (fun n => taskChangePriority n t p w.st) st') :
      Step w ⟨st', w.live, update w.since t w.now, w.now + 1⟩
  | outside {w} (t : τ) (p : ℕ) (ht : t ∉ w.live) :
      Step w { w with st := ⟨w.st.links, update w.st.taskCurPriority t p⟩ }

/-- The initialised queue. -/
structure Start (w : World τ) : Prop where
  headers : ∀ i < 4, w.st.links.next (header i) = header i ∧ w.st.links.prev (header i) = header i
  unlinked : ∀ t, w.st.links.next (resource t) = null
  live : w.live = ∅

/-- `t` is to be dequeued before `u`: it is more urgent, or as urgent and longer there. -/
def Before (prio since : τ → ℕ) (t u : τ) : Prop :=
  prio t < prio u ∨ (prio t = prio u ∧ since t < since u)

/-- The nodes hold the live tasks, each once; dequeuing returns the one before all others,
and `NULL` if there is none; and every call returns. -/
structure Sound (w : World τ) : Prop where
  contains : ∃ lead chain q, Rep w.st lead chain q ∧ ∀ t, t ∈ q ↔ t ∈ w.live
  dequeue : (w.live = ∅ ∧ ttosDequeuePriority w.st = some (none, w.st)) ∨
    ∃ t ∈ w.live, ∃ st', ttosDequeuePriority w.st = some (some t, st') ∧
      ∀ u ∈ w.live, u ≠ t → Before w.st.taskCurPriority w.since t u
  enqueue : ∀ t ∉ w.live, w.st.taskCurPriority t < 256 →
    ∃ st', Returns (fun n => ttosEnqueuePriority n t w.st) st'
  extract : ∀ t ∈ w.live, ∃ L', Returns (fun n => ttosExtractPriority n t w.st.links) L'
  change : ∀ t ∈ w.live, ∀ p < 256, ∃ st', Returns (fun n => taskChangePriority n t p w.st) st'

/-- The queue in order, and its tasks by urgency and then by time. -/
structure Ordered (w : World τ) (q : List τ) : Prop where
  rep : ∃ lead chain, Rep w.st lead chain q
  live : ∀ t, t ∈ q ↔ t ∈ w.live
  sorted : q.Pairwise (Before w.st.taskCurPriority w.since)
  old : ∀ t ∈ q, w.since t < w.now

variable {w w' : World τ} {q q' : List τ} {prio since : τ → ℕ} {t u : τ}

omit [DecidableEq τ] in
theorem Before.congr {prio' since' : τ → ℕ} (h : Before prio since t u) (ht : prio' t = prio t)
    (hu : prio' u = prio u) (ht' : since' t = since t) (hu' : since' u = since u) :
    Before prio' since' t u := by
  unfold Before at *
  rw [ht, hu, ht', hu']
  exact h

/-- A task that is put behind all that are at least as urgent, later than they were. -/
theorem sorted_of_enqueued (hq : Enqueued prio t q q') (hs : q.Pairwise (Before prio since))
    {now : ℕ} (hold : ∀ u ∈ q, since u < now) (ht : t ∉ q) :
    q'.Pairwise (Before prio (update since t now)) := by
  obtain ⟨X, Y, rfl, rfl, hX, hY⟩ := hq
  have hsince : ∀ u ∈ X ++ Y, update since t now u = since u := fun u hu =>
    update_of_ne (ne_of_mem_of_not_mem hu ht) _ _
  have hs' : (X ++ Y).Pairwise (Before prio (update since t now)) :=
    hs.imp_of_mem fun hu hv h => h.congr rfl rfl (hsince _ hu) (hsince _ hv)
  obtain ⟨hsX, hsY, hXY⟩ := pairwise_append.1 hs'
  refine pairwise_append.2 ⟨hsX, pairwise_cons.2 ⟨fun y hy => .inl (hY y hy), hsY⟩, ?_⟩
  intro x hx y hy
  rcases mem_cons.1 hy with rfl | hy
  · rcases Nat.lt_or_eq_of_le (hX x hx) with h | h
    · exact .inl h
    · refine .inr ⟨h, ?_⟩
      rw [hsince x (mem_append_left Y hx), update_self]
      exact hold x (mem_append_left Y hx)
  · exact hXY x hx y hy

section

omit [DecidableEq τ]

theorem mem_of_enqueued (hq : Enqueued prio t q q') : u ∈ q' ↔ u = t ∨ u ∈ q := by
  obtain ⟨X, Y, rfl, rfl, -, -⟩ := hq
  rw [← mem_cons]
  exact perm_middle.mem_iff

theorem Ordered.start (hw : Start w) : Ordered w [] := by
  refine ⟨⟨fun _ => [], fun _ => [], ?_⟩, by simp [hw.live], .nil, by simp⟩
  have hheads : ∀ h ∈ heads ([] : List τ), ∃ i < 4, h = header i := by
    rintro h (hh | ⟨t, ht, -⟩)
    · exact hh
    · simp at ht
  have hcont : ∀ h : Node τ, content (fun _ => []) (fun _ => []) h = [] := by
    rintro (_ | i | t | t) <;> rfl
  refine ⟨⟨⟨fun h hh => ?_, ?_, ?_, ?_⟩, ?_, fun t _ => hw.unlinked t⟩, ?_, .nil, ?_, ?_, ?_, ?_⟩
  · obtain ⟨i, hi, rfl⟩ := hheads h hh
    exact hw.headers i hi
  · exact fun h hh => by simp [hcont]
  · exact fun h hh => by simp [hcont]
  · exact fun h hh h' hh' => by simp [hcont]
  · intro h hh z hz
    obtain ⟨i, hi, rfl⟩ := hheads h hh
    rw [hcont, mem_singleton] at hz
    simp [hz]
  · simp [flat, groups]
  all_goals simp

end

theorem Ordered.enqueue (h : Ordered w q) (ht : t ∉ w.live) (hp : w.st.taskCurPriority t < 256) :
    ∃ st' q', (∀ n, q.length + 1 ≤ n → ttosEnqueuePriority n t w.st = some st') ∧
      Ordered ⟨st', insert t w.live, update w.since t w.now, w.now + 1⟩ q' := by
  obtain ⟨lead, chain, hr⟩ := h.rep
  have htq : t ∉ q := fun hm => ht ((h.live t).1 hm)
  obtain ⟨L', lead', chain', q', heq, hr', hq'⟩ := hr.ttosEnqueuePriority htq hp
  refine ⟨_, q', heq, ⟨lead', chain', hr'⟩, fun u => ?_,
    sorted_of_enqueued hq' h.sorted h.old htq, fun u hu => ?_⟩
  · rw [mem_of_enqueued hq', Set.mem_insert_iff, h.live]
  · rcases (mem_of_enqueued hq').1 hu with rfl | hu
    · simp
    · simpa [ne_of_mem_of_not_mem hu htq] using Nat.lt_succ_of_lt (h.old u hu)

theorem Ordered.change (h : Ordered w q) (ht : t ∈ w.live) {p : ℕ} (hp : p < 256) :
    ∃ st' q', (∀ n, q.length + 1 ≤ n → taskChangePriority n t p w.st = some st') ∧
      Ordered ⟨st', w.live, update w.since t w.now, w.now + 1⟩ q' := by
  obtain ⟨lead, chain, hr⟩ := h.rep
  obtain ⟨L', lead', chain', q1, q', heq, hr', hrem, hq'⟩ :=
    hr.taskChangePriority ((h.live t).2 ht) hp
  obtain ⟨X, Y, rfl, rfl⟩ := hrem
  have hmem := Rep.removed_mem rfl hr.nodup
  have ht1 : t ∉ X ++ Y := fun hm => ((hmem t).1 hm).1 rfl
  have hold : ∀ u ∈ X ++ Y, w.since u < w.now := fun u hu => h.old u ((hmem u).1 hu).2
  have hsorted : (X ++ Y).Pairwise (Before (update w.st.taskCurPriority t p) w.since) := by
    refine (h.sorted.sublist ((List.Sublist.refl X).append (sublist_cons_self t Y))).imp_of_mem ?_
    intro u v hu hv huv
    exact huv.congr (update_of_ne (ne_of_mem_of_not_mem hu ht1) _ _)
      (update_of_ne (ne_of_mem_of_not_mem hv ht1) _ _) rfl rfl
  refine ⟨_, q', heq, ⟨lead', chain', hr'⟩, fun u => ?_,
    sorted_of_enqueued hq' hsorted hold ht1, fun u hu => ?_⟩
  · rw [mem_of_enqueued hq', hmem, ← h.live]
    refine ⟨fun hu => hu.elim (fun he => he ▸ (h.live t).2 ht) And.right, fun hu => ?_⟩
    by_cases he : u = t
    · exact .inl he
    · exact .inr ⟨he, hu⟩
  · rcases (mem_of_enqueued hq').1 hu with rfl | hu
    · simp
    · simpa [ne_of_mem_of_not_mem hu ht1] using Nat.lt_succ_of_lt (hold u hu)

theorem Ordered.extract (h : Ordered w q) (ht : t ∈ w.live) :
    ∃ L' q', (∀ n, q.length + 1 ≤ n → ttosExtractPriority n t w.st.links = some L') ∧
      Ordered ⟨⟨L', w.st.taskCurPriority⟩, w.live \ {t}, w.since, w.now⟩ q' := by
  obtain ⟨lead, chain, hr⟩ := h.rep
  obtain ⟨L', lead', chain', q', heq, hr', hrem⟩ := hr.ttosExtractPriority ((h.live t).2 ht)
  obtain ⟨X, Y, rfl, rfl⟩ := hrem
  have hmem := Rep.removed_mem rfl hr.nodup
  refine ⟨L', X ++ Y, heq, ⟨lead', chain', hr'⟩, fun u => ?_,
    h.sorted.sublist ((List.Sublist.refl X).append (sublist_cons_self t Y)),
    fun u hu => h.old u ((hmem u).1 hu).2⟩
  rw [hmem, h.live, Set.mem_sdiff, Set.mem_singleton_iff, and_comm]

theorem Ordered.dequeue (h : Ordered w (t :: q)) :
    ∃ st', ttosDequeuePriority w.st = some (some t, st') ∧
      Ordered ⟨st', {u | u ∈ w.live ∧ some t ≠ some u}, w.since, w.now⟩ q := by
  obtain ⟨lead, chain, hr⟩ := h.rep
  obtain ⟨L', lead', chain', heq, hr'⟩ := hr.ttosDequeuePriority
  obtain ⟨ht, -⟩ := nodup_cons.1 hr.nodup
  refine ⟨_, heq, ⟨lead', chain', hr'⟩, fun u => ?_, h.sorted.of_cons, fun u hu =>
    h.old u (.tail t hu)⟩
  simp only [Set.mem_ofPred_eq, ← h.live, mem_cons, ne_eq, Option.some.injEq]
  constructor
  · exact fun hu => ⟨.inr hu, fun he => ht (he ▸ hu)⟩
  · rintro ⟨rfl | hu, hne⟩
    · exact absurd rfl hne
    · exact hu

theorem Ordered.dequeue_nil (h : Ordered w []) : ttosDequeuePriority w.st = some (none, w.st) := by
  obtain ⟨lead, chain, hr⟩ := h.rep
  rcases hr.first with ⟨-, hnull⟩ | ⟨i, hi, t, B, -, -, hq⟩
  · simp [Sched.ttosDequeuePriority, hnull]
  · simp at hq

theorem Step.ordered (hs : Step w w') (h : ∃ q, Ordered w q) : ∃ q, Ordered w' q := by
  obtain ⟨q, h⟩ := h
  cases hs with
  | enqueue t ht hp hret =>
    obtain ⟨st', q', heq, h'⟩ := h.enqueue ht hp
    exact ⟨q', hret.eq heq ▸ h'⟩
  | dequeue hret =>
    cases q with
    | nil =>
      rw [h.dequeue_nil] at hret
      cases hret
      exact ⟨[], by simpa using h⟩
    | cons t q =>
      obtain ⟨st', heq, h'⟩ := h.dequeue
      rw [heq] at hret
      cases hret
      exact ⟨q, h'⟩
  | extract t ht hret =>
    obtain ⟨L', q', heq, h'⟩ := h.extract ht
    exact ⟨q', hret.eq heq ▸ h'⟩
  | change t p ht hp hret =>
    obtain ⟨st', q', heq, h'⟩ := h.change ht hp
    exact ⟨q', hret.eq heq ▸ h'⟩
  | outside t p ht =>
    obtain ⟨lead, chain, hr⟩ := h.rep
    have hne : ∀ u ∈ q, update w.st.taskCurPriority t p u = w.st.taskCurPriority u := fun u hu =>
      update_of_ne (ne_of_mem_of_not_mem ((h.live u).1 hu) ht) _ _
    exact ⟨q, ⟨lead, chain, hr.congr_prio hne⟩, h.live,
      h.sorted.imp_of_mem fun hu hv huv => huv.congr (hne _ hu) (hne _ hv) rfl rfl, h.old⟩

theorem Ordered.sound (h : Ordered w q) : Sound w := by
  obtain ⟨lead, chain, hr⟩ := h.rep
  refine ⟨⟨lead, chain, q, hr, h.live⟩, ?_, fun t ht hp => ?_, fun t ht => ?_, fun t ht p hp => ?_⟩
  · cases q with
    | nil =>
      refine .inl ⟨Set.eq_empty_of_forall_notMem fun t ht => ?_, h.dequeue_nil⟩
      simpa using (h.live t).2 ht
    | cons t q =>
      obtain ⟨st', heq, -⟩ := h.dequeue
      refine .inr ⟨t, (h.live t).1 (.head q), st', heq, fun u hu hne => ?_⟩
      exact (pairwise_cons.1 h.sorted).1 u ((mem_cons.1 ((h.live u).2 hu)).resolve_left hne)
  · obtain ⟨st', q', heq, -⟩ := h.enqueue ht hp
    exact ⟨st', _, heq⟩
  · obtain ⟨L', q', heq, -⟩ := h.extract ht
    exact ⟨L', _, heq⟩
  · obtain ⟨st', q', heq, -⟩ := h.change ht hp
    exact ⟨st', _, heq⟩

/-- **A priority wait queue is a stable priority queue.**  In every run from the
initialised queue the lists hold the tasks that were enqueued and not taken out, each
once; dequeuing returns the most urgent of them and, of several, the one whose last
enqueuing or change of priority lies furthest back, and `NULL` only if there is none. -/
theorem taskq_runs {w₀ w : World τ} (hw : Start w₀) (run : Relation.ReflTransGen Step w₀ w) :
    Sound w := by
  have h : ∃ q, Ordered w q := by
    induction run with
    | refl => exact ⟨[], Ordered.start hw⟩
    | tail _ hs ih => exact hs.ordered ih
  exact h.choose_spec.sound

/-- The initialised queue, with all tasks at priority 5. -/
def emptyQueue : TaskQueue ℕ where
  links :=
    { next := fun | header i => header i | _ => null
      prev := fun | header i => header i | _ => null }
  taskCurPriority := fun _ => 5

theorem emptyQueue_start : Start (⟨emptyQueue, ∅, fun _ => 0, 0⟩ : World ℕ) :=
  ⟨fun _ _ => ⟨rfl, rfl⟩, fun _ => rfl, rfl⟩

omit [DecidableEq τ] in
theorem search_mono {follow : Node τ → Node τ} {stop : τ → Prop} [DecidablePred stop] {n m : ℕ}
    {x r : Node τ} (h : search follow stop n x = some r) (hnm : n ≤ m) :
    search follow stop m x = some r := by
  induction n generalizing m x with
  | zero => simp [search] at h
  | succ n ih =>
    obtain ⟨m, rfl⟩ := Nat.exists_eq_succ_of_ne_zero (by omega : m ≠ 0)
    cases x with
    | resource t =>
      rw [search] at h ⊢
      split_ifs at h ⊢ with hstop
      · exact h
      · exact ih h (Nat.le_of_succ_le_succ hnm)
    | _ => exact h

theorem moveChain_mono {src dst : Node τ} {n m : ℕ} {L L' : Links (Node τ)}
    (h : moveChain src dst n L = some L') (hnm : n ≤ m) : moveChain src dst m L = some L' := by
  induction n generalizing m L with
  | zero => simp [moveChain] at h
  | succ n ih =>
    obtain ⟨m, rfl⟩ := Nat.exists_eq_succ_of_ne_zero (by omega : m ≠ 0)
    rw [moveChain] at h ⊢
    split_ifs at h ⊢ with hempty
    · exact h
    · obtain ⟨x, hx, h⟩ := bind_eq_some_iff.1 h
      obtain ⟨y, hy, h⟩ := bind_eq_some_iff.1 h
      exact bind_eq_some_iff.2 ⟨x, hx,
        bind_eq_some_iff.2 ⟨y, hy, ih h (Nat.le_of_succ_le_succ hnm)⟩⟩

theorem enqueue_mono {s s' : TaskQueue τ} {n m : ℕ} (h : ttosEnqueuePriority n t s = some s')
    (hnm : n ≤ m) : ttosEnqueuePriority m t s = some s' := by
  rw [ttosEnqueuePriority] at h ⊢
  split_ifs at h ⊢ with hhalf
  · obtain ⟨L, hL, h⟩ := bind_eq_some_iff.1 h
    obtain ⟨r, hr, hL⟩ := bind_eq_some_iff.1 hL
    exact bind_eq_some_iff.2 ⟨L, bind_eq_some_iff.2 ⟨r, search_mono hr hnm, hL⟩, h⟩
  · obtain ⟨L, hL, h⟩ := bind_eq_some_iff.1 h
    obtain ⟨r, hr, hL⟩ := bind_eq_some_iff.1 hL
    exact bind_eq_some_iff.2 ⟨L, bind_eq_some_iff.2 ⟨r, search_mono hr hnm, hL⟩, h⟩

theorem extract_mono {L L' : Links (Node τ)} {n m : ℕ} (h : ttosExtractPriority n t L = some L')
    (hnm : n ≤ m) : ttosExtractPriority m t L = some L' := by
  rw [ttosExtractPriority] at h ⊢
  split_ifs at h ⊢ with hnull hempty
  · obtain ⟨⟨x, L₂⟩, hx, h⟩ := bind_eq_some_iff.1 h
    refine bind_eq_some_iff.2 ⟨⟨x, L₂⟩, hx, ?_⟩
    cases x with
    | resource t' =>
      obtain ⟨y, hy, h⟩ := bind_eq_some_iff.1 h
      obtain ⟨z, hz, h⟩ := bind_eq_some_iff.1 h
      exact bind_eq_some_iff.2 ⟨y, hy, bind_eq_some_iff.2 ⟨z, moveChain_mono hz hnm, h⟩⟩
    | _ => exact h
  · exact h
  · exact h

theorem change_mono {s s' : TaskQueue τ} {n m p : ℕ} (h : taskChangePriority n t p s = some s')
    (hnm : n ≤ m) : taskChangePriority m t p s = some s' := by
  rw [taskChangePriority] at h ⊢
  obtain ⟨L, hL, h⟩ := bind_eq_some_iff.1 h
  exact bind_eq_some_iff.2 ⟨L, extract_mono hL hnm, enqueue_mono h hnm⟩

theorem enqueue_prio {s s' : TaskQueue τ} {n : ℕ} (h : ttosEnqueuePriority n t s = some s') :
    s'.taskCurPriority = s.taskCurPriority := by
  rw [ttosEnqueuePriority] at h
  split_ifs at h with hhalf
  all_goals
    obtain ⟨L, -, h⟩ := bind_eq_some_iff.1 h
    rw [← Option.some.inj h]

/-- Two tasks at priority 5, one at 200 and another at 5 are enqueued.  The first is dequeued, the
one at 200 is set to 5 and the last one extracted: of the two that are left, the one that had its
priority all the time is the next. -/
theorem taskq_runs_four : ∃ w : World ℕ,
    Relation.ReflTransGen Step ⟨emptyQueue, ∅, fun _ => 0, 0⟩ w ∧
      (∀ t, t ∈ w.live ↔ t = 1 ∨ t = 2) ∧
    Sound w ∧ (ttosDequeuePriority w.st).map Prod.fst = some (some 1) := by
  have hcalls : ((ttosEnqueuePriority 5 0
    ⟨emptyQueue.links, update emptyQueue.taskCurPriority 2 200⟩).bind
      fun s => (ttosEnqueuePriority 5 1 s).bind fun s => (ttosEnqueuePriority 5 2 s).bind
      fun s => (ttosEnqueuePriority 5 3 s).bind fun s => (ttosDequeuePriority s).bind
      fun r => (taskChangePriority 5 2 5 r.2).bind fun s => (ttosExtractPriority 5 3 s.links).bind
      fun L => (ttosDequeuePriority ⟨L, s.taskCurPriority⟩).map fun r' => (r.1, r'.1)) =
      some (some 0, some 1) := by decide +kernel
  simp only [bind_eq_some_iff, Option.map_eq_some_iff] at hcalls
  obtain ⟨s₁, h₁, s₂, h₂, s₃, h₃, s₄, h₄, ⟨r, s₅⟩, h₅, s₆, h₆, L, h₇, r', h₈, hr⟩ := hcalls
  obtain ⟨rfl, hr'⟩ := Prod.mk.inj hr
  have p₁ := enqueue_prio h₁
  have p₂ := (enqueue_prio h₂).trans p₁
  have p₃ := (enqueue_prio h₃).trans p₂
  have hrun : Relation.ReflTransGen Step (⟨emptyQueue, ∅, fun _ => 0, 0⟩ : World ℕ) _ :=
    Relation.ReflTransGen.refl.tail (.outside 2 200 (by simp))
      |>.tail (.enqueue 0 (by simp) (by decide) ⟨5, fun _ hn => enqueue_mono h₁ hn⟩)
      |>.tail (.enqueue 1 (by simp) (by simp [p₁, emptyQueue]) ⟨5, fun _ hn => enqueue_mono h₂ hn⟩)
      |>.tail (.enqueue 2 (by simp) (by simp [p₂]) ⟨5, fun _ hn => enqueue_mono h₃ hn⟩)
      |>.tail (.enqueue 3 (by simp) (by simp [p₃, emptyQueue]) ⟨5, fun _ hn => enqueue_mono h₄ hn⟩)
      |>.tail (.dequeue h₅)
      |>.tail (.change 2 5 (by simp) (by decide) ⟨5, fun _ hn => change_mono h₆ hn⟩)
      |>.tail (.extract 3 (by simp) ⟨5, fun _ hn => extract_mono h₇ hn⟩)
  refine ⟨_, hrun, fun t => ?_, taskq_runs emptyQueue_start hrun, ?_⟩
  · simp only [Set.mem_sdiff, Set.mem_ofPred_eq, Set.mem_insert_iff, Set.mem_empty_iff_false,
      Set.mem_singleton_iff, or_false, ne_eq, Option.some.injEq]
    omega
  · rw [h₈, Option.map_some, hr']

/-- Two tasks at priority 5 are enqueued, and the priority of the first is set to 5.  The
second is dequeued, which has been at this priority for a shorter time. -/
theorem taskq_same_priority :
    (do
      let s ← ttosEnqueuePriority 3 0 emptyQueue
      let s ← ttosEnqueuePriority 3 1 s
      let s ← taskChangePriority 3 0 5 s
      ttosDequeuePriority s).map Prod.fst = some (some 1) := by  decide

end Intewell.Sched.Taskq
