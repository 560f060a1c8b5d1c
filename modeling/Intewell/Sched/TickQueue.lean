/-
# The tick wait queue

`ttosInsertWaitedTask`, `ttosExactWaitedTask` and the waiting part of `ttosTickNotify`
(kernel/task) on `ttosManager.taskWaitedQueue`, a difference-coded queue whose nodes are
the tasks with their `waitedTicks`.  Ticks are natural numbers: the sums do not overflow.
A node that expires is also taken out of the queue of the resource that it waits for
(`ttosExtractTaskq`), which touches nothing of what is here.

The tasks in the queue are recorded beside it with the instant of their insertion, the
ticks asked for and a running number (`Entry`).
-/

import Intewell.Lib.DeltaQueue
import Intewell.Sched.Basic

namespace Intewell.Sched

open Nat List
open DeltaQueue (times times_insert times_remove times_advance advance_due stops_lt advance
  map_fst_times remove times_add)

/-- `ttosManager.taskWaitedQueue`, each task with its `waitedTicks`, and the tasks. -/
structure Manager (τ : Type*) extends Tasks τ where
  taskWaitedQueue : List (τ × ℕ)

variable {τ : Type*} [DecidableEq τ]

/-- A task goes behind those that wait as long as it. -/
def ttosInsertWaitedTask (t : τ) (waitedTicks : ℕ) (m : Manager τ) : Manager τ :=
  { m with taskWaitedQueue := DeltaQueue.insert (· < ·) t waitedTicks m.taskWaitedQueue }

def ttosExactWaitedTask (t : τ) (m : Manager τ) : Manager τ :=
  { m with taskWaitedQueue := remove t m.taskWaitedQueue }

/-- What happens to a task whose time is over: a wait for a resource has timed out, and
the task no longer waits. -/
def expire (s : Tasks τ) (t : τ) : Tasks τ :=
  let s :=
    if (s.tcb t).state &&& TTOS_TASK_BLOCKING ≠ 0 then
      { s with tcb := Function.update s.tcb t { s.tcb t with returnCode := .TTOS_TIMEOUT } }
    else s
  ttosClearTaskWaiting t s

/-- The loop of `ttosTickNotify` over the queue `q`. -/
def notifyLoop : ℕ → List (τ × ℕ) → Tasks τ → Manager τ
  | _, [], s => { s with taskWaitedQueue := [] }
  | ticksTmp, (t, waitedTicks) :: q, s =>
    if waitedTicks > ticksTmp then
      { s with taskWaitedQueue := (t, waitedTicks - ticksTmp) :: q }
    else notifyLoop (ticksTmp - waitedTicks) q (expire s t)

def ttosTickNotify (ticks : ℕ) (m : Manager τ) : Manager τ :=
  notifyLoop ticks m.taskWaitedQueue m.toTasks

/-- The loop wakes what is due, one task after the other, and keeps the rest. -/
theorem notifyLoop_eq (n : ℕ) (q : List (τ × ℕ)) (s : Tasks τ) : notifyLoop n q s =
      { (advance n q).1.foldl expire s with
        taskWaitedQueue := (advance n q).2 } := by
  induction q generalizing n s with
  | nil => rfl
  | cons x q ih =>
    obtain ⟨t, w⟩ := x
    by_cases h : n < w
    · simp [notifyLoop, advance, h]
    · simp [notifyLoop, advance, h, ih]

namespace Tick

/-- A task in the queue: the ticks notified before its insertion, the ticks that it
waits, and how many insertions there were before. -/
structure Entry (τ : Type*) where
  task : τ
  born : ℕ
  wait : ℕ
  seq : ℕ

def Entry.deadline (e : Entry τ) : ℕ := e.born + e.wait

/-- The order of waking: by deadline, then by insertion. -/
def Entry.Before (e f : Entry τ) : Prop :=
  e.deadline < f.deadline ∨ (e.deadline = f.deadline ∧ e.seq < f.seq)

/-- The manager, the ticks notified and the insertions made so far, and the tasks that
were inserted and neither extracted nor woken. -/
structure World (τ : Type*) where
  m : Manager τ
  now : ℕ
  seq : ℕ
  live : List (Entry τ)

/-- A task is in the queue. -/
def Queued (m : Manager τ) (t : τ) : Prop := t ∈ m.taskWaitedQueue.map Prod.fst

instance (m : Manager τ) (t : τ) : Decidable (Queued m t) := inferInstanceAs (Decidable (_ ∈ _))

/-- One call.  Between two calls the rest of the kernel may do what it likes to the tasks. -/
inductive Step : World τ → World τ → Prop where
  | insert {w} (t : τ) (k : ℕ) (h : ¬Queued w.m t) :
      Step w ⟨ttosInsertWaitedTask t k w.m, w.now, w.seq + 1, ⟨t, w.now, k, w.seq⟩ :: w.live⟩
  | extract {w} (t : τ) (h : Queued w.m t) :
      Step w ⟨ttosExactWaitedTask t w.m, w.now, w.seq, w.live.filter fun e => e.task ≠ t⟩
  | notify {w} (n : ℕ) (hn : 1 ≤ n) :
      Step w ⟨ttosTickNotify n w.m, w.now + n, w.seq,
        w.live.filter fun e => Queued (ttosTickNotify n w.m) e.task⟩
  | tasks {w} (s : Tasks τ) : Step w { w with m :=
    { s with taskWaitedQueue := w.m.taskWaitedQueue } }

/-- The ticks for which `t` still waits. -/
def Remains (m : Manager τ) (t : τ) (r : ℕ) : Prop := (t, r) ∈ times 0 m.taskWaitedQueue

/-- The queue holds the live tasks, each once, with what is left of their time, and none
of them is due. -/
structure Exact (w : World τ) : Prop where
  nodup : (w.m.taskWaitedQueue.map Prod.fst).Nodup
  queued : ∀ t, Queued w.m t ↔ ∃ e ∈ w.live, e.task = t
  remains : ∀ e ∈ w.live, Remains w.m e.task (e.deadline - w.now)
  early : ∀ e ∈ w.live, w.now < e.born + max e.wait 1

/-- A notification wakes the tasks whose ticks have passed, each in its turn, and leaves
the others with `n` ticks less. -/
def NotifyExact (w : World τ) : Prop :=
  ∀ n, 1 ≤ n → ∃ woken : List (Entry τ),
    (∀ e, e ∈ woken ↔ e ∈ w.live ∧ e.born + max e.wait 1 ≤ w.now + n) ∧
    woken.Pairwise Entry.Before ∧
    (ttosTickNotify n w.m).toTasks = (woken.map Entry.task).foldl expire w.m.toTasks ∧
    (ttosTickNotify n w.m).readied =
      w.m.readied ++ (woken.map Entry.task).filter (fun t => Readies (w.m.tcb t)) ∧
    ∀ u r, Remains (ttosTickNotify n w.m) u r ↔ Remains w.m u (r + n) ∧ 0 < r

/-- Inserting or extracting one task does not touch the time of another. -/
def OthersKept (w : World τ) : Prop :=
  (∀ t k u r, u ≠ t → (Remains (ttosInsertWaitedTask t k w.m) u r ↔ Remains w.m u r)) ∧
  ∀ t u r, u ≠ t → (Remains (ttosExactWaitedTask t w.m) u r ↔ Remains w.m u r)

/-- The queue read from the present instant is the live tasks by deadline, then by
insertion. -/
structure Coded (w : World τ) (l : List (Entry τ)) : Prop where
  perm : l.Perm w.live
  instants : times w.now w.m.taskWaitedQueue = l.map fun e => (e.task, e.deadline)
  sorted : l.Pairwise Entry.Before
  nodup : (w.m.taskWaitedQueue.map Prod.fst).Nodup
  early : ∀ e ∈ l, w.now < e.born + max e.wait 1
  old : ∀ e ∈ l, e.born ≤ w.now ∧ e.seq < w.seq

variable {w w' : World τ} {l : List (Entry τ)}

section

omit [DecidableEq τ]

theorem Coded.tasks (h : Coded w l) : w.m.taskWaitedQueue.map Prod.fst = l.map Entry.task := by
  rw [← map_fst_times w.now, h.instants, map_map]
  rfl

theorem before_orderedInsert {e : Entry τ} (hl : l.Pairwise Entry.Before)
    (he : ∀ f ∈ l, f.seq < e.seq) :
    (l.orderedInsert (fun x y => x.deadline < y.deadline) e).Pairwise Entry.Before := by
  induction l with
  | nil => simp
  | cons f l ih =>
    obtain ⟨hf, hl⟩ := pairwise_cons.1 hl
    by_cases h : e.deadline < f.deadline
    · rw [orderedInsert_cons, if_pos h]
      refine pairwise_cons.2 ⟨fun g hg => ?_, pairwise_cons.2 ⟨hf, hl⟩⟩
      rcases mem_cons.1 hg with rfl | hg
      · exact .inl h
      · rcases hf g hg with h' | h'
        · exact .inl (h.trans h')
        · exact .inl (h'.1 ▸ h)
    · rw [orderedInsert_cons, if_neg h]
      refine pairwise_cons.2 ⟨fun g hg => ?_, ih hl fun g hg => he g (.tail f hg)⟩
      rcases mem_orderedInsert _ |>.1 hg with rfl | hg
      · have := he f (.head l)
        unfold Entry.Before
        omega
      · exact hf g hg

theorem Coded.insert (h : Coded w l) {t : τ} (k : ℕ) (ht : ¬Queued w.m t) :
    ∃ l', Coded ⟨ttosInsertWaitedTask t k w.m, w.now, w.seq + 1, ⟨t, w.now, k, w.seq⟩ :: w.live⟩
      l' := by
  set e : Entry τ := ⟨t, w.now, k, w.seq⟩
  have hmem := fun f => mem_orderedInsert (fun x y : Entry τ => x.deadline < y.deadline)
    (a := f) (b := e) (l := l)
  have htimes : times w.now (DeltaQueue.insert (· < ·) t k w.m.taskWaitedQueue) =
      (l.orderedInsert (fun x y => x.deadline < y.deadline) e).map
        fun e => (e.task, e.deadline) := by
    rw [times_insert stops_lt, h.instants,
      map_orderedInsert (s := fun x y : τ × ℕ => x.2 < y.2) _ _ _ _ (fun _ _ => Iff.rfl)
        (fun _ _ => Iff.rfl)]
    rfl
  refine ⟨l.orderedInsert (fun x y => x.deadline < y.deadline) e, ⟨?_, htimes, ?_, ?_, ?_, ?_⟩⟩
  · exact (perm_orderedInsert _ e l).trans (h.perm.cons e)
  · exact before_orderedInsert h.sorted fun f hf => (h.old f hf).2
  · rw [← map_fst_times w.now]
    simp only [ttosInsertWaitedTask]
    rw [htimes, map_map, ((perm_orderedInsert _ e l).map _).nodup_iff, map_cons]
    refine nodup_cons.2 ⟨fun ht' => ht ?_, ?_⟩
    · unfold Queued
      rw [h.tasks]
      exact ht'
    · have := h.nodup
      rw [h.tasks] at this
      exact this
  · intro f hf
    rcases (hmem f).1 hf with rfl | hf
    · simp only [e]
      omega
    · exact h.early f hf
  · intro f hf
    rcases (hmem f).1 hf with rfl | hf
    · exact ⟨le_rfl, lt_succ_self _⟩
    · exact ⟨(h.old f hf).1, (h.old f hf).2.trans (lt_succ_self _)⟩

end

/-- Among tasks that are there once, taking out the first named `t` takes out all. -/
theorem eraseP_eq_filter {l : List (Entry τ)} (hl : (l.map Entry.task).Nodup) (t : τ) :
    (l.eraseP fun e => decide (e.task = t)) = l.filter fun e => e.task ≠ t := by
  induction l with
  | nil => rfl
  | cons e l ih =>
    obtain ⟨he, hl⟩ := nodup_cons.1 hl
    by_cases h : e.task = t
    · rw [eraseP_cons_of_pos (by simpa using h), filter_cons_of_neg (by simpa using h),
        filter_eq_self.2]
      intro f hf
      simpa using fun hft : f.task = t => he (h ▸ hft ▸ mem_map_of_mem hf)
    · rw [eraseP_cons_of_neg (by simpa using h), filter_cons_of_pos (by simpa using h), ih hl]

section
variable (h : Coded w l)
include h

omit [DecidableEq τ] in
theorem Coded.filter (p : Entry τ → Bool) {m : Manager τ} {now : ℕ} (hnow : w.now ≤ now)
    (hm : times now m.taskWaitedQueue = (l.filter p).map fun e => (e.task, e.deadline))
    (hearly : ∀ e ∈ l, p e → now < e.born + max e.wait 1) {live : List (Entry τ)}
    (hlive : (l.filter p).Perm live) : Coded ⟨m, now, w.seq, live⟩ (l.filter p) where
  perm := hlive
  instants := hm
  sorted := h.sorted.filter p
  nodup := by
    have := h.nodup
    rw [h.tasks] at this
    rw [← map_fst_times now, hm, map_map]
    exact this.sublist (filter_sublist.map _)
  early := fun e he => hearly e (mem_filter.1 he).1 (mem_filter.1 he).2
  old := fun e he => by
    have := h.old e (mem_filter.1 he).1
    exact ⟨this.1.trans hnow, this.2⟩

theorem Coded.extract (t : τ) :
    Coded ⟨ttosExactWaitedTask t w.m, w.now, w.seq, w.live.filter fun e => e.task ≠ t⟩
      (l.filter fun e => e.task ≠ t) := by
  refine h.filter _ le_rfl ?_ (fun e he _ => h.early e he) (h.perm.filter _)
  have hnd := h.nodup
  rw [h.tasks] at hnd
  rw [ttosExactWaitedTask, times_remove, h.instants, eraseP_map, ← eraseP_eq_filter hnd]
  rfl

omit [DecidableEq τ] in
/-- A live task has its deadline behind it exactly when its ticks, at least one of them,
have passed. -/
theorem Coded.due_iff {n : ℕ} (hn : 1 ≤ n) {e : Entry τ} (he : e ∈ l) :
    e.deadline ≤ w.now + n ↔ e.born + max e.wait 1 ≤ w.now + n := by
  have := (h.old e he).1
  unfold Entry.deadline
  omega

theorem Coded.notify_queue (n : ℕ) : times (w.now + n) (ttosTickNotify n w.m).taskWaitedQueue =
      (l.filter fun e => w.now + n < e.deadline).map fun e => (e.task, e.deadline) := by
  rw [ttosTickNotify, notifyLoop_eq]
  simp only
  rw [times_advance, h.instants, filter_map]
  rfl

omit [DecidableEq τ] in
theorem Coded.notify_due (n : ℕ) : (advance n w.m.taskWaitedQueue).1 =
      (l.filter fun e => e.deadline ≤ w.now + n).map Entry.task := by
  rw [advance_due w.now, h.instants, filter_map, map_map]
  rfl

theorem Coded.notify {n : ℕ} (hn : 1 ≤ n) : Coded ⟨ttosTickNotify n w.m, w.now + n, w.seq,
        w.live.filter fun e => Queued (ttosTickNotify n w.m) e.task⟩
      (l.filter fun e => w.now + n < e.deadline) := by
  refine h.filter _ (le_add_right _ _) (h.notify_queue n) (fun e he hp => ?_) ?_
  · have := (h.due_iff hn he).not.1 (by simpa using hp)
    omega
  · have hq : ∀ e ∈ l, (w.now + n < e.deadline ↔ Queued (ttosTickNotify n w.m) e.task) := by
      intro e he
      unfold Queued
      rw [← map_fst_times (w.now + n), h.notify_queue, map_map]
      refine ⟨fun hp => mem_map.2 ⟨e, mem_filter.2 ⟨he, by simpa using hp⟩, rfl⟩, fun hp => ?_⟩
      obtain ⟨f, hf, hfe⟩ := mem_map.1 hp
      obtain ⟨hf, hp⟩ := mem_filter.1 hf
      have hnd := h.nodup
      rw [h.tasks] at hnd
      rw [← inj_on_of_nodup_map hnd hf he hfe]
      simpa using hp
    rw [filter_congr fun e he => by rw [decide_eq_decide.2 (hq e he)]]
    exact h.perm.filter _

omit [DecidableEq τ] in
theorem Coded.exact : Exact w where
  nodup := h.nodup
  queued := fun t => by
    unfold Queued
    rw [h.tasks, mem_map]
    exact exists_congr fun e => and_congr_left fun _ => h.perm.mem_iff
  remains := fun e he => by
    have he' := h.perm.mem_iff.2 he
    have hmem : (e.task, e.deadline) ∈ times (0 + w.now) w.m.taskWaitedQueue := by
      rw [Nat.zero_add, h.instants]
      exact mem_map_of_mem he'
    rw [times_add] at hmem
    obtain ⟨⟨t, r⟩, hx, heq⟩ := mem_map.1 hmem
    obtain ⟨rfl, hr⟩ := Prod.mk.inj heq
    rw [← hr, Nat.add_sub_cancel]
    exact hx
  early := fun e he => h.early e (h.perm.mem_iff.2 he)

end

theorem expire_tcb_of_ne {s : Tasks τ} {t u : τ} (h : u ≠ t) : (expire s t).tcb u = s.tcb u := by
  simp only [expire]
  split_ifs with hs
  · rw [ttosClearTaskWaiting_tcb_of_ne h]
    simp [h]
  · exact ttosClearTaskWaiting_tcb_of_ne h

theorem expire_readied (s : Tasks τ) (t : τ) :
    (expire s t).readied = s.readied ++ if Readies (s.tcb t) then [t] else [] := by
  simp only [expire, ttosClearTaskWaiting_readied]
  by_cases hs : (s.tcb t).state &&& TTOS_TASK_BLOCKING ≠ 0
  · simp only [if_pos hs, Function.update_self]
    exact congrArg _ (if_congr Iff.rfl rfl rfl)
  · rw [if_neg hs]

/-- Waking one task does not change whether another gets ready. -/
theorem foldl_expire_readied (ts : List τ) (hts : ts.Nodup) (s : Tasks τ) :
    (ts.foldl expire s).readied = s.readied ++ ts.filter fun t => Readies (s.tcb t) := by
  induction ts generalizing s with
  | nil => simp
  | cons t ts ih =>
    obtain ⟨ht, hts⟩ := nodup_cons.1 hts
    have hrest : (ts.filter fun u => Readies ((expire s t).tcb u)) =
        ts.filter fun u => Readies (s.tcb u) :=
      filter_congr fun u hu => by rw [expire_tcb_of_ne (ne_of_mem_of_not_mem hu ht)]
    rw [foldl_cons, ih hts, expire_readied, hrest, append_assoc, filter_cons]
    split_ifs <;> simp_all

omit [DecidableEq τ] in
theorem remains_iff (now : ℕ) {m : Manager τ} {u : τ} {r : ℕ} :
    Remains m u r ↔ (u, r + now) ∈ times now m.taskWaitedQueue := by
  have h := times_add 0 now m.taskWaitedQueue
  rw [zero_add] at h
  rw [h, mem_map]
  refine ⟨fun hr => ⟨(u, r), hr, rfl⟩, ?_⟩
  rintro ⟨⟨v, k⟩, hmem, heq⟩
  obtain ⟨rfl, hk⟩ := Prod.mk.inj heq
  rw [← add_right_cancel hk]
  exact hmem

theorem Coded.notifyExact (h : Coded w l) : NotifyExact w := by
  intro n hn
  refine ⟨l.filter fun e => e.deadline ≤ w.now + n, fun e => ?_, h.sorted.filter _, ?_, ?_, ?_⟩
  · rw [mem_filter, ← h.perm.mem_iff]
    exact and_congr_right (by simpa using h.due_iff hn)
  · rw [ttosTickNotify, notifyLoop_eq, h.notify_due]
  · have hnd : ((l.filter fun e => e.deadline ≤ w.now + n).map Entry.task).Nodup := by
      have := h.nodup
      rw [h.tasks] at this
      exact this.sublist (filter_sublist.map _)
    rw [ttosTickNotify, notifyLoop_eq, h.notify_due]
    exact foldl_expire_readied _ hnd _
  · intro u r
    rw [remains_iff (w.now + n), remains_iff w.now, ttosTickNotify, notifyLoop_eq]
    simp only
    rw [times_advance, mem_filter, decide_eq_true_iff]
    exact and_congr (by rw [add_assoc, add_comm w.now n]) (by simp only; omega)

theorem Step.coded (hs : Step w w') (h : ∃ l, Coded w l) : ∃ l, Coded w' l := by
  obtain ⟨l, h⟩ := h
  cases hs with
  | insert t k ht => exact h.insert k ht
  | extract t ht => exact ⟨_, h.extract t⟩
  | notify n hn => exact ⟨_, h.notify hn⟩
  | tasks s => exact ⟨l, ⟨h.perm, h.instants, h.sorted, h.nodup, h.early, h.old⟩⟩

/-- **The tick wait queue is exact.**  In every run from the empty queue it holds the
tasks that were inserted and neither extracted nor woken, each with what is left of its
ticks; the next notification wakes those whose ticks, at least one, have passed since
their insertion, by deadline and then by insertion; and no call moves another task. -/
theorem tick_queue_exact {w₀ w : World τ} (hq : w₀.m.taskWaitedQueue = []) (hl : w₀.live = [])
    (run : Relation.ReflTransGen Step w₀ w) : Exact w ∧ NotifyExact w ∧ OthersKept w := by
  have h0 : ∃ l, Coded w₀ l := ⟨[], by rw [hl], by rw [hq]; rfl,
    .nil, by simp [hq], by simp, by simp⟩
  have h : ∃ l, Coded w l := by
    induction run with
    | refl => exact h0
    | tail _ hs ih => exact hs.coded ih
  obtain ⟨l, h⟩ := h
  refine ⟨h.exact, h.notifyExact, fun t k u r hu => ?_, fun t u r hu => ?_⟩
  · unfold Remains ttosInsertWaitedTask
    rw [times_insert stops_lt, mem_orderedInsert]
    exact or_iff_right fun h => hu (Prod.mk.inj h).1
  · unfold Remains ttosExactWaitedTask
    rw [times_remove]
    exact mem_eraseP_of_neg (by simpa using hu)

/-- Three tasks wait 5, 2 and 5 ticks, from the same tick on. -/
theorem tick_queue_exact_three :
    let m : Manager ℕ := ⟨⟨fun _ => ⟨TTOS_TASK_DELAYING, .TTOS_OK, none, none⟩, []⟩, []⟩
    let m' := ttosInsertWaitedTask 3 5 (ttosInsertWaitedTask 2 2 (ttosInsertWaitedTask 1 5 m))
    m'.taskWaitedQueue = [(2, 2), (1, 3), (3, 0)] ∧
      Exact ⟨m', 0, 3, [⟨3, 0, 5, 2⟩, ⟨2, 0, 2, 1⟩, ⟨1, 0, 5, 0⟩]⟩ := by
  intro m m'
  have run : Relation.ReflTransGen Step (⟨m, 0, 0, []⟩ : World ℕ)
      ⟨m', 0, 3, [⟨3, 0, 5, 2⟩, ⟨2, 0, 2, 1⟩, ⟨1, 0, 5, 0⟩]⟩ := by
    refine .tail (.tail (.tail .refl (.insert 1 5 ?_)) (.insert 2 2 ?_)) (.insert 3 5 ?_) <;> decide
  exact ⟨by decide, (tick_queue_exact rfl rfl run).1⟩

end Tick
end Intewell.Sched
