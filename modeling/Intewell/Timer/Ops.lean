/-
# What a call and a firing do to the timers

A timer that waits in the queue stands for an instant, read from the current tick
(`Due`).  An operation on one timer leaves the instants and the control blocks of all
others alone (`Touch`), and so does the firing of one; that a timer is in the queue
exactly when it is active, and has a handler then, is a matter of that one timer (`Fit`).
-/

import Intewell.Timer.Basic

namespace Intewell.Timer

open Function TimerState ReturnCode List Prod
open DeltaQueue (times mem_times_insert mem_times_remove keys_insert keys_remove stops_le
  map_fst_times)

variable {ι η : Type*} [DecidableEq ι]

/-! ## What one timer sees -/

/-- The timer is in the queue. -/
def Linked (s : State ι η) (i : ι) : Prop := i ∈ s.timerWaitedQueue.map fst

/-- The timer is in the queue, and its instant is `d` when the tick is `b`. -/
def Due (s : State ι η) (b : ℕ) (i : ι) (d : ℕ) : Prop := (i, d) ∈ times b s.timerWaitedQueue

/-- An active timer is in the queue and no other is; one that is installed has a period
and a handler. -/
structure Fit (s : State ι η) (i : ι) : Prop where
  linked : Linked s i ↔ s.created i = true ∧ (s.timer i).state = TTOS_TIMER_ACTIVE
  armed : s.created i = true → (s.timer i).state ≠ TTOS_TIMER_UNINSTALL →
    (s.timer i).ticks ≠ 0 ∧ (s.timer i).handler ≠ none

structure Inv (s : State ι η) : Prop where
  nodup : (s.timerWaitedQueue.map fst).Nodup
  fit : ∀ i, Fit s i

/-- Nothing but timer `i` differs: neither a control block nor an instant. -/
structure Touch (i : ι) (s s' : State ι η) : Prop where
  created : ∀ j ≠ i, s'.created j = s.created j
  timer : ∀ j ≠ i, s'.timer j = s.timer j
  due : ∀ b, ∀ j ≠ i, ∀ d, Due s' b j d ↔ Due s b j d
  nodup : (s.timerWaitedQueue.map fst).Nodup → (s'.timerWaitedQueue.map fst).Nodup

variable {s s' s'' : State ι η} {i j : ι} {b d d' w k n : ℕ}

section

omit [DecidableEq ι]

theorem linked_iff_due (b : ℕ) : Linked s i ↔ ∃ d, Due s b i d := by
  rw [Linked, ← map_fst_times b]
  exact mem_map.trans ⟨fun ⟨x, hx, h⟩ => ⟨x.2, h ▸ hx⟩, fun ⟨d, h⟩ => ⟨(i, d), h, rfl⟩⟩

theorem Due.linked (h : Due s b i d) : Linked s i := (linked_iff_due b).2 ⟨d, h⟩

theorem Touch.refl : Touch i s s := ⟨fun _ _ => rfl, fun _ _ => rfl, fun _ _ _ _ => Iff.rfl, id⟩

theorem Touch.trans (h : Touch i s s') (h' : Touch i s' s'') : Touch i s s'' where
  created j hj := (h'.created j hj).trans (h.created j hj)
  timer j hj := (h'.timer j hj).trans (h.timer j hj)
  due b j hj d := (h'.due b j hj d).trans (h.due b j hj d)
  nodup := h'.nodup ∘ h.nodup

theorem Touch.linked (h : Touch i s s') (hj : j ≠ i) : Linked s' j ↔ Linked s j := by
  rw [linked_iff_due 0, linked_iff_due 0]
  exact exists_congr fun d => h.due 0 j hj d

end

/-- A change of one timer keeps the invariant if that timer is fit afterwards. -/
theorem Touch.inv (h : Touch i s s') (hs : Inv s) (hi : Fit s' i) : Inv s' := by
  refine ⟨h.nodup hs.nodup, fun j => ?_⟩
  by_cases hj : j = i
  · rwa [hj]
  · obtain ⟨hl, ha⟩ := hs.fit j
    rw [← h.linked hj, ← h.created j hj, ← h.timer j hj] at hl
    rw [← h.created j hj, ← h.timer j hj] at ha
    exact ⟨hl, ha⟩

/-! ## The changes of the queue -/

section

omit [DecidableEq ι]

theorem insert_touch (hi : ¬Linked s i) : Touch i s (ttosInsertWaitedTimer i w s) where
  created _ _ := rfl
  timer _ _ := rfl
  due b j hj d := by simp [Due, ttosInsertWaitedTimer, mem_times_insert stops_le, hj]
  nodup hn := (keys_insert stops_le i w _).nodup_iff.2 (nodup_cons.2 ⟨hi, hn⟩)

theorem due_insert (hi : ¬Linked s i) : Due (ttosInsertWaitedTimer i w s) b i d ↔ d = b + w := by
  have h : (i, d) ∉ times b s.timerWaitedQueue := fun h => hi (Due.linked h)
  simp [Due, ttosInsertWaitedTimer, mem_times_insert stops_le, h]

end

theorem exact_touch (hn : (s.timerWaitedQueue.map fst).Nodup) :
    Touch i s (ttosExactWaitedTimer i s) where
  created _ _ := rfl
  timer _ _ := rfl
  due b j hj d := by simp [Due, ttosExactWaitedTimer, mem_times_remove hn, hj]
  nodup hn := by
    rw [ttosExactWaitedTimer, keys_remove]
    exact hn.erase i

theorem not_linked_exact (hn : (s.timerWaitedQueue.map fst).Nodup) :
    ¬Linked (ttosExactWaitedTimer i s) i := by
  rw [Linked, ttosExactWaitedTimer, keys_remove]
  exact hn.not_mem_erase

theorem set_touch (t : TimerControlBlock η) : Touch i s (s.set i t) where
  created _ _ := rfl
  timer _ hj := update_of_ne hj _ _
  due _ _ _ _ := Iff.rfl
  nodup := id

theorem create_touch (c : Bool) : Touch i s { s with created := update s.created i c } where
  created _ hj := update_of_ne hj _ _
  timer _ _ := rfl
  due _ _ _ _ := Iff.rfl
  nodup := id

@[simp] theorem exactIfActive_timer : (exactIfActive i s).timer = s.timer := by
  rw [exactIfActive]
  split_ifs <;> rfl

@[simp] theorem exactIfActive_created : (exactIfActive i s).created = s.created := by
  rw [exactIfActive]
  split_ifs <;> rfl

open Touch

theorem exactIfActive_touch (hs : Inv s) : Touch i s (exactIfActive i s) := by
  rw [exactIfActive]
  split_ifs with h
  · exact exact_touch hs.nodup
  · exact refl

theorem not_linked_exactIfActive (hs : Inv s) : ¬Linked (exactIfActive i s) i := by
  rw [exactIfActive]
  split_ifs with h
  · exact not_linked_exact hs.nodup
  · exact fun hi => h ((hs.fit i).linked.1 hi).2

/-! ## One call -/

/-- A timer is created on an object that is not in use. -/
def Op.Allocates (s : State ι η) : Op ι η → Prop
  | create i .. => s.created i = false
  | _ => True

/-- **The condition on a run.**  `TTOS_UpdateTimer` is called for a timer that is installed,
with ticks to wait. -/
def Op.Careful (s : State ι η) : Op ι η → Prop
  | update i ticks => s.created i = true →
      ticks ≠ 0 ∧ (s.timer i).state ≠ TTOS_TIMER_UNINSTALL
  | _ => True

/-- The timer of an activation waits for its period, and has all its repetitions to go. -/
structure Activated (s : State ι η) (b : ℕ) (i : ι) : Prop where
  state : (s.timer i).state = TTOS_TIMER_ACTIVE
  due : Due s b i (b + (s.timer i).ticks)
  remain : (s.timer i).remainCount = (s.timer i).repeatCount

/-- What a call does to its own timer: it stays fit, and comes due at no instant that has
passed. -/
structure Own (i : ι) (s s' : State ι η) : Prop where
  fit : Fit s' i
  due : ∀ b d, Due s' b i d → Due s b i d ∨ b < d

section

omit [DecidableEq ι]

theorem Inv.own (hs : Inv s) : Own i s s := ⟨hs.fit i, fun _ _ => .inl⟩

/-- A timer that is put into the queue, for at least a tick. -/
theorem own_of_due (hc : s'.created i = true) (ha : (s'.timer i).state = TTOS_TIMER_ACTIVE)
    (hd : ∀ b d, Due s' b i d ↔ d = b + w) (hw : w ≠ 0)
    (hr : (s'.timer i).ticks ≠ 0 ∧ (s'.timer i).handler ≠ none) : Own i s s' where
  fit := ⟨⟨fun _ => ⟨hc, ha⟩, fun _ => ((hd 0 (0 + w)).2 rfl).linked⟩, fun _ _ => hr⟩
  due b d h := by
    have := (hd b d).1 h
    exact .inr (by omega)

theorem own_of_not_linked (hl : ¬Linked s' i)
    (ha : s'.created i = true → (s'.timer i).state ≠ TTOS_TIMER_ACTIVE)
    (hr : s'.created i = true → (s'.timer i).state ≠ TTOS_TIMER_UNINSTALL →
      (s'.timer i).ticks ≠ 0 ∧ (s'.timer i).handler ≠ none) : Own i s s' where
  fit := ⟨⟨fun h => absurd h hl, fun h => absurd h.2 (ha h.1)⟩, hr⟩
  due _ _ h := absurd h.linked hl

end

section
variable (hs : Inv s)
include hs

theorem createTimer_spec (hf : s.created i = false) (ticks repeatCount : ℕ) (handler : Option η)
    (autoStarted : Bool) : Touch i s (createTimer i ticks repeatCount handler autoStarted s).2 ∧
      Own i s (createTimer i ticks repeatCount handler autoStarted s).2 := by
  have hl : ¬Linked s i := fun h => by
    have hc := ((hs.fit i).linked.1 h).1
    simp [hf] at hc
  rw [createTimer]
  split_ifs with h1 h2
  · exact ⟨refl, hs.own⟩
  · exact ⟨refl, hs.own⟩
  · simp only [ttosInitTimer]
    split_ifs with ha h0
    · have ht : ticks ≠ 0 := fun h => h1 ⟨ha, h⟩
      have hh : handler ≠ none := fun h => h2 ⟨ha, h⟩
      refine ⟨((create_touch true).trans (set_touch _)).trans (insert_touch hl),
        own_of_due (by simp [ttosInsertWaitedTimer, State.set])
          (by simp [ttosInsertWaitedTimer, State.set]) (fun b d => due_insert hl) ht ?_⟩
      simp [ttosInsertWaitedTimer, State.set, ht, hh]
    · refine ⟨(create_touch true).trans (set_touch _), own_of_not_linked hl ?_ ?_⟩
      · simp [State.set]
      · simpa [State.set] using h0
    · refine ⟨(create_touch true).trans (set_touch _), own_of_not_linked hl ?_ ?_⟩
      · simp [State.set]
      · simp [State.set]

theorem installTimer_spec (ticks repeatCount : ℕ) (handler : Option η) :
    Touch i s (installTimer i ticks handler repeatCount s).2 ∧
      Own i s (installTimer i ticks handler repeatCount s).2 := by
  simp only [installTimer]
  split_ifs with h0 hc hh hu
  · exact ⟨refl, hs.own⟩
  · exact ⟨refl, hs.own⟩
  · exact ⟨refl, hs.own⟩
  · have hl : ¬Linked s i := fun h => by
      have ha := ((hs.fit i).linked.1 h).2
      simp [hu] at ha
    exact ⟨set_touch _, own_of_not_linked hl (by simp [State.set]) (by simp [State.set, h0, hh])⟩
  · refine ⟨set_touch _, ⟨?_, by simp [State.set, h0, hh]⟩, fun _ _ => .inl⟩
    have hl := (hs.fit i).linked
    simp only [State.set, update_self]
    exact hl

/-- The queue after the timer was taken out, if it was active, and put in for `w`. -/
theorem rearm_spec (w : ℕ) (t : TimerControlBlock η) :
    Touch i s ((ttosInsertWaitedTimer i w (exactIfActive i s)).set i t) ∧
      ∀ b d, Due ((ttosInsertWaitedTimer i w (exactIfActive i s)).set i t) b i d ↔ d = b + w :=
  ⟨((exactIfActive_touch hs).trans (insert_touch (not_linked_exactIfActive hs))).trans
    (set_touch t), fun _ _ => due_insert (not_linked_exactIfActive hs)⟩

theorem activeTimer_spec : Touch i s (activeTimer i s).2 ∧ Own i s (activeTimer i s).2 ∧
      ((activeTimer i s).1 = TTOS_OK → ∀ b, Activated (activeTimer i s).2 b i) := by
  simp only [activeTimer]
  split_ifs with hc hu
  · exact ⟨refl, hs.own, fun h => nomatch h⟩
  · exact ⟨refl, hs.own, fun h => nomatch h⟩
  · obtain ⟨ht, hd⟩ := rearm_spec hs (s.timer i).ticks
      { s.timer i with
        remainCount := (s.timer i).repeatCount, state := TTOS_TIMER_ACTIVE }
    have hc : s.created i = true := by simpa using hc
    have hr := (hs.fit i).armed hc hu
    refine ⟨ht, own_of_due (by simpa [State.set, ttosInsertWaitedTimer] using hc)
      (by simp [State.set]) hd hr.1 (by simpa [State.set] using hr), fun _ b => ⟨?_, ?_, ?_⟩⟩
    · simp [State.set]
    · rw [hd]
      simp [State.set]
    · simp [State.set]

theorem updateTimer_own {ticks : ℕ} (hc : (Op.update i ticks).Careful s) :
    Own i s (updateTimer i ticks s).2 := by
  rw [updateTimer]
  split_ifs with hu
  · exact hs.own
  · have hu : s.created i = true := by simpa using hu
    obtain ⟨ht, hi⟩ := hc hu
    have hr := (hs.fit i).armed hu hi
    exact own_of_due (by simpa [State.set, ttosInsertWaitedTimer] using hu) (by simp [State.set])
      (rearm_spec hs ticks _).2 ht (by simpa [State.set] using hr)

theorem stopTimer_spec : Touch i s (stopTimer i s).2 ∧ Own i s (stopTimer i s).2 := by
  rw [stopTimer]
  split_ifs with hc ha
  · exact ⟨refl, hs.own⟩
  · exact ⟨refl, hs.own⟩
  · have hu : (s.timer i).state ≠ TTOS_TIMER_UNINSTALL := fun h => by simp [h] at ha
    have hr := (hs.fit i).armed (by simpa using hc) hu
    exact ⟨(exact_touch hs.nodup).trans (set_touch _),
      own_of_not_linked (not_linked_exact hs.nodup) (by simp [State.set])
        (by simpa [State.set] using fun _ => hr)⟩

theorem deleteTimer_spec : Touch i s (deleteTimer i s).2 ∧ Own i s (deleteTimer i s).2 := by
  rw [deleteTimer]
  split_ifs with hc
  · exact ⟨refl, hs.own⟩
  · have h := (exactIfActive_touch (i := i) hs).trans (create_touch false)
    rw [exactIfActive_created] at h
    exact ⟨h, own_of_not_linked (not_linked_exactIfActive hs) (by simp) (by simp)⟩

/-- **No call touches another timer.** -/
theorem Op.run_touch {op : Op ι η} (ha : op.Allocates s) : Touch op.timer s (op.run s).2 := by
  cases op with
  | create i ticks repeatCount handler autoStarted =>
    exact (createTimer_spec hs ha ticks repeatCount handler autoStarted).1
  | install i ticks handler repeatCount => exact (installTimer_spec hs ticks repeatCount handler).1
  | active i => exact (activeTimer_spec hs).1
  | update i ticks =>
    simp only [Op.run, updateTimer]
    split_ifs
    · exact refl
    · exact (rearm_spec hs ticks _).1
  | stop i => exact (stopTimer_spec hs).1
  | delete i => exact (deleteTimer_spec hs).1

theorem Op.run_own {op : Op ι η} (ha : op.Allocates s) (hc : op.Careful s) :
    Own op.timer s (op.run s).2 := by
  cases op with
  | create i ticks repeatCount handler autoStarted =>
    exact (createTimer_spec hs ha ticks repeatCount handler autoStarted).2
  | install i ticks handler repeatCount => exact (installTimer_spec hs ticks repeatCount handler).2
  | active i => exact (activeTimer_spec hs).2.1
  | update i ticks => exact updateTimer_own hs hc
  | stop i => exact (stopTimer_spec hs).2
  | delete i => exact (deleteTimer_spec hs).2

end

/-! ## One firing -/

omit [DecidableEq ι] in
theorem pop_touch {q : List (ι × ℕ)} (hs : Inv s) (hq : s.timerWaitedQueue = (i, 0) :: q) :
    Touch i s { s with timerWaitedQueue := q } ∧ ¬Linked { s with timerWaitedQueue := q } i := by
  have hn := hs.nodup
  rw [hq] at hn
  refine ⟨⟨fun _ _ => rfl, fun _ _ => rfl, fun b j hj d => ?_, fun _ => (nodup_cons.1 hn).2⟩,
    (nodup_cons.1 hn).1⟩
  simp [Due, hq, hj]

/-- What a firing leaves of the timer: one repetition less, and the next instant a period
later; or, when there was none left, a stopped timer. -/
structure Fired (i : ι) (b : ℕ) (s s' : State ι η) : Prop where
  touch : Touch i s s'
  fit : Fit s' i
  handler : (s'.timer i).handler ≠ none
  ticks : (s'.timer i).ticks = (s.timer i).ticks
  repeatCount : (s'.timer i).repeatCount = (s.timer i).repeatCount
  next : (s.timer i).remainCount ≠ 0 → (s'.timer i).state = TTOS_TIMER_ACTIVE ∧
    Due s' b i (b + (s.timer i).ticks) ∧
    (s'.timer i).remainCount = if (s.timer i).repeatCount = TTOS_TIMER_LOOP_FOREVER
      then (s.timer i).remainCount else (s.timer i).remainCount - 1
  last : (s.timer i).remainCount = 0 → (s'.timer i).state = TTOS_TIMER_STOP
  later : ¬Due s' b i b

theorem expire_spec {q : List (ι × ℕ)} (hs : Inv s) (hq : s.timerWaitedQueue = (i, 0) :: q)
    (b : ℕ) : Fired i b s (expire i 0 { s with timerWaitedQueue := q }) := by
  obtain ⟨ht, hl⟩ := pop_touch hs hq
  have hi : Linked s i := by simp [Linked, hq]
  obtain ⟨hc, ha⟩ := (hs.fit i).linked.1 hi
  have hr := (hs.fit i).armed hc (by simp [ha])
  have hd : ∀ b d, Due (ttosInsertWaitedTimer i ((s.timer i).ticks + 0)
      { s with timerWaitedQueue := q }) b i d ↔ d = b + ((s.timer i).ticks + 0) :=
    fun b d => due_insert hl
  simp only [expire]
  split_ifs with h0 hf
  · have ho : Own i s ((ttosInsertWaitedTimer i ((s.timer i).ticks + 0)
        { s with timerWaitedQueue := q }).set i
          { s.timer i with remainCount := (s.timer i).remainCount - 1 }) :=
      own_of_due hc (by simpa [State.set] using ha) hd hr.1 (by simpa [State.set] using hr)
    refine ⟨(ht.trans (insert_touch hl)).trans (set_touch _),
      ho.fit, by simpa [State.set] using hr.2,
      by simp [State.set], by simp [State.set], fun _ => ⟨by simpa [State.set] using ha,
        (hd _ _).2 rfl, by simp [State.set, hf]⟩, fun h => absurd h h0, fun h => ?_⟩
    have := (hd b b).1 h
    omega
  · have ho : Own i s (ttosInsertWaitedTimer i ((s.timer i).ticks + 0)
        { s with timerWaitedQueue := q }) :=
      own_of_due hc ha hd hr.1 hr
    have hf : (s.timer i).repeatCount = TTOS_TIMER_LOOP_FOREVER := by simpa using hf
    refine ⟨ht.trans (insert_touch hl), ho.fit, hr.2, rfl, rfl, fun _ => ⟨ha, (hd _ _).2 rfl, ?_⟩,
      fun h => absurd h h0, fun h => ?_⟩
    · rw [if_pos hf]
      rfl
    · have := (hd b b).1 h
      omega
  · have ho : Own i s (State.set { s with timerWaitedQueue := q } i
          { s.timer i with state := TTOS_TIMER_STOP }) :=
      own_of_not_linked hl (by simp [State.set]) (by simpa [State.set] using fun _ => hr)
    exact ⟨ht.trans (set_touch _), ho.fit, by simpa [State.set] using hr.2, by simp [State.set],
      by simp [State.set], fun h => absurd h h0, fun _ => by simp [State.set],
      fun h => hl h.linked⟩

end Intewell.Timer
