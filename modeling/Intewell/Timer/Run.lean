/-
# Every run of the timers

The history of a run lists every call with the tick it was made at, those of the handlers
included, and every handler that ran.  `OnTime` reads it: after an activation, and with
no further call for the timer, its handler has run at the multiples of its period and at
nothing else.  A call keeps it because it touches one timer (`OnTime.call`), a firing
because the instant of the timer is the next multiple (`OnTime.fire`); the loop of
`ttosTimerNotify` is a sequence of both, at one tick (`notifyLoop_spec`).
-/

import Intewell.Sched.Basic
import Intewell.Timer.Ops

namespace Intewell.Timer

open Nat Relation List TimerState ReturnCode Prod DeltaQueue
open DeltaQueue (times)
open Sched (Returns)

variable {ι η : Type*} [DecidableEq ι]

/-- The events of a run, with their ticks. -/
abbrev History (ι η : Type*) := List (ℕ × Event ι η)

def firedAt (i : ι) : ℕ × Event ι η → Option ℕ
  | (t, .fired j) => if j = i then some t else none
  | (_, .returned _ _) => none

/-- The ticks at which the handler of `i` ran. -/
def fires (i : ι) (h : History ι η) : List ℕ := h.filterMap (firedAt i)

/-- No call is for timer `i`. -/
def LeftAlone (i : ι) (h : History ι η) : Prop :=
  ∀ t op code, (t, Event.returned op code) ∈ h → op.timer ≠ i

/-- Where a timer is that was activated at tick `a` and whose handler has run `m` times
since: before its next instant, or stopped after the last. -/
structure Phase (s : State ι η) (b : ℕ) (i : ι) (a m : ℕ) : Prop where
  passed : a + m * (s.timer i).ticks ≤ b
  next : (s.timer i).state = TTOS_TIMER_ACTIVE → Due s b i (a + (m + 1) * (s.timer i).ticks) ∧
    if (s.timer i).repeatCount = TTOS_TIMER_LOOP_FOREVER
    then (s.timer i).remainCount = (s.timer i).repeatCount
    else m + (s.timer i).remainCount = (s.timer i).repeatCount
  last : (s.timer i).state ≠ TTOS_TIMER_ACTIVE → (s.timer i).state = TTOS_TIMER_STOP ∧
    (s.timer i).repeatCount ≠ TTOS_TIMER_LOOP_FOREVER ∧ m = (s.timer i).repeatCount + 1

/-- The instants of a period: `a + T`, `a + 2 T`, up to `a + m T`. -/
def multiples (a T m : ℕ) : List ℕ := (range m).map fun k => a + (k + 1) * T

/-- An activated timer that is left alone has fired at the multiples of its period. -/
def OnTime (s : State ι η) (b : ℕ) (h : History ι η) : Prop :=
  ∀ i before a after, h = before ++ (a, .returned (.active i) TTOS_OK) :: after →
    LeftAlone i after →
    ∃ m, fires i after = multiples a (s.timer i).ticks m ∧ Phase s b i a m

/-- No timer is due. -/
def Future (s : State ι η) (b : ℕ) : Prop := ∀ i d, Due s b i d → b < d

variable {s s' : State ι η} {i j : ι} {a b b' d m k n : ℕ} {h : History ι η}
  {before after : History ι η} {e : ℕ × Event ι η}

theorem fires_append (h h' : History ι η) : fires i (h ++ h') = fires i h ++ fires i h' :=
  filterMap_append

section

omit [DecidableEq ι]

theorem leftAlone_append {h' : History ι η} :
    LeftAlone i (h ++ h') ↔ LeftAlone i h ∧ LeftAlone i h' := by
  simp only [LeftAlone, mem_append]
  exact ⟨fun hl => ⟨fun t op c hm => hl t op c (.inl hm), fun t op c hm => hl t op c (.inr hm)⟩,
    fun ⟨h1, h2⟩ t op c hm => hm.elim (h1 t op c) (h2 t op c)⟩

theorem split_concat {x : ℕ × Event ι η} (hh : h ++ [e] = before ++ x :: after) :
    (after = [] ∧ x = e) ∨ ∃ after', after = after' ++ [e] ∧ h = before ++ x :: after' := by
  rcases eq_nil_or_concat after with rfl | ⟨after', y, rfl⟩
  · exact .inl ⟨rfl, (cons.inj (append_inj' hh rfl).2).1.symm⟩
  · rw [concat_eq_append, ← cons_append, ← append_assoc] at hh
    obtain ⟨hpast, hlast⟩ := append_inj' hh rfl
    rw [(cons.inj hlast).1]
    exact .inr ⟨after', concat_eq_append, hpast⟩

theorem Phase.keep (hp : Phase s b i a m) (ht : s'.timer i = s.timer i)
    (hd : ∀ d, Due s b i d → Due s' b' i d) (hb : b ≤ b') : Phase s' b' i a m where
  passed := by
    rw [ht]
    exact hp.passed.trans hb
  next ha := by
    rw [ht] at ha ⊢
    exact ⟨hd _ (hp.next ha).1, (hp.next ha).2⟩
  last ha := by
    rw [ht] at ha ⊢
    exact hp.last ha

end

theorem OnTime.tick (ho : OnTime s b h) (ht : s'.timer = s.timer)
    (hd : ∀ i d, Due s b i d → Due s' (b + 1) i d) : OnTime s' (b + 1) h := by
  intro i before a after hh hl
  obtain ⟨m, hf, hp⟩ := ho i before a after hh hl
  refine ⟨m, by rwa [ht], hp.keep (by rw [ht]) (hd i) (le_succ b)⟩

variable {op : Op ι η}

theorem OnTime.call (ho : OnTime s b h) (hs : Inv s) (ha : op.Allocates s) :
    OnTime (op.run s).2 b (h ++ [(b, .returned op (op.run s).1)]) := by
  intro i before a after hh hl
  rcases split_concat hh with ⟨rfl, he⟩ | ⟨after', rfl, hpast⟩
  · obtain ⟨rfl, hev⟩ := mk.inj he
    obtain ⟨rfl, hc⟩ := Event.returned.inj hev
    have hact := (activeTimer_spec hs).2.2 hc.symm a
    refine ⟨0, rfl, ⟨by simp, fun _ => ⟨?_, ?_⟩, fun hn => absurd hact.state hn⟩⟩
    · rw [zero_add, one_mul]
      exact hact.due
    split_ifs
    · exact hact.remain
    · exact (zero_add _).trans hact.remain
  · obtain ⟨hl, hop⟩ := leftAlone_append.1 hl
    have hi : i ≠ op.timer := (hop b op _ (mem_singleton.2 rfl)).symm
    have ht := Op.run_touch hs ha
    obtain ⟨m, hf, hp⟩ := ho i before a after' hpast hl
    refine ⟨m, ?_, hp.keep (ht.timer i hi) (fun d => (ht.due b i hi d).2) le_rfl⟩
    rw [fires_append, hf, ht.timer i hi]
    exact append_nil _

omit [DecidableEq ι] in
theorem Phase.fire (hp : Phase s b i a m) (hs : Inv s) (hd : Due s b i b) (hf : Fired i b s s') :
    a + (m + 1) * (s.timer i).ticks = b ∧ Phase s' b i a (m + 1) := by
  have ha : (s.timer i).state = TTOS_TIMER_ACTIVE := ((hs.fit i).linked.1 hd.linked).2
  obtain ⟨hn, hr⟩ := hp.next ha
  have hnd := hs.nodup
  rw [← map_fst_times b] at hnd
  have hb : a + (m + 1) * (s.timer i).ticks = b :=
    congrArg snd (inj_on_of_nodup_map hnd hn hd rfl)
  refine ⟨hb, ?_⟩
  by_cases h0 : (s.timer i).remainCount = 0
  · have hstop := hf.last h0
    have hne : (s.timer i).repeatCount ≠ TTOS_TIMER_LOOP_FOREVER := fun h => by
      rw [if_pos h, h0, h] at hr
      exact absurd hr (by decide)
    rw [if_neg hne] at hr
    refine ⟨by rw [hf.ticks, hb], fun h => by simp [hstop] at h, fun _ => ⟨hstop, ?_, ?_⟩⟩
    · rwa [hf.repeatCount]
    · rw [hf.repeatCount]
      omega
  · obtain ⟨ha', hd', hr'⟩ := hf.next h0
    refine ⟨by rw [hf.ticks, hb], fun _ => ⟨?_, ?_⟩, fun h => absurd ha' h⟩
    · rw [hf.ticks, succ_mul, ← add_assoc, hb]
      exact hd'
    · rw [hf.repeatCount, hr']
      split_ifs at hr ⊢ with hfe
      · exact hr
      · omega

theorem OnTime.fire (ho : OnTime s b h) (hs : Inv s) (hd : Due s b j b) (hf : Fired j b s s') :
    OnTime s' b (h ++ [(b, .fired j)]) := by
  intro i before a after hh hl
  rcases split_concat hh with ⟨-, he⟩ | ⟨after', rfl, hpast⟩
  · exact absurd (congrArg snd he) (by simp)
  · obtain ⟨m, hm, hp⟩ := ho i before a after' hpast (leftAlone_append.1 hl).1
    rw [fires_append, hm]
    by_cases hij : j = i
    · subst hij
      obtain ⟨hb, hp⟩ := hp.fire hs hd hf
      refine ⟨m + 1, ?_, hp⟩
      rw [hf.ticks]
      simp [fires, firedAt, multiples, range_succ, hb]
    · have hij' : i ≠ j := fun h => hij h.symm
      refine ⟨m, ?_, hp.keep (hf.touch.timer i hij') (fun d => (hf.touch.due b i hij' d).2) le_rfl⟩
      rw [hf.touch.timer i hij']
      simp [fires, firedAt, hij]

/-! ## A notification -/

/-- The timers that are due at tick `b`. -/
def dueTimers (s : State ι η) (b : ℕ) : Finset ι :=
  (((times b s.timerWaitedQueue).filter fun x => x.2 = b).map fst).toFinset

theorem mem_dueTimers : i ∈ dueTimers s b ↔ Due s b i b := by
  simp [dueTimers, Due]

/-- The invariant at tick `b`, with history `h`. -/
structure At (s : State ι η) (b : ℕ) (h : History ι η) : Prop where
  inv : Inv s
  onTime : OnTime s b h

theorem At.call (hs : At s b h) (ha : op.Allocates s) (hc : op.Careful s) :
    At (op.run s).2 b (h ++ [(b, .returned op (op.run s).1)]) :=
  ⟨(Op.run_touch hs.inv ha).inv hs.inv (Op.run_own hs.inv ha hc).fit, hs.onTime.call hs.inv ha⟩

theorem due_call (hs : Inv s) (ha : op.Allocates s) (hc : op.Careful s)
    (hd : Due (op.run s).2 b i d) : Due s b i d ∨ b < d := by
  by_cases hi : i = op.timer
  · subst hi
    exact (Op.run_own hs ha hc).due b d hd
  · exact .inl (((Op.run_touch hs ha).due b i hi d).1 hd)

theorem Future.call (hf : Future s b) (hs : Inv s) (ha : op.Allocates s) (hc : op.Careful s) :
    Future (op.run s).2 b := fun i d hd => (due_call hs ha hc hd).elim (hf i d) id

section

omit [DecidableEq ι]

theorem Call.allocates (c : Call ι) : (c.op : Op ι η).Allocates s := by cases c <;> trivial

theorem Call.careful (c : Call ι) : (c.op : Op ι η).Careful s := by cases c <;> trivial

end

theorem runCalls_spec (cs : List (Call ι)) (hs : At s b h) :
    At (runCalls cs s).2 b (h ++ (runCalls cs s).1.map (b, ·)) ∧
      dueTimers (runCalls cs s).2 b ⊆ dueTimers s b := by
  induction cs generalizing s h with
  | nil => exact ⟨by simpa [runCalls] using hs, subset_rfl⟩
  | cons c cs ih =>
    obtain ⟨hat, hsub⟩ := ih (hs.call c.allocates c.careful)
    refine ⟨by simpa [runCalls] using hat, hsub.trans fun i hi => ?_⟩
    rw [mem_dueTimers] at hi ⊢
    exact (due_call hs.inv c.allocates c.careful hi).resolve_right (lt_irrefl b)

/-- **The loop ends**, after as many handlers as timers are due, or fewer; no handler that
it calls is missing, and no timer is due afterwards. -/
theorem notifyLoop_spec (script : ℕ → List (Call ι)) (hs : At s b h) :
    ∃ es s', (∀ n > (dueTimers s b).card, notifyLoop script n 0 k s = some (es, s')) ∧
      At s' b (h ++ es.map (b, ·)) ∧ Future s' b := by
  -- on the number of timers that are due: a handler takes one away and adds none
  induction hm : (dueTimers s b).card using Nat.strong_induction_on generalizing s h k with
  | _ m ih =>
    rcases hq : s.timerWaitedQueue with _ | ⟨⟨i, w⟩, q⟩
    · refine ⟨[], s, fun n hn => ?_, by simpa using hs, fun i d hd => ?_⟩
      · obtain ⟨n, rfl⟩ := Nat.exists_eq_add_of_lt hn
        simp [notifyLoop, hq]
      · simp [Due, hq] at hd
    · by_cases hw : w = 0
      · subst hw
        have hdue : Due s b i b := by simp [Due, hq]
        have hf := expire_spec hs.inv hq b
        have hat : At (expire i 0 { s with timerWaitedQueue := q }) b (h ++ [(b, .fired i)]) :=
          ⟨hf.touch.inv hs.inv hf.fit, hs.onTime.fire hs.inv hdue hf⟩
        obtain ⟨hat', hsub⟩ := runCalls_spec (script k) hat
        have hlt : (dueTimers (runCalls (script k)
            (expire i 0 { s with timerWaitedQueue := q })).2 b).card < m := by
          rw [← hm]
          refine Finset.card_lt_card (Finset.ssubset_iff_of_subset ?_ |>.2 ⟨i, ?_, ?_⟩)
          · intro j hj
            have hj := hsub hj
            rw [mem_dueTimers] at hj ⊢
            have hji : j ≠ i := fun h => hf.later (h ▸ hj)
            exact (hf.touch.due b j hji b).1 hj
          · exact mem_dueTimers.2 hdue
          · exact fun hi => hf.later (mem_dueTimers.1 (hsub hi))
        obtain ⟨es, s', hrun, hat'', hfut⟩ := ih _ hlt (k := k + 1) hat' rfl
        refine ⟨.fired i :: (runCalls (script k)
          (expire i 0 { s with timerWaitedQueue := q })).1 ++ es, s', fun n hn => ?_, ?_, hfut⟩
        · obtain ⟨n, rfl⟩ : ∃ n', n = n' + 1 := ⟨n - 1, by omega⟩
          simp [notifyLoop, hq, hf.handler, hrun n (by omega)]
        · simpa using hat''
      · refine ⟨[], s, fun n hn => ?_, by simpa using hs, fun i d hd => ?_⟩
        · obtain ⟨n, rfl⟩ : ∃ n', n = n' + 1 := ⟨n - 1, by omega⟩
          have hs' : { s with timerWaitedQueue := (i, w - 0) :: q } = s := by
            rw [Nat.sub_zero, ← hq]
          simp only [notifyLoop, hq, gt_iff_lt, Nat.pos_of_ne_zero hw, if_true, hs']
        · rw [Due, hq] at hd
          exact lt_of_mem_times_cons (Nat.pos_of_ne_zero hw) hd

/-- The queue one tick later. -/
def tickDown (s : State ι η) : State ι η :=
  match s.timerWaitedQueue with
  | [] => s
  | (i, w) :: q => { s with timerWaitedQueue := (i, w - 1) :: q }

omit [DecidableEq ι] in
theorem times_tickDown (hf : Future s b) :
    times (b + 1) (tickDown s).timerWaitedQueue = times b s.timerWaitedQueue := by
  rcases hq : s.timerWaitedQueue with _ | ⟨⟨i, w⟩, q⟩
  · simp [tickDown, hq]
  · have := hf i (b + w) (by simp [Due, hq])
    simp only [tickDown, hq, times_cons]
    rw [show b + 1 + (w - 1) = b + w by omega]

theorem notifyLoop_tick (script : ℕ → List (Call ι)) (hf : Future s b) (n k : ℕ) :
    notifyLoop script n 1 k s = notifyLoop script n 0 k (tickDown s) := by
  cases n with
  | zero => rfl
  | succ n =>
    rcases hq : s.timerWaitedQueue with _ | ⟨⟨i, w⟩, q⟩
    · simp [notifyLoop, tickDown, hq]
    · have := hf i (b + w) (by simp [Due, hq])
      by_cases hw : 1 < w
      · obtain ⟨v, rfl⟩ : ∃ v, w = v + 2 := ⟨w - 2, by omega⟩
        simp [notifyLoop, tickDown, hq]
      · obtain rfl : w = 1 := by omega
        simp [notifyLoop, tickDown, hq]

section

omit [DecidableEq ι]

theorem due_tickDown (hf : Future s b) : Due (tickDown s) (b + 1) i d ↔ Due s b i d := by
  rw [Due, times_tickDown hf, Due]

@[simp] theorem tickDown_timer : (tickDown s).timer = s.timer := by
  rw [tickDown]
  split <;> rfl

@[simp] theorem tickDown_created : (tickDown s).created = s.created := by
  rw [tickDown]
  split <;> rfl

end

theorem At.tickDown (hs : At s b h) (hf : Future s b) : At (tickDown s) (b + 1) h := by
  refine ⟨⟨?_, fun i => ⟨?_, ?_⟩⟩, hs.onTime.tick tickDown_timer fun i d => (due_tickDown hf).2⟩
  · rw [← map_fst_times (b + 1), times_tickDown hf, map_fst_times]
    exact hs.inv.nodup
  · rw [linked_iff_due (b + 1), tickDown_created, tickDown_timer, ← (hs.inv.fit i).linked,
      linked_iff_due b]
    exact exists_congr fun d => due_tickDown hf
  · rw [tickDown_created, tickDown_timer]
    exact (hs.inv.fit i).armed

/-- **The notification of a tick returns**, and keeps everything. -/
theorem ttosTimerNotify_spec (script : ℕ → List (Call ι)) (hs : At s b h) (hf : Future s b) :
    ∃ es s', Returns (ttosTimerNotify · script 1 s) (es, s') ∧
      At s' (b + 1) (h ++ es.map (b + 1, ·)) ∧ Future s' (b + 1) := by
  obtain ⟨es, s', hrun, hat, hfut⟩ := notifyLoop_spec script (hs.tickDown hf)
  refine ⟨es, s', ⟨(dueTimers (Timer.tickDown s) (b + 1)).card + 1, fun n hn => ?_⟩, hat, hfut⟩
  exact (notifyLoop_tick script hf n 0).trans (hrun n hn)

theorem notifyLoop_mono (script : ℕ → List (Call ι)) {ticks : ℕ}
    {r : List (Event ι η) × State ι η} (hr : notifyLoop script n ticks k s = some r) (hm : n ≤ m) :
    notifyLoop script m ticks k s = some r := by
  induction n generalizing m ticks k s r with
  | zero => cases hr
  | succ n ih =>
    obtain ⟨m, rfl⟩ : ∃ m', m = m' + 1 := ⟨m - 1, by omega⟩
    rcases hq : s.timerWaitedQueue with _ | ⟨⟨i, w⟩, q⟩
    · simpa only [notifyLoop, hq] using hr
    · simp only [notifyLoop, hq] at hr ⊢
      split_ifs at hr ⊢ with hw hh
      · exact hr
      · obtain ⟨r', hr', rfl⟩ := Option.map_eq_some_iff.1 hr
        rw [ih hr' (by omega), Option.map_some]

/-! ## Runs -/

/-- The timers, the tick, and what has happened. -/
structure World (ι η : Type*) where
  st : State ι η
  now : ℕ
  history : History ι η

/-- A call of the interface that meets `ok`, or the notification of a tick. -/
inductive Step (ok : State ι η → Op ι η → Prop) : World ι η → World ι η → Prop
  | call (w : World ι η) (op : Op ι η) (ha : op.Allocates w.st) (hok : ok w.st op) :
    Step ok w ⟨(op.run w.st).2, w.now, w.history ++ [(w.now, .returned op (op.run w.st).1)]⟩
  | notify (w : World ι η) (script : ℕ → List (Call ι)) (n : ℕ) (es : List (Event ι η))
    (s' : State ι η) (hn : ttosTimerNotify n script 1 w.st = some (es, s')) :
    Step ok w ⟨s', w.now + 1, w.history ++ es.map (w.now + 1, ·)⟩

/-- No timer is created; what the control blocks hold does not matter. -/
def start (timer : ι → TimerControlBlock η) : World ι η := ⟨⟨fun _ => false, timer, []⟩, 0, []⟩

/-- What holds of the timers between the calls. -/
structure Good (w : World ι η) : Prop where
  /-- A timer is in the queue exactly when it is active. -/
  linked : ∀ i, Linked w.st i ↔ w.st.created i = true ∧ (w.st.timer i).state = TTOS_TIMER_ACTIVE
  /-- A timer that was activated at tick `a`, and left alone since, has fired at
  `a + T, …, a + m T`.  It is active and waits for the next multiple, which is yet to
  come, or it has stopped after `c + 1` times. -/
  onTime : ∀ i before a after,
    w.history = before ++ (a, .returned (.active i) TTOS_OK) :: after → LeftAlone i after →
    ∃ m, fires i after = multiples a (w.st.timer i).ticks m ∧
      a + m * (w.st.timer i).ticks ≤ w.now ∧
      ((w.st.timer i).state = TTOS_TIMER_ACTIVE ∧ w.now < a + (m + 1) * (w.st.timer i).ticks ∧
          ((w.st.timer i).repeatCount = TTOS_TIMER_LOOP_FOREVER ∨ m ≤ (w.st.timer i).repeatCount) ∨
        (w.st.timer i).state = TTOS_TIMER_STOP ∧
          (w.st.timer i).repeatCount ≠ TTOS_TIMER_LOOP_FOREVER ∧ m = (w.st.timer i).repeatCount + 1)
  /-- A call moves no other timer. -/
  apart : ∀ op : Op ι η, op.Allocates w.st → Touch op.timer w.st (op.run w.st).2
  /-- The notification of the next tick returns, whatever the handlers call: none that it
  runs is `NULL`. -/
  returns : ∀ script, ∃ r, Returns (ttosTimerNotify · script 1 w.st) r

theorem Step.keeps {w w' : World ι η} (hstep : Step (fun s op => op.Careful s) w w')
    (hs : At w.st w.now w.history ∧ Future w.st w.now) :
    At w'.st w'.now w'.history ∧ Future w'.st w'.now := by
  cases hstep with
  | call op ha hok => exact ⟨hs.1.call ha hok, hs.2.call hs.1.inv ha hok⟩
  | notify script n es s' hn =>
    obtain ⟨es', s'', hr, hat, hf⟩ := ttosTimerNotify_spec script hs.1 hs.2
    cases hr.eq fun m hm => notifyLoop_mono script hn hm
    exact ⟨hat, hf⟩

end Intewell.Timer
