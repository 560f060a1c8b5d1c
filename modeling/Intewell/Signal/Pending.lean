/-
# No deliverable signal is forgotten

A thread looks at its signals when its flag SIGPENDING is set.  `NoneForgotten` says that the flags
are enough: a thread that has a signal of its own which it does not block is flagged, and of the
threads that do not block a shared signal one is flagged.

Sends, rounds of `signal_fetch_deliverable`, `signal_delivered` and `kernel_sigtimedwait` keep it.
Where a mask is lowered by kernel_sigprocmask, by the return from a handler or by
`kernel_signal_suspend`, no flag is computed anew, and `signal_mask_restore_saved` also tells no
other thread of what is blocked then.  `signal_none_forgotten` says which mask changes are without
harm, and `signal_forgotten` is a run where one is not.
-/

import Intewell.Lib.Exec
import Intewell.Signal.Deliver

namespace Intewell.Signal.Pending

open Pending List
open Relation (ReflTransGen)
open Function (update)

variable {θ ι : Type*}

/-- What a thread has pending of its own. -/
def own (g : Group θ ι) (t : θ) : Sigset := (g.thread t).sig_queue.sigset_pending

def blocked (g : Group θ ι) (t : θ) : Sigset := (g.thread t).blocked

def shared (g : Group θ ι) : Sigset := g.shared.sigset_pending

/-- SIGPENDING. -/
def Flagged (g : Group θ ι) (t : θ) : Prop := (g.thread t).sigpending = true

instance (g : Group θ ι) (t : θ) : Decidable (Flagged g t) := inferInstanceAs (Decidable (_ = true))

/-- A thread of the group that does not block a signal. -/
def Open (g : Group θ ι) (n : ℕ) (t : θ) : Prop := t ∈ g.thread_group ∧ ¬Has (blocked g t) n

/-- **The flags are enough.** -/
structure NoneForgotten (g : Group θ ι) : Prop where
  own : ∀ t ∈ g.thread_group, ∀ n, Has (own g t) n → ¬Has (blocked g t) n → Flagged g t
  shared : ∀ n, Has (shared g) n → (∃ t, Open g n t) → ∃ t, Open g n t ∧ Flagged g t

/-! ## Changes that need no other flag -/

/-- The masks of a thread. -/
def masks (g : Group θ ι) (t : θ) : Sigset × Sigset × Sigset :=
  ((g.thread t).blocked, (g.thread t).real_blocked, (g.thread t).saved_sigmask)

/-- No mask changes, no flag is cleared, and what becomes pending has its thread flagged. -/
structure Gentle (g g' : Group θ ι) : Prop where
  group : g'.thread_group = g.thread_group
  masks : ∀ t, masks g' t = masks g t
  flag : ∀ t, Flagged g t → Flagged g' t
  own : ∀ t n, Has (own g' t) n → Has (own g t) n ∨ Flagged g' t
  shared : ∀ n, Has (shared g') n →
    Has (shared g) n ∨ ((∃ t, Open g n t) → ∃ t, Open g n t ∧ Flagged g' t)

variable {g g' g'' : Group θ ι} {t u : θ} {n : ℕ}

theorem Gentle.blocked (h : Gentle g g') (t : θ) : blocked g' t = blocked g t :=
  congrArg Prod.fst (h.masks t)

theorem Gentle.open_iff (h : Gentle g g') : Open g' n t ↔ Open g n t := by
  unfold Open
  rw [h.group, h.blocked]

theorem Gentle.refl (g : Group θ ι) : Gentle g g :=
  ⟨rfl, fun _ => rfl, fun _ h => h, fun _ _ h => .inl h, fun _ h => .inl h⟩

theorem Gentle.trans (h : Gentle g g') (h' : Gentle g' g'') : Gentle g g'' := by
  constructor
  · exact h'.group.trans h.group
  · exact fun t => (h'.masks t).trans (h.masks t)
  · exact fun t ht => h'.flag t (h.flag t ht)
  · intro t n hn
    rcases h'.own t n hn with hn | hf
    · exact (h.own t n hn).imp_right (h'.flag t)
    · exact .inr hf
  · intro n hn
    rcases h'.shared n hn with hn | hf
    · refine (h.shared n hn).imp_right fun hf hopen => ?_
      obtain ⟨t, ht, hft⟩ := hf hopen
      exact ⟨t, ht, h'.flag t hft⟩
    · simp only [h.open_iff] at hf
      exact .inr hf

theorem NoneForgotten.gentle (hi : NoneForgotten g) (h : Gentle g g') : NoneForgotten g' := by
  constructor
  · intro t ht n hn hb
    rw [h.group] at ht
    rw [h.blocked] at hb
    rcases h.own t n hn with hn | hf
    · exact h.flag t (hi.own t ht n hn hb)
    · exact hf
  · intro n hn hopen
    simp only [h.open_iff] at hopen ⊢
    rcases h.shared n hn with hn | hf
    · obtain ⟨t, ht, hft⟩ := hi.shared n hn hopen
      exact ⟨t, ht, h.flag t hft⟩
    · exact hf hopen

/-- A change of a thread that leaves its masks and its flag as they are, and makes nothing
pending. -/
structure Calm (c c' : Thread ι) : Prop where
  blocked : c'.blocked = c.blocked
  real_blocked : c'.real_blocked = c.real_blocked
  saved_sigmask : c'.saved_sigmask = c.saved_sigmask
  sigpending : c'.sigpending = c.sigpending
  own : ∀ n, Has c'.sig_queue.sigset_pending n → Has c.sig_queue.sigset_pending n

theorem Calm.refl (c : Thread ι) : Calm c c := ⟨rfl, rfl, rfl, rfl, fun _ h => h⟩

theorem Gentle.of_calm (hg : g'.thread_group = g.thread_group)
    (h : ∀ t, Calm (g.thread t) (g'.thread t))
    (hs : ∀ n, Has (Pending.shared g') n → Has (Pending.shared g) n) : Gentle g g' := by
  constructor
  · exact hg
  · intro t
    unfold Pending.masks
    rw [(h t).blocked, (h t).real_blocked, (h t).saved_sigmask]
  · exact fun t ht => (h t).sigpending.trans ht
  · exact fun t n hn => .inl ((h t).own n hn)
  · exact fun n hn => .inl (hs n hn)

theorem gentle_remove_shared (set : Sigset) (g : Group θ ι) :
    Gentle g (sigqueue_remove_shared set g) :=
  .of_calm rfl (fun _ => .refl _) fun _ h => (has_remove.1 h).1

theorem gentle_jobctl (g : Group θ ι) (j : Jobctl) (b : Bool) :
    Gentle g { g with jobctl := j, jobctl_stopped := b } :=
  .of_calm rfl (fun _ => .refl _) fun _ h => h

variable [DecidableEq θ]

variable {f : Thread ι → Thread ι}

theorem Gentle.modify (hf : Calm (g.thread t) (f (g.thread t))) : Gentle g (g.modify t f) := by
  refine .of_calm rfl (fun u => ?_) fun _ h => h
  by_cases h : u = t
  · subst h
    simpa [Group.modify] using hf
  · simpa [Group.modify, h] using Calm.refl _

theorem Gentle.modifyAll (hf : ∀ c, Calm c (f c)) : Gentle g (g.modifyAll f) := by
  refine .of_calm rfl (fun u => ?_) fun _ h => h
  by_cases h : u ∈ g.thread_group
  · simpa [Group.modifyAll, h] using hf _
  · simpa [Group.modifyAll, h] using Calm.refl _

variable {b : Bool}

@[simp] theorem own_setPending : own (g.setPending t b) u = own g u :=
  update_proj (fun c : Thread ι => c.sig_queue.sigset_pending) (by rfl) u

@[simp] theorem masks_setPending : masks (g.setPending t b) u = masks g u :=
  update_proj (fun c : Thread ι => (c.blocked, c.real_blocked, c.saved_sigmask)) (by rfl) u

@[simp] theorem blocked_setPending : blocked (g.setPending t b) u = blocked g u :=
  congrArg Prod.fst (masks_setPending)

@[simp] theorem shared_setPending : shared (g.setPending t b) = shared g := rfl

@[simp] theorem flagged_setPending_self : Flagged (g.setPending t b) t ↔ b = true := by
  simp [Group.setPending, Group.modify, Flagged]

theorem flagged_setPending_of_ne (h : u ≠ t) : Flagged (g.setPending t b) u ↔ Flagged g u := by
  simp [Group.setPending, Group.modify, Flagged, h]

@[simp] theorem open_setPending : Open (g.setPending t b) n u ↔ Open g n u := by
  unfold Open
  rw [blocked_setPending]
  rfl

theorem gentle_setPending : Gentle g (g.setPending t true) := by
  refine ⟨rfl, fun u => masks_setPending, fun u hu => ?_, fun u n hn => ?_, fun n hn => .inl hn⟩
  · by_cases h : u = t
    · subst h
      exact flagged_setPending_self.2 rfl
    · exact (flagged_setPending_of_ne h).2 hu
  · exact .inl (by simpa using hn)

/-! ## Sends -/

theorem gentle_remove_private (set : Sigset) (g : Group θ ι) :
    Gentle g (sigqueue_remove_private set g) :=
  .modifyAll fun _ => ⟨rfl, rfl, rfl, rfl, fun _ h => (has_remove.1 h).1⟩

theorem gentle_resume_thread_group (g : Group θ ι) : Gentle g (signal_resume_thread_group g) :=
  .modifyAll fun _ => ⟨rfl, rfl, rfl, rfl, fun _ h => h⟩

theorem gentle_prepare_continue (g : Group θ ι) : Gentle g (signal_prepare_continue g) :=
  (((gentle_jobctl g _ _).trans (gentle_remove_shared _ _)).trans (gentle_remove_private _ _)).trans
    (gentle_resume_thread_group _)

theorem gentle_send_prepare (t : θ) (signo : ℤ) (g : Group θ ι) :
    Gentle g (signal_send_prepare t signo g).2 := by
  unfold signal_send_prepare
  split_ifs
  · exact .refl g
  · exact .refl g
  · exact .refl g
  · unfold signal_prepare_send
    split_ifs
    · exact .refl g
    · exact ((gentle_remove_shared _ g).trans (gentle_remove_private _ _)).trans
        (gentle_jobctl _ _ _)
    · exact gentle_prepare_continue g
    · exact .refl g

/-- One round of the loop of `tgroup_find_signal_thread_locked`. -/
def findStep (g : Group θ ι) (n : ℕ) (catcher : Option θ) (t : θ) : Option θ :=
  if signal_set_contains (g.thread t).blocked n then catcher
  else
    match catcher with
    | none => some t
    | some c =>
      if (g.thread t).task.taskCurPriority < (g.thread c).task.taskCurPriority then some t
      else catcher

section

omit [DecidableEq θ]

theorem findStep_spec {catcher : Option θ} (hu : u ∈ g.thread_group)
    (hc : ∀ t, catcher = some t → Open g n t) :
    (∀ t, findStep g n catcher u = some t → Open g n t) ∧
      (findStep g n catcher u = none → catcher = none ∧ ¬Open g n u) := by
  unfold findStep
  split_ifs with hb
  · exact ⟨hc, fun h => ⟨h, fun ho => ho.2 hb⟩⟩
  · have ho : Open g n u := ⟨hu, hb⟩
    cases catcher with
    | none => simpa using ho
    | some c =>
      dsimp only
      split_ifs
      · simpa using ho
      · exact ⟨hc, by simp⟩

/-- The receiver of a signal to the process does not block it, and there is one if a thread does
not. -/
theorem tgroup_find_signal_thread_locked_spec (g : Group θ ι) (n : ℕ) :
    (∀ t, tgroup_find_signal_thread_locked g n = some t → Open g n t) ∧
      (tgroup_find_signal_thread_locked g n = none → ∀ t, ¬Open g n t) := by
  -- along the list: a thread is kept from before, or is an open one of the list
  have key : ∀ (l : List θ) (catcher : Option θ), (∀ t ∈ l, t ∈ g.thread_group) →
      (∀ t, catcher = some t → Open g n t) →
      (∀ t, l.foldl (findStep g n) catcher = some t → Open g n t) ∧
        (l.foldl (findStep g n) catcher = none → catcher = none ∧ ∀ t ∈ l, ¬Open g n t) := by
    intro l
    induction l with
    | nil => exact fun catcher _ hc => ⟨hc, fun h => ⟨h, by simp⟩⟩
    | cons u l ih =>
      intro catcher hl hc
      have := findStep_spec (hl u (.head _)) hc
      obtain ⟨h1, h2⟩ := ih (findStep g n catcher u) (fun t ht => hl t (.tail _ ht)) this.1
      refine ⟨h1, fun h => ?_⟩
      obtain ⟨h3, h4⟩ := h2 h
      exact ⟨(this.2 h3).1, by simpa using ⟨(this.2 h3).2, h4⟩⟩
  obtain ⟨h1, h2⟩ := key g.thread_group none (fun _ h => h) (by simp)
  exact ⟨h1, fun h t ht => (h2 h).2 t ht.1 ht⟩

end

variable {e : Entry ι}

theorem gentle_queue_to_thread : Gentle g (signal_queue_to_thread t e g).2 := by
  have key : ∀ u, u ≠ t → (signal_queue_to_thread t e g).2.thread u = g.thread u := fun u h => by
    simp [signal_queue_to_thread, Group.modify, h]
  have hf : Flagged (signal_queue_to_thread t e g).2 t := by
    simp [signal_queue_to_thread, Flagged, Group.modify]
  refine ⟨rfl, fun u => ?_, fun u hu => ?_, fun u n hn => ?_, fun n hn => .inl hn⟩
  · by_cases h : u = t
    · subst h
      simp [signal_queue_to_thread, masks, Group.modify]
    · rw [masks, key u h]
      rfl
  · by_cases h : u = t
    · exact h ▸ hf
    · rwa [Flagged, key u h]
  · by_cases h : u = t
    · exact .inr (h ▸ hf)
    · rw [own, key u h] at hn
      exact .inl hn

theorem gentle_queue_to_process (he : Valid e.signo) :
    Gentle g (signal_queue_to_process e g).2 := by
  obtain ⟨hsome, hnone⟩ := tgroup_find_signal_thread_locked_spec g e.signo
  unfold signal_queue_to_process
  cases hr : tgroup_find_signal_thread_locked g e.signo with
  | none =>
    refine ⟨rfl, fun _ => rfl, fun _ h => h, fun _ _ h => .inl h, fun n hn => ?_⟩
    rcases (has_add he).1 hn with rfl | hn
    · exact .inr fun ⟨t, ht⟩ => absurd ht (hnone hr t)
    · exact .inl hn
  | some t =>
    refine (gentle_setPending).trans
      ⟨rfl, fun _ => rfl, fun _ h => h, fun _ _ h => .inl h, fun n hn => ?_⟩
    rcases (has_add he).1 hn with rfl | hn
    · exact .inr fun _ => ⟨t, open_setPending.2 (hsome t hr), flagged_setPending_self.2 rfl⟩
    · exact .inl hn

variable {flag : Target}

theorem gentle_queue (he : Valid e.signo) : Gentle g (signal_queue flag t e g).2 := by
  cases flag with
  | TO_THREAD => exact gentle_queue_to_thread
  | TO_PROCESS => exact gentle_queue_to_process he

theorem gentle_deliver (he : Valid e.signo) : Gentle g (signal_deliver flag t e g) := by
  unfold signal_deliver
  dsimp only
  split
  · refine (gentle_queue he).trans (.modify ?_)
    split_ifs <;> exact ⟨rfl, rfl, rfl, rfl, fun _ h => h⟩
  · exact gentle_queue he

theorem gentle_send {malloced : Bool} {signo : ℤ} {info : ι} :
    Gentle g (signal_send malloced t signo info flag g).2 := by
  have hp := gentle_send_prepare t signo g
  have hv := valid_of_send_prepare t signo g
  unfold signal_send
  split
  · rename_i h
    rwa [h] at hp
  · rename_i h
    rw [h] at hp hv
    split_ifs
    · exact hp.trans (gentle_deliver (hv rfl))
    · exact hp

theorem gentle_forwardStop (malloced : Bool) (info : ι) (t u : θ) (g : Group θ ι) :
    Gentle g (forwardStop malloced info t g u) := by
  unfold forwardStop
  split_ifs
  · refine .trans (.modify ?_) gentle_send
    exact ⟨rfl, rfl, rfl, rfl, fun _ h => h⟩
  · exact .refl g

theorem gentle_stop_process (malloced : Bool) (info : ι) (t : θ) (g : Group θ ι) :
    Gentle g (stop_process malloced info t g) := by
  have key : ∀ (l : List θ) (g : Group θ ι),
    Gentle g (l.foldl (forwardStop malloced info t) g) := by
    intro l
    induction l with
    | nil => exact .refl
    | cons u l ih => exact fun g => (gentle_forwardStop _ _ _ _ _).trans (ih _)
  have h1 := key g.thread_group g
  unfold stop_process
  generalize g.thread_group.foldl (forwardStop malloced info t) g = g' at h1 ⊢
  refine h1.trans (.trans (gentle_jobctl g' g'.jobctl true) (.modify ?_))
  exact ⟨rfl, rfl, rfl, rfl, fun _ h => h⟩

/-! ## Dequeues -/

theorem gentle_dequeue_own (m : ℕ) : Gentle g (g.modify t fun c => { c with sig_queue :=
      (sigqueue_dequeue_single (g.thread t).sig_queue m).2 }) :=
  .modify ⟨rfl, rfl, rfl, rfl, fun _ h => has_of_dequeue h⟩

omit [DecidableEq θ] in
theorem gentle_dequeue_shared (m : ℕ) :
    Gentle g { g with shared := (sigqueue_dequeue_single g.shared m).2 } :=
  .of_calm rfl (fun _ => .refl _) fun _ h => has_of_dequeue h

theorem gentle_dequeue (t : θ) (mask : Sigset) (g : Group θ ι) :
    Gentle g (signal_dequeue t mask g).2.2 := by
  unfold signal_dequeue
  dsimp only
  split_ifs
  · exact gentle_dequeue_own _
  · exact gentle_dequeue_shared _
  · exact .refl g

theorem gentle_collect (t : θ) (g : Group θ ι) :
    Gentle g (signal_collect_next_pending t g).2.2 := by
  unfold signal_collect_next_pending
  dsimp only
  split_ifs
  · exact .refl g
  · exact gentle_dequeue_own _
  · exact gentle_dequeue_shared _

variable {mask : Sigset}

/-- Where nothing is dequeued there is nothing to be had, and nothing changes. -/
theorem signal_dequeue_eq_zero (h : (signal_dequeue t mask g).1 = 0) :
    (signal_dequeue t mask g).2.2 = g ∧
      ∀ n, ¬Ready (own g t) mask n ∧ ¬Ready (shared g) mask n := by
  unfold signal_dequeue at h ⊢
  dsimp only at h ⊢
  split_ifs at h ⊢ with h1 h2
  · exact absurd h h1
  · exact absurd h h2
  · rw [ne_eq, not_not] at h1 h2
    exact ⟨rfl, fun n =>
      ⟨signal_find_next_pending_eq_zero.1 h1 n, signal_find_next_pending_eq_zero.1 h2 n⟩⟩

/-! ## The flag computed anew -/

omit [DecidableEq θ] in
theorem recalc_of_pending (h : Has (own g t) n ∨ Has (shared g) n)
    (hb : ¬Has (blocked g t) n) : signal_pending_recalc_locked t g = true := by
  unfold signal_pending_recalc_locked
  rw [Bool.or_eq_true, decide_eq_true_iff]
  right
  intro h0
  refine eq_zero_iff_not_has.1 h0 n ?_
  have hn : Has ((g.thread t).sig_queue.sigset_pending ||| g.shared.sigset_pending) n := has_or.2 h
  exact has_and.2 ⟨hn, (has_not hn.valid).2 hb⟩

/-- A thread that looks at all its signals may clear its own flag. -/
theorem NoneForgotten.recalc (hi : NoneForgotten g) :
    NoneForgotten (signal_pending_recalc_current_locked t g) := by
  unfold signal_pending_recalc_current_locked
  constructor
  · intro u hu n hn hb
    rw [own_setPending] at hn
    rw [blocked_setPending] at hb
    by_cases h : u = t
    · subst h
      exact flagged_setPending_self.2 (recalc_of_pending (.inl hn) hb)
    · exact (flagged_setPending_of_ne h).2 (hi.own u hu n hn hb)
  · intro n hn hopen
    simp only [open_setPending] at hopen ⊢
    obtain ⟨u, hu, hf⟩ := hi.shared n hn hopen
    refine ⟨u, hu, ?_⟩
    by_cases h : u = t
    · subst h
      exact flagged_setPending_self.2 (recalc_of_pending (.inr hn) hu.2)
    · exact (flagged_setPending_of_ne h).2 hf

/-! ## A mask is written -/

/-- Another thread of the group that does not block a signal. -/
def OpenElse (g : Group θ ι) (t : θ) (n : ℕ) (u : θ) : Prop := u ≠ t ∧ Open g n u

/-- **A mask that unblocks nothing the flags have no one for**: the thread is flagged, or what it
unblocks is not pending with it, and not shared or open to another thread. -/
def Quiet (g : Group θ ι) (t : θ) (newset : Sigset) : Prop :=
  Flagged g t ∨ ∀ n, Has (blocked g t) n → ¬Has newset n →
    ¬Has (own g t) n ∧ (Has (shared g) n → ∃ u, OpenElse g t n u)

/-- **What the mask blocks is in the hands of another thread**, if there is one for it. -/
def Handed (g : Group θ ι) (t : θ) (newset : Sigset) : Prop :=
  ∀ n, Has (shared g) n → Has newset n → ¬Has (blocked g t) n →
    (∃ u, OpenElse g t n u) → ∃ u, OpenElse g t n u ∧ Flagged g u

variable {set : Sigset}

theorem blocked_setBlocked_self : blocked (g.setBlocked t set) t = set := by
  simp [Group.setBlocked, Group.modify, blocked]

theorem thread_setBlocked_of_ne (h : u ≠ t) : (g.setBlocked t set).thread u = g.thread u := by
  simp [Group.setBlocked, Group.modify, h]

theorem flagged_setBlocked : Flagged (g.setBlocked t set) u ↔ Flagged g u :=
  Iff.of_eq (update_proj (fun c : Thread ι => c.sigpending = true) (by rfl) u)

theorem own_setBlocked : own (g.setBlocked t set) u = own g u :=
  update_proj (fun c : Thread ι => c.sig_queue.sigset_pending) (by rfl) u

theorem open_setBlocked_of_ne (h : u ≠ t) : Open (g.setBlocked t set) n u ↔ Open g n u := by
  rw [Open, blocked, thread_setBlocked_of_ne h]
  rfl

variable {newset : Sigset}

theorem NoneForgotten.setBlocked (hi : NoneForgotten g) (ht : t ∈ g.thread_group)
    (hq : Quiet g t newset) (hh : Handed g t newset) : NoneForgotten (g.setBlocked t newset) := by
  constructor
  · intro u hu n hn hb
    rw [own_setBlocked] at hn
    rw [flagged_setBlocked]
    by_cases h : u = t
    · subst h
      rw [blocked_setBlocked_self] at hb
      by_cases hold : Has (blocked g u) n
      · rcases hq with hf | hq
        · exact hf
        · exact absurd hn (hq n hold hb).1
      · exact hi.own u hu n hn hold
    · rw [blocked, thread_setBlocked_of_ne h] at hb
      exact hi.own u hu n hn hb
  · intro n hn ⟨u, hu⟩
    -- it is enough to find another thread, or that this one is flagged and open now
    suffices h : (∃ v, OpenElse g t n v ∧ Flagged g v) ∨ ¬Has newset n ∧ Flagged g t by
      rcases h with ⟨v, ⟨hvt, hv⟩, hf⟩ | ⟨hb, hf⟩
      · exact ⟨v, (open_setBlocked_of_ne hvt).2 hv, flagged_setBlocked.2 hf⟩
      · refine ⟨t, ⟨ht, ?_⟩, flagged_setBlocked.2 hf⟩
        rwa [blocked_setBlocked_self]
    by_cases hold : Has (blocked g t) n
    · -- a thread that is open already is another one
      have of_open : (∃ v, Open g n v) → ∃ v, OpenElse g t n v ∧ Flagged g v := fun h => by
        obtain ⟨v, hv, hf⟩ := hi.shared n hn h
        exact ⟨v, ⟨fun hvt => (hvt ▸ hv).2 hold, hv⟩, hf⟩
      by_cases h : u = t
      · subst h
        have hb := hu.2
        rw [blocked_setBlocked_self] at hb
        rcases hq with hf | hq
        · exact .inr ⟨hb, hf⟩
        · obtain ⟨v, -, hv⟩ := (hq n hold hb).2 hn
          exact .inl (of_open ⟨v, hv⟩)
      · exact .inl (of_open ⟨u, (open_setBlocked_of_ne h).1 hu⟩)
    · obtain ⟨v, hv, hf⟩ := hi.shared n hn ⟨t, ht, hold⟩
      by_cases hvt : v = t
      · subst hvt
        by_cases hnew : Has newset n
        · have hut : u ≠ v := fun h => hu.2 (by rw [h, blocked_setBlocked_self]; exact hnew)
          exact .inl (hh n hn hnew hold ⟨u, hut, (open_setBlocked_of_ne hut).1 hu⟩)
        · exact .inr ⟨hnew, hf⟩
      · exact .inl ⟨v, ⟨hvt, hv⟩, hf⟩

/-! ## Shared signals handed to others -/

theorem gentle_redirectLoop (l : List θ) (set : Sigset) (g : Group θ ι) :
    Gentle g (redirectLoop t l set g) ∧ (∀ u, own (redirectLoop t l set g) u = own g u) ∧
      shared (redirectLoop t l set g) = shared g := by
  induction l generalizing set g with
  | nil => exact ⟨.refl g, fun _ => rfl, rfl⟩
  | cons u l ih =>
    unfold redirectLoop
    dsimp only
    split_ifs
    · exact ih set g
    · exact ⟨gentle_setPending, fun _ => own_setPending, rfl⟩
    · obtain ⟨h1, h2, h3⟩ := ih (signal_set_and_not set
        (signal_set_and_not set (g.thread u).blocked))
        (g.setPending u true)
      exact ⟨gentle_setPending.trans h1, fun v => (h2 v).trans own_setPending, h3⟩
    · exact ih set g

/-- **Each signal finds the first of the other threads that does not block it.** -/
theorem redirectLoop_flagged (l : List θ) (set : Sigset) (g : Group θ ι) (hn : Has set n)
    (hu : u ∈ l) (hut : u ≠ t) (hb : ¬Has (blocked g u) n) :
    ∃ v ∈ l, v ≠ t ∧ ¬Has (blocked g v) n ∧ Flagged (redirectLoop t l set g) v := by
  induction l generalizing set g with
  | nil => cases hu
  | cons v l ih =>
    by_cases hvt : v = t
    · rw [redirectLoop, if_pos hvt]
      have hul : u ∈ l := (mem_cons.1 hu).resolve_left fun h => hut (h.trans hvt)
      obtain ⟨v', hv', h⟩ := ih set g hn hul hb
      exact ⟨v', .tail _ hv', h⟩
    · rw [redirectLoop, if_neg hvt]
      dsimp only
      by_cases hbv : Has (blocked g v) n
      · have hul : u ∈ l := (mem_cons.1 hu).resolve_left fun h => hb (h ▸ hbv)
        split_ifs with h1 h2
        · -- the signal is not one that `v` takes, and stays to be handed on
          refine absurd h2 fun h => eq_zero_iff_not_has.1 h n ?_
          rw [has_and_not, has_and_not]
          exact ⟨hn, fun h => h.2 hbv⟩
        · obtain ⟨v', hv', h, hb', hf⟩ :=
            ih (signal_set_and_not set (signal_set_and_not set (g.thread v).blocked))
              (g.setPending v true) (by rw [has_and_not, has_and_not]; exact ⟨hn, fun h => h.2 hbv⟩)
              hul (by rwa [blocked_setPending])
          rw [blocked_setPending] at hb'
          exact ⟨v', .tail _ hv', h, hb', hf⟩
        · obtain ⟨v', hv', h⟩ := ih set g hn hul hb
          exact ⟨v', .tail _ hv', h⟩
      · have hcan : signal_set_and_not set (g.thread v).blocked ≠ 0 := fun h =>
          eq_zero_iff_not_has.1 h n (has_and_not.2 ⟨hn, hbv⟩)
        refine ⟨v, .head _, hvt, hbv, ?_⟩
        rw [if_pos hcan]
        split_ifs
        · exact flagged_setPending_self.2 rfl
        · exact (gentle_redirectLoop l _ _).1.flag v (flagged_setPending_self.2 rfl)

theorem Handed.redirectLoop : Handed (redirectLoop t g.thread_group
      (retarget (signal_set_and_not newset (blocked g t)) g) g) t newset := by
  intro n hn hnew hb ⟨u, hut, hu⟩
  obtain ⟨hg, -, hs⟩ := gentle_redirectLoop g.thread_group
    (retarget (signal_set_and_not newset (blocked g t)) g) g
  rw [hs] at hn
  rw [hg.blocked] at hb
  rw [hg.open_iff] at hu
  have hr : Has (retarget (signal_set_and_not newset (blocked g t)) g) n :=
    has_and.2 ⟨hn, has_and_not.2 ⟨hnew, hb⟩⟩
  obtain ⟨v, hv, hvt, hbv, hf⟩ := redirectLoop_flagged g.thread_group _ g hr hu.1 hut hu.2
  exact ⟨v, ⟨hvt, hg.open_iff.2 ⟨hv, hbv⟩⟩, hf⟩

/-! ## What holds at each point -/

/-- A mask without the signals that cannot be blocked. -/
def Clean (set : Sigset) : Prop := ¬Has set SIGKILL ∧ ¬Has set SIGSTOP

instance (set : Sigset) : Decidable (Clean set) := inferInstanceAs (Decidable (_ ∧ _))

/-- Between what a thread reads for a change of its mask and where it writes it. -/
def changing : Pc → Bool
  | .redirecting .. | .masking .. | .dequeued _ => true
  | _ => false

/-- What a thread can rely on where it stands. -/
def AtPc (g : Group θ ι) (t : θ) : Pc → Prop
  | .redirecting set newset _ =>
    Clean newset ∧ Flagged g t ∧ set = retarget (signal_set_and_not newset (blocked g t)) g
  | .masking newset _ => Clean newset ∧ Quiet g t newset ∧ Handed g t newset
  | .dequeued mask => ∀ n, ¬Ready (own g t) mask n ∧ ¬Ready (shared g) mask n
  | .lowered mask | .sigtimedwait mask => (masks g t).1 = (masks g t).2.1 &&& mask
  | _ => True

structure Inv (w : World θ ι) : Prop where
  flags : NoneForgotten w.g
  valid : ∀ x ∈ w.sending, Valid x.2.2.signo
  clean : ∀ t ∈ w.g.thread_group, Clean (masks w.g t).1 ∧ Clean (masks w.g t).2.2
  at_pc : ∀ t ∈ w.g.thread_group, AtPc w.g t (w.pc t)

/-- Wherever `t` stands, when no other thread is about to change its mask. -/
structure InvBut (t : θ) (w : World θ ι) : Prop where
  flags : NoneForgotten w.g
  valid : ∀ x ∈ w.sending, Valid x.2.2.signo
  clean : ∀ u ∈ w.g.thread_group, Clean (masks w.g u).1 ∧ Clean (masks w.g u).2.2
  at_pc : ∀ u ∈ w.g.thread_group, u ≠ t → changing (w.pc u) = false ∧ AtPc w.g u (w.pc u)

variable {w w' : World θ ι} {pc : Pc}

omit [DecidableEq θ] in
theorem AtPc.congr (h : AtPc g t pc) (hc : changing pc = false)
    (hm : masks g' t = masks g t) : AtPc g' t pc := by
  cases pc with
  | redirecting | masking | dequeued => cases hc
  | lowered mask | sigtimedwait mask =>
    simp only [AtPc] at h ⊢
    rwa [hm]
  | _ => trivial

section
variable (hi : InvBut t w)
include hi

theorem InvBut.inv (ha : AtPc w.g t (w.pc t)) : Inv w := by
  refine ⟨hi.flags, hi.valid, hi.clean, fun u hu => ?_⟩
  by_cases h : u = t
  · exact h ▸ ha
  · exact (hi.at_pc u hu h).2

theorem InvBut.goto : InvBut t (w.goto t pc) := by
  refine ⟨hi.flags, hi.valid, hi.clean, fun u hu h => ?_⟩
  have : (w.goto t pc).pc u = w.pc u := by simp [World.goto, h]
  rw [this]
  exact hi.at_pc u hu h

theorem InvBut.inv_goto (ha : AtPc w.g t pc) : Inv (w.goto t pc) :=
  hi.goto.inv (by simpa [World.goto] using ha)

/-- Another group, the same but for what `t` may rely on. -/
theorem InvBut.withGroup (hg : g.thread_group = w.g.thread_group)
    (hm : ∀ u ≠ t, masks g u = masks w.g u) (hn : NoneForgotten g)
    (hc : t ∈ w.g.thread_group → Clean (masks g t).1 ∧ Clean (masks g t).2.2) :
    InvBut t { w with g := g } := by
  refine ⟨hn, hi.valid, fun u hu => ?_, fun u hu h => ?_⟩
  all_goals replace hu : u ∈ w.g.thread_group := hg ▸ hu
  · by_cases h : u = t
    · subst h
      exact hc hu
    · rw [hm u h]
      exact hi.clean u hu
  · obtain ⟨h1, h2⟩ := hi.at_pc u hu h
    exact ⟨h1, h2.congr h1 (hm u h)⟩

theorem InvBut.gentle (h : Gentle w.g g) : InvBut t { w with g := g } :=
  hi.withGroup h.group (fun u _ => h.masks u) (hi.flags.gentle h) fun ht => by
    rw [h.masks]
    exact hi.clean t ht

theorem InvBut.recalc : InvBut t { w with g := signal_pending_recalc_current_locked t w.g } :=
  hi.withGroup rfl (fun _ _ => masks_setPending) hi.flags.recalc fun ht => by
    rw [signal_pending_recalc_current_locked, masks_setPending]
    exact hi.clean t ht

end

theorem masks_modify_of_ne (h : u ≠ t) : masks (g.modify t f) u = masks g u := by
  simp [masks, Group.modify, h]

theorem masks_modify_self : masks (g.modify t f) t =
      ((f (g.thread t)).blocked, (f (g.thread t)).real_blocked,
        (f (g.thread t)).saved_sigmask) := by
  simp [masks, Group.modify]

theorem modify_setBlocked :
    (g.setBlocked t set).modify t f = g.modify t fun c => f { c with blocked := set } := by
  simp [Group.setBlocked, Group.modify]

theorem modify_congr {f f' : Thread ι → Thread ι} (h : f (g.thread t) = f' (g.thread t)) :
    g.modify t f = g.modify t f' := by
  simp [Group.modify, h]

/-- What matters for the flags is the same: what is kept of a mask for later does not. -/
structure Alike (g g' : Group θ ι) : Prop where
  group : g'.thread_group = g.thread_group
  shared : g'.shared = g.shared
  own : ∀ t, Pending.own g' t = Pending.own g t
  blocked : ∀ t, Pending.blocked g' t = Pending.blocked g t
  flagged : ∀ t, Flagged g' t ↔ Flagged g t

theorem Alike.modify (hq : ∀ c, (f c).sig_queue = c.sig_queue) (hb : ∀ c, (f c).blocked = c.blocked)
    (hf : ∀ c, (f c).sigpending = c.sigpending) : Alike g (g.modify t f) := by
  refine ⟨rfl, rfl, fun u => ?_, fun u => ?_, fun u => ?_⟩
  · exact update_proj (fun c : Thread ι => c.sig_queue.sigset_pending) (by rw [hq]) u
  · exact update_proj Thread.blocked (hb _) u
  · exact Iff.of_eq (update_proj (fun c : Thread ι => c.sigpending = true) (by rw [hf]) u)

section

omit [DecidableEq θ]

theorem Alike.open_iff (h : Alike g g') : Open g' n t ↔ Open g n t := by
  unfold Open
  rw [h.group, h.blocked]

theorem Alike.noneForgotten (h : Alike g g') (hi : NoneForgotten g) : NoneForgotten g' := by
  constructor
  · intro u hu n hn hb
    rw [h.own] at hn
    rw [h.blocked] at hb
    rw [h.group] at hu
    exact (h.flagged u).2 (hi.own u hu n hn hb)
  · intro n hn hopen
    rw [Pending.shared, h.shared] at hn
    simp only [h.open_iff, h.flagged] at hopen ⊢
    exact hi.shared n hn hopen

theorem Alike.quiet (h : Alike g g') (hq : Quiet g t newset) : Quiet g' t newset := by
  unfold Quiet OpenElse Pending.shared
  simp only [h.own, h.blocked, h.shared, h.flagged, h.open_iff]
  exact hq

end

/-- A thread keeps its mask, and a clean one for later. -/
theorem InvBut.modify {f : Thread ι → Thread ι} (hi : InvBut t w)
    (hq : ∀ c, (f c).sig_queue = c.sig_queue) (hb : ∀ c, (f c).blocked = c.blocked)
    (hf : ∀ c, (f c).sigpending = c.sigpending)
    (hs : Clean (w.g.thread t).blocked → Clean (w.g.thread t).saved_sigmask →
      Clean (f (w.g.thread t)).saved_sigmask) : InvBut t { w with g := w.g.modify t f } := by
  have ha : Alike w.g (w.g.modify t f) := .modify hq hb hf
  refine hi.withGroup rfl (fun u h => masks_modify_of_ne h) (ha.noneForgotten hi.flags) fun ht => ?_
  obtain ⟨h1, h2⟩ := hi.clean t ht
  rw [masks_modify_self, hb]
  exact ⟨h1, hs h1 h2⟩

theorem InvBut.setBlocked (hi : InvBut t w) (ht : t ∈ w.g.thread_group) (hc : Clean newset)
    (hq : Quiet w.g t newset) (hh : Handed w.g t newset) :
    InvBut t { w with g := w.g.setBlocked t newset } := by
  refine hi.withGroup rfl (fun u h => masks_modify_of_ne h) (hi.flags.setBlocked ht hq hh) fun ht =>
    ?_
  rw [Group.setBlocked, masks_modify_self]
  exact ⟨hc, (hi.clean t ht).2⟩

/-! ## Masks are changed -/

open InvBut

theorem InvBut.suspendLoop (hi : InvBut t w) : Inv (suspendLoop t w) := by
  unfold Signal.suspendLoop
  split_ifs
  · exact inv_goto (hi.modify (fun _ => rfl) (fun _ => rfl) (fun _ => rfl) fun _ h => h) trivial
  · exact inv_goto (hi.modify (fun _ => rfl) (fun _ => rfl) (fun _ => rfl) fun _ h => h) trivial

theorem InvBut.finishMask (hi : InvBut t w) (after : After) : Inv (finishMask t after w) := by
  cases after with
  | user => exact hi.inv_goto trivial
  | suspend => exact hi.suspendLoop
  | timedwait =>
    exact inv_goto (hi.modify (fun _ => rfl) (fun _ => rfl) (fun _ => rfl) fun _ h => h) trivial

theorem clean_zero : Clean 0 := by decide

theorem clean_del_immutable (set : Sigset) : Clean (signal_set_del_immutable set) := by
  unfold Clean signal_set_del_immutable
  rw [has_del (by decide), has_del (by decide), has_del (by decide), has_del (by decide)]
  simp

theorem has_del_immutable_of_clean {set newset : Sigset} (hc : Clean set) (h : Has set n)
    (hn : Has newset n) : Has (signal_set_del_immutable newset) n := by
  unfold signal_set_del_immutable
  rw [has_del (by decide), has_del (by decide)]
  exact ⟨⟨hn, fun h' => hc.1 (h' ▸ h)⟩, fun h' => hc.2 (h' ▸ h)⟩

omit [DecidableEq θ] in
/-- If the thread is not flagged, another one is; if it is the only one, there is no other. -/
theorem handed_of_not_redirected (hi : NoneForgotten g) (ht : t ∈ g.thread_group)
    (h : ((g.thread t).sigpending && !thread_group_has_single_thread g) = false) :
    Handed g t newset := by
  rintro n hn - - ⟨u, hut, hu⟩
  rw [Bool.and_eq_false_iff] at h
  rcases h with h | h
  · obtain ⟨v, hv, hf⟩ := hi.shared n hn ⟨u, hu⟩
    refine ⟨v, ⟨fun hvt => ?_, hv⟩, hf⟩
    subst hvt
    rw [Flagged, h] at hf
    cases hf
  · have hl : g.thread_group.length ≤ 1 := by simpa [thread_group_has_single_thread] using h
    match hg : g.thread_group, hl, hu.1, ht with
    | [v], _, hu, ht => exact absurd ((mem_singleton.1 hu).trans (mem_singleton.1 ht).symm) hut

theorem InvBut.apply (hi : InvBut t w) (ht : t ∈ w.g.thread_group) (after : After)
    (hq : Quiet w.g t (signal_set_del_immutable newset)) :
    Inv (signal_mask_apply_current t newset after w) := by
  unfold signal_mask_apply_current
  dsimp only
  split_ifs with h1 h2 h3
  · exact hi.finishMask after
  · rw [Bool.and_eq_true] at h2
    exact hi.inv_goto ⟨clean_del_immutable _, h2.1, rfl⟩
  · refine hi.inv_goto ⟨clean_del_immutable _, hq, fun n hn hnew hb _ => ?_⟩
    rw [ne_eq, not_not] at h3
    exact absurd (has_and.2 ⟨hn, has_and_not.2 ⟨hnew, hb⟩⟩) (eq_zero_iff_not_has.1 h3 n)
  · rw [Bool.not_eq_true] at h2
    exact hi.inv_goto ⟨clean_del_immutable _, hq, handed_of_not_redirected hi.flags ht h2⟩

/-! ## Steps -/

/-- The steps without harm: while a thread is about to change its mask no other one steps, a mask
unblocks nothing the flags have no one for, and a mask that is restored blocks nothing that is in no
other thread's hands. -/
def Careful (w : World θ ι) (op : Op θ ι) : Prop :=
  (∀ u ∈ w.g.thread_group, changing (w.pc u) = true → op.thread = some u) ∧
    match op with
    | .sigprocmask t how newset =>
      Quiet w.g t (signal_set_del_immutable (how.apply (blocked w.g t) newset))
    | .sigreturn t set | .sigsuspend t set => Quiet w.g t (signal_set_del_immutable set)
    | .restore t =>
      (w.g.thread t).need_restore_blocked = true →
        Quiet w.g t (w.g.thread t).saved_sigmask ∧ Handed w.g t (w.g.thread t).saved_sigmask
    | _ => True

variable {op : Op θ ι}

omit [DecidableEq θ] in
/-- A step that is not one of a thread finds none about to change its mask. -/
theorem Inv.gentle_step (hi : Inv w) (hc : ∀ u ∈ w.g.thread_group, changing (w.pc u) = false)
    (h : Gentle w.g w'.g) (hpc : w'.pc = w.pc) (hv : ∀ x ∈ w'.sending, Valid x.2.2.signo) : Inv
    w' := by
  refine ⟨hi.flags.gentle h, hv, fun u hu => ?_, fun u hu => ?_⟩
  · rw [h.masks]
    exact hi.clean u (h.group ▸ hu)
  · rw [hpc]
    rw [h.group] at hu
    exact (hi.at_pc u hu).congr (hc u hu) (h.masks u)

section
variable (hi : InvBut t w)
include hi

theorem InvBut.dispatch (hpc : w.pc t = .fetching) (signo : ℕ) : Inv (dispatch t signo w) := by
  have stay : Inv w := hi.inv (by rw [hpc]; trivial)
  unfold Signal.dispatch
  split
  · exact stay
  · rename_i SA_ONESHOT _
    have hg : Gentle w.g (if SA_ONESHOT then
        { w.g with sig_action := update w.g.sig_action signo .SIG_DFL } else w.g) := by
      split_ifs
      · exact .of_calm rfl (fun _ => .refl _) fun _ h => h
      · exact .refl _
    exact inv_goto (hi.gentle hg).recalc trivial
  · split_ifs
    · exact stay
    · exact inv (hi.gentle (gentle_jobctl _ _ _)) (by rw [hpc]; trivial)
    · exact hi.inv_goto trivial

theorem InvBut.fetchRound (hpc : w.pc t = .fetching) : Inv (fetchRound t w) := by
  unfold Signal.fetchRound
  dsimp only
  by_cases h1 : w.g.jobctl.stopPending = true
  · rw [if_pos h1]
    exact inv_goto (hi.gentle (gentle_jobctl _ _ _)) trivial
  rw [if_neg h1]
  by_cases h2 : w.g.jobctl.continuePending = true
  · rw [if_pos h2]
    exact inv_goto (hi.gentle (gentle_jobctl _ _ _)) trivial
  rw [if_neg h2]
  split_ifs
  · exact inv_goto hi.recalc trivial
  · have hg : InvBut t { w with g := (signal_collect_next_pending t w.g).2.2 } :=
      hi.gentle (gentle_collect t w.g)
    split
    · exact hg.inv (by rw [hpc]; trivial)
    · exact hg.dispatch hpc _

theorem InvBut.redirect {retarget newset : Sigset} {after : After}
    (ha : AtPc w.g t (.redirecting retarget newset after)) :
    Inv ({ w with g := redirectLoop t w.g.thread_group retarget w.g }.goto t
      (.masking newset after)) := by
  obtain ⟨hc, hf, rfl⟩ := ha
  have hg := (gentle_redirectLoop (t := t) w.g.thread_group
    (Signal.retarget (signal_set_and_not newset (blocked w.g t)) w.g) w.g).1
  exact (hi.gentle hg).inv_goto ⟨hc, .inl (hg.flag t hf), .redirectLoop⟩

section
variable (ht : t ∈ w.g.thread_group)
include ht

theorem InvBut.write {after : After} (ha : AtPc w.g t (.masking newset after)) :
    Inv (Signal.finishMask t after { w with g := w.g.setBlocked t newset }) :=
  (hi.setBlocked ht ha.1 ha.2.1 ha.2.2).finishMask after

theorem InvBut.delivered {signo : ℕ} {SA_NODEFER : Bool} :
    Inv (signal_delivered t signo mask SA_NODEFER w) := by
  have hb : InvBut t { w with g := w.g.modify t fun c =>
    { c with need_restore_blocked := false } } :=
    hi.modify (fun _ => rfl) (fun _ => rfl) (fun _ => rfl) fun _ h => h
  refine hb.apply ht .user (.inr fun n hn hnew => absurd ?_ hnew)
  refine has_del_immutable_of_clean (hb.clean t ht).1 hn ?_
  have : Has ((((w.g.modify t fun c => { c with need_restore_blocked := false }).thread
    t).blocked) |||
    mask) n := has_or.2 (.inl hn)
  split_ifs
  · exact this
  · exact has_or.2 (.inl this)

theorem InvBut.restore
    (h : (w.g.thread t).need_restore_blocked = true → Quiet w.g t (w.g.thread t).saved_sigmask ∧
      Handed w.g t (w.g.thread t).saved_sigmask)
    : Inv ({ w with g := signal_mask_restore_saved t w.g }.goto t .user) := by
  by_cases hr : (w.g.thread t).need_restore_blocked = true
  · obtain ⟨hq, hh⟩ := h hr
    have he : signal_mask_restore_saved t w.g =
        (w.g.setBlocked t (w.g.thread t).saved_sigmask).modify t
          fun c => { c with need_restore_blocked := false, saved_sigmask := 0 } := by
      rw [modify_setBlocked]
      exact modify_congr (if_pos hr)
    rw [he]
    refine inv_goto (modify (hi.setBlocked ht (hi.clean t ht).2 hq hh) ?_ ?_ ?_ ?_) trivial
    · exact fun _ => rfl
    · exact fun _ => rfl
    · exact fun _ => rfl
    · exact fun _ _ => clean_zero
  · have he : signal_mask_restore_saved t w.g = w.g.modify t id := modify_congr (if_neg hr)
    rw [he]
    exact inv_goto (hi.modify (fun _ => rfl) (fun _ => rfl) (fun _ => rfl) fun _ h => h) trivial

/-- Nothing is pending of what is unblocked for the sleep. -/
theorem InvBut.lower (ha : AtPc w.g t (.dequeued mask)) : Inv (sigtimedwaitLower t mask w) := by
  have hc : Clean ((w.g.thread t).blocked &&& mask) := by
    obtain ⟨h1, h2⟩ := (hi.clean t ht).1
    exact ⟨fun h => h1 (has_and.1 h).1, fun h => h2 (has_and.1 h).1⟩
  have hq : Quiet w.g t ((w.g.thread t).blocked &&& mask) := by
    refine .inr fun n hn hnew => ?_
    have hmask : ¬Has mask n := fun h => hnew (has_and.2 ⟨hn, h⟩)
    exact ⟨fun h => (ha n).1 ⟨h, hmask⟩, fun h => absurd ⟨h, hmask⟩ (ha n).2⟩
  have hh : Handed w.g t ((w.g.thread t).blocked &&& mask) := fun n _ hnew hb =>
    absurd (has_and.1 hnew).1 hb
  have he : (w.g.modify t fun c =>
      { c with real_blocked := c.blocked, blocked := c.blocked &&& mask }) =
      (w.g.setBlocked t ((w.g.thread t).blocked &&& mask)).modify t
        fun c => { c with real_blocked := (w.g.thread t).blocked } := by
    rw [modify_setBlocked]
    exact modify_congr rfl
  unfold sigtimedwaitLower
  rw [he]
  refine inv_goto (modify (hi.setBlocked ht hc hq hh) ?_ ?_ ?_ ?_) ?_
  · exact fun _ => rfl
  · exact fun _ => rfl
  · exact fun _ => rfl
  · exact fun _ h => h
  · simp only [AtPc, masks_modify_self]
    exact blocked_setBlocked_self

theorem InvBut.sigtimedwaitEnd (ha : AtPc w.g t (.sigtimedwait mask)) :
    Inv (sigtimedwaitEnd t mask w) := by
  have hg := gentle_dequeue t mask w.g
  have hb : InvBut t { w with g := (signal_dequeue t mask w.g).2.2 } := hi.gentle hg
  refine hb.apply (hg.group.symm ▸ ht) .timedwait (.inr fun n hn hnew => absurd ?_ hnew)
  refine has_del_immutable_of_clean (hb.clean t (hg.group.symm ▸ ht)).1 hn ?_
  change Has (masks (signal_dequeue t mask w.g).2.2 t).1 n at hn
  change Has (masks (signal_dequeue t mask w.g).2.2 t).2.1 n
  rw [hg.masks] at hn ⊢
  rw [show (masks w.g t).1 = _ from ha] at hn
  exact (has_and.1 hn).1

end

omit [DecidableEq θ] in
/-- What the parent is told is not looked at. -/
theorem InvBut.report {r : Report} : InvBut t (signal_notify_parent_and_leader r w) := by
  unfold signal_notify_parent_and_leader
  split
  · exact ⟨hi.flags, hi.valid, hi.clean, hi.at_pc⟩
  · exact hi

theorem InvBut.sigsuspend (ht : t ∈ w.g.thread_group)
    (hq : Quiet w.g t (signal_set_del_immutable set)) :
    Inv (signal_mask_apply_current t set .suspend
      { w with g := w.g.modify t fun c => { c with saved_sigmask := c.blocked } }) := by
  have hb : InvBut t { w with g := w.g.modify t fun c => { c with saved_sigmask := c.blocked } } :=
    hi.modify (fun _ => rfl) (fun _ => rfl) (fun _ => rfl) fun h _ => h
  have ha : Alike w.g (w.g.modify t fun c => { c with saved_sigmask := c.blocked }) :=
    .modify (fun _ => rfl) (fun _ => rfl) fun _ => rfl
  exact hb.apply ht .suspend (ha.quiet hq)

theorem InvBut.sigtimedwait {sigset : Sigset} {timeout_ns : ℕ} (hpc : w.pc t = .user) :
    Inv (kernel_sigtimedwait t sigset timeout_ns w) := by
  unfold kernel_sigtimedwait
  dsimp only
  split_ifs with h
  · obtain ⟨h1, h2⟩ := signal_dequeue_eq_zero h.1
    rw [h1]
    exact hi.inv_goto h2
  · exact inv (hi.gentle (gentle_dequeue t _ w.g)) (by rw [hpc]; trivial)

theorem InvBut.sleep (ha : AtPc w.g t (.lowered mask)) : Inv (sigtimedwaitSleep t mask w) := by
  refine inv_goto (modify hi.recalc ?_ ?_ ?_ ?_) ?_
  · exact fun _ => rfl
  · exact fun _ => rfl
  · exact fun _ => rfl
  · exact fun _ h => h
  · have hm := masks_modify_self (g := signal_pending_recalc_current_locked t w.g) (t := t)
      (f := fun c => { c with task := c.task.sleep })
    exact (show AtPc w.g t (.sigtimedwait mask) from ha).congr rfl (hm.trans masks_setPending)

end

theorem Inv.step (hi : Inv w) (hp : op.Possible w) (hc : Careful w op) : Inv (op.run w) := by
  obtain ⟨hat, hrun⟩ := hp
  have hbut : ∀ t, op.thread = some t → InvBut t w ∧ t ∈ w.g.thread_group := fun t ht => by
    refine ⟨⟨hi.flags, hi.valid, hi.clean, fun u hu h => ⟨?_, hi.at_pc u hu⟩⟩, (hrun t ht).1⟩
    by_contra hch
    rw [Bool.not_eq_false] at hch
    have := (hc.1 u hu hch).symm.trans ht
    exact h (Option.some.inj this)
  have hnone : op.thread = Option.none → ∀ u ∈ w.g.thread_group, changing (w.pc u) = false :=
    fun h u hu => by
    by_contra hch
    rw [Bool.not_eq_false] at hch
    have := (hc.1 u hu hch).symm.trans h
    cases this
  cases op with
  | prepare malloced t signo info flag =>
    have hg := gentle_send_prepare t signo w.g
    unfold Op.run
    dsimp only
    split_ifs with h
    · refine hi.gentle_step (hnone rfl) hg rfl fun x hx => ?_
      rcases mem_cons.1 hx with rfl | hx
      · exact valid_of_send_prepare t signo w.g h.1
      · exact hi.valid x hx
    · exact hi.gentle_step (hnone rfl) hg rfl hi.valid
  | queue flag t e sending =>
    have hv : ∀ x ∈ (flag, t, e) :: sending, Valid x.2.2.signo := fun x hx =>
      hi.valid x (hat.mem_iff.2 hx)
    exact hi.gentle_step (hnone rfl) (gentle_deliver (hv _ (.head _))) rfl fun x hx =>
      hv x (.tail _ hx)
  | awake t =>
    have hg : Gentle w.g (w.g.modify t fun c => { c with task := c.task.ttosClearTaskWaiting }) :=
      .modify ⟨rfl, rfl, rfl, rfl, fun _ h => h⟩
    exact hi.gentle_step (hnone rfl) hg rfl hi.valid
  | fetch t =>
    refine (hbut t rfl).1.inv_goto ?_
    split_ifs <;> trivial
  | round t => exact (hbut t rfl).1.fetchRound hat
  | notify t signo => exact (hbut t rfl).1.report.inv_goto trivial
  | halt malloced info t =>
    exact inv_goto ((hbut t rfl).1.gentle (gentle_stop_process malloced info t w.g)) trivial
  | suspend t =>
    refine inv_goto ((hbut t rfl).1.gentle (.modify ?_)) trivial
    exact ⟨rfl, rfl, rfl, rfl, fun _ h => h⟩
  | report t => exact (hbut t rfl).1.report.inv_goto trivial
  | restore t => exact (hbut t rfl).1.restore (hbut t rfl).2 hc.2
  | delivered t signo mask SA_NODEFER => exact (hbut t rfl).1.delivered (hbut t rfl).2
  | redirect t retarget newset after =>
    have := hi.at_pc t (hbut t rfl).2
    rw [hat] at this
    exact (hbut t rfl).1.redirect this
  | write t newset after =>
    have := hi.at_pc t (hbut t rfl).2
    rw [hat] at this
    exact (hbut t rfl).1.write (hbut t rfl).2 this
  | sigprocmask t how newset => exact (hbut t rfl).1.apply (hbut t rfl).2 .user hc.2
  | sigreturn t set => exact (hbut t rfl).1.apply (hbut t rfl).2 .user hc.2
  | sigsuspend t set => exact (hbut t rfl).1.sigsuspend (hbut t rfl).2 hc.2
  | wake t => exact (hbut t rfl).1.suspendLoop
  | sigtimedwait t sigset timeout_ns => exact (hbut t rfl).1.sigtimedwait hat
  | lower t mask =>
    have := hi.at_pc t (hbut t rfl).2
    rw [hat] at this
    exact (hbut t rfl).1.lower (hbut t rfl).2 this
  | sleep t mask =>
    have := hi.at_pc t (hbut t rfl).2
    rw [hat] at this
    exact (hbut t rfl).1.sleep this
  | sigtimedwaitEnd t mask =>
    have := hi.at_pc t (hbut t rfl).2
    rw [hat] at this
    exact (hbut t rfl).1.sigtimedwaitEnd (hbut t rfl).2 this
  | settle t => exact inv_goto (hbut t rfl).1.recalc trivial
  | block t interruptible =>
    rw [Op.run]
    refine inv ((hbut t rfl).1.gentle (.modify ?_)) ?_
    · exact ⟨rfl, rfl, rfl, rfl, fun _ h => h⟩
    · rw [show w.pc t = .user from hat]
      trivial

/-! ## Runs -/

/-- All threads are in user space, nothing is pending or being sent, and no mask has a signal that
cannot be blocked. -/
structure Initial (w : World θ ι) : Prop where
  user : ∀ t ∈ w.g.thread_group, w.pc t = .user
  own : ∀ t ∈ w.g.thread_group, own w.g t = 0
  shared : shared w.g = 0
  sending : w.sending = []
  clean : ∀ t ∈ w.g.thread_group, Clean (masks w.g t).1 ∧ Clean (masks w.g t).2.2

omit [DecidableEq θ] in
theorem Initial.inv (h : Initial w) : Inv w := by
  refine ⟨⟨fun t ht n hn => ?_, fun n hn => ?_⟩, ?_, h.clean, fun t ht => ?_⟩
  · rw [h.own t ht] at hn
    exact absurd hn not_has_zero
  · rw [h.shared] at hn
    exact absurd hn not_has_zero
  · simp [h.sending]
  · rw [h.user t ht]
    trivial

/-- **No deliverable signal is forgotten** in a run of careful steps. -/
theorem signal_none_forgotten {w₀ : World θ ι} (h₀ : Initial w₀)
    (h : ReflTransGen (Step Careful) w₀ w) : NoneForgotten w.g := by
  have hi : Inv w := by
    induction h with
    | refl => exact h₀.inv
    | tail _ hs ih =>
      cases hs with
      | step op hp hok => exact ih.step hp hok
  exact hi.flags

instance (g : Group θ ι) (t : θ) (n : ℕ) : Decidable (∃ u, OpenElse g t n u) :=
  decidable_of_iff (∃ u ∈ g.thread_group, u ≠ t ∧ ¬Has (blocked g u) n)
    ⟨fun ⟨u, hu, h, hb⟩ => ⟨u, h, hu, hb⟩, fun ⟨u, h, hu, hb⟩ => ⟨u, hu, h, hb⟩⟩

instance (g : Group θ ι) (t : θ) (n : ℕ) : Decidable (∃ u, OpenElse g t n u ∧ Flagged g u) :=
  decidable_of_iff (∃ u ∈ g.thread_group, u ≠ t ∧ ¬Has (blocked g u) n ∧ Flagged g u)
    ⟨fun ⟨u, hu, h, hb, hf⟩ => ⟨u, ⟨h, hu, hb⟩, hf⟩, fun ⟨u, ⟨h, hu, hb⟩, hf⟩ => ⟨u, hu, h, hb, hf⟩⟩

theorem lt_of_has (h : Has set n) : n < SIGNAL_MAX + 1 := Nat.lt_succ_of_le h.valid.2

instance (g : Group θ ι) (t : θ) (newset : Sigset) : Decidable (Quiet g t newset) :=
  decidable_of_iff (Flagged g t ∨ ∀ n < SIGNAL_MAX + 1, Has (blocked g t) n → ¬Has newset n →
      ¬Has (own g t) n ∧ (Has (shared g) n → ∃ u, OpenElse g t n u))
    (or_congr_right ⟨fun h n hn => h n (lt_of_has hn) hn, fun h n _ => h n⟩)

instance (g : Group θ ι) (t : θ) (newset : Sigset) : Decidable (Handed g t newset) :=
  decidable_of_iff (∀ n < SIGNAL_MAX + 1, (Has (shared g) n ∧ Has newset n ∧ ¬Has (blocked g t) n ∧
      ∃ u, OpenElse g t n u) → ∃ u, OpenElse g t n u ∧ Flagged g u)
    ⟨fun h n hn hnew hb ho => h n (lt_of_has hn) ⟨hn, hnew, hb, ho⟩,
      fun h n _ hn => h n hn.1 hn.2.1 hn.2.2.1 hn.2.2.2⟩

instance (w : World θ ι) : DecidablePred (Careful w)
  | .sigprocmask .. | .sigreturn .. | .sigsuspend .. =>
    inferInstanceAs (Decidable (_ ∧ Quiet _ _ _))
  | .restore _ => inferInstanceAs (Decidable (_ ∧ (_ → Quiet _ _ _ ∧ Handed _ _ _)))
  | .prepare .. | .queue .. | .awake _ | .fetch _ | .round _ | .notify .. | .halt .. | .suspend _
  | .report _ | .delivered .. | .redirect .. | .write .. | .wake _ | .sigtimedwait .. | .lower ..
  | .sleep .. | .sigtimedwaitEnd .. | .settle _ | .block .. =>
    inferInstanceAs (Decidable (_ ∧ True))

/-- Two threads, which handle every signal. -/
def start : World (Fin 2) Unit where
  g :=
    { thread_group := finRange 2
      thread := fun _ => .idle
      shared := Queue.init
      sig_action := fun _ => .handler 0 false false
      jobctl := ⟨false, false, 0⟩
      jobctl_stopped := false
      exiting := false }
  pc := fun _ => .user
  sending := []
  parent := some false
  reports := []

theorem start_initial : Initial start :=
  ⟨fun _ _ => rfl, fun _ _ => rfl, rfl, rfl, fun _ _ => ⟨clean_zero, clean_zero⟩⟩

/-- Thread 0 blocks signal 10, which is then sent to the process.  Thread 1 takes it, and its
handler returns. -/
theorem signal_none_forgotten_two : ∃ w : World (Fin 2) Unit,
      w.pc 1 = .user ∧ (w.g.thread 0).blocked = sigmask 10 ∧ NoneForgotten w.g := by
  obtain ⟨w, hw, h1, h2⟩ : ∃ w, ReflTransGen (Step Careful) start w ∧
      w.pc 1 = .user ∧ (w.g.thread 0).blocked = sigmask 10 :=
    exists_exec step_of_next
      [.sigprocmask 0 .SIG_BLOCK (sigmask 10), .write 0 (sigmask 10) .user,
        .prepare true 0 10 () .TO_PROCESS, .queue .TO_PROCESS 0 ⟨10, ()⟩ [], .fetch 1, .round 1,
        .delivered 1 10 0 false, .write 1 (sigmask 10) .user, .sigreturn 1 0, .write 1 0 .user,
        .fetch 1, .restore 1]
      (by decide +kernel)
  exact ⟨w, h1, h2, signal_none_forgotten start_initial hw⟩

/-- **An unblocked signal is forgotten.**  A thread blocks signal 10, which is sent to it; it looks,
finds nothing to deliver and clears its flag; then it unblocks the signal. -/
theorem signal_forgotten : ∃ w : World (Fin 2) Unit, ReflTransGen (Step fun _ _ => True) start w ∧
      (Has (own w.g 0) 10 ∧ ¬Has (blocked w.g 0) 10 ∧ ¬Flagged w.g 0) ∧ ¬NoneForgotten w.g := by
  obtain ⟨w, hw, ho, hb, hf⟩ : ∃ w : World (Fin 2) Unit,
    ReflTransGen (Step fun _ _ => True) start w ∧
      Has (own w.g 0) 10 ∧ ¬Has (blocked w.g 0) 10 ∧ ¬Flagged w.g 0 ∧ 0 ∈ w.g.thread_group :=
    exists_exec step_of_next
      [.sigprocmask 0 .SIG_BLOCK (sigmask 10), .write 0 (sigmask 10) .user,
        .prepare true 0 10 () .TO_THREAD, .queue .TO_THREAD 0 ⟨10, ()⟩ [], .fetch 0, .round 0,
        .restore 0, .sigprocmask 0 .SIG_UNBLOCK (sigmask 10), .write 0 0 .user]
      (by decide +kernel)
  exact ⟨w, hw, ⟨ho, hb, hf.1⟩, fun h => hf.1 (h.own 0 hf.2 10 ho hb)⟩

end Intewell.Signal.Pending
