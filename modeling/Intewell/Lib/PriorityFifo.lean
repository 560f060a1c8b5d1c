/-
# Bounded priority FIFOs

A queue of at most `cap` things, each with a key.  `put` adds one behind all whose key is not
larger, and the one that leaves is the first: the smallest key, and among equals the one that
has been in the queue for longest.

A history is a list of things that were put and of what was seen of the things that were
taken.  `replay` runs the queue along it, and is `none` if the queue would not have done so.
-/

import Mathlib.Data.List.Induction
import Mathlib.Data.List.Sort

namespace Intewell.PriorityFifo

open List

variable {α β κ : Type*} [LinearOrder κ] {key : α → κ} {view : α → β} {a b : α} {q q' : List α}
  {cap : ℕ} {p : α → Bool}

def put (key : α → κ) (a : α) (q : List α) : List α := q.orderedInsert (fun a b => key a < key b) a

theorem put_cons : put key a (b :: q) = if key a < key b then a :: b :: q else b :: put key a q :=
  rfl

theorem put_perm (a : α) (q : List α) : (put key a q).Perm (a :: q) := perm_orderedInsert ..

theorem mem_put : b ∈ put key a q ↔ b = a ∨ b ∈ q := mem_orderedInsert _

@[simp] theorem length_put : (put key a q).length = q.length + 1 := orderedInsert_length ..

/-- In the order of the keys. -/
def Ordered (key : α → κ) (q : List α) : Prop := q.Pairwise fun a b => key a ≤ key b

theorem Ordered.put (h : Ordered key q) (a : α) : Ordered key (put key a q) := by
  induction q with
  | nil => exact pairwise_singleton _ _
  | cons b q ih =>
    obtain ⟨hb, hq⟩ := pairwise_cons.1 h
    rw [put_cons]
    split_ifs with hlt
    · exact pairwise_cons.2 ⟨fun c hc => (mem_cons.1 hc).elim (fun e => e ▸ hlt.le)
        fun hc => hlt.le.trans (hb c hc), h⟩
    · refine pairwise_cons.2 ⟨fun c hc => ?_, ih hq⟩
      rcases mem_put.1 hc with rfl | hc
      · exact not_lt.1 hlt
      · exact hb c hc

/-! ## What a selection of the queue sees of `put` -/

theorem filter_put_of_not (ha : p a = false) : (put key a q).filter p = q.filter p := by
  induction q with
  | nil => simp [put, ha]
  | cons b q ih =>
    rw [put_cons]
    split_ifs
    · simp [ha]
    · simp [filter_cons, ih]

theorem filter_put_last (h : Ordered key q) (ha : p a = true)
    (hle : ∀ b ∈ q, p b = true → key b ≤ key a) : (put key a q).filter p = q.filter p ++ [a] := by
  induction q with
  | nil => simp [put, ha]
  | cons b q ih =>
    obtain ⟨hb, hq⟩ := pairwise_cons.1 h
    have ih' := ih hq fun c hc => hle c (.tail _ hc)
    rw [put_cons]
    split_ifs with hlt
    · -- all from `b` on are larger, so none of them is selected
      have hnone : (b :: q).filter p = [] := by
        refine filter_eq_nil_iff.2 fun c hc hpc => ?_
        have hbc : key b ≤ key c := by
          rcases mem_cons.1 hc with rfl | hc
          · exact le_rfl
          · exact hb c hc
        exact absurd (hle c hc hpc) (not_le.2 (hlt.trans_le hbc))
      rw [filter_cons_of_pos ha, hnone, nil_append]
    · rw [filter_cons, filter_cons, ih']
      split_ifs <;> rfl

theorem filter_put_first (ha : p a = true) (hlt : ∀ b ∈ q, p b = true → key a < key b) :
    (put key a q).filter p = a :: q.filter p := by
  induction q with
  | nil => simp [put, ha]
  | cons b q ih =>
    rw [put_cons]
    split_ifs with h
    · rw [filter_cons_of_pos ha]
    · have hb : ¬p b = true := fun hb => h (hlt b (.head _ ..) hb)
      rw [filter_cons_of_neg hb, filter_cons_of_neg hb, ih fun c hc => hlt c (.tail _ hc)]

/-! ## Histories -/

inductive Event (α β : Type*) where
  | put (a : α)
  | take (b : β)

/-- The things that were put. -/
def Event.putOf : Event α β → Option α
  | put a => some a
  | take _ => none

/-- What was seen of the things that were taken. -/
def Event.takenOf : Event α β → Option β
  | put _ => none
  | take b => some b

variable [DecidableEq β]

def step (key : α → κ) (view : α → β) (cap : ℕ) (q : List α) : Event α β → Option (List α)
  | .put a => if q.length < cap then some (put key a q) else none
  | .take b =>
    match q with
    | [] => none
    | a :: q => if view a = b then some q else none

def replay (key : α → κ) (view : α → β) (cap : ℕ) (es : List (Event α β)) : Option (List α) :=
  es.foldlM (step key view cap) []

variable {e : Event α β} {es es' : List (Event α β)}

theorem replay_concat (h : replay key view cap es = some q) :
    replay key view cap (es ++ [e]) = step key view cap q e := by
  rw [replay] at h
  simp [replay, h]

theorem replay_put (h : replay key view cap es = some q) (hq : q.length < cap) :
    replay key view cap (es ++ [.put a]) = some (put key a q) := by
  rw [replay_concat h, step, if_pos hq]

theorem replay_take (h : replay key view cap es = some (a :: q)) :
    replay key view cap (es ++ [.take (view a)]) = some q := by
  rw [replay_concat h, step, if_pos rfl]

/-- **Nothing is lost and nothing comes twice.**  What was put is what was taken and what is
left, each as often; the queue is in order and within its bound. -/
theorem replay_sound (h : replay key view cap es = some q) :
    ((es.filterMap Event.putOf).map view).Perm (es.filterMap Event.takenOf ++ q.map view) ∧
      Ordered key q ∧ q.length ≤ cap := by
  induction es using List.reverseRecOn generalizing q with
  | nil =>
    cases h
    exact ⟨by simp, .nil, Nat.zero_le _⟩
  | append_singleton es e ih =>
    obtain ⟨q0, h0, h1⟩ : ∃ q0, replay key view cap es = some q0 ∧
        step key view cap q0 e = some q := by
      simpa [replay, Option.bind_eq_some_iff] using h
    obtain ⟨hp, ho, hl⟩ := ih h0
    cases e with
    | put a =>
      rw [step, Option.ite_none_right_eq_some] at h1
      obtain ⟨hc, rfl⟩ := by simpa using h1
      refine ⟨?_, ho.put a, by rw [length_put]; exact hc⟩
      have hv : ((put key a q0).map view).Perm (view a :: q0.map view) := (put_perm a q0).map view
      simp only [filterMap_append, map_append, filterMap_cons, filterMap_nil,
        Event.putOf, Event.takenOf, map_cons, map_nil, append_nil]
      refine (List.Perm.append_right _ hp).trans ?_
      rw [append_assoc]
      exact List.Perm.append_left _ (perm_append_singleton _ _ |>.trans hv.symm)
    | take b =>
      cases q0 with
      | nil => simp [step] at h1
      | cons a q1 =>
        obtain ⟨rfl, rfl⟩ := by simpa [step] using h1
        refine ⟨?_, (pairwise_cons.1 ho).2, (Nat.le_succ _).trans hl⟩
        simpa [filterMap_cons, Event.putOf, Event.takenOf] using hp

end Intewell.PriorityFifo
