/-
# Queues of timers

`kernel/time/ktimerqueue.c`: a red-black tree of entries by their expiry, and a pointer to the
entry that expires first.  An entry is linked behind those of the same expiry
(`ktimerqueue_add_spec`); the pointer stays at the first entry of the tree, because
`ktimerqueue_del` moves it to the next one (`ktimerqueue_del_spec`).
-/

import Intewell.RBTree
import Mathlib.Algebra.Order.Ring.Int

namespace Intewell.Ktimer

open ColorTree CTree Intewell.RBTree

variable {τ : Type*} [DecidableEq τ]

/-- `struct ktimerqueue` -/
structure Queue (τ : Type*) where
  tree : CTree τ
  earliest : Option τ

/-- `ktimerqueue_init` -/
def Queue.empty : Queue τ := ⟨.nil, none⟩

/-- The entries in the order of the tree. -/
def Queue.entries (q : Queue τ) : List τ := q.tree.toList

/-- Which way `ktimerqueue_add` goes at the entry `x`. -/
def towards (expires : τ → ℤ) (entry x : τ) : Option Side :=
  some (if expires entry < expires x then .left else .right)

/-- The first of two entries, the second of which is in the queue already, if there is one. -/
def earlier (expires : τ → ℤ) (entry : τ) : Option τ → τ
  | none => entry
  | some x => if expires entry < expires x then entry else x

def ktimerqueue_add (expires : τ → ℤ) (entry : τ) (q : Queue τ) : Option (Queue τ) :=
  (insertDir (towards expires entry) entry q.tree).map fun tree =>
    { tree, earliest := some (earlier expires entry q.earliest) }

/-- `ktimerqueue_next` -/
def ktimerqueue_next (entry : τ) (q : Queue τ) : Option τ := next (· = entry) q.tree

/-- What `ktimerqueue_del` does to the pointer. -/
def delEarliest (entry : τ) (q : Queue τ) : Option τ :=
  if q.earliest = some entry then ktimerqueue_next entry q else q.earliest

/-- `ktimerqueue_del` of an entry that is linked in the tree. -/
def ktimerqueue_del (entry : τ) (q : Queue τ) : Option (Queue τ) :=
  (erase (· = entry) q.tree).map fun tree => { tree, earliest := delEarliest entry q }

/-- The tree is a red-black tree in the order `R`, and the pointer is at its first entry. -/
structure Queue.Sound (R : τ → τ → Prop) (q : Queue τ) : Prop where
  bal : ∃ m, Bal q.tree .black m
  sorted : q.entries.Pairwise R
  earliest : q.earliest = q.entries.head?

variable {R : τ → τ → Prop} {q : Queue τ} {entry : τ} {expires : τ → ℤ}

section

omit [DecidableEq τ]

/-- The order need only be known among the entries. -/
theorem Queue.Sound.congr {S : τ → τ → Prop} (h : q.Sound R)
    (hRS : ∀ x ∈ q.entries, ∀ y ∈ q.entries, R x y → S x y) : q.Sound S :=
  { h with sorted := h.sorted.imp_of_mem fun hx hy => hRS _ hx _ hy }

theorem ktimerqueue_add_spec (entry : τ) (h : q.Sound R)
    (hle : ∀ x y, R x y → expires x ≤ expires y) :
    ∃ q' pre post, ktimerqueue_add expires entry q = some q' ∧ q.entries = pre ++ post ∧
      q'.entries = pre ++ entry :: post ∧ (∀ x ∈ pre, expires x ≤ expires entry) ∧
      (∀ x ∈ post, expires entry < expires x) ∧ (∃ m, Bal q'.tree .black m) ∧
      q'.earliest = q'.entries.head? := by
  obtain ⟨m, hbal⟩ := h.bal
  obtain ⟨tree, pre, post, htree, hsplit, hlist, hbal', horder⟩ :=
    insertDir_spec hbal (fun x _ => (by simp [towards] : towards expires entry x ≠ none))
  have hleft : ∀ x, towards expires entry x = some .left ↔ expires entry < expires x := by
    intro x
    by_cases hx : expires entry < expires x <;> simp [towards, hx]
  have hright : ∀ x, towards expires entry x = some .right ↔ expires x ≤ expires entry := by
    intro x
    by_cases hx : expires entry < expires x
    · simp [towards, hx, not_le.2 hx]
    · simp [towards, hx, not_lt.1 hx]
  simp only [hleft, hright] at horder
  obtain ⟨hpre, hpost⟩ := horder R h.sorted (fun x y hxy hx => hx.trans_le (hle x y hxy))
    fun x y hxy => (hle x y hxy).trans
  have hentries : q.entries = pre ++ post := hsplit
  refine ⟨⟨tree, some (earlier expires entry q.earliest)⟩, pre, post, ?_, hentries, hlist, hpre,
    hpost, hbal', ?_⟩
  · rw [ktimerqueue_add, htree, Option.map_some]
  · rw [Queue.entries, hlist, h.earliest, hentries]
    cases pre with
    | cons x l =>
      have hx := hpre x (.head _)
      simp [earlier, not_lt.2 hx]
    | nil =>
      cases post with
      | nil => rfl
      | cons x l =>
        have hx := hpost x (.head _)
        simp [earlier, hx]

end

theorem ktimerqueue_del_spec (h : q.Sound R) (hirr : ∀ x, ¬ R x x) (hmem : entry ∈ q.entries) :
    ∃ q' pre post, ktimerqueue_del entry q = some q' ∧ q.entries = pre ++ entry :: post ∧
      q'.entries = pre ++ post ∧ q'.Sound R := by
  obtain ⟨m, hbal⟩ := h.bal
  obtain ⟨tree, pre, a, post, herase, hnext, ha, hlist, hlist', hbal'⟩ :=
    erase_next_spec (p := fun x => decide (x = entry)) hbal ⟨entry, hmem, by simp⟩
  obtain rfl := of_decide_eq_true ha
  have hsplit : q.entries = pre ++ a :: post := hlist
  have hsorted := h.sorted
  rw [hsplit, List.pairwise_append, List.pairwise_cons] at hsorted
  refine ⟨⟨tree, delEarliest a q⟩, pre, post, ?_, hsplit, hlist', hbal', ?_, ?_⟩
  · rw [ktimerqueue_del, herase, Option.map_some]
  · change tree.toList.Pairwise R
    rw [hlist', List.pairwise_append]
    exact ⟨hsorted.1, hsorted.2.1.2, fun x hx y hy => hsorted.2.2 x hx y (.tail _ hy)⟩
  · rw [delEarliest, ktimerqueue_next, hnext, h.earliest, hsplit, Queue.entries, hlist']
    cases pre with
    | nil => simp
    | cons x l =>
      have hne : x ≠ a := by
        rintro rfl
        exact hirr x (hsorted.2.2 x (.head _) x (.head _))
      simp [hne]

end Intewell.Ktimer
