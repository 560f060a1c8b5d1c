/-
# Singly linked lists

A list threaded through its own nodes: `next` gives the node after a node, and
the last node is followed by the null pointer.  `Chain next null h l` says that
the nodes met from the head `h` are `l`.
-/

import Mathlib.Data.List.Basic

namespace Intewell.Linked

variable {α : Type*} {next next' : α → α} {null h : α} {l : List α}

/-- The nodes from `h` along `next` up to `null`. -/
def Chain (next : α → α) (null : α) : α → List α → Prop
  | h, [] => h = null
  | h, a :: l => h = a ∧ a ≠ null ∧ Chain next null (next a) l

namespace Chain

theorem congr : ∀ {h : α} {l : List α}, Chain next null h l →
    (∀ a ∈ l, next' a = next a) → Chain next' null h l
  | _, [], hc, _ => hc
  | _, a :: l, ⟨hh, ha, hc⟩, hn =>
    ⟨hh, ha, by
      rw [hn a List.mem_cons_self]
      exact congr hc fun b hb => hn b (List.mem_cons_of_mem a hb)⟩

section
variable (hc : Chain next null h l)
include hc

theorem eq_null_iff : h = null ↔ l = [] := by
  cases l with
  | nil => exact ⟨fun _ => rfl, fun _ => hc⟩
  | cons a l =>
    obtain ⟨rfl, ha, -⟩ := hc
    simp [ha]

theorem uncons (hne : h ≠ null) : ∃ t, l = h :: t ∧ Chain next null (next h) t := by
  cases l with
  | nil => exact absurd hc hne
  | cons a t =>
    obtain ⟨rfl, -, ht⟩ := hc
    exact ⟨t, rfl, ht⟩

theorem push {a : α} (ha : a ≠ null) (hnext : next' a = h) (hn : ∀ b ∈ l, next' b = next b) :
    Chain next' null a (a :: l) := ⟨rfl, ha, by rw [hnext]; exact hc.congr hn⟩

end

end Chain

end Intewell.Linked
