/-
# Doubly linked segments

`Seg next prev x l y` says that the links lead from the node `x` through the nodes
of `l` to the node `y`, and back.  A list between two sentinels is such a segment.
The operations on it are stated by what they change of `next` and `prev`: a node
is taken out, a node takes the place of another, a node is put in.  The two ends may
be the same node, the head of a ring.
-/

import Mathlib.Data.List.Basic

namespace Intewell.Linked

open List

variable {α : Type*}

/-- The links lead from `x` through `l` to `y`, and back. -/
def Seg (next prev : α → α) : α → List α → α → Prop
  | x, [], y => next x = y ∧ prev y = x
  | x, a :: l, y => next x = a ∧ prev a = x ∧ Seg next prev a l y

namespace Seg

variable {next prev next' prev' : α → α} {x y a b : α} {l l' l1 l2 : List α}

/-- A segment is cut at any of its nodes. -/
theorem append : Seg next prev x (l1 ++ a :: l2) y ↔ Seg next prev x l1 a ∧
    Seg next prev a l2 y := by
  induction l1 generalizing x with
  | nil => simp [Seg, and_assoc]
  | cons c l1 ih => simp [Seg, ih, and_assoc]

section
variable (h : Seg next prev x l y)
include h

theorem congr (hn : ∀ z ∈ x :: l, next' z = next z) (hp : ∀ z ∈ l ++ [y], prev' z = prev z) :
    Seg next' prev' x l y := by
  induction l generalizing x with
  | nil => exact ⟨(hn x (by simp)).trans h.1, (hp y (by simp)).trans h.2⟩
  | cons a l ih =>
    obtain ⟨hx, ha, hl⟩ := h
    refine ⟨(hn x (by simp)).trans hx, (hp a (by simp)).trans ha, ih hl (fun z hz => ?_) fun z hz =>
      ?_⟩
    · exact hn z (.tail _ hz)
    · exact hp z (.tail _ hz)

theorem prev_mem : prev y ∈ x :: l := by
  induction l generalizing x with
  | nil => simp [h.2]
  | cons a l ih => exact .tail _ (ih h.2.2)

/-- The links determine a segment. -/
theorem unique (h' : Seg next prev x l' y) (hy : y ∉ l) (hy' : y ∉ l') : l = l' := by
  induction l generalizing x l' with
  | nil =>
    cases l' with
    | nil => rfl
    | cons a l' => exact absurd (mem_cons.2 (Or.inl (h.1.symm.trans h'.1))) hy'
  | cons a l ih =>
    cases l' with
    | nil => exact absurd (mem_cons.2 (Or.inl (h'.1.symm.trans h.1))) hy
    | cons b l' =>
      obtain rfl : a = b := h.1.symm.trans h'.1
      rw [ih h.2.2 h'.2.2 (not_mem_of_not_mem_cons hy) (not_mem_of_not_mem_cons hy')]

theorem next_mem : next x ∈ l ++ [y] := by
  cases l with
  | nil => simp [h.1]
  | cons a l => simp [h.1]

end

theorem next_last_mem {c : α} (h : Seg next prev x (l1 ++ l2) y)
    (hc : (x :: l1).getLast (by simp) = c) : next c ∈ l2 ++ [y] := by
  induction l1 generalizing x with
  | nil =>
    obtain rfl : x = c := hc
    exact h.next_mem
  | cons d l1 ih => exact ih h.2.2 (by rwa [getLast_cons (by simp)] at hc)

theorem retarget_end (h : Seg next prev x l a) (hnd : (x :: l).Nodup)
    (hn : ∀ z ∈ x :: l, z ≠ prev a → next' z = next z) (hp : ∀ z ∈ l, prev' z = prev z)
    (hlast : next' (prev a) = b) (hback : prev' b = prev a) : Seg next' prev' x l b := by
  induction l generalizing x with
  | nil =>
    obtain ⟨-, ha⟩ := h
    exact ⟨ha ▸ hlast, hback.trans ha⟩
  | cons c l ih =>
    obtain ⟨hx, hc, hl⟩ := h
    have hne : x ≠ prev a := fun hxa => by
      have hmem := hl.prev_mem
      rw [← hxa] at hmem
      exact (nodup_cons.1 hnd).1 hmem
    refine ⟨(hn x (by simp) hne).trans hx, (hp c (by simp)).trans hc, ih hl hnd.of_cons ?_ ?_⟩
    · exact fun z hz => hn z (.tail _ hz)
    · exact fun z hz => hp z (.tail _ hz)

theorem retarget_start (h : Seg next prev a l y) (hnd : (l ++ [y]).Nodup)
    (hn : ∀ z ∈ l, next' z = next z) (hp : ∀ z ∈ l ++ [y], z ≠ next a → prev' z = prev z)
    (hfirst : next' b = next a) (hback : prev' (next a) = b) : Seg next' prev' b l y := by
  cases l with
  | nil =>
    obtain ⟨hy, -⟩ := h
    exact ⟨hfirst.trans hy, hy ▸ hback⟩
  | cons c l =>
    obtain ⟨hc, -, hl⟩ := h
    refine ⟨hfirst.trans hc, hc ▸ hback, hl.congr hn fun z hz => hp z (.tail _ hz) ?_⟩
    rintro rfl
    rw [hc] at hz
    exact (nodup_cons.1 hnd).1 hz

section
variable (h : Seg next prev x (l1 ++ a :: l2) y)
include h

section
variable (hndx : (x :: (l1 ++ a :: l2)).Nodup) (hndy : (l1 ++ a :: l2 ++ [y]).Nodup)
include hndx hndy

theorem around : (x :: l1).Nodup ∧ (l2 ++ [y]).Nodup ∧
      (∀ z ∈ l1, z ≠ next a) ∧ ∀ z ∈ l2, z ≠ prev a := by
  obtain ⟨h1, h2⟩ := append.1 h
  have hx : ((x :: l1) ++ a :: l2).Nodup := hndx
  have hy : (l1 ++ (a :: l2 ++ [y])).Nodup := by simpa using hndy
  obtain ⟨hnd1, -, hdisj1⟩ := nodup_append.1 hx
  obtain ⟨-, hnd2, hdisj2⟩ := nodup_append.1 hy
  refine ⟨hnd1, hnd2.of_cons, fun z hz heq => ?_, fun z hz heq => ?_⟩
  · exact hdisj2 z hz (next a) (.tail _ h2.next_mem) heq
  · exact hdisj1 (prev a) h1.prev_mem z (.tail _ hz) heq.symm

section
variable (hn : ∀ z ∈ x :: (l1 ++ l2), z ≠ prev a → next' z = next z)
  (hp : ∀ z ∈ l1 ++ l2 ++ [y], z ≠ next a → prev' z = prev z)
include hn hp

/-- The neighbours of `a` are linked to each other. -/
theorem unlink (hnext : next' (prev a) = next a)
    (hprev : prev' (next a) = prev a) : Seg next' prev' x (l1 ++ l2) y := by
  obtain ⟨h1, h2⟩ := append.1 h
  obtain ⟨hnd1, hnd2, hbefore, hafter⟩ := h.around hndx hndy
  cases l2 with
  | nil =>
    obtain ⟨hy, -⟩ := h2
    rw [append_nil] at hn ⊢
    exact h1.retarget_end hnd1 hn (fun z hz => hp z (by simp [hz]) (hbefore z hz)) (hnext.trans hy)
      (hy ▸ hprev)
  | cons c l2 =>
    obtain ⟨hc, -, hl⟩ := h2
    refine append.2 ⟨h1.retarget_end hnd1 (fun z hz => hn z (by simp at hz ⊢; tauto))
      (fun z hz => hp z (by simp [hz]) (hbefore z hz)) (hnext.trans hc) (hc ▸ hprev), ?_⟩
    refine hl.congr (fun z hz => hn z (by simp at hz ⊢; tauto) (hafter z hz)) fun z hz => ?_
    refine hp z (by simp at hz ⊢; tauto) ?_
    rintro rfl
    rw [hc] at hz
    exact (nodup_cons.1 hnd2).1 hz

/-- `b` takes the place of `a`. -/
theorem replace (hnext : next' (prev a) = b)
    (hprev : prev' (next a) = b) (hb : next' b = next a) (hb' : prev' b = prev a) :
    Seg next' prev' x (l1 ++ b :: l2) y := by
  obtain ⟨h1, h2⟩ := append.1 h
  obtain ⟨hnd1, hnd2, hbefore, hafter⟩ := h.around hndx hndy
  refine append.2 ⟨h1.retarget_end hnd1 (fun z hz => hn z (by simp at hz ⊢; tauto))
    (fun z hz => hp z (by simp [hz]) (hbefore z hz)) hnext hb', ?_⟩
  exact h2.retarget_start hnd2 (fun z hz => hn z (by simp [hz]) (hafter z hz))
    (fun z hz => hp z (by simp at hz ⊢; tauto)) hb hprev

end

end

end

theorem push (h : Seg next prev x l y) (hnd : (l ++ [y]).Nodup) (hn : ∀ z ∈ l, next' z = next z)
    (hp : ∀ z ∈ l ++ [y], z ≠ next x → prev' z = prev z) (hx : next' x = a) (ha : prev' a = x)
    (hnext : next' a = next x) (hprev : prev' (next x) = a) : Seg next' prev' x (a :: l) y :=
  ⟨hx, ha, h.retarget_start hnd hn hp hnext hprev⟩

theorem insert {c : α} (h : Seg next prev x (l1 ++ l2) y) (hndx : (x :: (l1 ++ l2)).Nodup)
    (hndy : (l1 ++ l2 ++ [y]).Nodup) (hc : (x :: l1).getLast (by simp) = c)
    (hn : ∀ z ∈ x :: (l1 ++ l2), z ≠ c → next' z = next z)
    (hp : ∀ z ∈ l1 ++ l2 ++ [y], z ≠ next c → prev' z = prev z) (hca : next' c = a)
    (hac : prev' a = c) (hnext : next' a = next c) (hprev : prev' (next c) = a) :
    Seg next' prev' x (l1 ++ a :: l2) y := by
  induction l1 generalizing x with
  | nil =>
    obtain rfl : x = c := hc
    refine h.push hndy (fun z hz => hn z (.tail _ hz) ?_) hp hca hac hnext hprev
    exact fun hzx => (nodup_cons.1 hndx).1 (hzx ▸ hz)
  | cons d l1 ih =>
    obtain ⟨hx, hd, hl⟩ := h
    have hcmem : c ∈ d :: l1 := by
      rw [getLast_cons (by simp)] at hc
      exact hc ▸ getLast_mem _
    have hxc : x ≠ c := fun hxc => (nodup_cons.1 hndx).1 (mem_append_left l2 (hxc ▸ hcmem))
    have hnc : next c ∈ l1 ++ l2 ++ [y] := by
      rw [append_assoc]
      rw [getLast_cons (by simp)] at hc
      exact mem_append_right l1 (hl.next_last_mem hc)
    refine ⟨(hn x (by simp) hxc).trans hx, (hp d (by simp) fun hdc => ?_).trans hd,
      ih hl hndx.of_cons hndy.of_cons (by rwa [getLast_cons (by simp)] at hc)
        (fun z hz => hn z (.tail _ hz)) fun z hz => hp z (.tail _ hz)⟩
    exact (nodup_cons.1 hndy).1 (hdc ▸ hnc)

end Seg
end Intewell.Linked
