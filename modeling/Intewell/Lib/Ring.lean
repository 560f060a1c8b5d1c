/-
# Rings of list nodes

A kernel keeps its lists as rings of nodes: the head is a node, the first element follows
it, and the last is linked back to it.  Many rings share the same nodes' links; what one
ring is about is the segment from its head around to the head again.

`Rings L D c` says that every head in `D` has such a ring, with the elements `c`, and
that no node is in two of them.  The edits change the links of a few nodes; what they do
is to change the elements of one ring (`Rings.link`, `Rings.unlink`, `Rings.replace`,
`Rings.adopt`), to add an empty ring (`Rings.single`) or nothing at all (`Rings.clear`).
-/

import Intewell.Lib.Segment
import Mathlib.Data.List.Nodup
import Mathlib.Data.Set.Insert

namespace Intewell.Linked

open List Function

namespace Seg

variable {α : Type*} {next prev : α → α} {x y z : α} {l l1 l2 : List α}

section
variable (h : Seg next prev x l y)
include h

theorem next_mem_of_mem (hz : z ∈ x :: l) : next z ∈ l ++ [y] := by
  induction l generalizing x with
  | nil =>
    obtain rfl := mem_singleton.1 hz
    exact h.next_mem
  | cons a l ih =>
    rcases mem_cons.1 hz with rfl | hz
    · exact h.next_mem
    · exact .tail _ (ih h.2.2 hz)

theorem prev_mem_of_mem (hz : z ∈ l ++ [y]) : prev z ∈ x :: l := by
  induction l generalizing x with
  | nil =>
    obtain rfl := mem_singleton.1 hz
    exact h.prev_mem
  | cons a l ih =>
    rcases mem_cons.1 hz with rfl | hz
    · rw [h.2.1]
      exact .head _
    · exact .tail _ (ih h.2.2 hz)

theorem prev_eq_getLast : prev y = (x :: l).getLast (by simp) := by
  induction l generalizing x with
  | nil => exact h.2
  | cons a l ih =>
    rw [getLast_cons (by simp)]
    exact ih h.2.2

theorem next_getLast : next ((x :: l).getLast (by simp)) = y := by
  induction l generalizing x with
  | nil => exact h.1
  | cons a l ih =>
    rw [getLast_cons (by simp)]
    exact ih h.2.2

end

end Seg

variable {ν : Type*}

theorem mem_concat_iff {h z : ν} {l : List ν} : z ∈ l ++ [h] ↔ z ∈ h :: l :=
  (perm_append_singleton h l).mem_iff

/-- The links of all nodes. -/
structure Links (ν : Type*) where
  next : ν → ν
  prev : ν → ν

/-- The rings of the heads `D`, with the elements `c`. -/
structure Rings (L : Links ν) (D : Set ν) (c : ν → List ν) : Prop where
  seg : ∀ h ∈ D, Seg L.next L.prev h (c h) h
  nodup : ∀ h ∈ D, (c h).Nodup
  heads : ∀ h ∈ D, ∀ x ∈ c h, x ∉ D
  disj : ∀ h ∈ D, ∀ h' ∈ D, ∀ x ∈ c h, x ∈ c h' → h = h'

/-- A node that is in no ring. -/
def Free (D : Set ν) (c : ν → List ν) (x : ν) : Prop := x ∉ D ∧ ∀ h ∈ D, x ∉ c h

variable {L L' : Links ν} {D D' : Set ν} {c c' : ν → List ν} {h x y a b : ν} {l l1 l2 : List ν}

theorem Free.ne (hx : Free D c x) (hh : h ∈ D) {z : ν} (hz : z ∈ h :: c h) : z ≠ x := by
  rintro rfl
  exact (mem_cons.1 hz).elim (fun he => hx.1 (he ▸ hh)) (hx.2 h hh)

namespace Rings

section
variable (R : Rings L D c)
include R

theorem mono (hD : D' ⊆ D) : Rings L D' c where
  seg h hh := R.seg h (hD hh)
  nodup h hh := R.nodup h (hD hh)
  heads h hh x hx hx' := R.heads h (hD hh) x hx (hD hx')
  disj h hh h' hh' := R.disj h (hD hh) h' (hD hh')

theorem congr (hc : ∀ h ∈ D, c' h = c h) : Rings L D c' where
  seg h hh := hc h hh ▸ R.seg h hh
  nodup h hh := hc h hh ▸ R.nodup h hh
  heads h hh x hx := R.heads h hh x (hc h hh ▸ hx)
  disj h hh h' hh' x hx hx' := R.disj h hh h' hh' x (hc h hh ▸ hx) (hc h' hh' ▸ hx')

section
variable (hh : h ∈ D)
include hh

theorem nodup_cons : (h :: c h).Nodup :=
  List.nodup_cons.2 ⟨fun hmem => R.heads h hh h hmem hh, R.nodup h hh⟩

theorem nodup_concat : (c h ++ [h]).Nodup :=
  (perm_append_singleton h (c h)).nodup_iff.2 (R.nodup_cons hh)

theorem ne_of_mem {h' z z' : ν} (hh' : h' ∈ D) (hne : h' ≠ h) (hz : z ∈ h :: c h)
    (hz' : z' ∈ h' :: c h') : z' ≠ z := by
  rintro rfl
  rcases mem_cons.1 hz with rfl | hz
  · rcases mem_cons.1 hz' with rfl | hz'
    · exact hne rfl
    · exact R.heads h' hh' z' hz' hh
  · rcases mem_cons.1 hz' with rfl | hz'
    · exact R.heads h hh z' hz hh'
    · exact hne (R.disj h' hh' h hh z' hz' hz)

theorem next_mem {z : ν} (hz : z ∈ h :: c h) : L.next z ∈ h :: c h :=
  mem_concat_iff.1 ((R.seg h hh).next_mem_of_mem hz)

theorem prev_mem {z : ν} (hz : z ∈ h :: c h) : L.prev z ∈ h :: c h :=
  (R.seg h hh).prev_mem_of_mem (mem_concat_iff.2 hz)

theorem nodup_split (hc : c h = l1 ++ x :: l2) : (x :: h :: (l1 ++ l2)).Nodup := by
  have hnd := R.nodup_cons hh
  rw [hc] at hnd
  exact ((perm_middle.cons h).trans (List.Perm.swap ..)).nodup_iff.1 hnd

theorem neighbours_ne (hc : c h = l1 ++ x :: l2) : L.prev x ≠ x ∧ L.next x ≠ x := by
  have hx := (List.nodup_cons.1 (R.nodup_split hh hc)).1
  have hseg := R.seg h hh
  rw [hc] at hseg
  obtain ⟨h1, h2⟩ := Seg.append.1 hseg
  refine ⟨fun he => hx ?_, fun he => hx ?_⟩
  · have := h1.prev_mem
    rw [he] at this
    exact List.mem_append_left l2 this
  · have := h2.next_mem
    rw [he, mem_concat_iff] at this
    exact (List.mem_cons.1 this).elim (fun hxh => hxh ▸ .head _) fun hmem =>
      .tail _ (List.mem_append_right l1 hmem)

end

theorem of_free (hL : ∀ z, ¬Free D c z → L'.next z = L.next z ∧ L'.prev z = L.prev z) :
    Rings L' D c where
  seg h hh := by
    have hz : ∀ z ∈ h :: c h, ¬Free D c z := fun z hz hf => hf.ne hh hz rfl
    exact (R.seg h hh).congr (fun z hz' => (hL z (hz z hz')).1) fun z hz' =>
      (hL z (hz z (mem_concat_iff.1 hz'))).2
  nodup := R.nodup
  heads := R.heads
  disj := R.disj

end

variable [DecidableEq ν]

theorem edit (R : Rings L D c) (hseg : Seg L'.next L'.prev h l h) (hnd : l.Nodup)
    (hl : ∀ x ∈ l, x ∉ D) (hdisj : ∀ h' ∈ D, h' ≠ h → ∀ x ∈ l, x ∉ c h')
    (hsame : ∀ h' ∈ D, h' ≠ h → ∀ z ∈ h' :: c h', L'.next z = L.next z ∧ L'.prev z = L.prev z) :
    Rings L' D (update c h l) := by
  refine ⟨fun h' hh' => ?_, fun h' hh' => ?_, fun h' hh' x hx => ?_, fun h' hh' k hk x hx hx' => ?_⟩
  · by_cases he : h' = h
    · rw [he, update_self]
      exact hseg
    · rw [update_of_ne he]
      exact (R.seg h' hh').congr (fun z hz => (hsame h' hh' he z hz).1) fun z hz =>
        (hsame h' hh' he z (mem_concat_iff.1 hz)).2
  · by_cases he : h' = h
    · rw [he, update_self]
      exact hnd
    · rw [update_of_ne he]
      exact R.nodup h' hh'
  · by_cases he : h' = h
    · rw [he, update_self] at hx
      exact hl x hx
    · rw [update_of_ne he] at hx
      exact R.heads h' hh' x hx
  · by_cases he : h' = h <;> by_cases ke : k = h
    · rw [he, ke]
    · rw [he, update_self] at hx
      rw [update_of_ne ke] at hx'
      exact absurd hx' (hdisj k hk ke x hx)
    · rw [ke, update_self] at hx'
      rw [update_of_ne he] at hx
      exact absurd hx (hdisj h' hh' he x hx')
    · rw [update_of_ne he] at hx
      rw [update_of_ne ke] at hx'
      exact R.disj h' hh' k hk x hx hx'

end Rings

section

variable [DecidableEq ν]

namespace Links

/-- `x` is put between `a` and `b`. -/
def link (L : Links ν) (x a b : ν) : Links ν :=
  ⟨update (update L.next x b) a x, update (update L.prev x a) b x⟩

/-- The neighbours of `x` are linked to each other, and its own links are `z`. -/
def unlink (L : Links ν) (x z : ν) : Links ν :=
  ⟨update (update L.next (L.prev x) (L.next x)) x z,
    update (update L.prev (L.next x) (L.prev x)) x z⟩

/-- `y` takes the place of `x`. -/
def replace (L : Links ν) (x y : ν) : Links ν :=
  ⟨update (update L.next y (L.next x)) (L.prev x) y,
    update (update L.prev y (L.prev x)) (L.next x) y⟩

/-- `h` is the head of an empty ring. -/
def single (L : Links ν) (h : ν) : Links ν := ⟨update L.next h h, update L.prev h h⟩

/-- The links of `x` are `z`. -/
def clear (L : Links ν) (x z : ν) : Links ν := ⟨update L.next x z, update L.prev x z⟩

/-- The nodes from `a` to `b` get the head `h`. -/
def adopt (L : Links ν) (h a b : ν) : Links ν :=
  ⟨update (update L.next h a) b h, update (update L.prev a h) h b⟩

variable {z : ν}

theorem link_next_of_ne (hx : z ≠ x) (ha : z ≠ a) : (L.link x a b).next z = L.next z := by
  simp [link, hx, ha]

theorem link_prev_of_ne (hx : z ≠ x) (hb : z ≠ b) : (L.link x a b).prev z = L.prev z := by
  simp [link, hx, hb]

theorem unlink_next_of_ne (hx : z ≠ x) (ha : z ≠ L.prev x) : (L.unlink x y).next z = L.next z := by
  simp [unlink, hx, ha]

theorem unlink_prev_of_ne (hx : z ≠ x) (hb : z ≠ L.next x) : (L.unlink x y).prev z = L.prev z := by
  simp [unlink, hx, hb]

theorem replace_next_of_ne (hy : z ≠ y) (ha : z ≠ L.prev x) :
    (L.replace x y).next z = L.next z := by
  simp [replace, hy, ha]

theorem replace_prev_of_ne (hy : z ≠ y) (hb : z ≠ L.next x) :
    (L.replace x y).prev z = L.prev z := by
  simp [replace, hy, hb]

end Links

namespace Rings

section
variable (R : Rings L D c)
include R

/-- **A node is put into a ring**, behind `a`. -/
theorem link (hh : h ∈ D) (hc : c h = l1 ++ l2) (hx : Free D c x)
    (ha : (h :: l1).getLast (by simp) = a) :
    Rings (L.link x a (L.next a)) D (update c h (l1 ++ x :: l2)) := by
  have hamem : a ∈ h :: c h := by
    rw [hc, ← cons_append, ← ha]
    exact mem_append_left _ (getLast_mem _)
  have hbmem := R.next_mem hh hamem
  refine R.edit ?_ ?_ (fun y hy => ?_) (fun h' hh' hne y hy => ?_) fun h' hh' hne z hz =>
    ⟨Links.link_next_of_ne (hx.ne hh' hz) (R.ne_of_mem hh hh' hne hamem hz),
      Links.link_prev_of_ne (hx.ne hh' hz) (R.ne_of_mem hh hh' hne hbmem hz)⟩
  · have hseg := R.seg h hh
    have hnd := R.nodup_cons hh
    have hnd' := R.nodup_concat hh
    have hne : ∀ z ∈ h :: c h, z ≠ x := fun z => hx.ne hh
    rw [hc] at hseg hnd hnd' hne
    refine hseg.insert hnd hnd' ha (fun z hz => Links.link_next_of_ne (hne z hz))
      (fun z hz => Links.link_prev_of_ne (hne z (mem_concat_iff.1 hz))) ?_ ?_ ?_ ?_
    · simp [Links.link]
    · simp [Links.link, (hx.ne hh hbmem).symm]
    · simp [Links.link, (hx.ne hh hamem).symm]
    · simp [Links.link]
  · exact List.nodup_middle.2 (List.nodup_cons.2 ⟨hc ▸ hx.2 h hh, hc ▸ R.nodup h hh⟩)
  · rcases mem_cons.1 (perm_middle.mem_iff.1 hy) with rfl | hy
    · exact hx.1
    · exact R.heads h hh y (hc ▸ hy)
  · rcases mem_cons.1 (perm_middle.mem_iff.1 hy) with rfl | hy
    · exact hx.2 h' hh'
    · exact fun hy' => hne (R.disj h' hh' h hh y hy' (hc ▸ hy))

section
variable (hh : h ∈ D) (hc : c h = l1 ++ x :: l2)
include hh hc

/-- **A node is taken out of its ring.** -/
theorem unlink (y : ν) : Rings (L.unlink x y) D (update c h (l1 ++ l2)) := by
  have hxmem : x ∈ h :: c h := by simp [hc]
  have hamem := R.prev_mem hh hxmem
  have hbmem := R.next_mem hh hxmem
  have hsub : ∀ z ∈ l1 ++ l2, z ∈ c h := fun z hz =>
    hc ▸ perm_middle.mem_iff.2 (.tail _ hz)
  obtain ⟨ha, hb⟩ := R.neighbours_ne hh hc
  obtain ⟨hx, hnd⟩ := List.nodup_cons.1 (R.nodup_split hh hc)
  refine R.edit ?_ hnd.of_cons (fun z hz => R.heads h hh z (hsub z hz))
    (fun h' hh' hne z hz hz' => hne (R.disj h' hh' h hh z hz' (hsub z hz))) fun h' hh' hne z hz =>
    ⟨Links.unlink_next_of_ne (R.ne_of_mem hh hh' hne hxmem hz) (R.ne_of_mem hh hh' hne hamem hz),
      Links.unlink_prev_of_ne (R.ne_of_mem hh hh' hne hxmem hz) (R.ne_of_mem hh hh' hne hbmem hz)⟩
  have hxne : ∀ z ∈ h :: (l1 ++ l2), z ≠ x := fun z hz => ne_of_mem_of_not_mem hz hx
  refine (hc ▸ R.seg h hh).unlink (hc ▸ R.nodup_cons hh) (hc ▸ R.nodup_concat hh)
    (fun z hz => Links.unlink_next_of_ne (hxne z hz))
    (fun z hz => Links.unlink_prev_of_ne (hxne z (mem_concat_iff.1 hz))) ?_ ?_
  · simp [Links.unlink, ha]
  · simp [Links.unlink, hb]

theorem free_of_unlink : Free D (update c h (l1 ++ l2)) x := by
  have hxmem : x ∈ c h := by simp [hc]
  refine ⟨R.heads h hh x hxmem, fun h' hh' hx => ?_⟩
  by_cases he : h' = h
  · rw [he, update_self] at hx
    exact (List.nodup_cons.1 (R.nodup_split hh hc)).1 (.tail h hx)
  · rw [update_of_ne he] at hx
    exact he (R.disj h' hh' h hh x hx hxmem)

/-- **A free node takes the place of an element.** -/
theorem replace (hy : Free D c y) : Rings (L.replace x y) D (update c h (l1 ++ y :: l2)) := by
  have hxmem : x ∈ h :: c h := by simp [hc]
  have hamem := R.prev_mem hh hxmem
  have hbmem := R.next_mem hh hxmem
  have hsub : ∀ z ∈ l1 ++ l2, z ∈ c h := fun z hz =>
    hc ▸ List.perm_middle.mem_iff.2 (.tail _ hz)
  have hnd := (List.nodup_cons.1 (R.nodup_split hh hc)).2.of_cons
  refine R.edit ?_ ?_ (fun z hz => ?_) (fun h' hh' hne z hz => ?_) fun h' hh' hne z hz =>
    ⟨Links.replace_next_of_ne (hy.ne hh' hz) (R.ne_of_mem hh hh' hne hamem hz),
      Links.replace_prev_of_ne (hy.ne hh' hz) (R.ne_of_mem hh hh' hne hbmem hz)⟩
  · have hyne : ∀ z ∈ h :: (l1 ++ l2), z ≠ y := fun z hz =>
      hy.ne hh ((List.mem_cons.1 hz).elim (fun he => he ▸ .head _) fun hz => .tail _ (hsub z hz))
    refine (hc ▸ R.seg h hh).replace (hc ▸ R.nodup_cons hh) (hc ▸ R.nodup_concat hh)
      (fun z hz => Links.replace_next_of_ne (hyne z hz))
      (fun z hz => Links.replace_prev_of_ne (hyne z (mem_concat_iff.1 hz))) ?_ ?_ ?_ ?_
    · simp [Links.replace]
    · simp [Links.replace]
    · simp [Links.replace, (hy.ne hh hamem).symm]
    · simp [Links.replace, (hy.ne hh hbmem).symm]
  · exact List.nodup_middle.2 (List.nodup_cons.2 ⟨fun hz => hy.2 h hh (hsub y hz), hnd⟩)
  · rcases List.mem_cons.1 (List.perm_middle.mem_iff.1 hz) with rfl | hz
    · exact hy.1
    · exact R.heads h hh z (hsub z hz)
  · rcases List.mem_cons.1 (List.perm_middle.mem_iff.1 hz) with rfl | hz
    · exact hy.2 h' hh'
    · exact fun hz' => hne (R.disj h' hh' h hh z hz' (hsub z hz))

end

theorem clear (hx : Free D c x) (y : ν) : Rings (L.clear x y) D c := by
  refine R.of_free fun z hz => ?_
  have hzx : z ≠ x := fun he => hz (he ▸ hx)
  simp [Links.clear, hzx]

/-- **A head with no elements.** -/
theorem single (hx : Free D c x) : Rings (L.single x) (insert x D) (update c x []) := by
  have hne : ∀ h ∈ D, h ≠ x := fun h hh he => hx.1 (he ▸ hh)
  have R' : Rings (L.single x) D c := by
    refine R.of_free fun z hz => ?_
    have hzx : z ≠ x := fun he => hz (he ▸ hx)
    simp [Links.single, hzx]
  refine ⟨fun h hh => ?_, fun h hh => ?_, fun h hh y hy => ?_, fun h hh h' hh' y hy hy' => ?_⟩
  · rcases hh with rfl | hh
    · simp [Links.single, Seg]
    · rw [update_of_ne (hne h hh)]
      exact R'.seg h hh
  · rcases hh with rfl | hh
    · simp
    · rw [update_of_ne (hne h hh)]
      exact R'.nodup h hh
  · rcases hh with rfl | hh
    · simp at hy
    · rw [update_of_ne (hne h hh)] at hy
      rintro (rfl | hy')
      · exact hx.2 h hh hy
      · exact R'.heads h hh y hy hy'
  · rcases hh with rfl | hh
    · simp at hy
    · rcases hh' with rfl | hh'
      · simp at hy'
      · rw [update_of_ne (hne h hh)] at hy
        rw [update_of_ne (hne h' hh')] at hy'
        exact R'.disj h hh h' hh' y hy hy'

/-- **The nodes from `a` on become the ring of `h`**: the first and the last of them are
linked to it. -/
theorem adopt (hh : h ∈ D) {w : ν} (hseg : Seg L.next L.prev a l w) (hnd : (a :: l).Nodup)
    (hfree : ∀ z ∈ a :: l, Free D c z) (hb : (a :: l).getLast (by simp) = b) :
    Rings (L.adopt h a b) D (update c h (a :: l)) := by
  have hbmem : b ∈ a :: l := hb ▸ getLast_mem _
  have hbw : L.prev w = b := hseg.prev_eq_getLast.trans hb
  have hne : ∀ z ∈ a :: l, z ≠ h := fun z hz he => (hfree z hz).1 (he ▸ hh)
  refine R.edit ?_ hnd (fun z hz => (hfree z hz).1) (fun h' hh' _ z hz => (hfree z hz).2 h' hh')
    fun h' hh' hh'ne z hz => ⟨?_, ?_⟩
  · refine ⟨?_, ?_, hseg.retarget_end hnd (fun z hz hzb => ?_) (fun z hz => ?_) ?_ ?_⟩
    · simp [Links.adopt, (hne b hbmem).symm]
    · simp [Links.adopt, hne a (by simp)]
    · rw [hbw] at hzb
      simp [Links.adopt, hne z hz, hzb]
    · have hza : z ≠ a := fun he => (List.nodup_cons.1 hnd).1 (he ▸ hz)
      simp [Links.adopt, hne z (.tail a hz), hza]
    · simp [Links.adopt, hbw]
    · simp [Links.adopt, hbw]
  · have hz1 : z ≠ h := R.ne_of_mem hh hh' hh'ne (.head _) hz
    have hz2 : z ≠ b := (hfree b hbmem).ne hh' hz
    simp [Links.adopt, hz1, hz2]
  · have hz1 : z ≠ h := R.ne_of_mem hh hh' hh'ne (.head _) hz
    have hz2 : z ≠ a := (hfree a (.head l)).ne hh' hz
    simp [Links.adopt, hz1, hz2]

end

end Rings
end
end Intewell.Linked
