/-
# Trees with coloured nodes, and places in them

A place in a tree is the list of the nodes above it, the nearest first; each carries
its value, its colour and the child on the other side (`Crumb`).  `plug t k` puts the
tree `t` into the place `k`, and `before k`, `after k` are the values to the left and
to the right of the place (`toList_plug`).

`Bal t c n` says that `t` is a red-black tree with a root of colour `c` and `n` black
nodes on every path down; `Fits k c n` that a tree like this may stand in the place `k`
of a red-black tree with a black root (`bal_plug`, `fits_of_plug`).
-/

import Mathlib.Data.List.Basic

namespace ColorTree

inductive Color where
  | red | black
deriving DecidableEq, Repr

inductive CTree (α : Type*) where
  | nil
  | node (c : Color) (l : CTree α) (a : α) (r : CTree α)
deriving DecidableEq, Repr

inductive Side where
  | left | right
deriving DecidableEq, Repr

/-- A node above a place: the side the place is on, the node, its other child. -/
structure Crumb (α : Type*) where
  side : Side
  color : Color
  val : α
  other : CTree α

variable {α : Type*}

/-- A node with the child `t` on the side `s` and the child `u` on the other. -/
def nodeAt (s : Side) (c : Color) (t : CTree α) (a : α) (u : CTree α) : CTree α :=
  match s with
  | .left => .node c t a u
  | .right => .node c u a t

def Crumb.wrap (p : Crumb α) (t : CTree α) : CTree α := nodeAt p.side p.color t p.val p.other

def plug : CTree α → List (Crumb α) → CTree α
  | t, [] => t
  | t, p :: k => plug (p.wrap t) k

namespace CTree

/-- The values from left to right. -/
def toList : CTree α → List α
  | .nil => []
  | .node _ l a r => l.toList ++ a :: r.toList

def isRed : CTree α → Bool
  | .node .red _ _ _ => true
  | _ => false

def setColor (c : Color) : CTree α → CTree α
  | .nil => .nil
  | .node _ l a r => .node c l a r

/-- The colour, the child on the side `s`, the value and the other child of a node. -/
def parts (s : Side) : CTree α → Option (Color × CTree α × α × CTree α)
  | .nil => none
  | .node c l a r =>
    match s with
    | .left => some (c, l, a, r)
    | .right => some (c, r, a, l)

@[simp] theorem toList_setColor (c : Color) (t : CTree α) : (t.setColor c).toList = t.toList := by
  cases t <;> rfl

@[simp] theorem parts_nodeAt (s : Side) (c : Color) (t : CTree α) (a : α) (u : CTree α) :
    (nodeAt s c t a u).parts s = some (c, t, a, u) := by
  cases s <;> rfl

theorem cases_nodeAt (s : Side) (t : CTree α) : t = .nil ∨ ∃ c u a v, t = nodeAt s c u a v := by
  cases t with
  | nil => exact .inl rfl
  | node c l a r =>
    cases s with
    | left => exact .inr ⟨c, l, a, r, rfl⟩
    | right => exact .inr ⟨c, r, a, l, rfl⟩

@[simp] theorem setColor_nodeAt (c' : Color) (s : Side) (c : Color) (t : CTree α) (a : α)
    (u : CTree α) : (nodeAt s c t a u).setColor c' = nodeAt s c' t a u := by
  cases s <;> rfl

@[simp] theorem isRed_nodeAt (s : Side) (c : Color) (t : CTree α) (a : α) (u : CTree α) :
    (nodeAt s c t a u).isRed = decide (c = .red) := by
  cases s <;> cases c <;> rfl

end CTree

open List CTree

/-- The values to the left of a place. -/
def before : List (Crumb α) → List α
  | [] => []
  | p :: k =>
    match p.side with
    | .left => before k
    | .right => before k ++ (p.other.toList ++ [p.val])

/-- The values to the right of a place. -/
def after : List (Crumb α) → List α
  | [] => []
  | p :: k =>
    match p.side with
    | .left => p.val :: (p.other.toList ++ after k)
    | .right => after k

theorem toList_plug (t : CTree α) (k : List (Crumb α)) :
    (plug t k).toList = before k ++ (t.toList ++ after k) := by
  induction k generalizing t with
  | nil => simp [plug, before, after]
  | cons p k ih =>
    obtain ⟨s, c, a, u⟩ := p
    rw [plug, ih]
    cases s <;> simp [Crumb.wrap, nodeAt, toList, before, after]

theorem toList_plug_congr {t u : CTree α} (h : t.toList = u.toList) (k : List (Crumb α)) :
    (plug t k).toList = (plug u k).toList := by
  rw [toList_plug, toList_plug, h]

theorem plug_append (t : CTree α) (k k' : List (Crumb α)) :
    plug t (k ++ k') = plug (plug t k) k' := by
  induction k generalizing t with
  | nil => rfl
  | cons p k ih => exact ih _

section

/-- A red-black tree with a root of colour `c` and `n` black nodes on every path. -/
inductive Bal : CTree α → Color → ℕ → Prop where
  | nil : Bal .nil .black 0
  | red {l a r n} (hl : Bal l .black n) (hr : Bal r .black n) : Bal (.node .red l a r) .red n
  | black {l a r n c c'} (hl : Bal l c n) (hr : Bal r c' n) : Bal (.node .black l a r) .black
    (n + 1)

variable {t u : CTree α} {c c' : Color} {n : ℕ} {s : Side} {a : α} {k : List (Crumb α)}

theorem Bal.nodeAt_red (ht : Bal t .black n) (hu : Bal u .black n) :
    Bal (nodeAt s .red t a u) .red n := by
  cases s
  · exact .red ht hu
  · exact .red hu ht

theorem Bal.nodeAt_black (ht : Bal t c n) (hu : Bal u c' n) :
    Bal (nodeAt s .black t a u) .black (n + 1) := by
  cases s
  · exact .black ht hu
  · exact .black hu ht

theorem Bal.nodeAt (hc : c = .red → Bal t .black n ∧ Bal u .black n)
    (hb : c = .black → (∃ d, Bal t d n) ∧ ∃ d, Bal u d n) :
    Bal (nodeAt s c t a u) c (if c = .red then n else n + 1) := by
  cases c with
  | red => exact nodeAt_red (hc rfl).1 (hc rfl).2
  | black =>
    obtain ⟨⟨d, h1⟩, d', h2⟩ := hb rfl
    exact nodeAt_black h1 h2

theorem Bal.of_nodeAt_red (h : Bal (ColorTree.nodeAt s .red t a u) c n) :
    c = .red ∧ Bal t .black n ∧ Bal u .black n := by
  cases s <;> cases h with
  | red h1 h2 => first | exact ⟨rfl, h1, h2⟩ | exact ⟨rfl, h2, h1⟩

theorem Bal.of_nodeAt_black (h : Bal (ColorTree.nodeAt s .black t a u) c n) :
    c = .black ∧ ∃ m, n = m + 1 ∧ (∃ d, Bal t d m) ∧ ∃ d, Bal u d m := by
  cases s <;> cases h with
  | black h1 h2 => first | exact ⟨rfl, _, rfl, ⟨_, h1⟩, _, h2⟩ | exact ⟨rfl, _, rfl, ⟨_, h2⟩, _, h1⟩

theorem Bal.of_not_isRed (h : Bal t c n) (ht : t.isRed = false) : Bal t .black n := by
  cases h with
  | nil => exact .nil
  | red => simp [CTree.isRed] at ht
  | black h1 h2 => exact .black h1 h2

theorem Bal.of_isRed (h : Bal t c n) (ht : t.isRed = true) :
    Bal (t.setColor .black) .black (n + 1) := by
  cases h with
  | nil => simp [CTree.isRed] at ht
  | red h1 h2 => exact .black h1 h2
  | black => simp [CTree.isRed] at ht

theorem Bal.blacken (h : Bal t c n) : ∃ m, Bal (t.setColor .black) .black m := by
  cases h with
  | nil => exact ⟨0, .nil⟩
  | red h1 h2 => exact ⟨_, .black h1 h2⟩
  | black h1 h2 => exact ⟨_, .black h1 h2⟩

/-- A tree with a root of colour `c` and `n` black nodes on every path may stand here. -/
def Fits : List (Crumb α) → Color → ℕ → Prop
  | [], c, _ => c = .black
  | p :: k, c, n =>
    match p.color with
    | .black => (∃ d, Bal p.other d n) ∧ Fits k .black (n + 1)
    | .red => c = .black ∧ Bal p.other .black n ∧ Fits k .red n

theorem Fits.black (h : Fits k c n) : Fits k .black n := by
  cases k with
  | nil => exact rfl
  | cons p k =>
    obtain ⟨s, pc, a, u⟩ := p
    cases pc with
    | black => exact h
    | red => exact ⟨rfl, h.2⟩

theorem bal_plug (ht : Bal t c n) (hk : Fits k c n) : ∃ m, Bal (plug t k) .black m := by
  induction k generalizing t c n with
  | nil => exact ⟨n, hk ▸ ht⟩
  | cons p k ih =>
    obtain ⟨s, pc, a, u⟩ := p
    cases pc with
    | black =>
      obtain ⟨⟨d, hu⟩, hk⟩ := hk
      exact ih (Bal.nodeAt_black ht hu) hk
    | red =>
      obtain ⟨rfl, hu, hk⟩ := hk
      exact ih (Bal.nodeAt_red ht hu) hk

theorem fits_of_plug {m : ℕ} (h : Bal (plug t k) .black m) : ∃ c n, Bal t c n ∧ Fits k c n := by
  induction k generalizing t with
  | nil => exact ⟨.black, m, h, rfl⟩
  | cons p k ih =>
    obtain ⟨s, pc, a, u⟩ := p
    obtain ⟨c, n, hp, hk⟩ := ih h
    cases pc with
    | black =>
      obtain ⟨rfl, j, rfl, ⟨d, ht⟩, hu⟩ := Bal.of_nodeAt_black hp
      exact ⟨d, j, ht, hu, hk⟩
    | red =>
      obtain ⟨rfl, ht, hu⟩ := Bal.of_nodeAt_red hp
      exact ⟨.black, n, ht, rfl, hu, hk⟩

end

section

/-- The empty place that `dir` leads down to; `none` where `dir` stops. -/
def link (dir : α → Option Side) : CTree α → List (Crumb α) → Option (List (Crumb α))
  | .nil, k => some k
  | .node c l a r, k =>
    match dir a with
    | none => none
    | some .left => link dir l (⟨.left, c, a, r⟩ :: k)
    | some .right => link dir r (⟨.right, c, a, l⟩ :: k)

/-- The value at which `dir` stops. -/
def search (dir : α → Option Side) : CTree α → Option α
  | .nil => none
  | .node _ l a r =>
    match dir a with
    | none => some a
    | some .left => search dir l
    | some .right => search dir r

/-- The subtree at the first node with the property, and its place. -/
def zipTo (p : α → Bool) : CTree α → List (Crumb α) → Option (CTree α × List (Crumb α))
  | .nil, _ => none
  | .node c l a r, k =>
    if p a then some (.node c l a r, k)
    else (zipTo p l (⟨.left, c, a, r⟩ :: k)).or (zipTo p r (⟨.right, c, a, l⟩ :: k))

variable {dir : α → Option Side} {t : CTree α} {k k' : List (Crumb α)}

theorem plug_link (h : link dir t k = some k') : plug .nil k' = plug t k := by
  induction t generalizing k with
  | nil =>
    cases h
    rfl
  | node c l a r ihl ihr =>
    rw [link] at h
    split at h
    · exact absurd h (by simp)
    · exact ihl h
    · exact ihr h

theorem link_eq_none (h : link dir t k = none) : ∃ x ∈ t.toList, dir x = none := by
  induction t generalizing k with
  | nil => exact absurd h (by simp [link])
  | node c l a r ihl ihr =>
    rw [link] at h
    split at h
    · rename_i hd
      exact ⟨a, by simp [toList], hd⟩
    · obtain ⟨x, hx, hd⟩ := ihl h
      exact ⟨x, by simp [toList, hx], hd⟩
    · obtain ⟨x, hx, hd⟩ := ihr h
      exact ⟨x, by simp [toList, hx], hd⟩

/-- Where the values are ordered by `R`, the place lies after the values that `dir`
passes on the left and before those it passes on the right. -/
theorem link_between {R : α → α → Prop} (Lo Hi : α → Prop) (hlo : ∀ {x y}, R x y → Lo y → Lo x)
    (hhi : ∀ {x y}, R x y → Hi x → Hi y) (hleft : ∀ x ∈ t.toList, dir x = some .left → Hi x)
    (hright : ∀ x ∈ t.toList, dir x = some .right → Lo x) (hR : t.toList.Pairwise R)
    (h : link dir t k = some k') :
    ((∀ x ∈ before k, Lo x) → ∀ x ∈ before k', Lo x) ∧
      ((∀ x ∈ after k, Hi x) → ∀ x ∈ after k', Hi x) := by
  induction t generalizing k with
  | nil =>
    cases h
    exact ⟨id, id⟩
  | node c l a r ihl ihr =>
    obtain ⟨hl, hr, hlr⟩ := pairwise_append.1 hR
    obtain ⟨har, hr⟩ := pairwise_cons.1 hr
    simp only [toList, mem_append, mem_cons] at hleft hright
    rw [link] at h
    split at h
    · exact absurd h (by simp)
    · rename_i hd
      have ha : Hi a := hleft a (.inr (.inl rfl)) hd
      obtain ⟨h1, h2⟩ := ihl (fun x hx => hleft x (.inl hx)) (fun x hx => hright x (.inl hx)) hl h
      refine ⟨h1, fun hk => h2 fun x hx => ?_⟩
      simp only [after, mem_cons, mem_append] at hx
      rcases hx with rfl | hx | hx
      · exact ha
      · exact hhi (har x hx) ha
      · exact hk x hx
    · rename_i hd
      have ha : Lo a := hright a (.inr (.inl rfl)) hd
      obtain ⟨h1, h2⟩ := ihr (fun x hx => hleft x (.inr (.inr hx)))
        (fun x hx => hright x (.inr (.inr hx))) hr h
      refine ⟨fun hk => h1 fun x hx => ?_, h2⟩
      simp only [before, mem_append, mem_cons, not_mem_nil, or_false] at hx
      rcases hx with hx | hx | rfl
      · exact hk x hx
      · exact hlo (hlr x hx a (.head _)) ha
      · exact ha

theorem mem_of_search {a : α} (h : search dir t = some a) : a ∈ t.toList := by
  induction t with
  | nil => exact absurd h (by simp [search])
  | node c l b r ihl ihr =>
    rw [search] at h
    simp only [toList, mem_append, mem_cons]
    split at h
    · exact .inr (.inl (Option.some.inj h).symm)
    · exact .inl (ihl h)
    · exact .inr (.inr (ihr h))

/-- Where `dir` points to the values it stops at, the search finds them. -/
theorem search_eq_find {R : α → α → Prop} (hR : t.toList.Pairwise R)
    (hleft : ∀ {x y}, R x y → dir x = some .left → dir y = some .left)
    (hright : ∀ {x y}, R x y → dir y ≠ some .left → dir x = some .right) :
    search dir t = t.toList.find? fun a => dir a = none := by
  induction t with
  | nil => rfl
  | node c l a r ihl ihr =>
    obtain ⟨hl, hr, hlr⟩ := pairwise_append.1 hR
    obtain ⟨har, hr⟩ := pairwise_cons.1 hr
    rw [search, toList, find?_append]
    -- what stands left of a node at which the search does not turn left is passed by
    have hpass : dir a ≠ some .left → l.toList.find? (fun a => dir a = none) = none := by
      intro hd
      rw [find?_eq_none]
      intro x hx
      simp [hright (hlr x hx a mem_cons_self) hd]
    split
    · rename_i hd
      rw [hpass (by simp [hd])]
      simp [hd]
    · rename_i hd
      have hrest : (a :: r.toList).find? (fun a => dir a = none) = none := by
        rw [find?_eq_none]
        intro x hx
        rcases mem_cons.1 hx with rfl | hx
        · simp [hd]
        · simp [hleft (har x hx) hd]
      rw [ihl hl, hrest, Option.or_none]
    · rename_i hd
      rw [hpass (by simp [hd]), ihr hr]
      simp [hd]

theorem zipTo_some {p : α → Bool} {u : CTree α} (h : zipTo p t k = some (u, k')) :
    plug u k' = plug t k ∧ ∃ c l a r, u = .node c l a r ∧ p a = true := by
  induction t generalizing k with
  | nil => exact absurd h (by simp [zipTo])
  | node c l a r ihl ihr =>
    rw [zipTo] at h
    split_ifs at h with hp
    · cases h
      exact ⟨rfl, c, l, a, r, rfl, hp⟩
    · rcases Option.or_eq_some_iff.1 h with h | ⟨-, h⟩
      · exact ihl h
      · exact ihr h

theorem zipTo_isSome {p : α → Bool} (h : ∃ a ∈ t.toList, p a = true) (k : List (Crumb α)) :
    ∃ u k', zipTo p t k = some (u, k') := by
  induction t generalizing k with
  | nil => simp [toList] at h
  | node c l a r ihl ihr =>
    rw [zipTo]
    split_ifs with hp
    · exact ⟨_, _, rfl⟩
    · obtain ⟨x, hx, hpx⟩ := h
      simp only [toList, mem_append, mem_cons] at hx
      cases hl : zipTo p l (⟨.left, c, a, r⟩ :: k) with
      | some e => exact ⟨e.1, e.2, rfl⟩
      | none =>
        rcases hx with hx | rfl | hx
        · obtain ⟨u, k', hu⟩ := ihl ⟨x, hx, hpx⟩ (⟨.left, c, a, r⟩ :: k)
          rw [hl] at hu
          exact absurd hu (by simp)
        · exact absurd hpx hp
        · exact ihr ⟨x, hx, hpx⟩ _

end

end ColorTree
