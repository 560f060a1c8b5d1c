/-
# `rb_insert_color`, `rb_erase` and `rb_next`

`src/kernel/utils/ttosRBTree.c`.  The nodes with their parent pointers are a tree of
values and a place in it (`Intewell.Lib.ColorTree`): the node under the cursor is the
root of a subtree, `rb_parent` the first crumb of its place.  The two halves of each
loop are mirror images and are written once, for the side the cursor is on.

A step through a null pointer is `none`.  In a red-black tree there is none, both
functions return a red-black tree, and its values are the old ones with one value more
(`insertColor_spec`) or less (`erase_next_spec`).  In a whole run the tree stays in order
and low (`rb_runs`).
-/

import Intewell.Lib.ColorTree
import Mathlib

namespace Intewell.RBTree

open ColorTree CTree

variable {α : Type*}

/-- `__rb_rotate_left` and `__rb_rotate_right`: towards the side `s`. -/
def rotate (s : Side) (t : CTree α) : Option (CTree α) :=
  (t.parts s).bind fun (c, x, a, y) =>
    (y.parts s).map fun (c', y₁, b, y₂) => nodeAt s c' (nodeAt s c x a y₁) b y₂

def Side.flip : Side → Side
  | .left => .right
  | .right => .left

/-- The loop of `rb_insert_color` with the node `t`, a red one, in the place `k`. -/
def insertColor : CTree α → List (Crumb α) → Option (CTree α)
  | t, [] => some (t.setColor .black)
  | t, [p] => if p.color = .red then none else some ((plug t [p]).setColor .black)
  | t, p :: g :: k =>
    if p.color = .black then some ((plug t (p :: g :: k)).setColor .black)
    else if g.other.isRed then
      insertColor (nodeAt g.side .red ((p.wrap t).setColor .black) g.val (g.other.setColor .black))
        k
    else
      -- `parent->rb_right == node` under a left child, or its mirror image
      (if p.side = g.side then some (p.wrap t) else rotate g.side (p.wrap t)).bind fun parent =>
        (rotate (Side.flip g.side)
          (nodeAt g.side .red (parent.setColor .black) g.val g.other)).map fun top =>
            (plug top k).setColor .black

/-- `rb_link_node` and `rb_insert_color`. -/
def insertAt (a : α) (k : List (Crumb α)) : Option (CTree α) :=
  insertColor (.node .red .nil a .nil) k

/-- The search for a place that `dir` leads to, and the value linked there. -/
def insertDir (dir : α → Option Side) (a : α) (t : CTree α) : Option (CTree α) :=
  (link dir t []).bind fun k => insertAt a k

/-- What a round of `__rb_erase_color` with a black sibling leads to. -/
inductive Fixup (α : Type*) where
  /-- the subtree of the parent is complete: the last rotation, and `break` -/
  | done (t : CTree α)
  /-- `node = parent` -/
  | up (t : CTree α)

/-- A round of `__rb_erase_color` once the sibling `other` is black. -/
def fixup (t : CTree α) (p : Crumb α) : Option (Fixup α) :=
  (p.other.parts p.side).bind fun (c, x, b, y) =>
    if x.isRed = false ∧ y.isRed = false then
      some (.up (nodeAt p.side p.color t p.val (nodeAt p.side .red x b y)))
    else
      (if y.isRed then some (nodeAt p.side c x b y)
        else rotate (Side.flip p.side) (nodeAt p.side .red (x.setColor .black) b y)).bind
          fun other =>
          (other.parts p.side).bind fun (_, x', b', y') =>
            (rotate p.side (nodeAt p.side .black t p.val
              (nodeAt p.side p.color x' b' (y'.setColor .black)))).map .done

/-- The loop of `__rb_erase_color` with the node `t`, which may be null, in the place `k`. -/
def eraseColor : CTree α → List (Crumb α) → Option (CTree α)
  | t, [] => some (t.setColor .black)
  | t, p :: k =>
    if t.isRed then some (plug (t.setColor .black) (p :: k))
    else
      match p.other.parts p.side with
      -- no sibling: `break` on the left; on the right a null node is taken for a left child
      | none => if p.side = .left ∨ t.parts .left = none then some (plug t (p :: k)) else none
      | some (.red, x, b, y) =>
        -- the sibling is turned up; the parent is red now, so the loop ends with it
        (fixup t ⟨p.side, .red, p.val, x⟩).map fun
          | .done u => (plug u (⟨p.side, .black, b, y⟩ :: k)).setColor .black
          | .up u => plug (u.setColor .black) (⟨p.side, .black, b, y⟩ :: k)
      | some (.black, _, _, _) =>
        (fixup t p).bind fun
          | .done u => some ((plug u k).setColor .black)
          | .up u => eraseColor u k

/-- The leftmost node of a tree: its colour, value, right child and place. -/
def leftmost : CTree α → List (Crumb α) → Option (Color × α × CTree α × List (Crumb α))
  | .nil, _ => none
  | .node c .nil a r, k => some (c, a, r, k)
  | .node c l a r, k => leftmost l (⟨.left, c, a, r⟩ :: k)

/-- The end of `rb_erase`: a node of colour `c` is gone from the place `k`, where `child` is now. -/
def eraseEnd (c : Color) (child : CTree α) (k : List (Crumb α)) : Option (CTree α) :=
  if c = .black then eraseColor child k else some (plug child k)

/-- `rb_erase` of the root of the subtree `t` in the place `k`. -/
def eraseAt : CTree α → List (Crumb α) → Option (CTree α)
  | .nil, _ => none
  | .node c .nil _ r, k => eraseEnd c r k
  | .node c l _ .nil, k => eraseEnd c l k
  | .node c l _ r, k =>
    -- the successor takes the place and the colour of the node
    (leftmost r []).bind fun (c', b, r', k') => eraseEnd c' r' (k' ++ ⟨.right, c, b, l⟩ :: k)

/-- `rb_erase` of the node with the property `p`. -/
def erase (p : α → Bool) (t : CTree α) : Option (CTree α) :=
  (zipTo p t []).bind fun (u, k) => eraseAt u k

/-- `rb_last` -/
def last : CTree α → Option α
  | .nil => none
  | .node _ _ a .nil => some a
  | .node _ _ _ r => last r

/-- `rb_next` from a node without a right child: up to the first one that is a left child. -/
def climb : List (Crumb α) → Option α
  | [] => none
  | p :: k => if p.side = .left then some p.val else climb k

/-- `rb_next` of the root of the subtree `t` in the place `k`. -/
def nextAt : CTree α → List (Crumb α) → Option α
  | .nil, _ => none
  | .node _ _ _ r, k =>
    match leftmost r [] with
    | some (_, a, _, _) => some a
    | none => climb k

/-- `rb_next` of the node with the property `p`. -/
def next (p : α → Bool) (t : CTree α) : Option α := (zipTo p t []).bind fun (u, k) => nextAt u k

section

variable {s : Side} {c c' : Color} {x y z : CTree α} {a b : α}

@[simp] theorem rotate_nodeAt :
    rotate s (nodeAt s c x a (nodeAt s c' y b z)) = some (nodeAt s c' (nodeAt s c x a y) b z) := by
  simp [rotate]

theorem nodeAt_flip : nodeAt (Side.flip s) c x a y = nodeAt s c y a x := by
  cases s <;> rfl

@[simp] theorem rotate_flip_nodeAt : rotate (Side.flip s) (nodeAt s c (nodeAt s c' x a y) b z) =
      some (nodeAt s c' x a (nodeAt s c y b z)) := by
  have h : rotate (Side.flip s) (nodeAt (Side.flip s) c z b (nodeAt (Side.flip s) c' y a x)) =
      some (nodeAt (Side.flip s) c' (nodeAt (Side.flip s) c z b y) a x) := rotate_nodeAt
  simpa only [nodeAt_flip] using h

theorem toList_nodeAt_nodeAt :
    (nodeAt s c (nodeAt s c' x a y) b z).toList = (nodeAt s c' x a (nodeAt s c y b z)).toList := by
  cases s <;> simp [nodeAt, toList]

theorem toList_nodeAt_congr {x' y' : CTree α} (hx : x.toList = x'.toList)
    (hy : y.toList = y'.toList) :
    (nodeAt s c x a y).toList = (nodeAt s c' x' a y').toList := by
  cases s <;> simp [nodeAt, toList, hx, hy]

end

section

theorem bal_black_setColor {t : CTree α} {m : ℕ} (h : Bal t .black m) : t.setColor .black = t := by
  cases h <;> rfl

open Bal

/-- **`rb_insert_color`.**  A red node stands where a black tree of the same height would
fit. -/
theorem insertColor_spec {t : CTree α} {n : ℕ} {k : List (Crumb α)} (ht : Bal t .red n)
    (hk : Fits k .black n) :
    ∃ t', insertColor t k = some t' ∧ t'.toList = (plug t k).toList ∧ ∃ m, Bal t' .black m := by
  match k, hk with
  | [], _ =>
    obtain ⟨m, hm⟩ := ht.blacken
    exact ⟨_, rfl, by simp [plug], m, hm⟩
  | [p], hk =>
    obtain ⟨s, pc, a, u⟩ := p
    cases pc with
    | red => exact absurd hk.2.2 (by simp [Fits])
    | black =>
      obtain ⟨m, hm⟩ := bal_plug ht (k := [⟨s, .black, a, u⟩]) hk
      refine ⟨_, if_neg (by simp), by simp, m, ?_⟩
      rwa [bal_black_setColor hm]
  | ⟨s, .black, a, u⟩ :: g :: k, hk =>
    obtain ⟨m, hm⟩ := bal_plug ht (k := ⟨s, .black, a, u⟩ :: g :: k) hk
    refine ⟨_, by rw [insertColor, if_pos rfl], by simp, m, ?_⟩
    rwa [bal_black_setColor hm]
  | ⟨s, .red, a, u⟩ :: ⟨gs, .red, b, v⟩ :: k, hk => exact absurd hk.2.2.1 (by simp)
  | ⟨s, .red, a, u⟩ :: ⟨gs, .black, b, v⟩ :: k, hk =>
    obtain ⟨-, hu, ⟨d, hv⟩, hk⟩ := hk
    rw [insertColor, if_neg (by simp)]
    simp only [Crumb.wrap]
    cases hd : v.isRed with
    | true =>
      -- a red uncle: the grandparent becomes red and the loop goes on from it
      rw [if_pos rfl]
      rw [setColor_nodeAt]
      have hg : Bal (nodeAt gs .red (nodeAt s .black t a u) b (v.setColor .black)) .red (n + 1) :=
        nodeAt_red (nodeAt_black ht hu) (hv.of_isRed hd)
      obtain ⟨t', h1, h2, h3⟩ := insertColor_spec hg hk
      refine ⟨t', h1, h2.trans ?_, h3⟩
      simp only [plug, Crumb.wrap]
      exact toList_plug_congr
        (toList_nodeAt_congr (toList_nodeAt_congr rfl rfl) (toList_setColor .black v)) k
    | false =>
      -- a black uncle: one or two rotations, and the root of the subtree is black
      rw [if_neg (by simp)]
      have hvb := hv.of_not_isRed hd
      obtain rfl | ⟨tc, x, c, y, rfl⟩ := cases_nodeAt gs t
      · cases ht
      obtain ⟨rfl, hx, hy⟩ : tc = .red ∧ Bal x .black n ∧ Bal y .black n := by
        cases tc with
        | red => exact ⟨rfl, (of_nodeAt_red ht).2⟩
        | black => exact absurd (of_nodeAt_black ht).1 (by simp)
      by_cases hs : s = gs
      · subst hs
        have hbal : Bal (nodeAt s .black (nodeAt s .red x c y) a (nodeAt s .red u b v)) .black
            (n + 1) := nodeAt_black (nodeAt_red hx hy) (nodeAt_red hu hvb)
        obtain ⟨m, hm⟩ := bal_plug hbal hk
        refine ⟨_, by simp [bal_black_setColor hm], toList_plug_congr ?_ k, m, hm⟩
        rw [← toList_nodeAt_nodeAt]
        exact toList_nodeAt_congr (toList_nodeAt_congr rfl rfl) rfl
      · have hflip : nodeAt s .red (nodeAt gs .red x c y) a u =
            nodeAt gs .red u a (nodeAt gs .red x c y) := by
          cases s <;> cases gs <;> first | rfl | exact absurd rfl hs
        have hbal : Bal (nodeAt gs .black (nodeAt gs .red u a x) c (nodeAt gs .red y b v)) .black
            (n + 1) := nodeAt_black (nodeAt_red hu hx) (nodeAt_red hy hvb)
        obtain ⟨m, hm⟩ := bal_plug hbal hk
        refine ⟨_, by simp [hs, hflip, bal_black_setColor hm], toList_plug_congr ?_ k, m, hm⟩
        rw [← toList_nodeAt_nodeAt]
        refine toList_nodeAt_congr ?_ rfl
        simp only [Crumb.wrap, hflip]
        rw [toList_nodeAt_nodeAt]
        exact toList_nodeAt_congr rfl (toList_nodeAt_congr rfl rfl)
termination_by k.length

/-- **A value linked into an empty place of a red-black tree.** -/
theorem insertAt_spec {a : α} {k : List (Crumb α)} {m : ℕ} (h : Bal (plug .nil k) .black m) :
    ∃ t', insertAt a k = some t' ∧ t'.toList = before k ++ a :: after k ∧ ∃ m, Bal t' .black m := by
  obtain ⟨c, n, hnil, hk⟩ := fits_of_plug h
  cases hnil
  obtain ⟨t', h1, h2, h3⟩ := insertColor_spec (.red .nil .nil) hk
  refine ⟨t', h1, ?_, h3⟩
  rw [h2, toList_plug]
  simp [toList]

/-- **A value linked where `dir` leads to**, somewhere between the others; and in a sorted tree, in
which `dir` turns left once and for all, between those at which it turns right and those at which
it turns left. -/
theorem insertDir_spec {dir : α → Option Side} {a : α} {t : CTree α} {m : ℕ}
    (h : Bal t .black m) (hdir : ∀ x ∈ t.toList, dir x ≠ none) :
    ∃ t' pre post, insertDir dir a t = some t' ∧ t.toList = pre ++ post ∧
      t'.toList = pre ++ a :: post ∧ (∃ m, Bal t' .black m) ∧
      ∀ R : α → α → Prop, t.toList.Pairwise R →
        (∀ x y, R x y → dir x = some .left → dir y = some .left) →
        (∀ x y, R x y → dir y = some .right → dir x = some .right) →
        (∀ x ∈ pre, dir x = some .right) ∧ ∀ x ∈ post, dir x = some .left := by
  obtain ⟨k, hk⟩ : ∃ k, link dir t [] = some k := by
    cases hk : link dir t [] with
    | some k => exact ⟨k, rfl⟩
    | none =>
      obtain ⟨x, hx, hd⟩ := link_eq_none hk
      exact absurd hd (hdir x hx)
  have hplug : plug .nil k = t := plug_link hk
  obtain ⟨t', h1, h2, h3⟩ := insertAt_spec (hplug ▸ h)
  refine ⟨t', before k, after k, by rw [insertDir, hk, Option.bind_some, h1], ?_, h2, h3,
    fun R hR hleft hright => ?_⟩
  · rw [← hplug, toList_plug]
    rfl
  · obtain ⟨hlo, hhi⟩ := link_between (fun x => dir x = some .right) (fun x => dir x = some .left)
      (hright _ _) (hleft _ _) (fun _ _ hx => hx) (fun _ _ hx => hx)
      hR hk
    exact ⟨hlo (by simp [before]), hhi (by simp [after])⟩

end

open CTree

section

variable {t : CTree α} {n : ℕ} {k : List (Crumb α)}

/-- A round with a black sibling: the subtree of the parent is complete, or it is one
black node short and the parent's place is the next. -/
theorem fixup_spec (s : Side) (pc : Color) (a : α) {other : CTree α} (ht : Bal t .black n)
    (ho : Bal other .black (n + 1)) : (∃ u, fixup t ⟨s, pc, a, other⟩ = some (.done u) ∧
      u.toList = (nodeAt s pc t a other).toList ∧ Bal u pc (if pc = .red then n + 1 else n + 2)) ∨
    ∃ x b y, fixup t ⟨s, pc, a, other⟩ = some (.up (nodeAt s pc t a (nodeAt s .red x b y))) ∧
      (nodeAt s .red x b y).toList = other.toList ∧ Bal (nodeAt s .red x b y) .red n := by
  obtain rfl | ⟨oc, x, b, y, rfl⟩ := cases_nodeAt s other
  · cases ho
  obtain ⟨rfl, hx, hy⟩ : oc = .black ∧ (∃ d, Bal x d n) ∧ ∃ d, Bal y d n := by
    cases oc with
    | red => exact absurd (Bal.of_nodeAt_red ho).1 (by simp)
    | black =>
      obtain ⟨-, m, hm, hxy⟩ := Bal.of_nodeAt_black ho
      obtain rfl : n = m := by omega
      exact ⟨rfl, hxy⟩
  obtain ⟨dx, hx⟩ := hx
  obtain ⟨dy, hy⟩ := hy
  have hheight (u v : CTree α) (c : α) (hu : Bal u .black (n + 1)) (hv : Bal v .black (n + 1)) :
      Bal (nodeAt s pc u c v) pc (if pc = .red then n + 1 else n + 2) :=
    Bal.nodeAt (fun _ => ⟨hu, hv⟩) fun _ => ⟨⟨_, hu⟩, _, hv⟩
  unfold fixup
  simp only [parts_nodeAt, Option.bind_some]
  cases hyr : y.isRed with
  | true =>
    refine Or.inl ⟨nodeAt s pc (nodeAt s .black t a x) b (y.setColor .black), by simp, ?_,
      hheight _ _ b (Bal.nodeAt_black ht hx) (hy.of_isRed hyr)⟩
    rw [toList_nodeAt_nodeAt]
    exact toList_nodeAt_congr rfl (toList_nodeAt_congr rfl (by simp))
  | false =>
    have hyb := hy.of_not_isRed hyr
    cases hxr : x.isRed with
    | false =>
      exact Or.inr ⟨x, b, y, by simp, toList_nodeAt_congr rfl rfl,
        Bal.nodeAt_red (hx.of_not_isRed hxr) hyb⟩
    | true =>
      obtain rfl | ⟨xc, x1, c, x2, rfl⟩ := cases_nodeAt s x
      · simp [isRed] at hxr
      obtain rfl : xc = .red := by simpa using hxr
      obtain ⟨-, h1, h2⟩ := Bal.of_nodeAt_red hx
      refine Or.inl ⟨nodeAt s pc (nodeAt s .black t a x1) c (nodeAt s .black x2 b y), by simp, ?_,
        hheight _ _ c (Bal.nodeAt_black ht h1) (Bal.nodeAt_black h2 hyb)⟩
      rw [toList_nodeAt_nodeAt]
      refine toList_nodeAt_congr rfl ?_
      rw [← toList_nodeAt_nodeAt]
      exact toList_nodeAt_congr (toList_nodeAt_congr rfl rfl) rfl

/-- **`__rb_erase_color`.**  The tree is one black node short of what fits. -/
theorem eraseColor_spec {c : Color} (ht : Bal t c n) (hk : Fits k .black (n + 1)) :
    ∃ t', eraseColor t k = some t' ∧ t'.toList = (plug t k).toList ∧ ∃ m, Bal t' .black m := by
  induction k generalizing t n c with
  | nil =>
    obtain ⟨m, hm⟩ := ht.blacken
    exact ⟨_, rfl, by simp [plug], m, hm⟩
  | cons p k ih =>
    obtain ⟨s, pc, a, u⟩ := p
    rw [eraseColor]
    cases htr : t.isRed with
    | true =>
      obtain ⟨m, hm⟩ := bal_plug (ht.of_isRed htr) hk
      exact ⟨_, if_pos rfl, toList_plug_congr (by simp) _, m, hm⟩
    | false =>
      have htb := ht.of_not_isRed htr
      rw [if_neg (by simp)]
      -- the sibling is a node, since it has a black node on every path
      obtain ⟨d, hu⟩ : ∃ d, Bal u d (n + 1) := by
        cases pc with
        | black => exact hk.1
        | red => exact ⟨_, hk.2.1⟩
      obtain rfl | ⟨uc, x, b, y, rfl⟩ := cases_nodeAt s u
      · cases hu
      simp only [parts_nodeAt]
      cases uc with
      | red =>
        dsimp only
        obtain ⟨rfl, hx, hy⟩ := Bal.of_nodeAt_red hu
        -- a red sibling has a black parent
        cases pc with
        | red => exact absurd hk.2.1 (fun h => absurd (Bal.of_nodeAt_red h).1 (by simp))
        | black =>
          have hk' : Fits k .black (n + 2) := hk.2
          have hfit : ∀ d, Fits (⟨s, .black, b, y⟩ :: k) d (n + 1) := fun _ => ⟨⟨_, hy⟩, hk'⟩
          -- the sibling turned up has the same values
          have hlist : ∀ v : CTree α, v.toList = (nodeAt s .red t a x).toList →
              (plug v (⟨s, .black, b, y⟩ :: k)).toList =
                (plug t (⟨s, .black, a, nodeAt s .red x b y⟩ :: k)).toList := by
            intro v hv
            refine toList_plug_congr ?_ k
            simp only [Crumb.wrap]
            calc (nodeAt s .black v b y).toList
                = (nodeAt s .black (nodeAt s .red t a x) b y).toList := toList_nodeAt_congr hv rfl
              _ = (nodeAt s .red t a (nodeAt s .black x b y)).toList := toList_nodeAt_nodeAt
              _ = _ := toList_nodeAt_congr rfl (toList_nodeAt_congr rfl rfl)
          rcases fixup_spec s .red a htb hx with
            ⟨v, hv, hvl, hvb⟩ | ⟨x', b', y', hv, hvl, hvb⟩
          · obtain ⟨m, hm⟩ := bal_plug (hvb : Bal v .red (n + 1)) (hfit _)
            exact ⟨_, by simp [hv, bal_black_setColor hm], hlist v hvl, m, hm⟩
          · have hvb' : Bal (nodeAt s .black t a (nodeAt s .red x' b' y')) .black (n + 1) :=
              Bal.nodeAt_black htb hvb
            obtain ⟨m, hm⟩ := bal_plug hvb' (hfit _)
            exact ⟨_, by simp [hv], hlist _ (toList_nodeAt_congr rfl hvl), m, hm⟩
      | black =>
        dsimp only
        obtain ⟨rfl, -⟩ := Bal.of_nodeAt_black hu
        rcases fixup_spec s pc a htb hu with
          ⟨v, hv, hvl, hvb⟩ | ⟨x', b', y', hv, hvl, hvb⟩
        · have hfit : Fits k pc (if pc = .red then n + 1 else n + 2) := by
            cases pc with
            | black => exact hk.2
            | red => exact hk.2.2
          obtain ⟨m, hm⟩ := bal_plug hvb hfit
          exact ⟨_, by simp [hv, bal_black_setColor hm], toList_plug_congr hvl k, m, hm⟩
        · have hlist : (nodeAt s pc t a (nodeAt s .red x' b' y')).toList =
              (nodeAt s pc t a (nodeAt s .black x b y)).toList := toList_nodeAt_congr rfl hvl
          rw [hv, Option.bind_some]
          cases pc with
          | black =>
            obtain ⟨t', h1, h2, h3⟩ := ih (Bal.nodeAt_black htb hvb) (hk.2 : Fits k .black (n + 2))
            exact ⟨t', h1, h2.trans (toList_plug_congr hlist k), h3⟩
          | red =>
            -- a red parent is blackened and ends the loop
            have hb : Bal (nodeAt s .black t a (nodeAt s .red x' b' y')) .black (n + 1) :=
              Bal.nodeAt_black htb hvb
            obtain ⟨m, hm⟩ := bal_plug hb hk.2.2.black
            have hend : eraseColor (nodeAt s .red t a (nodeAt s .red x' b' y')) k =
                some (plug (nodeAt s .black t a (nodeAt s .red x' b' y')) k) := by
              cases k with
              | nil => simp [eraseColor, plug]
              | cons q k => simp [eraseColor]
            exact ⟨_, hend, toList_plug_congr ((toList_nodeAt_congr rfl rfl).trans hlist) k, m, hm⟩

theorem eraseEnd_spec {c d : Color} (ht : Bal t d n)
    (hk : Fits k c (if c = .red then n else n + 1)) (hd : c = .red → d = .black) :
    ∃ t', eraseEnd c t k = some t' ∧ t'.toList = (plug t k).toList ∧ ∃ m, Bal t' .black m := by
  cases c with
  | red =>
    obtain rfl := hd rfl
    obtain ⟨m, hm⟩ := bal_plug ht hk.black
    exact ⟨_, rfl, rfl, m, hm⟩
  | black => exact eraseColor_spec ht hk

theorem leftmost_spec (hne : t ≠ .nil) (k : List (Crumb α)) :
    ∃ c a r k', leftmost t k = some (c, a, r, k') ∧ plug (.node c .nil a r) k' = plug t k ∧
      before k' = before k := by
  induction t generalizing k with
  | nil => exact absurd rfl hne
  | node c l a r ihl =>
    cases l with
    | nil => exact ⟨c, a, r, k, rfl, rfl, rfl⟩
    | node => exact ihl (by simp) (⟨.left, c, a, r⟩ :: k)

theorem Bal.of_node {c d : Color} {l r : CTree α} {a : α} (h : Bal (.node c l a r) d n) :
    d = c ∧ ∃ j, n = (if c = .red then j else j + 1) ∧ (∃ e, Bal l e j ∧ (c = .red → e = .black)) ∧
      ∃ e, Bal r e j ∧ (c = .red → e = .black) := by
  cases h with
  | red h1 h2 => exact ⟨rfl, n, rfl, ⟨_, h1, fun _ => rfl⟩, _, h2, fun _ => rfl⟩
  | black h1 h2 =>
    exact ⟨rfl, _, rfl, ⟨_, h1, fun h => absurd h (by simp)⟩, _, h2, fun h => absurd h (by simp)⟩

/-- **`rb_erase`**, at a place. -/
theorem eraseAt_spec {c : Color} {l r : CTree α} {a : α} {m : ℕ}
    (h : Bal (plug (.node c l a r) k) .black m) : ∃ t', eraseAt (.node c l a r) k = some t' ∧
      t'.toList = before k ++ (l.toList ++ r.toList) ++ after k ∧ ∃ m, Bal t' .black m := by
  obtain ⟨d, n, hnode, hk⟩ := fits_of_plug h
  obtain ⟨rfl, j, rfl, ⟨e, hl, hle⟩, e', hr, hre⟩ := Bal.of_node hnode
  cases l with
  | nil =>
    obtain ⟨t', h1, h2, h3⟩ := eraseEnd_spec hr hk hre
    exact ⟨t', h1, by rw [h2, toList_plug]; simp [toList], h3⟩
  | node lc ll la lr =>
    cases r with
    | nil =>
      obtain ⟨t', h1, h2, h3⟩ := eraseEnd_spec hl hk hle
      exact ⟨t', h1, by rw [h2, toList_plug]; simp [toList], h3⟩
    | node rc rl ra rr =>
      obtain ⟨c1, b, r1, k1, h1, h2, h3⟩ :=
        leftmost_spec (t := .node rc rl ra rr) (by simp) ([] : List (Crumb α))
      -- the tree with the successor in the place of the node, and still below
      have hwrap : Bal (Crumb.wrap ⟨.right, d, b, .node lc ll la lr⟩ (.node rc rl ra rr)) d
          (if d = .red then j else j + 1) := by
        cases hnode with
        | red h1 h2 => exact .red h1 h2
        | black h1 h2 => exact .black h1 h2
      obtain ⟨m', hm'⟩ := bal_plug hwrap hk
      have hbal : Bal (plug (.node c1 .nil b r1) (k1 ++ ⟨.right, d, b, .node lc ll la lr⟩ :: k))
          .black m' := by
        rw [plug_append, h2]
        exact hm'
      obtain ⟨d1, n1, hnode1, hk1⟩ := fits_of_plug hbal
      obtain ⟨rfl, j1, rfl, -, e1, hr1, hre1⟩ := Bal.of_node hnode1
      obtain ⟨t', ht', hlist, hbal'⟩ := eraseEnd_spec hr1 hk1 hre1
      refine ⟨t', by simpa [eraseAt, h1] using ht', ?_, hbal'⟩
      have hr : (node rc rl ra rr).toList = b :: (plug r1 k1).toList := by
        have := congrArg toList h2
        rw [toList_plug, h3] at this
        rw [toList_plug, h3]
        simpa [plug, before, toList] using this.symm
      rw [hlist, plug_append, toList_plug, hr]
      simp [before, after]

theorem climb_eq (k : List (Crumb α)) : climb k = (after k).head? := by
  induction k with
  | nil => rfl
  | cons p k ih =>
    obtain ⟨s, c, a, u⟩ := p
    cases s with
    | left => rfl
    | right => simpa [climb, after] using ih

/-- `rb_next` is the next value in order. -/
theorem nextAt_eq (c : Color) (l r : CTree α) (a : α) (k : List (Crumb α)) :
    nextAt (.node c l a r) k = (r.toList ++ after k).head? := by
  cases hr : r with
  | nil => exact climb_eq k
  | node rc rl ra rr =>
    obtain ⟨c', b, r', k', h1, h2, h3⟩ := leftmost_spec (t := .node rc rl ra rr) (by simp) []
    have hlist := congrArg toList h2
    rw [toList_plug, h3] at hlist
    rw [nextAt, h1, ← show plug (node rc rl ra rr) [] = node rc rl ra rr from rfl, ← hlist]
    simp [before, toList]

section
variable {p : α → Bool} {m : ℕ} (h : Bal t .black m) (hp : ∃ a ∈ t.toList, p a = true)
include h hp

/-- **`rb_erase`** takes the value out of the tree and leaves the others in order; `rb_next` is
what follows it there. -/
theorem erase_next_spec :
    ∃ t' pre a post, erase p t = some t' ∧ next p t = post.head? ∧ p a = true ∧
      t.toList = pre ++ a :: post ∧ t'.toList = pre ++ post ∧ ∃ m, Bal t' .black m := by
  obtain ⟨u, k, hu⟩ := zipTo_isSome hp []
  obtain ⟨hplug, c, l, a, r, rfl, ha⟩ := zipTo_some hu
  rw [plug] at hplug
  obtain ⟨t', h1, h2, h3⟩ := eraseAt_spec (hplug ▸ h)
  refine ⟨t', before k ++ l.toList, a, r.toList ++ after k, by rw [erase, hu]; exact h1,
    by rw [next, hu]; exact nextAt_eq c l r a k, ha, ?_, ?_, h3⟩
  · rw [← hplug, toList_plug]
    simp [toList]
  · rw [h2]
    simp

end

end

section

open List

/-- The nodes on the longest way down. -/
def depth : CTree α → ℕ
  | .nil => 0
  | .node _ l _ r => max (depth l) (depth r) + 1

theorem depth_le {t : CTree α} {c : Color} {n : ℕ} (h : Bal t c n) :
    depth t ≤ 2 * n + (if c = .red then 1 else 0) ∧ 2 ^ n ≤ t.toList.length + 1 := by
  induction h with
  | nil => simp [depth, toList]
  | red hl hr ihl ihr =>
    simp only [depth, toList, length_append, length_cons] at *
    grind
  | black hl hr ihl ihr =>
    simp only [depth, toList, length_append, length_cons] at *
    grind

/-- A call on a tree in the order of the values; equal values go to the right. -/
inductive Op (α : Type*) where
  | insert (a : α)
  | erase (a : α)

variable [LinearOrder α]

/-- Only what is in the tree is erased. -/
def Op.run (t : CTree α) : Op α → Option (CTree α)
  | insert a => insertDir (fun x => some (if a < x then .left else .right)) a t
  | erase a => if a ∈ t.toList then RBTree.erase (· = a) t else some t

/-- What the calls are to do to the values, in any order. -/
def Op.change (l : List α) : Op α → List α
  | insert a => a :: l
  | erase a => l.erase a

theorem Op.run_spec {t : CTree α} {m : ℕ} {l : List α} (op : Op α) (h : Bal t .black m)
    (hs : t.toList.Pairwise (· ≤ ·)) (hl : t.toList.Perm l) :
    ∃ t', op.run t = some t' ∧ (∃ m, Bal t' .black m) ∧ t'.toList.Pairwise (· ≤ ·) ∧
      t'.toList.Perm (op.change l) := by
  cases op with
  | insert a =>
    have hdir : ∀ x ∈ t.toList, some (if a < x then Side.left else .right) ≠ none := by simp
    obtain ⟨t', pre, post, hrun, ht, ht', hbal, hside⟩ := insertDir_spec (a := a) h hdir
    obtain ⟨hpre, hpost⟩ := hside (· ≤ ·) hs (by grind) (by grind)
    refine ⟨t', hrun, hbal, ?_, ?_⟩
    · rw [ht, pairwise_append] at hs
      rw [ht', pairwise_append, pairwise_cons]
      grind
    · rw [ht']
      exact perm_middle.trans ((ht ▸ hl).cons a)
  | erase a =>
    by_cases ha : a ∈ t.toList
    · obtain ⟨t', pre, b, post, hrun, -, hb, ht, ht', hbal⟩ := erase_next_spec (p := (· = a)) h
        ⟨a, ha, by simp⟩
      obtain rfl : b = a := by simpa using hb
      refine ⟨t', by rw [Op.run, if_pos ha, hrun], hbal, ?_, ?_⟩
      · rw [ht']
        exact hs.sublist (ht ▸ (sublist_cons_self b post).append_left pre)
      · have := (perm_middle.symm.trans (ht ▸ hl)).erase b
        rwa [erase_cons_head, ← ht'] at this
    · exact ⟨t, if_neg ha, ⟨m, h⟩, hs, by rwa [Op.change,
        erase_of_not_mem (fun h => ha (hl.mem_iff.2 h))]⟩

/-- **A tree in order.**  Any calls of `rb_erase`, and of `rb_insert_color` where a search leads to,
return; the tree holds the values that were inserted and not erased since, in order, and no way down
has more than twice the logarithm of their number. -/
theorem rb_runs (ops : List (Op α)) : ∃ t, ops.foldlM Op.run .nil = some t ∧
    t.toList.Pairwise (· ≤ ·) ∧ t.toList.Perm (ops.foldl Op.change []) ∧
    depth t ≤ 2 * Nat.log2 (t.toList.length + 1) := by
  have hrun : ∀ (ops : List (Op α)) (s : CTree α) (l : List α), (∃ m, Bal s .black m) →
      s.toList.Pairwise (· ≤ ·) → s.toList.Perm l → ∃ t, ops.foldlM Op.run s = some t ∧
        (∃ m, Bal t .black m) ∧ t.toList.Pairwise (· ≤ ·) ∧
        t.toList.Perm (ops.foldl Op.change l) := by
    intro ops
    induction ops with
    | nil => exact fun s l hb hs hl => ⟨s, rfl, hb, hs, hl⟩
    | cons op ops ih =>
      intro s l ⟨m, hb⟩ hs hl
      obtain ⟨s', hop, hb', hs', hl'⟩ := op.run_spec hb hs hl
      obtain ⟨t, ht, hrest⟩ := ih s' _ hb' hs' hl'
      exact ⟨t, by rw [foldlM_cons, hop]; exact ht, hrest⟩
  obtain ⟨t, ht, ⟨m, hb⟩, hs, hl⟩ := hrun ops .nil [] ⟨0, .nil⟩ .nil (.refl _)
  obtain ⟨hdepth, hsize⟩ := depth_le hb
  exact ⟨t, ht, hs, hl, Nat.le_trans hdepth
    (Nat.mul_le_mul_left 2 ((Nat.le_log2 (by simp)).2 hsize))⟩

end

end Intewell.RBTree
