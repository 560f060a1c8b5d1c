/-
# Executing a list of operations

A step relation may have a function that computes its steps from a list of what is to happen.
What the function reaches, the relation reaches; so that a run is found by evaluation.
-/

import Mathlib.Logic.Relation

namespace Intewell

variable {W O : Type*} {next : W → O → Option W} {r : W → W → Prop} {w w0 : W}

/-- The state after some operations, if each of them is possible. -/
def exec (next : W → O → Option W) : W → List O → Option W
  | w, [] => some w
  | w, o :: os => (next w o).bind fun w' => exec next w' os

section
variable (hr : ∀ w o w', next w o = some w' → r w w')
include hr

theorem exec_run {os : List O} (h : exec next w0 os = some w) : Relation.ReflTransGen r w0 w := by
  induction os generalizing w0 with
  | nil =>
    cases h
    exact .refl
  | cons o os ih =>
    obtain ⟨w1, h1, hw⟩ := Option.bind_eq_some_iff.1 h
    exact .head (hr w0 o w1 h1) (ih hw)

/-- A run to a state with a property, by evaluation. -/
theorem exists_exec (os : List O) {P : W → Prop} [DecidablePred P]
    (h : ((exec next w0 os).map fun w => decide (P w)) = some true) :
    ∃ w, Relation.ReflTransGen r w0 w ∧ P w := by
  obtain ⟨w, hw, hP⟩ := Option.map_eq_some_iff.1 h
  exact ⟨w, exec_run hr hw, of_decide_eq_true hP⟩

end

/-- What a run of steps reaches that a function computes, each taken where it may be. -/
def Reaches (next : W → O → Option W) (ok : W → O → Prop) : W → W → Prop :=
  Relation.ReflTransGen fun w w' => ∃ o, ok w o ∧ next w o = some w'

variable {ok : W → O → Prop}

theorem Reaches.invariant {I : W → Prop} (h : Reaches next ok w0 w) (hI : I w0)
    (step : ∀ w o w', I w → ok w o → next w o = some w' → I w') : I w := by
  induction h with
  | refl => exact hI
  | tail _ hs ih =>
    obtain ⟨o, hok, hn⟩ := hs
    exact step _ o _ ih hok hn

theorem exists_reach [∀ w o, Decidable (ok w o)] (os : List O) {P : W → Prop} [DecidablePred P]
    (h : ((exec (fun w o => if ok w o then next w o else none) w0 os).map fun w => decide (P w)) =
      some true) : ∃ w, Reaches next ok w0 w ∧ P w := by
  refine exists_exec (fun w o w' h => ?_) os h
  obtain ⟨hok, hn⟩ := Option.ite_none_right_eq_some.1 h
  exact ⟨o, hok, hn⟩

end Intewell
