/-
# Functions that change at one point
-/

import Mathlib.Logic.Function.Basic

namespace Intewell

open Function

variable {α β γ : Type*} [DecidableEq α] {f : α → β} {a : α} {b : β}

theorem update_proj (p : β → γ) (h : p b = p (f a)) (x : α) : p (update f a b x) = p (f x) := by
  by_cases hx : x = a
  · rwa [hx, update_self]
  · rw [update_of_ne hx]

end Intewell
