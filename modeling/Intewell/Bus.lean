/-
# The devices and the drivers of a bus

devbus_register_device and devbus_add_driver (bus.c) of one bus: each walks along the list of the
other kind.  **What `probe` returns is ignored, and `dev->driver` stays**, so that a device goes to
the first driver that matches it, in the order in which the drivers were registered.
-/

import Mathlib.Data.List.Induction
import Mathlib.Logic.Function.Basic

namespace Intewell.Bus

open Function List

variable {δ ρ : Type*}

/-- `klist_devices`, `klist_drivers` and `dev->driver`; and with which drivers `bus->probe` was
called for a device. -/
structure State (δ ρ : Type*) where
  devices : List δ
  drivers : List ρ
  driver : δ → Option ρ
  probes : δ → List ρ

inductive Op (δ ρ : Type*) where
  | devbus_register_device (dev : δ)
  | devbus_add_driver (drv : ρ)

/-- What is expected of the bindings, where `ok` says which probes succeed. -/
structure Bound (isMatch ok : δ → ρ → Bool) (s : State δ ρ) : Prop where
  bound : ∀ d ∈ s.devices, (s.driver d).isSome ↔ ∃ p ∈ s.drivers, isMatch d p ∧ ok d p
  driver : ∀ d p, s.driver d = some p → p ∈ s.drivers ∧ isMatch d p ∧ ok d p
  once : ∀ d, (s.probes d).Pairwise fun p _ => ok d p = false
  available : ∀ d, ∀ p ∈ s.probes d, ok d p = false → s.driver d ≠ some p

variable [DecidableEq δ] (isMatch : δ → ρ → Bool)

/-- The body of `_devbus_pair_drv` and `_devbus_pair_device`. -/
def pair (dev : δ) (drv : ρ) (s : State δ ρ) : State δ ρ :=
  if (s.driver dev).isSome then s
  else if isMatch dev drv then
    { s with
      driver := update s.driver dev (some drv)
      probes := update s.probes dev (s.probes dev ++ [drv]) }
  else s

/-- Called for each device of the bus. -/
def _devbus_pair_drv (drv : ρ) (s : State δ ρ) (dev : δ) : State δ ρ := pair isMatch dev drv s

/-- Called for each driver of the bus. -/
def _devbus_pair_device (dev : δ) (s : State δ ρ) (drv : ρ) : State δ ρ := pair isMatch dev drv s

def Op.run (s : State δ ρ) : Op δ ρ → State δ ρ
  | devbus_register_device dev =>
    s.drivers.foldl (_devbus_pair_device isMatch dev) { s with devices := s.devices ++ [dev] }
  | devbus_add_driver drv =>
    s.devices.foldl (_devbus_pair_drv isMatch drv) { s with drivers := s.drivers ++ [drv] }

/-- A bus after some registrations. -/
def registered (ops : List (Op δ ρ)) : State δ ρ :=
  ops.foldl (Op.run isMatch) ⟨[], [], fun _ => none, fun _ => []⟩

/-- Only the drivers of the devices were probed. -/
def settled (D : List δ) (P : List ρ) (f : δ → Option ρ) : State δ ρ :=
  ⟨D, P, f, fun d => (f d).toList⟩

variable {isMatch} {D : List δ} {P : List ρ}

theorem pair_settled (f : δ → Option ρ) (dev : δ) (drv : ρ) :
    pair isMatch dev drv (settled D P f) = settled D P (update f dev
      ((f dev).or (if isMatch dev drv then some drv else none))) := by
  have hprobes (x : Option ρ) : (fun d => (update f dev x d).toList) =
      update (fun d => (f d).toList) dev x.toList := by
    funext d
    by_cases hd : d = dev <;> simp [hd]
  simp only [pair, settled, hprobes]
  rcases Option.eq_none_or_eq_some (f dev) with hf | ⟨p, hf⟩
  · cases isMatch dev drv <;> simp [hf]
  · simp [hf]

theorem foldl_drivers (l : List ρ) (f : δ → Option ρ) (dev : δ) :
    l.foldl (_devbus_pair_device isMatch dev) (settled D P f) =
      settled D P (update f dev ((f dev).or (l.find? (isMatch dev)))) := by
  induction l generalizing f with
  | nil => simp
  | cons drv l ih =>
    rw [foldl_cons, _devbus_pair_device, pair_settled, ih, update_idem, update_self,
      Option.or_assoc, find?_cons]
    cases isMatch dev drv <;> simp

theorem foldl_devices (l : List δ) (f : δ → Option ρ) (drv : ρ) :
    l.foldl (_devbus_pair_drv isMatch drv) (settled D P f) = settled D P fun d =>
      (f d).or (if d ∈ l ∧ isMatch d drv then some drv else none) := by
  induction l generalizing f with
  | nil => simp
  | cons dev l ih =>
    rw [foldl_cons, _devbus_pair_drv, pair_settled, ih]
    congr 1
    funext d
    by_cases hd : d = dev
    · subst hd
      rcases f d with _ | p <;> cases isMatch d drv <;> simp
    · simp [hd]

theorem registered_eq (isMatch : δ → ρ → Bool) (ops : List (Op δ ρ)) :
    ∃ D P, registered isMatch ops = settled D P fun d =>
      if d ∈ D then P.find? (isMatch d) else none := by
  induction ops using reverseRecOn with
  | nil => exact ⟨[], [], by simp [registered, settled]⟩
  | append_singleton ops op ih =>
    obtain ⟨D, P, hs⟩ := ih
    rw [registered, foldl_append, ← registered, hs, foldl_cons, foldl_nil]
    cases op with
    | devbus_register_device dev =>
      refine ⟨D ++ [dev], P, (foldl_drivers P _ dev).trans (congrArg _ (funext fun d => ?_))⟩
      by_cases hd : d = dev
      · by_cases hm : dev ∈ D <;> simp [settled, hd, hm]
      · simp [settled, hd]
    | devbus_add_driver drv =>
      refine ⟨D, P ++ [drv], (foldl_devices D _ drv).trans (congrArg _ (funext fun d => ?_))⟩
      by_cases hd : d ∈ D
      · cases hm : isMatch d drv <;> simp [settled, hd, hm, find?_append]
      · simp [settled, hd]

/-- **The bindings are right if and only if the first driver that matches a device probes it
successfully**, for each device. -/
theorem binding_iff (isMatch ok : δ → ρ → Bool) (ops : List (Op δ ρ)) :
    Bound isMatch ok (registered isMatch ops) ↔ ∀ d ∈ (registered isMatch ops).devices, ∀ p,
      (registered isMatch ops).drivers.find? (isMatch d) = some p → ok d p := by
  obtain ⟨D, P, hs⟩ := registered_eq isMatch ops
  rw [hs]
  constructor
  · intro hb d hd p hp
    exact (hb.driver d p ((if_pos hd).trans hp)).2.2
  · intro hok
    have hdriver : ∀ d p, (if d ∈ D then P.find? (isMatch d) else none) = some p →
        p ∈ P ∧ isMatch d p ∧ ok d p := by
      intro d p hp
      split_ifs at hp with hd
      exact ⟨mem_of_find?_eq_some hp, find?_some hp, hok d hd p hp⟩
    refine ⟨fun d (hd : d ∈ D) => ⟨fun hsome => ?_, fun ⟨p, hp, hm, _⟩ => ?_⟩, hdriver, fun d => ?_,
      fun d p _ hf hp => ?_⟩
    · obtain ⟨p, hp⟩ := Option.isSome_iff_exists.1 hsome
      exact ⟨p, hdriver d p hp⟩
    · simp only [settled, if_pos hd, find?_isSome]
      exact ⟨p, hp, hm⟩
    · dsimp only [settled]
      cases if d ∈ D then P.find? (isMatch d) else none <;> simp
    · exact absurd (hdriver d p hp).2.2 (by simp [hf])

/-- The probe of the driver `false` fails: the device stays with it, and the driver `true`, which
would succeed, does not get it. -/
theorem binding_failed_probe : (registered (fun _ _ => true)
      [.devbus_register_device (), .devbus_add_driver false, .devbus_add_driver true]).driver () =
        some false ∧
    ¬Bound (fun _ _ => true) (fun _ p => p) (registered (fun _ _ => true)
      [.devbus_register_device (), .devbus_add_driver false, .devbus_add_driver true]) :=
  ⟨rfl, fun h => absurd (h.driver () false rfl).2.2 (by decide)⟩

end Intewell.Bus
