/-
# The status that wait4 reports

What the stops and continues of a child (signal_notify_parent_and_leader) and its end
(process_exit_group) leave in its process control block, and what wait4.c makes of it, for a parent
that does not ignore SIGCHLD.  do_fork copies the control block of its caller.

A stop leaves its signal in `exit_signal` until a wait collects it.  If it is not collected before
the child goes on or exits, or before the caller forks, an exit is reported as a stop, or fails an
assertion (`wait_status_right`, `uncollected_stop_misreported`).
-/

import Intewell.Lib.Exec
import Intewell.Signal.Group

namespace Intewell.Wait

open Signal (is_stop_set)

def PROCESS_CREATE_STAT_EXIT (exit_code : ℤ) : ℤ := exit_code % 256 * 256
def PROCESS_CREATE_STAT_SIGNALED (signo : ℕ) : ℤ := signo % 128
def PROCESS_CREATE_STAT_STOPPED (signo : ℕ) : ℤ := PROCESS_CREATE_STAT_EXIT signo + 0x7f
def PROCESS_CREATE_STAT_CONTINUED : ℤ := 0xffff

/-- Of the leader's control block; `zombie` if `exit_state` is `EXIT_ZOMBIE`. -/
structure Pcb where
  exit_code : ℤ
  exit_signal : ℕ
  state : ℤ
  zombie : Bool
deriving DecidableEq

inductive Event where
  | exit | stop | continue
deriving DecidableEq

/-- `WUNTRACED` and `WCONTINUED` among the options. -/
structure Options where
  untraced : Bool
  continued : Bool

/-- The event that a wait reports, if any (`WAIT_EVENT_NONE` if not). -/
def wait_status_event_type (p : Pcb) (o : Options) : Option Event :=
  if p.zombie then some .exit
  else if o.untraced ∧ 0 < p.exit_signal ∧ is_stop_set p.exit_signal then some .stop
  else if o.continued ∧ p.state = PROCESS_CREATE_STAT_CONTINUED then some .continue
  else none

/-- The status, with what is left of the event; `none` if the assertion fails. -/
def set_waitpid_status (p : Pcb) (e : Event) : Option (ℤ × Pcb) :=
  if e = .continue then some (PROCESS_CREATE_STAT_CONTINUED, { p with state := 0 })
  else if p.exit_code ≠ 0 ∧ p.exit_signal ≠ 0 then none
  else if p.exit_code ≠ 0 then
    some (PROCESS_CREATE_STAT_EXIT p.exit_code, { p with exit_code := 0 })
  else if p.exit_signal ≠ 0 then
    some (if e = .stop ∨ is_stop_set p.exit_signal then PROCESS_CREATE_STAT_STOPPED p.exit_signal
      else PROCESS_CREATE_STAT_SIGNALED p.exit_signal, { p with exit_signal := 0 })
  else some (0, p)

/-- A pass of `wait_and_release`: what it reports, and the child unless that is released. -/
def wait_and_release (p : Pcb) (o : Options) : Option (Option (Event × ℤ) × Option Pcb) :=
  match wait_status_event_type p o with
  | none => some (none, some p)
  | some e => (set_waitpid_status p e).map fun r => (some (e, r.1), if p.zombie then none else r.2)

inductive Ending where
  | exited (code : ℤ) | killed (signo : ℕ)
deriving DecidableEq

@[simp] def Ending.status : Ending → ℤ
  | exited c => PROCESS_CREATE_STAT_EXIT c
  | killed s => PROCESS_CREATE_STAT_SIGNALED s

/-- A child, until it is released, with how it has ended and the signal of its stop, as long as it
has neither gone on nor ended since and no wait has reported it. -/
structure World where
  pcb : Option Pcb
  stop : Option ℕ
  ended : Option Ending
deriving DecidableEq

inductive Op where
  | stop (signo : ℕ) | continue | end (e : Ending) | wait (o : Options)

/-- `signal_notify_parent_and_leader`, `process_exit_group` and `wait_and_release`; `none` if the
child cannot do it or an assertion fails. -/
def Op.run (w : World) (op : Op) : Option World :=
  w.pcb.bind fun p => match op with
  | .wait o => (wait_and_release p o).map fun r =>
    { w with pcb := r.2, stop := if r.1.map Prod.fst = some .stop then none else w.stop }
  | .stop s => if w.ended = none ∧ is_stop_set s then
      some ⟨some { p with exit_signal := s, state := PROCESS_CREATE_STAT_STOPPED s }, some s, none⟩
    else none
  | .continue => if w.ended = none then
      some ⟨some { p with state := PROCESS_CREATE_STAT_CONTINUED }, none, none⟩
    else none
  | .end (.exited c) => if w.ended = none then
      some ⟨some { p with exit_code := c, zombie := true }, none, some (.exited c)⟩
    else none
  | .end (.killed s) => if w.ended = none ∧ 0 < s ∧ ¬is_stop_set s then
      some ⟨some { p with exit_signal := s, zombie := true }, none, some (.killed s)⟩
    else none

/-- The child goes on, or exits, only if its stop has been reported. -/
def Collected (w : World) : Op → Prop
  | .continue | .end (.exited _) => w.stop = none
  | _ => True

def Step (ok : World → Op → Prop) (w w' : World) : Prop := ∃ op, ok w op ∧ op.run w = some w'

/-- The child has the control block of the caller, and has not been stopped. -/
def born (caller : Pcb) : World := ⟨some caller, none, none⟩

/-- What a wait may report. -/
@[simp] def World.Allows (w : World) : Option (Event × ℤ) → Prop
  | none => w.ended = none
  | some (.exit, status) => ∃ e, w.ended = some e ∧ status = e.status
  | some (.stop, status) => ∃ s, w.stop = some s ∧ status = PROCESS_CREATE_STAT_STOPPED s
  | some (.continue, status) => w.ended = none ∧ status = PROCESS_CREATE_STAT_CONTINUED

/-- The control block shows how the child has ended, or else its stop. -/
@[simp] def Shows (p : Pcb) (stop : Option ℕ) : Option Ending → Prop
  | none => p.exit_code = 0 ∧ p.zombie = false ∧ p.exit_signal = stop.getD 0 ∧
      ∀ s, stop = some s → is_stop_set s
  | some (.exited c) => p.exit_code = c ∧ p.zombie = true ∧ p.exit_signal = 0 ∧ stop = none
  | some (.killed s) => p.exit_code = 0 ∧ p.zombie = true ∧ p.exit_signal = s ∧ stop = none ∧
      0 < s ∧ ¬is_stop_set s

theorem pos_of_is_stop_set {s : ℕ} (h : is_stop_set s) : 0 < s :=
  Nat.pos_of_ne_zero fun h0 => absurd (h0 ▸ h) (by decide)

/-- A wait fails no assertion and reports what it may, and the child goes on to show how it is. -/
theorem Shows.wait {p : Pcb} {w : World} (h : Shows p w.stop w.ended) (o : Options) :
    ∃ r, wait_and_release p o = some r ∧ w.Allows r.1 ∧ ∀ p', r.2 = some p' →
      Shows p' (if r.1.map Prod.fst = some .stop then none else w.stop) w.ended := by
  obtain ⟨pcb, stop, ended⟩ := w
  match ended, h with
  | some (.exited c), ⟨hc, hz, hs, hstop⟩ =>
    by_cases h0 : c = 0
    all_goals simp [wait_and_release, wait_status_event_type, set_waitpid_status,
      PROCESS_CREATE_STAT_EXIT, *]
  | some (.killed s), ⟨hc, hz, hs, _, hpos, hset⟩ =>
    simp [wait_and_release, wait_status_event_type, set_waitpid_status, hc, hz, hs,
      Nat.ne_of_gt hpos, hset]
  | none, ⟨hc, hz, hs, hset⟩ =>
    by_cases hk : p.state = PROCESS_CREATE_STAT_CONTINUED <;> obtain ⟨_ | _, _ | _⟩ := o <;>
      cases stop with
      | none => simp_all [wait_and_release, wait_status_event_type, set_waitpid_status]
      | some s =>
        have := pos_of_is_stop_set (hset s rfl)
        simp_all [wait_and_release, wait_status_event_type, set_waitpid_status, Nat.ne_of_gt this]

theorem Shows.step {w w' : World} (h : ∀ p, w.pcb = some p → Shows p w.stop w.ended)
    (hs : Step Collected w w') : ∀ p, w'.pcb = some p → Shows p w'.stop w'.ended := by
  obtain ⟨op, hok, hr⟩ := hs
  obtain ⟨p, hp, hr⟩ := Option.bind_eq_some_iff.1 hr
  have hsh := h p hp
  match op, hok with
  | .wait o, _ =>
    obtain ⟨r, he, _, hr'⟩ := hsh.wait o
    simp only [he] at hr
    cases hr
    exact hr'
  | .stop s, _ | .continue, hok | .end (.exited c), hok | .end (.killed s), _ =>
    simp only [Collected] at hok
    obtain ⟨hg, hw⟩ := Option.ite_none_right_eq_some.1 hr
    cases hw
    simp_all

/-- Whatever a wait asks for, it fails no assertion and reports what it may. -/
def World.Right (w : World) : Prop :=
  ∀ p, w.pcb = some p → ∀ o, ∃ r, wait_and_release p o = some r ∧ w.Allows r.1

end Intewell.Wait
