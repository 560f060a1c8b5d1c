/-
# Kernel timers

`kernel/time/ktimer.c`, `ktimer_run.c` and what `ktimer_interrupt` (`ktimer_cpu.c`) calls of them.
Each CPU has four bases with a queue each; a timer carries the base that it has been started on.
The lock is the interrupt lock of one CPU, so that the sections of two CPUs are ordered in any
way.  A section is one step, but for the dispatch of expired timers, in which the handlers run:
there every test and every handler is a step of its own, and a handler may start and cancel
timers.

What a cancellation reads without the lock are steps of their own too.  Left out is the time that
the next interrupt is set for (`next_deadline`, `next_expiring`): an interrupt may come at any
time.
-/

import Intewell.Ktimer.Queue
import Intewell.Lib.Exec
import Intewell.Lib.Update

namespace Intewell.Ktimer

open Function (update)
open ColorTree

def KTIME_MAX : ℤ := 2 ^ 63 - 1

/-- The sum as a `u64`, read as a `ktime_t`; where that has gone wrong `ktime_set` makes it
`KTIME_MAX`. -/
def ktime_add_safe (kt1 kt2 : ℤ) : ℤ :=
  let time := (kt1 + kt2).bmod (2 ^ 64)
  if time < 0 ∨ time < kt1 ∨ time < kt2 then KTIME_MAX else time

inductive ClockId where
  | realtime | monotonic | boottime | tai | other
deriving DecidableEq, Repr

/-- `enum ktimer_base_type` -/
inductive BaseType where
  | monotonic | realtime | boottime | tai
deriving DecidableEq, Repr

/-- The next one that `ktimer_dispatch_expired_timers` comes to. -/
def BaseType.next : BaseType → Option BaseType
  | .monotonic => some .realtime
  | .realtime => some .boottime
  | .boottime => some .tai
  | .tai => none

def ktimer_clock_id_to_base_type : ClockId → BaseType
  | .realtime => .realtime
  | .monotonic => .monotonic
  | .boottime => .boottime
  | .tai => .tai
  | .other => .monotonic

inductive Mode where
  | abs | rel
deriving DecidableEq, Repr

/-- `KTIMER_INACTIVE` and `KTIMER_ENQUEUED`. -/
inductive State where
  | inactive | enqueued
deriving DecidableEq, Repr

/-- `struct ktimer`; `linked` is what `ktimerqueue_entry_is_linked` says of its node. -/
structure Timer (κ : Type*) where
  expires : ℤ
  linked : Bool
  base : κ × BaseType
  state : State
  clock_id : ClockId

/-- `struct ktimer_clock_base`, and its bit of `active_mask`. -/
structure Base (τ : Type*) where
  queue : Queue τ
  running_timer : Option τ
  time_offset : ℤ
  active : Bool

/-- Where the dispatch on a CPU is: before the test of a bit, in the loop over one base, or in a
handler. -/
inductive Irq (τ : Type*) where
  | idle
  | scan (type : BaseType) (now : ℤ)
  | loop (type : BaseType) (now : ℤ)
  | handler (type : BaseType) (now : ℤ) (timer : τ)
deriving DecidableEq

/-- Where a call of `ktimer_cancel` is: before it reads the state of the timer or the running
timer of its base, before it takes the base, before it compares the CPUs, before the locked
section, before it sends a request to the other CPU, and waiting for that. -/
inductive Call (κ τ : Type*) where
  | none
  | state (t : τ)
  | running (t : τ)
  | base (t : τ)
  | compare (t : τ) (base : κ × BaseType)
  | locked (c : κ) (t : τ) (base : κ × BaseType)
  | send (t : τ)
  | remote (c : κ) (t : τ)
deriving DecidableEq

/-- Of the history: a timer is put into a queue by `ktimer_start` or after its handler, with its
expiry; its handler runs, at a time of its base; a `ktimer_cancel` of it returns 0. -/
inductive Event (τ : Type*) where
  | started (t : τ) (expires : ℤ)
  | requeued (t : τ) (expires : ℤ)
  | ran (t : τ) (now : ℤ)
  | cancelled (t : τ)
deriving DecidableEq

def Event.timer {τ : Type*} : Event τ → τ
  | started t _ => t
  | requeued t _ => t
  | ran t _ => t
  | cancelled t => t

/-- The timers and the bases; of the history the last event first, and where and when a timer was
put into a queue last. -/
structure World (κ τ ι : Type*) where
  timer : τ → Timer κ
  base : κ × BaseType → Base τ
  irq : κ → Irq τ
  call : ι → Call κ τ
  log : List (Event τ)
  home : τ → κ × BaseType
  stamp : τ → ℕ

/-- After `ktimer_sys_init` on every CPU and `ktimer_init` of each timer, on some CPU. -/
def World.init {κ τ ι : Type*} (cpu : τ → κ) (clock_id : τ → ClockId) : World κ τ ι where
  timer t :=
    { expires := 0
      linked := false
      base := (cpu t, ktimer_clock_id_to_base_type (clock_id t))
      state := .inactive
      clock_id := clock_id t }
  base _ := { queue := .empty, running_timer := none, time_offset := 0, active := false }
  irq _ := .idle
  call _ := .none
  log := []
  home t := (cpu t, ktimer_clock_id_to_base_type (clock_id t))
  stamp _ := 0

variable {κ τ ι : Type*} [DecidableEq κ] [DecidableEq τ] [DecidableEq ι]

namespace World

def setTimer (w : World κ τ ι) (t : τ) (x : Timer κ) : World κ τ ι :=
  { w with timer := update w.timer t x }

def setBase (w : World κ τ ι) (b : κ × BaseType) (x : Base τ) : World κ τ ι :=
  { w with base := update w.base b x }

def setIrq (w : World κ τ ι) (c : κ) (x : Irq τ) : World κ τ ι := { w with irq := update w.irq c x }

def setCall (w : World κ τ ι) (i : ι) (x : Call κ τ) : World κ τ ι :=
  { w with call := update w.call i x }

def record (w : World κ τ ι) (e : Event τ) : World κ τ ι := { w with log := e :: w.log }

def expires (w : World κ τ ι) (t : τ) : ℤ := (w.timer t).expires

end World

/-- `ktimer_callback_is_running` -/
def ktimer_callback_is_running (w : World κ τ ι) (t : τ) : Prop :=
  (w.base (w.timer t).base).running_timer = some t

instance (w : World κ τ ι) (t : τ) : Decidable (ktimer_callback_is_running w t) :=
  inferInstanceAs (Decidable (_ = _))

/-- `rb_erase` and the pointer, given the root of the queue `q` and an entry that may be in another
tree, `other`.  An entry that is alone in its tree has no parent, so that `rb_erase` takes the root
that it is given for the place of the node; otherwise nothing is said here of what comes of it.
(The two trees have the entry in common from then on.) -/
def eraseThrough (entry : τ) (q other : Queue τ) : Option (Queue τ) :=
  if entry ∈ q.entries then ktimerqueue_del entry q
  else if other.entries = [entry] then
    some { tree := .nil, earliest := if q.earliest = some entry then none else q.earliest }
  else none

/-- `ktimerqueue_del` with its test. -/
def del (w : World κ τ ι) (b : κ × BaseType) (t : τ) : Option (Queue τ) :=
  if (w.timer t).linked = true then
    eraseThrough t (w.base b).queue (w.base (w.home t)).queue
  else some (w.base b).queue

/-- `_ktimer_remove` with the new state `KTIMER_INACTIVE`. -/
def _ktimer_remove (t : τ) (b : κ × BaseType) (w : World κ τ ι) : Option (World κ τ ι) :=
  if (w.timer t).state = .enqueued then
    (del w b t).map fun q =>
      (w.setTimer t { w.timer t with state := .inactive, linked := false }).setBase b
        { w.base b with
          queue := q
          active := if q.earliest = none then false else (w.base b).active }
  else some (w.setTimer t { w.timer t with state := .inactive })

def ktimer_dequeue_timer (t : τ) (b : κ × BaseType) (w : World κ τ ι) : Option (World κ τ ι) :=
  if (w.timer t).state = .enqueued then _ktimer_remove t b w else some w

def ktimer_queue_timer (t : τ) (b : κ × BaseType) (w : World κ τ ι) : Option (World κ τ ι) :=
  (ktimerqueue_add w.expires t (w.base b).queue).map fun q =>
    { (w.setTimer t { w.timer t with state := .enqueued, linked := true }).setBase b
        { w.base b with queue := q, active := true } with
      home := update w.home t b
      stamp := update w.stamp t w.log.length }

/-- `ktimer_start` on the CPU `c`, at the time `now` of the base. -/
def ktimer_start (c : κ) (t : τ) (time : ℤ) (mode : Mode) (now : ℤ) (w : World κ τ ι) :
    Option (World κ τ ι) :=
  let base := (c, ktimer_clock_id_to_base_type (w.timer t).clock_id)
  let expires := if mode = .rel then ktime_add_safe time now else time
  (ktimer_dequeue_timer t base (w.setTimer t { w.timer t with base := base })).bind fun w =>
    (ktimer_queue_timer t base (w.setTimer t { w.timer t with expires := expires })).map fun w =>
      w.record (.started t expires)

/-! ## Dispatch -/

/-- `ktimer_interrupt` up to the dispatch; `offset` are the offsets of the clocks now. -/
def ktimer_interrupt (c : κ) (now : ℤ) (offset : BaseType → ℤ) (w : World κ τ ι) : World κ τ ι :=
  { w.setIrq c (.scan .monotonic now) with
    base := fun b =>
      if b.1 = c then { w.base b with time_offset := offset b.2 } else w.base b }

/-- The dispatch goes on to the next base, or ends. -/
def nextBase (type : BaseType) (now : ℤ) : Irq τ :=
  match type.next with
  | some type' => .scan type' now
  | none => .idle

/-- `ktimer_handler_run` up to the call of the handler. -/
def handlerBegin (c : κ) (type : BaseType) (now : ℤ) (t : τ) (w : World κ τ ι) :
    Option (World κ τ ι) :=
  (_ktimer_remove t (c, type)
      (w.setBase (c, type) { w.base (c, type) with running_timer := some t })).map fun w' =>
    (w'.setIrq c (.handler type now t)).record (.ran t (now + (w.base (c, type)).time_offset))

/-- The dispatch up to the next test or the next handler. -/
def dispatch (c : κ) (w : World κ τ ι) : Option (World κ τ ι) :=
  match w.irq c with
  | .idle => none
  | .handler _ _ _ => none
  | .scan type now =>
    some (w.setIrq c (if (w.base (c, type)).active then .loop type now else nextBase type now))
  | .loop type now =>
    match (w.base (c, type)).queue.earliest with
    | none => some (w.setIrq c (nextBase type now))
    | some t =>
      if now + (w.base (c, type)).time_offset < w.expires t then
        some (w.setIrq c (nextBase type now))
      else handlerBegin c type now t w

/-- The end of `ktimer_handler_run`: the base has no running timer any more. -/
def handlerLeave (c : κ) (type : BaseType) (now : ℤ) (w : World κ τ ι) : World κ τ ι :=
  (w.setBase (c, type) { w.base (c, type) with running_timer := none }).setIrq c (.loop type now)

/-- `ktimer_handler_run` after the handler has returned: `KTIMER_NORESTART`, or `KTIMER_RESTART`
with the expiry that it has moved the timer on to (`ktimer_forward`, which leaves a timer alone
that is in a queue). -/
def handlerEnd (c : κ) (restart : Option ℤ) (w : World κ τ ι) : Option (World κ τ ι) :=
  match w.irq c with
  | .handler type now t =>
    match restart with
    | none => some (handlerLeave c type now w)
    | some expires =>
      if (w.timer t).state = .enqueued then some (handlerLeave c type now w)
      else
        (ktimer_queue_timer t (c, type) (w.setTimer t { w.timer t with expires := expires })).map
          fun w => (handlerLeave c type now w).record (.requeued t expires)
  | _ => none

/-! ## Cancellation -/

/-- `ktimer_cancel` up to the loop; `-EBUSY` in the handler of the timer. -/
def ktimer_cancel (i : ι) (c : κ) (t : τ) (w : World κ τ ι) : World κ τ ι :=
  if (w.timer t).base.1 = c ∧ ktimer_callback_is_running w t then w
  else w.setCall i (.state t)

/-- The call returns 0. -/
def cancelled (i : ι) (t : τ) (w : World κ τ ι) : World κ τ ι :=
  (w.setCall i .none).record (.cancelled t)

/-- The next read or section of a cancellation.  `c` is the CPU that the caller is on: it stays
there from the comparison on. -/
def cancelStep (i : ι) (c : κ) (w : World κ τ ι) : Option (World κ τ ι) :=
  match w.call i with
  | .none => none
  -- `ktimer_is_active`
  | .state t =>
    some (w.setCall i (if (w.timer t).state = .enqueued then .base t else .running t))
  | .running t =>
    some (if ktimer_callback_is_running w t then w.setCall i (.base t) else cancelled i t w)
  -- `ktimer_try_to_cancel`
  | .base t => some (w.setCall i (.compare t (w.timer t).base))
  | .compare t base =>
    some (w.setCall i (if (w.timer t).base.1 = c then .locked c t base else .send t))
  -- `ktimer_try_to_cancel_local`
  | .locked _ t base =>
    if ktimer_callback_is_running w t then some (w.setCall i (.state t))
    else (ktimer_dequeue_timer t base w).map (cancelled i t)
  -- `ktimer_try_to_cancel_remote`
  | .send t => some (w.setCall i (.remote (w.timer t).base.1 t))
  -- `ktimer_cancel_remote_cb`
  | .remote c' t =>
    if (w.timer t).base.1 ≠ c' then some (w.setCall i (.state t))
    else if ktimer_callback_is_running w t then some (w.setCall i (.state t))
    else (ktimer_dequeue_timer t (w.timer t).base w).map (cancelled i t)

/-! ## Runs -/

inductive Op (κ τ ι : Type*) where
  | start (c : κ) (t : τ) (time : ℤ) (mode : Mode) (now : ℤ)
  | interrupt (c : κ) (now : ℤ) (offset : BaseType → ℤ)
  | dispatch (c : κ)
  | handlerEnd (c : κ) (restart : Option ℤ)
  | cancel (i : ι) (c : κ) (t : τ)
  | cancelStep (i : ι) (c : κ)

def Op.run (w : World κ τ ι) : Op κ τ ι → Option (World κ τ ι)
  | .start c t time mode now => ktimer_start c t time mode now w
  | .interrupt c now offset => some (ktimer_interrupt c now offset w)
  | .dispatch c => Ktimer.dispatch c w
  | .handlerEnd c restart => Ktimer.handlerEnd c restart w
  | .cancel i c t => some (ktimer_cancel i c t w)
  | .cancelStep i c => Ktimer.cancelStep i c w

/-- Nothing else runs on a CPU between two handlers of a dispatch. -/
def Irq.free : Irq τ → Prop
  | .idle => True
  | .handler _ _ _ => True
  | .scan _ _ => False
  | .loop _ _ => False

instance : (x : Irq τ) → Decidable x.free
  | .idle => .isTrue trivial
  | .handler _ _ _ => .isTrue trivial
  | .scan _ _ => .isFalse id
  | .loop _ _ => .isFalse id

/-- A cancellation goes on where it is: in its section on its own CPU, or on the one that it has
sent the request to, which is not in an interrupt then. -/
def Call.Ready (w : World κ τ ι) (c : κ) : Call κ τ → Prop
  | .locked c' _ _ => c = c' ∧ (w.irq c).free
  | .remote c' _ => w.irq c' = .idle
  | _ => (w.irq c).free

instance (w : World κ τ ι) (c : κ) : (x : Call κ τ) → Decidable (x.Ready w c)
  | .locked _ _ _ => inferInstanceAs (Decidable (_ ∧ _))
  | .remote _ _ => inferInstanceAs (Decidable (_ = _))
  | .none | .state _ | .running _ | .base _ | .compare _ _ | .send _ =>
    inferInstanceAs (Decidable (Irq.free _))

def Op.Possible (w : World κ τ ι) : Op κ τ ι → Prop
  | .start c _ _ _ _ => (w.irq c).free
  | .interrupt c _ _ => w.irq c = .idle
  | .dispatch _ => True
  | .handlerEnd _ _ => True
  | .cancel i c _ => w.call i = .none ∧ (w.irq c).free
  | .cancelStep i c => (w.call i).Ready w c

instance (w : World κ τ ι) : (o : Op κ τ ι) → Decidable (o.Possible w)
  | .start _ _ _ _ _ => inferInstanceAs (Decidable (Irq.free _))
  | .interrupt _ _ _ => inferInstanceAs (Decidable (_ = _))
  | .dispatch _ => .isTrue trivial
  | .handlerEnd _ _ => .isTrue trivial
  | .cancel _ _ _ => inferInstanceAs (Decidable (_ ∧ _))
  | .cancelStep i c => inferInstanceAs (Decidable ((w.call i).Ready w c))

inductive Step (ok : World κ τ ι → Op κ τ ι → Prop) : World κ τ ι → World κ τ ι → Prop
  | mk {w w' : World κ τ ι} {o : Op κ τ ι} (hp : o.Possible w) (hok : ok w o)
      (h : o.run w = some w') : Step ok w w'

/-- Steps computed from a list of operations. -/
def next (ok : World κ τ ι → Op κ τ ι → Prop) [∀ w o, Decidable (ok w o)] (w : World κ τ ι)
    (o : Op κ τ ι) : Option (World κ τ ι) := if o.Possible w ∧ ok w o then o.run w else none

theorem step_of_next (ok : World κ τ ι → Op κ τ ι → Prop) [∀ w o, Decidable (ok w o)]
    (w : World κ τ ι) (o : Op κ τ ι) (w' : World κ τ ι) (h : next ok w o = some w') :
    Step ok w w' := by
  unfold next at h
  split_ifs at h with hp
  exact .mk hp.1 hp.2 h

end Intewell.Ktimer
