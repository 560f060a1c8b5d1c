/-
# Task states

The state word of a task (`T_TTOS_TaskState`, ttosUtils.h) is a set of flags, one bit
each: a task may at once be waiting for a resource, be interruptible by a signal and be
suspended.  `TTOS_TASK_BLOCKING`, `TTOS_TASK_WAITING` and `TTOS_TASK_NONRUNNING_STATE` are
the unions that the kernel tests.

`ttosSetTaskReady` and `ttosClearTaskWaiting` are here as far as the task itself goes,
with the order in which tasks enter the ready queues.
-/

import Mathlib.Data.BitVec

namespace Intewell.Sched

/-- A call returns `r`, given enough rounds for its loops. -/
def Returns {α : Type*} (f : ℕ → Option α) (r : α) : Prop := ∃ N, ∀ n, N ≤ n → f n = some r

/-- A call that returns, returns what it does in any large enough number of rounds. -/
theorem Returns.eq {α : Type*} {f : ℕ → Option α} {r r' : α} {n : ℕ} (h : Returns f r)
    (hf : ∀ m, n ≤ m → f m = some r') : r' = r := by
  obtain ⟨M, hM⟩ := h
  have := hM (max M n) (Nat.le_max_left M n)
  rw [hf _ (Nat.le_max_right M n)] at this
  exact Option.some.inj this

abbrev TaskState := BitVec 32

def TTOS_TASK_DORMANT : TaskState := 0x0001
def TTOS_TASK_READY : TaskState := 0x0002
def TTOS_TASK_DELAYING : TaskState := 0x0008
def TTOS_TASK_SUSPEND : TaskState := 0x0010
def TTOS_TASK_WAITING_FOR_FUTEX : TaskState := 0x0040
def TTOS_TASK_PWAITING : TaskState := 0x0080
def TTOS_TASK_CWAITING : TaskState := 0x0100
def TTOS_TASK_WAITING_FOR_EVENT : TaskState := 0x0200
def TTOS_TASK_WAITING_FOR_MSGQ : TaskState := 0x0400
def TTOS_TASK_WAITING_FOR_SEMAPHORE : TaskState := 0x0800
def TTOS_TASK_WAITING_FOR_JOIN_AT_EXIT : TaskState := 0x02000
def TTOS_TASK_WAITING_FOR_SIGNAL : TaskState := 0x04000
def TTOS_TASK_WAITING_FOR_MUTEX : TaskState := 0x08000
def TTOS_TASK_WAITING_FOR_RWLOCK : TaskState := 0x010000
def TTOS_TASK_WAITING_FOR_PROCESS : TaskState := 0x020000
def TTOS_TASK_WAITING_FOR_TASK_EXIT : TaskState := 0x040000
def TTOS_TASK_INTERRUPTIBLE_BY_SIGNAL : TaskState := 0x080000
def TTOS_KTIMER_SLEEP : TaskState := 0x100000
def TTOS_TASK_WAITING_COMPLETION : TaskState := 0x200000
def TTOS_TASK_WAITING_SIGNAL_PENDING : TaskState := 0x400000

def TTOS_TASK_BLOCKING_ON_TASK_QUEUE : TaskState :=
  TTOS_TASK_WAITING_FOR_SEMAPHORE ||| TTOS_TASK_WAITING_FOR_MSGQ |||
  TTOS_TASK_WAITING_FOR_TASK_EXIT ||| TTOS_TASK_WAITING_FOR_SIGNAL |||
  TTOS_TASK_WAITING_FOR_RWLOCK ||| TTOS_TASK_WAITING_FOR_PROCESS |||
  TTOS_TASK_WAITING_SIGNAL_PENDING ||| TTOS_TASK_WAITING_COMPLETION

def TTOS_TASK_BLOCKING : TaskState :=
  TTOS_TASK_BLOCKING_ON_TASK_QUEUE ||| TTOS_TASK_WAITING_FOR_EVENT |||
  TTOS_TASK_WAITING_FOR_TASK_EXIT ||| TTOS_TASK_WAITING_FOR_MUTEX ||| TTOS_TASK_WAITING_FOR_FUTEX

def TTOS_TASK_WAITING : TaskState :=
  TTOS_TASK_DELAYING ||| TTOS_TASK_BLOCKING ||| TTOS_TASK_WAITING_FOR_JOIN_AT_EXIT |||
  TTOS_TASK_INTERRUPTIBLE_BY_SIGNAL ||| TTOS_KTIMER_SLEEP

def TTOS_TASK_NONRUNNING_STATE : TaskState :=
  TTOS_TASK_DORMANT ||| TTOS_TASK_WAITING ||| TTOS_TASK_SUSPEND ||| TTOS_TASK_PWAITING |||
  TTOS_TASK_CWAITING

/-- The codes that a waiting call returns. -/
inductive WaitCode where
  | TTOS_OK | TTOS_TIMEOUT | TTOS_SIGNAL_INTR
deriving DecidableEq, Repr

/-- Of `T_TTOS_TaskControlBlock`: the state word, the code that a waiting call will
return, and the processors that the task is bound to and runs on (`none` for
`CPU_NONE`). -/
structure Tcb where
  state : TaskState
  returnCode : WaitCode
  affinityCpuIndex : Option ℕ
  cpuIndex : Option ℕ

/-- The tasks, and the order in which `ttosSetTaskReady` has put tasks into the ready
queues. -/
structure Tasks (τ : Type*) where
  tcb : τ → Tcb
  readied : List τ

variable {τ : Type*} [DecidableEq τ]

/-- A task that is ready or suspended is left alone.  An unbound task that still runs on
a processor is made ready without being put into a queue. -/
def ttosSetTaskReady (t : τ) (s : Tasks τ) : Tasks τ :=
  if (s.tcb t).state &&& (TTOS_TASK_READY ||| TTOS_TASK_SUSPEND) ≠ 0 then s
  else
    { tcb := Function.update s.tcb t
        { s.tcb t with state := (s.tcb t).state ||| TTOS_TASK_READY }
      readied :=
        if (s.tcb t).affinityCpuIndex ≠ none ∨ (s.tcb t).cpuIndex = none then s.readied ++ [t]
        else s.readied }

def ttosClearTaskWaiting (t : τ) (s : Tasks τ) : Tasks τ :=
  let state := (s.tcb t).state &&& ~~~TTOS_TASK_WAITING
  let s := { s with tcb := Function.update s.tcb t { s.tcb t with state := state } }
  if state &&& TTOS_TASK_NONRUNNING_STATE = 0 then ttosSetTaskReady t s else s

/-- `ttosClearTaskWaiting` puts the task into a ready queue: without the flags of waiting
the state is neither dormant nor suspended nor a wait for the period, and not ready yet,
and the task does not run unbound. -/
def Readies (c : Tcb) : Prop :=
  c.state &&& ~~~TTOS_TASK_WAITING &&& TTOS_TASK_NONRUNNING_STATE = 0 ∧
    c.state &&& ~~~TTOS_TASK_WAITING &&& (TTOS_TASK_READY ||| TTOS_TASK_SUSPEND) = 0 ∧
    (c.affinityCpuIndex ≠ none ∨ c.cpuIndex = none)

instance (c : Tcb) : Decidable (Readies c) := inferInstanceAs (Decidable (_ ∧ _))

variable {s : Tasks τ} {t u : τ}

theorem ttosClearTaskWaiting_tcb_of_ne (h : u ≠ t) :
    (ttosClearTaskWaiting t s).tcb u = s.tcb u := by
  simp only [ttosClearTaskWaiting, ttosSetTaskReady]
  split_ifs <;> simp [h]

theorem ttosClearTaskWaiting_readied (s : Tasks τ) (t : τ) :
    (ttosClearTaskWaiting t s).readied = s.readied ++ if Readies (s.tcb t) then [t] else [] := by
  unfold ttosClearTaskWaiting ttosSetTaskReady
  by_cases h1 : (s.tcb t).state &&& ~~~TTOS_TASK_WAITING &&& TTOS_TASK_NONRUNNING_STATE = 0
  · by_cases h2 : (s.tcb t).state &&& ~~~TTOS_TASK_WAITING &&&
        (TTOS_TASK_READY ||| TTOS_TASK_SUSPEND) = 0
    · by_cases h3 : (s.tcb t).affinityCpuIndex ≠ none ∨ (s.tcb t).cpuIndex = none
      · simp_all [Readies]
      · simp_all [Readies]
    · simp_all [Readies]
  · simp_all [Readies]

end Intewell.Sched
