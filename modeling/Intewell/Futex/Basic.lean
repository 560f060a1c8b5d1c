/-
# Waking and requeueing the waiters of a futex

`futex_wake`, `futex_requeue` and their part of the system call (components/syscall/futex.c).  The
waiters are in the chains of a hash table.  The hash of a key is a variable here: `hash_64` is
called with 0 bits and shifts a word of 64 bits by 64 places, of which C does not say what it is.
Nothing depends on it but that a key has one bucket.

A waiter whose time has run out, or that a signal has woken, is made ready by the tick or the
signal, and takes itself out of its chain only when it runs.  Until then `objCore.objectNode`, by
which the wait queue of the ticks and the ready queues both link a task, is in a ready queue.
-/

import Intewell.Lib.Select
import Intewell.Sched.TickQueue

namespace Intewell.Futex

open Function (update)
open Sched Prod

def FUTEX_HASH_BUCKET : ℕ := 2048

def FUTEX_BITSET_MATCH_ANY : BitVec 32 := 0xffffffff

def EAGAIN : ℤ := 11
def EINVAL : ℤ := 22
def ENOSYS : ℤ := 38

/-- `struct futex_key`. -/
structure Key where
  pid : BitVec 64
  uaddr : BitVec 64
deriving DecidableEq, Repr

/-- Of `struct futex_q`: the task, the key that it waits for, and its bitset. -/
structure Waiter (τ : Type*) where
  task : τ
  key : Key
  bitset : BitVec 32
deriving DecidableEq

/-- The test of `futex_requeue`. -/
def Waiter.On {τ : Type*} (key : Key) (q : Waiter τ) : Prop := q.key = key

/-- The test of `futex_wake`. -/
def Waiter.Matches {τ : Type*} (key : Key) (bitset : BitVec 32) (q : Waiter τ) : Prop :=
  q.key = key ∧ q.bitset &&& bitset ≠ 0

instance {τ : Type*} (key : Key) : DecidablePred (Waiter.On (τ := τ) key) :=
  fun q => inferInstanceAs (Decidable (q.key = key))

instance {τ : Type*} (key : Key) (bitset : BitVec 32) :
    DecidablePred (Waiter.Matches (τ := τ) key bitset) :=
  fun _ => inferInstanceAs (Decidable (_ ∧ _))

abbrev Bucket := Fin FUTEX_HASH_BUCKET

/-- The tasks, the queue of the ticks, the chains of `futex_table`, and the tasks that are linked
in a ready queue. -/
structure State (τ : Type*) extends Manager τ where
  chain : Bucket → List (Waiter τ)

variable {τ : Type*} [DecidableEq τ]

/-- `list_delete` of `objectNode`, as `ttosExactWaitedTask` does it to whatever queue the task is
in. -/
def unlinkNode (t : τ) (m : Manager τ) : Manager τ :=
  if t ∈ m.taskWaitedQueue.map fst then ttosExactWaitedTask t m
  else { m with readied := m.readied.erase t }

/-- What the loops do to a task that they wake. -/
def wakeTask (m : Manager τ) (t : τ) : Manager τ :=
  let c := m.tcb t
  let state := c.state &&& ~~~(TTOS_TASK_INTERRUPTIBLE_BY_SIGNAL ||| TTOS_TASK_WAITING_FOR_FUTEX)
  let m := unlinkNode t { m with tcb := update m.tcb t { c with state := state } }
  { ttosClearTaskWaiting t m.toTasks with taskWaitedQueue := m.taskWaitedQueue }

/-- The loop over a chain that wakes the waiters satisfying `p`; `number` is an `int`, and bounds
them if it is positive.  What is left of the chain, the count, and the tasks. -/
def wakeLoop (p : Waiter τ → Prop) [DecidablePred p] (number : ℤ) :
    List (Waiter τ) → ℕ → Manager τ → List (Waiter τ) × ℕ × Manager τ
  | [], wake_count, m => ([], wake_count, m)
  | q :: l, wake_count, m =>
    if p q then
      if number > 0 ∧ (wake_count + 1 : ℤ) ≥ number then (l, wake_count + 1, wakeTask m q.task)
      else wakeLoop p number l (wake_count + 1) (wakeTask m q.task)
    else
      let r := wakeLoop p number l wake_count m
      (q :: r.1, r.2)

/-- The loop that moves waiters of `key₁` to the tail of the chain of `key₂`.  The chain is `kept`,
which has been passed, and what is ahead; `moved` goes to the chain of `key₂`.  If the chain is the
`same`, a waiter goes behind what is ahead, and will be passed again, unless the next one, which is
looked up before, was the head of the list already. -/
def moveLoop {key₁ key₂ : Key} (hne : key₁ ≠ key₂) (same : Bool) (number : ℤ)
    (kept ahead moved : List (Waiter τ)) (req_cnt : ℕ) : List (Waiter τ) × List (Waiter τ) × ℕ :=
  match ahead with
  | [] => (kept, moved, req_cnt)
  | q :: l =>
    if q.On key₁ then
      let q' := { q with key := key₂ }
      if number > 0 ∧ (req_cnt + 1 : ℤ) ≥ number then
        if same then (kept ++ (l ++ [q']), moved, req_cnt + 1)
        else (kept ++ l, moved ++ [q'], req_cnt + 1)
      else if same then
        match l with
        | [] => (kept ++ [q'], moved, req_cnt + 1)
        | r :: l => moveLoop hne same number kept (r :: l ++ [q']) moved (req_cnt + 1)
      else moveLoop hne same number kept l (moved ++ [q']) (req_cnt + 1)
    else moveLoop hne same number (kept ++ [q]) l moved req_cnt
termination_by (ahead.countP (Waiter.On key₁ ·), ahead.length)
decreasing_by
  · simp_all [lex_iff, List.countP_cons, Waiter.On, Ne.symm hne]
  · simp_all [lex_iff]
  · simp_all [lex_iff]

section

variable (hash : Key → Bucket)

def futex_wake (key : Key) (number : ℤ) (bitset : BitVec 32) (s : State τ) : ℤ × State τ :=
  if bitset = 0 then (-EINVAL, s)
  else
    let r := wakeLoop (Waiter.Matches key bitset) number (s.chain (hash key)) 0 s.toManager
    (r.2.1, { r.2.2 with chain := update s.chain (hash key) r.1 })

def futex_requeue (key₁ key₂ : Key) (num_wake num_requeue : ℤ) (s : State τ) : ℤ × State τ :=
  if h : key₁ = key₂ then (-EINVAL, s)
  else
    let b₁ := hash key₁
    let b₂ := hash key₂
    let r := wakeLoop (Waiter.On key₁) num_wake (s.chain b₁) 0 s.toManager
    let r' := moveLoop h (b₁ = b₂) num_requeue [] r.1 [] 0
    let chain := update s.chain b₁ r'.1
    (r.2.1 + r'.2.2, { r.2.2 with chain := update chain b₂ (chain b₂ ++ r'.2.1) })

/-- The operations of the system call that wake and move waiters without priority inheritance. -/
inductive FutexOp where
  | FUTEX_WAKE | FUTEX_WAKE_BITSET | FUTEX_REQUEUE | FUTEX_CMP_REQUEUE
deriving DecidableEq, Repr

/-- The system call.  `val` and `utime` are passed on as `int`; `word` is what `uaddr` points to,
and `pid` the process of the caller. -/
def futex (op : FutexOp) (isPrivate isRealtime : Bool) (pid uaddr : BitVec 64) (val : BitVec 32)
    (utime uaddr2 : BitVec 64) (val3 word : BitVec 32) (s : State τ) : ℤ × State τ :=
  let pid := if isPrivate then pid else 0
  let key₁ : Key := ⟨pid, uaddr⟩
  let key₂ : Key := ⟨pid, uaddr2⟩
  if uaddr &&& 3 ≠ 0 then (-EINVAL, s)
  else if isRealtime then (-ENOSYS, s)
  else
    match op with
    | .FUTEX_WAKE => futex_wake hash key₁ val.toInt FUTEX_BITSET_MATCH_ANY s
    | .FUTEX_WAKE_BITSET => futex_wake hash key₁ val.toInt val3 s
    | .FUTEX_REQUEUE => futex_requeue hash key₁ key₂ val.toInt (utime.setWidth 32).toInt s
    | .FUTEX_CMP_REQUEUE =>
      if uaddr2 &&& 3 ≠ 0 then (-EINVAL, s)
      else if word = val3 then
        futex_requeue hash key₁ key₂ val.toInt (utime.setWidth 32).toInt s
      else (-EAGAIN, s)

end

end Intewell.Futex
