/-
# A ring with many producers and one consumer

`components/common/mpscq.c`: `mpscq_enqueue` with `mpscq_alloc` and `mpscq_push`, and
`mpscq_dequeue` with `mpscq_peek` and `mpscq_pop`.  A step is one atomic read, write or
compare-and-swap of a counter, or the copy of one element; the point a call has reached is its
`Pc`.  Both sides may find the ring empty and move the three counters on to where the buffer
begins again, in three compare-and-swaps (`mpscq_try_normalize_empty`).

The counters are `uintptr_t`; a cell of the buffer holds one element, whatever its stride.
-/

import Intewell.Lib.Circular
import Intewell.Lib.Exec
import Mathlib.Tactic.Ring

namespace Intewell.Mpscq

open Nat
open Function (update)

/-- `a - b` of two `uintptr_t`. -/
def subPtr (a b : ℕ) : ℕ := (a + 2 ^ 64 - b) % 2 ^ 64

/-- `a + b` of two `uintptr_t`. -/
def addPtr (a b : ℕ) : ℕ := (a + b) % 2 ^ 64

theorem subPtr_eq {a b : ℕ} (h : b ≤ a) (ha : a < 2 ^ 64) : subPtr a b = a - b := by
  unfold subPtr
  omega

theorem addPtr_eq {a b : ℕ} (h : a + b < 2 ^ 64) : addPtr a b = a + b := mod_eq_of_lt h

/-- `mpscq_t`; `mpscq_init` makes `size` a power of two up to `MPSCQ_POW2_MAX_U32`. -/
structure Ring (α : Type*) where
  bits : Fin 32
  reserve_tail : ℕ
  commit_tail : ℕ
  head : ℕ
  data : ℕ → α

variable {θ α : Type*}

namespace Ring

def size (r : Ring α) : ℕ := 2 ^ (r.bits : ℕ)

def mask (r : Ring α) : ℕ := r.size - 1

/-- `(uint32_t) seq & r->mask` -/
def idx (r : Ring α) (seq : ℕ) : ℕ := (seq % 2 ^ 32) &&& r.mask

/-- Where the buffer begins again after `seq`. -/
def base (r : Ring α) (seq : ℕ) : ℕ := addPtr seq (r.size - r.idx seq)

theorem size_pos (r : Ring α) : 0 < r.size := Nat.two_pow_pos _

theorem size_le (r : Ring α) : r.size ≤ 2 ^ 31 :=
  Nat.pow_le_pow_right (by decide) (Nat.lt_succ_iff.1 r.bits.isLt)

theorem idx_eq (r : Ring α) (seq : ℕ) : r.idx seq = seq % r.size := by
  have hdvd : r.size ∣ 2 ^ 32 := pow_dvd_pow 2 r.bits.isLt.le
  unfold idx mask size at *
  rw [and_two_pow_sub_one_eq_mod, mod_mod_of_dvd _ hdvd]

theorem base_eq (r : Ring α) {seq : ℕ} (h : seq < 2 ^ 63) :
    r.base seq = Circular.up r.size seq := by
  have hsize := r.size_le
  unfold base Circular.up
  rw [idx_eq, addPtr_eq (by omega)]

end Ring

/-- `idx + n > r->size`, in 32 bits. -/
def mpscq_cross_boundary (r : Ring α) (idx n : ℕ) : Prop := r.size < (idx + n) % 2 ^ 32

instance (r : Ring α) (idx n : ℕ) : Decidable (mpscq_cross_boundary r idx n) :=
  inferInstanceAs (Decidable (_ < _))

theorem cross_boundary_iff {r : Ring α} {seq n : ℕ} (h : n ≤ r.size) :
    mpscq_cross_boundary r (r.idx seq) n ↔ r.size < seq % r.size + n := by
  have hlt := mod_lt seq r.size_pos
  have hsize := r.size_le
  unfold mpscq_cross_boundary
  rw [Ring.idx_eq, mod_eq_of_lt (by omega)]

/-! ## The re-base of an empty ring -/

/-- The next access of `mpscq_try_normalize_empty`. -/
inductive Stage where
  | commit | reserve | casReserve | casCommit | casHead
deriving DecidableEq, Repr

/-- What one access of it leads to: the next one, or its return. -/
inductive Result where
  | at (s : Stage)
  | ret (normalized : Bool)
deriving DecidableEq, Repr

/-- The compare-and-swap of a counter, where nobody looks at how it ends. -/
def cas (x old new : ℕ) : ℕ := if x = old then new else x

/-- Up to the first access. -/
def enter (r : Ring α) (seq : ℕ) : Result := if r.idx seq = 0 then .ret false else .at .commit

def mpscq_try_normalize_empty (r : Ring α) (seq : ℕ) : Stage → Ring α × Result
  | .commit => (r, if r.commit_tail ≠ seq then .ret false else .at .reserve)
  | .reserve =>
    (r, if r.reserve_tail ≠ seq then .ret false
      else if r.base seq ≤ seq then .ret false
      else .at .casReserve)
  | .casReserve =>
    if r.reserve_tail = seq then ({ r with reserve_tail := r.base seq }, .at .casCommit)
    else (r, .ret false)
  | .casCommit => ({ r with commit_tail := cas r.commit_tail seq (r.base seq) }, .at .casHead)
  | .casHead => ({ r with head := cas r.head seq (r.base seq) }, .ret true)

theorem size_normalize (r : Ring α) (seq : ℕ) (s : Stage) :
    (mpscq_try_normalize_empty r seq s).1.size = r.size := by
  cases s with
  | commit | reserve | casCommit | casHead => rfl
  | casReserve =>
    unfold mpscq_try_normalize_empty
    split_ifs <;> rfl

/-! ## Producers and the consumer -/

/-- The next access of a call of `mpscq_enqueue` with `data`; `idle` has what the last call
returned.  From `copy` on the slots from `tok` on are the call's own. -/
inductive Pc (α : Type*) where
  | idle (code : ℤ)
  | head (data : List α)
  | reserve (data : List α) (head : ℕ)
  | empty (data : List α) (old : ℕ)
  | rebase (data : List α) (seq : ℕ) (s : Stage)
  | cas (data : List α) (old : ℕ)
  | copy (data : List α) (tok i : ℕ)
  | spin (data : List α) (tok : ℕ)
  | publish (data : List α) (tok : ℕ)
deriving DecidableEq

/-- The next access of a call of `mpscq_dequeue` for `k` elements. -/
inductive Consumer (α : Type*) where
  | idle (code : ℤ)
  | tail (k head : ℕ)
  | copy (k head : ℕ) (out : List α)
  | popTail (new_head : ℕ)
  | rebase (seq : ℕ) (s : Stage)
deriving DecidableEq

/-- The ring and who uses it; and of the history, what has been enqueued with success, with its
token, what has been dequeued with success, and the positions at which a re-base has moved
`commit_tail` on. -/
structure World (θ α : Type*) where
  ring : Ring α
  pc : θ → Pc α
  consumer : Consumer α
  sent : List (ℕ × List α)
  got : List α
  skipped : List ℕ

/-- After `mpscq_init`; nothing is known about the buffer. -/
def World.init (bits : Fin 32) (data : ℕ → α) : World θ α where
  ring := { bits, reserve_tail := 0, commit_tail := 0, head := 0, data }
  pc _ := .idle 0
  consumer := .idle 0
  sent := []
  got := []
  skipped := []

variable [DecidableEq θ]

def World.goto (w : World θ α) (p : θ) (pc : Pc α) : World θ α := { w with pc := update w.pc p pc }

/-- The positions after the access `s` of a re-base at `seq`. -/
def World.skip (w : World θ α) (seq : ℕ) : Stage → List ℕ
  | .casCommit => if w.ring.commit_tail = seq then seq :: w.skipped else w.skipped
  | _ => w.skipped

/-- `mpscq_alloc` after `mpscq_try_normalize_empty` or within it. -/
def Result.toPc (data : List α) (seq : ℕ) : Result → Pc α
  | .at s => .rebase data seq s
  | .ret true => .head data
  | .ret false => .idle (-1)

/-- `mpscq_pop` and with it `mpscq_dequeue`. -/
def Result.toConsumer (seq : ℕ) : Result → Consumer α
  | .at s => .rebase seq s
  | .ret _ => .idle 0

/-- `mpscq_enqueue` up to its first access. -/
def mpscq_enqueue (p : θ) (data : List α) (w : World θ α) : World θ α :=
  if data.length = 0 ∨ w.ring.size < data.length then w.goto p (.idle (-1))
  else w.goto p (.head data)

/-- What `mpscq_alloc` does once it has read both counters. -/
def allocate (r : Ring α) (data : List α) (head old : ℕ) : Pc α :=
  if r.size < addPtr (subPtr old head) data.length then .idle (-1)
  else if mpscq_cross_boundary r (r.idx old) data.length then
    if subPtr old head = 0 then .empty data old else .idle (-1)
  else .cas data old

/-- The first checks of `mpscq_push`. -/
def mpscq_push (r : Ring α) (data : List α) (tok : ℕ) : Pc α :=
  if 2 ^ 64 - 1 - data.length < tok then .idle (-1)
  else if r.reserve_tail < addPtr tok data.length then .idle (-1)
  else .spin data tok

/-- One access of the call that `p` is in. -/
def produce (p : θ) (w : World θ α) : World θ α :=
  match w.pc p with
  | .idle _ => w
  | .head data => w.goto p (.reserve data w.ring.head)
  | .reserve data head => w.goto p (allocate w.ring data head w.ring.reserve_tail)
  | .empty data old =>
    w.goto p (if w.ring.commit_tail = old then (enter w.ring old).toPc data old else .idle (-1))
  | .rebase data seq s =>
    { w with
      ring := (mpscq_try_normalize_empty w.ring seq s).1
      pc := update w.pc p ((mpscq_try_normalize_empty w.ring seq s).2.toPc data seq)
      skipped := w.skip seq s }
  | .cas data old =>
    if w.ring.reserve_tail = old then
      { w with
        ring := { w.ring with reserve_tail := addPtr old data.length }
        pc := update w.pc p (.copy data old 0) }
    else w.goto p (.head data)
  | .copy data tok i =>
    match data[i]? with
    | some x =>
      { w with
        ring := { w.ring with data := update w.ring.data (w.ring.idx tok + i) x }
        pc := update w.pc p (.copy data tok (i + 1)) }
    | none => w.goto p (mpscq_push w.ring data tok)
  | .spin data tok =>
    if w.ring.commit_tail = tok then w.goto p (.publish data tok)
    else if tok < w.ring.commit_tail then w.goto p (.idle (-1))
    else w
  | .publish data tok =>
    { w with
      ring := { w.ring with commit_tail := addPtr tok data.length }
      pc := update w.pc p (.idle 0)
      sent := w.sent ++ [(tok, data)] }

/-- `mpscq_dequeue` up to the read of `head` in `mpscq_peek`. -/
def mpscq_dequeue (k : ℕ) (w : World θ α) : World θ α :=
  { w with consumer := if k = 0 then .idle (-1) else .tail k w.ring.head }

/-- `mpscq_peek` gives out the slots: there are `k` elements, and they do not cross the end. -/
def mpscq_peek (r : Ring α) (k head : ℕ) : Prop :=
  ¬ subPtr r.commit_tail head < k ∧ ¬ mpscq_cross_boundary r (r.idx head) k

instance (r : Ring α) (k head : ℕ) : Decidable (mpscq_peek r k head) :=
  inferInstanceAs (Decidable (_ ∧ _))

/-- One access of the call that the consumer is in. -/
def consume (w : World θ α) : World θ α :=
  match w.consumer with
  | .idle _ => w
  | .tail k head =>
    { w with consumer := if mpscq_peek w.ring k head then .copy k head [] else .idle (-1) }
  | .copy k head out =>
    if out.length < k then
      { w with
        consumer := .copy k head (out ++ [w.ring.data (w.ring.idx head + out.length)]) }
    else
      { w with
        ring := { w.ring with head := addPtr w.ring.head k }
        consumer := .popTail (addPtr w.ring.head k)
        got := w.got ++ out }
  | .popTail new_head =>
    { w with
      consumer :=
        if w.ring.commit_tail = new_head then (enter w.ring new_head).toConsumer new_head
        else .idle 0 }
  | .rebase seq s =>
    { w with
      ring := (mpscq_try_normalize_empty w.ring seq s).1
      consumer := (mpscq_try_normalize_empty w.ring seq s).2.toConsumer seq
      skipped := w.skip seq s }

/-! ## Runs -/

inductive Op (θ α : Type*) where
  | enqueue (p : θ) (data : List α)
  | produce (p : θ)
  | dequeue (k : ℕ)
  | consume

def Op.run (w : World θ α) : Op θ α → World θ α
  | .enqueue p data => mpscq_enqueue p data w
  | .produce p => Mpscq.produce p w
  | .dequeue k => mpscq_dequeue k w
  | .consume => Mpscq.consume w

def Pc.isIdle : Pc α → Bool
  | .idle _ => true
  | _ => false

def Consumer.isIdle : Consumer α → Bool
  | .idle _ => true
  | _ => false

/-- Nobody is in two calls at once, the lengths are `uint32_t`, and less than `2 ^ 63` slots are
used in total. -/
def Op.Possible (w : World θ α) (o : Op θ α) : Prop :=
  (o.run w).ring.reserve_tail < 2 ^ 63 ∧
    match o with
    | .enqueue p data => (w.pc p).isIdle = true ∧ data.length < 2 ^ 32
    | .produce p => (w.pc p).isIdle = false
    | .dequeue k => w.consumer.isIdle = true ∧ k < 2 ^ 32
    | .consume => w.consumer.isIdle = false

instance (w : World θ α) (o : Op θ α) : Decidable (o.Possible w) :=
  match o with
  | .enqueue _ _ => inferInstanceAs (Decidable (_ ∧ _ ∧ _))
  | .produce _ => inferInstanceAs (Decidable (_ ∧ _))
  | .dequeue _ => inferInstanceAs (Decidable (_ ∧ _ ∧ _))
  | .consume => inferInstanceAs (Decidable (_ ∧ _))

inductive Step (ok : World θ α → Op θ α → Prop) : World θ α → World θ α → Prop
  | mk {w : World θ α} {o : Op θ α} (hp : o.Possible w) (hok : ok w o) : Step ok w (o.run w)

/-- Steps computed from a list of operations. -/
def next (ok : World θ α → Op θ α → Prop) [∀ w o, Decidable (ok w o)] (w : World θ α)
    (o : Op θ α) : Option (World θ α) := if o.Possible w ∧ ok w o then some (o.run w) else none

theorem step_of_next (ok : World θ α → Op θ α → Prop) [∀ w o, Decidable (ok w o)]
    (w : World θ α) (o : Op θ α) (w' : World θ α) (h : next ok w o = some w') : Step ok w w' := by
  unfold next at h
  split_ifs at h with hp
  cases h
  exact .mk hp.1 hp.2

end Intewell.Mpscq
