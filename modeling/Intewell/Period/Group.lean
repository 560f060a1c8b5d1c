/-
# Scheduling groups of periodic tasks

The 32 groups of period_sched_group.c.  A group is found by its name, which is kept in an
array of 32 characters and compared with `strcmp`; it has a list of processes, their number,
and a count of those that have completed the current cycle.

`sched_group_lock` guards the table.  It is a ticket lock, which the same processor cannot
take twice: a second attempt never returns (`none`).  With `TTOS_SPINLOCK_WITH_RECURSION`
(`recursive`) it counts.  The lock of each group is taken and released within one function
and is not modelled, nor are the sums of execution times that a group reports.  Deleting a
process from a list that it is in none of is a fault, and adding one that is in a list
already breaks both lists; both are `none`.
-/

import Mathlib.Data.Fintype.Basic
import Mathlib.Tactic.Ring

namespace Intewell.SchedGroup

open Function List

/-- `CONFIG_TASK_GROUP_NUM`. -/
abbrev Slot := Fin 32

def CONFIG_GROUP_NAME_LEN : ℕ := 32

/-- Of `period_sched_group_t`.  `busy` is its `status`. -/
structure Group (π : Type*) where
  groupId : ℕ
  busy : Bool
  name : List UInt8
  periodTime : ℕ
  remainTime : ℕ
  isStart : Bool
  taskList : List π
  taskNum : ℕ
  taskCompleteCount : ℕ
  groupCompleteCount : ℕ

/-- What `memset` leaves. -/
def Group.zero {π : Type*} : Group π :=
  ⟨0, false, replicate CONFIG_GROUP_NAME_LEN 0, 0, 0, false, [], 0, 0, 0⟩

/-- The table, the lock with the depth it is held at, and whether it was ever taken while
it was held. -/
structure State (π : Type*) where
  groups : Slot → Group π
  schedGroupId : π → ℤ
  periodTime : π → ℕ
  curPeriodGroup : Option Slot
  lock : ℕ
  twice : Bool

variable {π : Type*} [DecidableEq π]

def State.set (s : State π) (i : Slot) (g : Group π) : State π :=
  { s with groups := update s.groups i g }

/-! ## Names -/

/-- The string at the beginning of some bytes of memory. -/
def cString (mem : List UInt8) : Option (List UInt8) :=
  if 0 ∈ mem then some (mem.takeWhile (· ≠ 0)) else none

/-- The bytes that `strcmp` reads: those of the name, and behind it those of the count. -/
def Group.nameBytes (g : Group π) : List UInt8 :=
  g.name ++ (range 4).map fun k => UInt8.ofNat (g.taskCompleteCount / 256 ^ k)

/-- `strncpy` of the string and its end, with at most the length of the array. -/
def Group.copyName (g : Group π) (name : List UInt8) : List UInt8 :=
  let len := min (name.length + 1) CONFIG_GROUP_NAME_LEN
  (name ++ [0]).take len ++ g.name.drop len

def findLoop (s : State π) (name : List UInt8) : List Slot → Option ℤ
  | [] => some (-1)
  | i :: is =>
    if (s.groups i).busy then
      match cString (s.groups i).nameBytes with
      | none => none
      | some n => if n = name then some (s.groups i).groupId else findLoop s name is
    else findLoop s name is

def period_sched_group_find (s : State π) (name : List UInt8) : Option ℤ :=
  findLoop s name (finRange 32)

/-! ## The functions -/

def takeLock (recursive : Bool) (s : State π) : Option (State π) :=
  if s.lock = 0 then some { s with lock := 1 }
  else if recursive then some { s with lock := s.lock + 1, twice := true }
  else none

def releaseLock (s : State π) : State π := { s with lock := s.lock - 1 }

def freeSlot (s : State π) : Option Slot := (finRange 32).find? fun i => !(s.groups i).busy

def period_sched_group_alloc (recursive : Bool) (s : State π) : Option (Option Slot × State π) :=
  (takeLock recursive s).map fun s =>
    match freeSlot s with
    | some i => (some i, releaseLock (s.set i { s.groups i with busy := true }))
    | none => (none, releaseLock s)

/-- The group that is allocated is filled in.  Its id and its counts stay. -/
def fillGroup (i : Slot) (period : ℕ) (name : List UInt8) (s : State π) : State π :=
  s.set i
    { s.groups i with
      periodTime := period
      remainTime := period
      name := (s.groups i).copyName name
      taskList := [] }

def period_sched_group_create (recursive : Bool) (period : ℕ) (name : List UInt8) (s : State π) :
    Option (ℤ × State π) :=
  (takeLock recursive s).bind fun s =>
    (period_sched_group_find s name).bind fun id =>
      if id ≥ 0 then some (id, releaseLock s)
      else
        (period_sched_group_alloc recursive s).map fun r =>
          match r.1 with
          | none => (-1, r.2)
          | some i => ((r.2.groups i).groupId, releaseLock (fillGroup i period name r.2))

/-- The slot of a valid id. -/
def isValid (s : State π) (id : ℤ) : Option Slot :=
  if h : 0 ≤ id ∧ id < 32 then
    let i : Slot := ⟨id.toNat, by omega⟩
    if (s.groups i).busy then some i else none
  else none

/-- The process is in the list of a group. -/
def State.Linked (s : State π) (p : π) : Prop := ∃ i, p ∈ (s.groups i).taskList

instance (s : State π) (p : π) : Decidable (s.Linked p) := inferInstanceAs (Decidable (∃ _, _))

def period_sched_group_add (p : π) (id : ℤ) (s : State π) : Option (ℤ × State π) :=
  match isValid s id with
  | none => some (-1, s)
  | some i =>
    if s.Linked p then none
    else
      some (0, { s.set i
        { s.groups i with
          taskList := (s.groups i).taskList ++ [p]
          taskNum := (s.groups i).taskNum + 1 } with
        schedGroupId := update s.schedGroupId p id })

/-- The number is unsigned. -/
def decrement (n : ℕ) : ℕ := if n = 0 then 2 ^ 32 - 1 else n - 1

/-- The process is deleted from the list that it is in; the number is that of the group.  A
group without processes is cleared altogether. -/
def period_sched_group_remove (p : π) (id : ℤ) (s : State π) : Option (ℤ × State π) :=
  match isValid s id with
  | none => some (-1, s)
  | some i =>
    if s.Linked p then
      let groups := fun j => { s.groups j with taskList := (s.groups j).taskList.erase p }
      let n := decrement (s.groups i).taskNum
      some (0, State.set { s with groups := groups } i
        (if n = 0 then Group.zero else { groups i with taskNum := n }))
    else none

def get_sched_group_by_period (s : State π) (period : ℕ) : Option Slot :=
  (finRange 32).find? fun i =>
    (s.groups i).busy && decide ((s.groups i).periodTime = period)

/-- `period_sched_group_exit`, as far as the groups go.  The group is the first one of the
process' period. -/
def period_sched_group_exit (p : π) (s : State π) : Option (State π) :=
  match get_sched_group_by_period s (s.periodTime p) with
  | none => some s
  | some i => (period_sched_group_remove p (s.groups i).groupId s).map Prod.snd

def period_sched_group_work_complete (p : π) (s : State π) : ℤ × State π :=
  match isValid s (s.schedGroupId p) with
  | none => (-1, s)
  | some i =>
    let g := s.groups i
    if g.taskCompleteCount + 1 = g.taskNum then
      (0, { s.set i
        { g with
          taskCompleteCount := 0
          remainTime := g.periodTime
          isStart := false
          groupCompleteCount := g.groupCompleteCount + 1 } with
        curPeriodGroup := none })
    else (0, s.set i { g with taskCompleteCount := g.taskCompleteCount + 1 })

variable {s : State π} {i : Slot} {id : ℤ} {name : List UInt8}

/-! ## Names and slots -/

theorem cString_append {mem mem' n : List UInt8} (h : n ∈ cString mem) :
    cString (mem ++ mem') = some n := by
  induction mem generalizing n with
  | nil => simp [cString] at h
  | cons x mem ih =>
    by_cases hx : x = 0
    · subst hx
      obtain rfl : n = [] := by simpa [cString] using h.symm
      simp [cString]
    · have hm : ∀ m : List UInt8, cString (x :: m) = (cString m).map (x :: ·) := fun m => by
        by_cases h0 : 0 ∈ m
        · simp [cString, h0, hx]
        · simp [cString, h0, Ne.symm hx]
      rw [hm] at h
      obtain ⟨n', hn', rfl⟩ := Option.map_eq_some_iff.1 h
      rw [cons_append, hm, ih hn', Option.map_some]

theorem cString_of_not_mem (hn : 0 ∉ name) (rest : List UInt8) :
    cString (name ++ 0 :: rest) = some name := by
  rw [cString, if_pos (by simp), takeWhile_append_of_pos]
  · simp
  · intro x hx
    simpa using fun h : x = 0 => hn (h ▸ hx)

section

omit [DecidableEq π]

theorem copyName_eq (g : Group π) (hl : name.length < CONFIG_GROUP_NAME_LEN) :
    g.copyName name = name ++ 0 :: g.name.drop (name.length + 1) := by
  have hmin : min (name.length + 1) CONFIG_GROUP_NAME_LEN = name.length + 1 := Nat.min_eq_left hl
  rw [Group.copyName, hmin, take_of_length_le (by simp), append_assoc]
  rfl

theorem isValid_eq_some : isValid s id = some i ↔ id = (i : ℕ) ∧ (s.groups i).busy = true := by
  simp only [isValid]
  by_cases h : 0 ≤ id ∧ id < 32
  · rw [dif_pos h]
    have key : (⟨id.toNat, by omega⟩ : Slot) = i ↔ id = (i : ℕ) := by
      rw [Fin.ext_iff]
      simp only
      omega
    split_ifs with hb
    · rw [Option.some.injEq, key]
      refine ⟨fun h => ⟨h, ?_⟩, fun h => h.1⟩
      rwa [← key.2 h]
    · simp only [false_iff]
      rintro ⟨h, hb'⟩
      rw [← key.2 h] at hb'
      exact hb hb'
  · rw [dif_neg h]
    simp only [reduceCtorEq, false_iff]
    rintro ⟨rfl, -⟩
    exact h ⟨by omega, by omega⟩

end

end Intewell.SchedGroup
