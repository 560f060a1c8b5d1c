/-
# Runs of the scheduling groups

Any sequence of calls of the functions of period_sched_group.c.  As long as names fit, a
process is in one group, completes a cycle once and leaves a group only while the cycle of
the group stays open without it, a group is the one that its name was registered under, its
number and its count are those of its processes, and its cycle ends with the last of them.

A group that loses its last process is cleared with its id, so that only the first group of
the table may; and `period_sched_group_create` of a name that is not registered takes the lock
of the table twice.
-/

import Intewell.Lib.Exec
import Intewell.Period.Group

namespace Intewell.SchedGroup

open Relation Option List Function Prod

variable {π : Type*}

/-! ## Runs -/

section

variable [DecidableEq π]

inductive Op (π : Type*) where
  | create (period : ℕ) (name : List UInt8)
  | add (p : π) (id : ℤ)
  | remove (p : π) (id : ℤ)
  | complete (p : π)
  | exit (p : π)

/-- What a call returns (0 for the calls that return nothing), and the table after it. -/
def Op.run (recursive : Bool) (s : State π) : Op π → Option (ℤ × State π)
  | create period name => period_sched_group_create recursive period name s
  | add p id => period_sched_group_add p id s
  | remove p id => period_sched_group_remove p id s
  | complete p => some (period_sched_group_work_complete p s)
  | exit p => (period_sched_group_exit p s).map (0, ·)

/-- The table; beside it the names that groups were created under, the processes that have
completed the current cycle of their group, and whether a name was new to a call of
`period_sched_group_create`. -/
structure World (π : Type*) where
  st : State π
  name : Slot → Option (List UInt8)
  done : π → Bool
  newName : Bool

/-- The name of a group that the call has created, and of none that it has cleared. -/
def namesAfter (s s' : State π) (name : Slot → Option (List UInt8)) (new : List UInt8) (i : Slot) :
    Option (List UInt8) :=
  if (s'.groups i).busy then if (s.groups i).busy then name i else some new else none

/-- Every process of the group has completed the cycle. -/
def AllDone (s : State π) (done : π → Bool) (i : Slot) : Prop :=
  ∀ q ∈ (s.groups i).taskList, done q = true

instance (s : State π) (done : π → Bool) (i : Slot) : Decidable (AllDone s done i) :=
  inferInstanceAs (Decidable (∀ _ ∈ _, _))

/-- A process completes its work; when all of its group have, a new cycle begins. -/
def doneAfter (s : State π) (done : π → Bool) (p : π) (q : π) : Bool :=
  match isValid s (s.schedGroupId p) with
  | none => done q
  | some i =>
    if AllDone s (update done p true) i ∧ q ∈ (s.groups i).taskList then false
    else update done p true q

/-- The world after a call that has left the table `s'`. -/
def Op.after (w : World π) (s' : State π) : Op π → World π
  | create _ name =>
    { w with
      st := s'
      name := namesAfter w.st s' w.name name
      newName := w.newName || decide (∀ i, w.name i ≠ some name) }
  | add p id =>
    { w with
      st := s'
      done := if (isValid w.st id).isSome then update w.done p false else w.done }
  | complete p => { w with st := s', done := doneAfter w.st w.done p }
  | remove _ _ => { w with st := s', name := namesAfter w.st s' w.name [] }
  | exit _ => { w with st := s', name := namesAfter w.st s' w.name [] }

/-- A process may leave a group: it is one of the group's and has not completed the cycle;
another has not either, or there is no other and the group is the first of the table. -/
def MayLeave (w : World π) (p : π) (i : Slot) : Prop :=
  p ∈ (w.st.groups i).taskList ∧ w.done p = false ∧
    ((∃ q ∈ (w.st.groups i).taskList, q ≠ p ∧ w.done q = false) ∨
      (w.st.groups i).taskList = [p] ∧ i = 0)

/-- **The condition on a run.** -/
def Op.Careful (w : World π) : Op π → Prop
  | create _ name => name.length < CONFIG_GROUP_NAME_LEN
  | add p id => ∀ i, isValid w.st id = some i → ¬w.st.Linked p
  | remove p id => ∀ i, isValid w.st id = some i → MayLeave w p i
  | complete p => ∀ i, isValid w.st (w.st.schedGroupId p) = some i →
      p ∈ (w.st.groups i).taskList ∧ w.done p = false
  | exit p => ∀ i, get_sched_group_by_period w.st (w.st.periodTime p) = some i → MayLeave w p i

/-- A string has no character 0. -/
def Op.Possible : Op π → Prop
  | create _ name => 0 ∉ name
  | _ => True

inductive Step (recursive : Bool) (ok : World π → Op π → Prop) : World π → World π → Prop
  | call (w : World π) (op : Op π) (r : ℤ) (s' : State π) (hp : op.Possible) (hok : ok w op)
    (h : op.run recursive w.st = some (r, s')) : Step recursive ok w (op.after w s')

end

/-! ## The invariant -/

/-- A group that is in use. -/
structure Used (w : World π) (i : Slot) : Prop where
  name : ∃ n, w.name i = some n ∧ 0 ∉ n ∧ n ∈ cString (w.st.groups i).name
  taskNum : (w.st.groups i).taskNum = (w.st.groups i).taskList.length
  count : (w.st.groups i).taskCompleteCount =
    ((w.st.groups i).taskList.filter fun p => w.done p).length
  unfinished : (w.st.groups i).taskList ≠ [] → ∃ p ∈ (w.st.groups i).taskList, w.done p = false
  nodup : (w.st.groups i).taskList.Nodup
  own : ∀ p ∈ (w.st.groups i).taskList, w.st.schedGroupId p = (i : ℕ)

/-- A group that is not. -/
structure Unused (w : World π) (i : Slot) : Prop where
  name : w.name i = none
  taskNum : (w.st.groups i).taskNum = 0
  count : (w.st.groups i).taskCompleteCount = 0
  taskList : (w.st.groups i).taskList = []

structure Table (w : World π) : Prop where
  id : ∀ i, (w.st.groups i).groupId = i
  size : ∀ i, (w.st.groups i).name.length = CONFIG_GROUP_NAME_LEN
  used : ∀ i, (w.st.groups i).busy = true → Used w i
  unused : ∀ i, (w.st.groups i).busy = false → Unused w i
  inj : ∀ i j n, w.name i = some n → w.name j = some n → i = j

variable {w w' : World π} {s s' : State π} {i j : Slot} {p q : π} {id : ℤ} {name : List UInt8}

/-! ## Names and slots -/

section
variable (hw : Table w)
include hw

theorem Table.eq_of_mem (hi : p ∈ (w.st.groups i).taskList)
    (hj : p ∈ (w.st.groups j).taskList) : i = j := by
  have used {k : Slot} (hk : p ∈ (w.st.groups k).taskList) : Used w k := by
    rcases hb : (w.st.groups k).busy with _ | _
    · rw [(hw.unused k hb).taskList] at hk
      cases hk
    · exact hw.used k hb
  have h := ((used hi).own p hi).symm.trans ((used hj).own p hj)
  exact Fin.ext (by exact_mod_cast h)

theorem Table.busy_of_mem (hi : p ∈ (w.st.groups i).taskList) : (w.st.groups i).busy = true := by
  rcases hb : (w.st.groups i).busy with _ | _
  · rw [(hw.unused i hb).taskList] at hi
    cases hi
  · rfl

theorem Table.busy_of_name {n : List UInt8} (hn : w.name i = some n) :
    (w.st.groups i).busy = true := by
  rcases hb : (w.st.groups i).busy with _ | _
  · rw [(hw.unused i hb).name] at hn
    cases hn
  · rfl

theorem Table.nameBytes {n : List UInt8} (hn : w.name i = some n) :
    cString (w.st.groups i).nameBytes = some n := by
  obtain ⟨n', hn', -, hc⟩ := (hw.used i (hw.busy_of_name hn)).name
  obtain rfl : n = n' := some.inj (hn.symm.trans hn')
  exact cString_append hc

/-- **A group is found by the name it was created under.** -/
theorem findLoop_spec (name : List UInt8) (is : List Slot) :
    (∃ i, w.name i = some name ∧ findLoop w.st name is = some (i : ℕ)) ∨
      (∀ i ∈ is, w.name i ≠ some name) ∧ findLoop w.st name is = some (-1) := by
  induction is with
  | nil => exact .inr ⟨fun _ h => (not_mem_nil h).elim, rfl⟩
  | cons i is ih =>
    rcases hb : (w.st.groups i).busy with _ | _
    · have hrec : findLoop w.st name (i :: is) = findLoop w.st name is := by
        simp [findLoop, hb]
      rw [hrec]
      refine ih.imp id fun h => ⟨fun j hj => ?_, h.2⟩
      rcases mem_cons.1 hj with rfl | hj
      · simp [(hw.unused j hb).name]
      · exact h.1 j hj
    · obtain ⟨n, hn, -⟩ := (hw.used i hb).name
      by_cases he : n = name
      · subst he
        exact .inl ⟨i, hn, by simp [findLoop, hb, hw.nameBytes hn, hw.id i]⟩
      · have hrec : findLoop w.st name (i :: is) = findLoop w.st name is := by
          simp [findLoop, hb, hw.nameBytes hn, he]
        rw [hrec]
        refine ih.imp id fun h => ⟨fun j hj => ?_, h.2⟩
        rcases mem_cons.1 hj with rfl | hj
        · simpa [hn] using he
        · exact h.1 j hj

end

/-! ## What a call leaves alone -/

theorem Used.congr (h : Used w j) (hg : w'.st.groups j = w.st.groups j)
    (hn : w'.name j = w.name j) (hd : ∀ p ∈ (w.st.groups j).taskList, w'.done p = w.done p)
    (ho : ∀ p ∈ (w.st.groups j).taskList, w'.st.schedGroupId p = w.st.schedGroupId p) :
    Used w' j where
  name := by
    rw [hg, hn]
    exact h.name
  taskNum := by
    rw [hg]
    exact h.taskNum
  count := by
    rw [hg, filter_congr hd]
    exact h.count
  unfinished hl := by
    rw [hg] at hl ⊢
    obtain ⟨p, hp, hpd⟩ := h.unfinished hl
    exact ⟨p, hp, (hd p hp).trans hpd⟩
  nodup := by
    rw [hg]
    exact h.nodup
  own p hp := by
    rw [hg] at hp
    exact (ho p hp).trans (h.own p hp)

theorem Unused.congr (h : Unused w j) (hg : w'.st.groups j = w.st.groups j)
    (hn : w'.name j = w.name j) : Unused w' j :=
  ⟨hn.trans h.name, hg ▸ h.taskNum, hg ▸ h.count, hg ▸ h.taskList⟩

/-- A call that changes one group, with what is to be shown of that group. -/
structure Change (w w' : World π) (i : Slot) : Prop where
  groups : ∀ j, j ≠ i → w'.st.groups j = w.st.groups j
  names : ∀ j, j ≠ i → w'.name j = w.name j
  done : ∀ j, j ≠ i → ∀ p ∈ (w.st.groups j).taskList, w'.done p = w.done p
  own : ∀ j, j ≠ i → ∀ p ∈ (w.st.groups j).taskList, w'.st.schedGroupId p = w.st.schedGroupId p
  id : (w'.st.groups i).groupId = i
  size : (w'.st.groups i).name.length = CONFIG_GROUP_NAME_LEN
  used : (w'.st.groups i).busy = true → Used w' i
  unused : (w'.st.groups i).busy = false → Unused w' i
  inj : ∀ n, w'.name i = some n → ∀ j, j ≠ i → w.name j ≠ some n

theorem Table.change (hw : Table w) (hc : Change w w' i) : Table w' where
  id j := by
    by_cases hj : j = i
    · exact hj ▸ hc.id
    · rw [hc.groups j hj, hw.id j]
  size j := by
    by_cases hj : j = i
    · exact hj ▸ hc.size
    · rw [hc.groups j hj, hw.size j]
  used j hb := by
    by_cases hj : j = i
    · subst hj
      exact hc.used hb
    · rw [hc.groups j hj] at hb
      exact (hw.used j hb).congr (hc.groups j hj) (hc.names j hj) (hc.done j hj) (hc.own j hj)
  unused j hb := by
    by_cases hj : j = i
    · subst hj
      exact hc.unused hb
    · rw [hc.groups j hj] at hb
      exact (hw.unused j hb).congr (hc.groups j hj) (hc.names j hj)
  inj j k n hj hk := by
    by_cases hji : j = i <;> by_cases hki : k = i
    · rw [hji, hki]
    · subst hji
      rw [hc.names k hki] at hk
      exact (hc.inj n hj k hki hk).elim
    · subst hki
      rw [hc.names j hji] at hj
      exact (hc.inj n hk j hji hj).elim
    · rw [hc.names j hji] at hj
      rw [hc.names k hki] at hk
      exact hw.inj j k n hj hk

theorem Table.change_tasks (hw : Table w) (hg : ∀ j, j ≠ i → w'.st.groups j = w.st.groups j)
    (hd : ∀ j, j ≠ i → ∀ p ∈ (w.st.groups j).taskList, w'.done p = w.done p)
    (ho : ∀ j, j ≠ i → ∀ p ∈ (w.st.groups j).taskList, w'.st.schedGroupId p = w.st.schedGroupId p)
    (hn : w'.name = w.name) (hid : (w'.st.groups i).groupId = (w.st.groups i).groupId)
    (hm : (w'.st.groups i).name = (w.st.groups i).name)
    (hb : (w'.st.groups i).busy = true) (hu : Used w' i) : Table w' := by
  refine hw.change ⟨hg, fun j _ => congrFun hn j, hd, ho, ?_, ?_, fun _ => hu, fun h => ?_, ?_⟩
  · rw [hid, hw.id]
  · rw [hm, hw.size]
  · rw [hb] at h
    cases h
  · intro n hi j hj hj'
    rw [hn] at hi
    exact hj (hw.inj j i n hj' hi)

theorem Table.congr (hw : Table w) (hg : w'.st.groups = w.st.groups) (hn : w'.name = w.name)
    (hd : w'.done = w.done) (ho : w'.st.schedGroupId = w.st.schedGroupId) : Table w' := by
  refine hw.change (i := 0) ⟨?_, ?_, ?_, ?_, ?_, ?_, fun hb => ?_, fun hb => ?_, fun n h j hj hj' =>
    ?_⟩
  · exact fun j _ => congrFun hg j
  · exact fun j _ => congrFun hn j
  · exact fun _ _ p _ => congrFun hd p
  · exact fun _ _ p _ => congrFun ho p
  · rw [hg, hw.id]
  · rw [hg, hw.size]
  · rw [hg] at hb
    exact (hw.used 0 hb).congr (congrFun hg 0) (congrFun hn 0) (fun p _ => congrFun hd p)
      fun p _ => congrFun ho p
  · rw [hg] at hb
    exact (hw.unused 0 hb).congr (congrFun hg 0) (congrFun hn 0)
  · rw [hn] at h
    exact hj (hw.inj j 0 n hj' h)

theorem Table.names_kept (hw : Table w) (hg : s'.groups j = w.st.groups j) (new : List UInt8) :
    namesAfter w.st s' w.name new j = w.name j := by
  rw [namesAfter, hg]
  rcases hb : (w.st.groups j).busy with _ | _
  · simp [(hw.unused j hb).name]
  · simp

/-! ## The calls -/

theorem takeLock_eq {recursive : Bool} (h : takeLock recursive s = some s') :
    s' = { s with lock := s.lock + 1, twice := s.twice || decide (s.lock ≠ 0) } := by
  rw [takeLock] at h
  split_ifs at h with h0 hr
  · cases h
    simp [h0]
  · cases h
    simp [h0]

theorem alloc_cases {recursive : Bool} {o : Option Slot}
    (h : period_sched_group_alloc recursive s = some (o, s')) : s'.schedGroupId = s.schedGroupId ∧
      (o = none ∧ (∀ i, (s.groups i).busy = true) ∧ s'.groups = s.groups ∨
        ∃ i, o = some i ∧ (s.groups i).busy = false ∧
          s'.groups = update s.groups i { s.groups i with busy := true }) := by
  rw [period_sched_group_alloc] at h
  obtain ⟨s1, h1, h⟩ := map_eq_some_iff.1 h
  have hg : s1.groups = s.groups := by rw [takeLock_eq h1]
  have ho : s1.schedGroupId = s.schedGroupId := by rw [takeLock_eq h1]
  rcases hf : freeSlot s1 with _ | i
  · rw [hf] at h
    cases h
    refine ⟨ho, .inl ⟨rfl, fun i => ?_, hg⟩⟩
    simpa [hg] using find?_eq_none.1 hf i (mem_finRange i)
  · rw [hf] at h
    cases h
    refine ⟨ho, .inr ⟨i, rfl, by simpa [hg] using find?_some hf, ?_⟩⟩
    simp only [releaseLock, State.set, hg]

/-- The three ways through `period_sched_group_create`. -/
inductive Create (w : World π) (period : ℕ) (name : List UInt8) : ℤ → State π → Prop
  | found (i : Slot) (hi : w.name i = some name) (s' : State π)
    (hs : s' = { w.st with twice := w.st.twice || decide (w.st.lock ≠ 0) }) :
    Create w period name (i : ℕ) s'
  | full (hn : ∀ i, w.name i ≠ some name) (hf : ∀ i, (w.st.groups i).busy = true)
    (s' : State π) (hg : s'.groups = w.st.groups) (ho : s'.schedGroupId = w.st.schedGroupId) :
    Create w period name (-1) s'
  | new (hn : ∀ i, w.name i ≠ some name) (i : Slot) (hi : (w.st.groups i).busy = false)
    (s' : State π)
    (hg : s'.groups = update w.st.groups i
      { w.st.groups i with
        busy := true
        periodTime := period
        remainTime := period
        name := (w.st.groups i).copyName name
        taskList := [] })
    (ho : s'.schedGroupId = w.st.schedGroupId) : Create w period name (i : ℕ) s'

theorem create_cases (hw : Table w) {recursive : Bool} {period : ℕ} {r : ℤ}
    (h : period_sched_group_create recursive period name w.st = some (r, s')) :
    Create w period name r s' := by
  rw [period_sched_group_create] at h
  obtain ⟨s1, h1, h⟩ := bind_eq_some_iff.1 h
  obtain rfl := takeLock_eq h1
  set s1 : State π :=
    { w.st with lock := w.st.lock + 1, twice := w.st.twice || decide (w.st.lock ≠ 0) } with hs1
  have hw1 : Table { w with st := s1 } := hw.congr rfl rfl rfl rfl
  obtain ⟨id, hid, h⟩ := bind_eq_some_iff.1 h
  rcases findLoop_spec hw1 name (finRange 32) with ⟨i, hi, hf⟩ | ⟨hn, hf⟩
  · obtain rfl : ((i : ℕ) : ℤ) = id := some.inj (hf.symm.trans hid)
    rw [if_pos (by omega), some.injEq, mk.injEq] at h
    obtain ⟨rfl, rfl⟩ := h
    exact .found (w := w) i hi _ rfl
  · obtain rfl : -1 = id := some.inj (hf.symm.trans hid)
    rw [if_neg (by omega)] at h
    replace hn : ∀ i, w.name i ≠ some name := fun i => hn i (mem_finRange i)
    obtain ⟨⟨o, s2⟩, h2, h⟩ := map_eq_some_iff.1 h
    obtain ⟨ho, ⟨rfl, hbusy, hg⟩ | ⟨i, rfl, hfree, hg⟩⟩ := alloc_cases h2
    · cases h
      exact .full hn hbusy _ hg ho
    · cases h
      have hi : s2.groups i = { w.st.groups i with busy := true } := by
        rw [hg, update_self]
      have hr : ((s2.groups i).groupId : ℤ) = (i : ℕ) := by
        rw [hi, hw.id i]
      simp only [hr]
      refine .new hn i hfree _ ?_ ho
      simp only [releaseLock, fillGroup, State.set, hi, hg, update_idem]
      rfl

variable [DecidableEq π]

theorem Table.create (hw : Table w) {recursive : Bool} {period : ℕ} {r : ℤ}
    (hp : (Op.create (π := π) period name).Possible) (hc : (Op.create period name).Careful w)
    (h : period_sched_group_create recursive period name w.st = some (r, s')) :
    Table ((Op.create period name).after w s') := by
  have keep (hg : s'.groups = w.st.groups) (ho : s'.schedGroupId = w.st.schedGroupId) :
      Table ((Op.create period name).after w s') :=
    hw.congr hg (funext fun j => hw.names_kept (congrFun hg j) name) rfl ho
  cases create_cases hw h with
  | found i hi s' hs => exact keep (by rw [hs]) (by rw [hs])
  | full hn hf s' hg ho => exact keep hg ho
  | new hn i hi s' hg ho =>
    have hu := hw.unused i hi
    have hself := congrFun hg i
    rw [update_self] at hself
    have hother (j : Slot) (hj : j ≠ i) : s'.groups j = w.st.groups j := by
      rw [hg, update_of_ne hj]
    have hname : namesAfter w.st s' w.name name i = some name := by
      simp [namesAfter, hself, hi]
    refine hw.change ⟨hother, fun j hj => hw.names_kept (hother j hj) name,
      fun _ _ _ _ => rfl, fun _ _ p _ => congrFun ho p, ?_, ?_, fun _ => ?_, fun hb => ?_, ?_⟩
    · exact (congrArg Group.groupId hself).trans (hw.id i)
    · refine (congrArg (length ∘ Group.name) hself).trans ?_
      simp only [comp, Group.copyName, length_append, length_take,
        length_drop, hw.size i, length_cons, length_nil]
      omega
    · refine ⟨⟨name, hname, hp, ?_⟩, ?_, ?_, ?_, ?_, ?_⟩ <;> simp only [Op.after, hself]
      · rw [copyName_eq _ hc]
        exact cString_of_not_mem hp _
      · exact hu.taskNum
      · exact hu.count
      · exact fun h => (h rfl).elim
      · exact nodup_nil
      · exact fun _ h => (not_mem_nil h).elim
    · simp [Op.after, hself] at hb
    · intro n hn' j _ hj
      obtain rfl : name = n := some.inj (hname.symm.trans hn')
      exact hn j hj

theorem Table.add (hw : Table w) {r : ℤ} (hc : (Op.add p id).Careful w)
    (h : period_sched_group_add p id w.st = some (r, s')) : Table ((Op.add p id).after w s') := by
  rw [period_sched_group_add] at h
  rcases hv : isValid w.st id with _ | i
  · rw [hv] at h
    cases h
    exact hw.congr rfl rfl (by simp [Op.after, hv]) rfl
  · obtain ⟨rfl, hb⟩ := isValid_eq_some.1 hv
    have hl := hc i hv
    have hpj (j : Slot) : p ∉ (w.st.groups j).taskList := fun hp => hl ⟨j, hp⟩
    have hu := hw.used i hb
    simp only [hv, if_neg hl] at h
    cases h
    have hne {j : Slot} {q : π} (hq : q ∈ (w.st.groups j).taskList) : q ≠ p :=
      fun h => hpj j (h ▸ hq)
    rw [Op.after, hv, isSome_some, if_pos rfl]
    refine hw.change_tasks (fun j hj => update_of_ne hj _ _)
      (fun j _ q hq => update_of_ne (hne hq) _ _) (fun j _ q hq => update_of_ne (hne hq) _ _)
      rfl ?_ ?_ ?_ ⟨?_, ?_, ?_, fun _ => ?_, ?_, fun q hq => ?_⟩
    all_goals simp only [State.set, update_self] at *
    · exact hb
    · exact hu.name
    · rw [hu.taskNum, length_append, length_singleton]
    · have hf : (w.st.groups i).taskList.filter (update w.done p false)
          = (w.st.groups i).taskList.filter fun q => w.done q :=
        filter_congr fun q hq => update_of_ne (hne hq) _ _
      rw [filter_append, hf, hu.count]
      simp
    · exact ⟨p, by simp, update_self _ _ _⟩
    · exact hu.nodup.append (nodup_singleton p) (by simpa using hpj i)
    · rcases mem_append.1 hq with hq | hq
      · rw [update_of_ne (hne hq), hu.own q hq]
      · rw [mem_singleton.1 hq, update_self]

theorem filter_done {l : List π} {done : π → Bool} (hl : l.Nodup) (hp : p ∈ l)
    (hd : done p = false) :
    (l.filter fun q => update done p true q).length = (l.filter fun q => done q).length + 1 := by
  induction l with
  | nil => cases hp
  | cons q l ih =>
    obtain ⟨hq, hl⟩ := nodup_cons.1 hl
    rcases mem_cons.1 hp with rfl | hp
    · have hrest : (l.filter (update done p true)) = l.filter fun r => done r :=
        filter_congr fun r hr => update_of_ne (fun h : r = p => hq (h ▸ hr)) _ _
      simp [hrest, hd]
    · have hqp : q ≠ p := fun h => hq (h ▸ hp)
      rw [filter_cons, filter_cons, update_of_ne hqp]
      split_ifs
      · rw [length_cons, length_cons, ih hl hp]
      · exact ih hl hp

theorem Used.last_iff (hu : Used w i) (hp : p ∈ (w.st.groups i).taskList) (hd : w.done p = false) :
    (w.st.groups i).taskCompleteCount + 1 = (w.st.groups i).taskNum ↔
      AllDone w.st (update w.done p true) i := by
  rw [hu.taskNum, hu.count, ← filter_done hu.nodup hp hd, length_filter_eq_length_iff]
  rfl

section
variable (hw : Table w)
include hw

theorem Table.complete (hc : (Op.complete p).Careful w) :
    Table ((Op.complete p).after w (period_sched_group_work_complete p w.st).2) := by
  rcases hv : isValid w.st (w.st.schedGroupId p) with _ | i
  · refine hw.congr ?_ rfl ?_ ?_
    · simp [Op.after, period_sched_group_work_complete, hv]
    · exact funext fun q => by simp [Op.after, doneAfter, hv]
    · simp [Op.after, period_sched_group_work_complete, hv]
  · obtain ⟨-, hb⟩ := isValid_eq_some.1 hv
    obtain ⟨hp, hd⟩ := hc i hv
    have hu := hw.used i hb
    have hother (j : Slot) (hj : j ≠ i) (q : π) (hq : q ∈ (w.st.groups j).taskList) :
        doneAfter w.st w.done p q = w.done q := by
      have hqi : q ∉ (w.st.groups i).taskList := fun h => hj (hw.eq_of_mem hq h)
      simp only [doneAfter, hv, hqi, and_false, if_false]
      exact update_of_ne (fun h : q = p => hqi (h ▸ hp)) _ _
    by_cases hl : (w.st.groups i).taskCompleteCount + 1 = (w.st.groups i).taskNum
    · have hall := (hu.last_iff hp hd).1 hl
      have hnone (q : π) (hq : q ∈ (w.st.groups i).taskList) :
          doneAfter w.st w.done p q = false := by
        simp only [doneAfter, hv, hall, hq, and_self, if_true]
      simp only [period_sched_group_work_complete, hv, if_pos hl]
      refine hw.change_tasks (fun j hj => update_of_ne hj _ _) hother
        (fun _ _ _ _ => rfl) rfl ?_ ?_ ?_ ⟨?_, ?_, ?_, fun _ => ?_, ?_, ?_⟩
      all_goals simp only [Op.after, State.set, update_self]
      · exact hb
      · exact hu.name
      · exact hu.taskNum
      · rw [filter_congr hnone]
        simp
      · exact ⟨p, hp, hnone p hp⟩
      · exact hu.nodup
      · exact hu.own
    · have hall := mt (hu.last_iff hp hd).2 hl
      have hdone : doneAfter w.st w.done p = update w.done p true := funext fun q => by
        simp only [doneAfter, hv, hall, false_and, if_false]
      simp only [period_sched_group_work_complete, hv, if_neg hl]
      refine hw.change_tasks (fun j hj => update_of_ne hj _ _) hother
        (fun _ _ _ _ => rfl) rfl ?_ ?_ ?_ ⟨?_, ?_, ?_, fun _ => ?_, ?_, ?_⟩
      all_goals simp only [Op.after, State.set, update_self, hdone]
      · exact hb
      · exact hu.name
      · exact hu.taskNum
      · rw [filter_done hu.nodup hp hd, hu.count]
      · simpa [AllDone] using hall
      · exact hu.nodup
      · exact hu.own

theorem Table.leave (hb : (w.st.groups i).busy = true) (hm : MayLeave w p i)
    (hg : ∀ j, j ≠ i → w'.st.groups j = w.st.groups j) (hn : w'.name = w.name)
    (hd : w'.done = w.done) (ho : w'.st.schedGroupId = w.st.schedGroupId) (hi : w'.st.groups i =
      { w.st.groups i with
        taskList := (w.st.groups i).taskList.erase p
        taskNum := (w.st.groups i).taskNum - 1 })
    (h1 : (w.st.groups i).taskNum ≠ 1) : Table w' := by
  obtain ⟨hp, hpd, ⟨q, hq, hqp, hqd⟩ | ⟨hl, -⟩⟩ := hm
  · have hu := hw.used i hb
    refine hw.change_tasks hg (fun _ _ _ _ => congrFun hd _) (fun _ _ _ _ => congrFun ho _) hn
      ?_ ?_ ?_ ⟨?_, ?_, ?_, fun _ => ?_, ?_, fun r hr => ?_⟩
    all_goals simp only [hi, hn, hd, ho] at *
    · exact hb
    · exact hu.name
    · rw [length_erase_of_mem hp, hu.taskNum]
    · rw [hu.count, ← erase_filter, erase_of_not_mem]
      simp [hpd]
    · exact ⟨q, (mem_erase_of_ne hqp).2 hq, hqd⟩
    · exact hu.nodup.erase p
    · exact hu.own r (mem_of_mem_erase hr)
  · exact (h1 (by rw [(hw.used i hb).taskNum, hl, length_singleton])).elim

omit [DecidableEq π] in
/-- The last process leaves the first group, which is cleared. -/
theorem Table.clear (hg : ∀ j, j ≠ 0 → w'.st.groups j = w.st.groups j)
    (hn : ∀ j, j ≠ 0 → w'.name j = w.name j)
    (hd : w'.done = w.done) (ho : w'.st.schedGroupId = w.st.schedGroupId)
    (h0 : w'.st.groups 0 = Group.zero) (hn0 : w'.name 0 = none) : Table w' := by
  refine hw.change ⟨hg, hn, fun _ _ _ _ => congrFun hd _, fun _ _ _ _ => congrFun ho _,
    ?_, ?_, fun hb => ?_, fun _ => ⟨hn0, ?_, ?_, ?_⟩, fun n h => ?_⟩
  all_goals simp only [h0, hn0, Group.zero] at *
  · rfl
  · exact length_replicate
  · cases hb
  · cases h

theorem Table.remove {r : ℤ} (hm : ∀ i, isValid w.st id = some i → MayLeave w p i)
    (h : period_sched_group_remove p id w.st = some (r, s')) :
    Table { w with st := s', name := namesAfter w.st s' w.name [] } := by
  rw [period_sched_group_remove] at h
  rcases hv : isValid w.st id with _ | i
  · rw [hv] at h
    cases h
    exact hw.congr rfl (funext fun j => hw.names_kept rfl []) rfl rfl
  · obtain ⟨-, hb⟩ := isValid_eq_some.1 hv
    have hmay := hm i hv
    have hu := hw.used i hb
    have hp := hmay.1
    have hpos : (w.st.groups i).taskNum ≠ 0 := by
      rw [hu.taskNum]
      exact (length_pos_of_mem hp).ne'
    simp only [hv, if_pos (show w.st.Linked p from ⟨i, hp⟩), decrement, if_neg hpos] at h
    cases h
    -- the other lists do not have the process
    have hother (j : Slot) (hj : j ≠ i) :
        ({ w.st.groups j with taskList := (w.st.groups j).taskList.erase p } : Group π)
          = w.st.groups j := by
      rw [erase_of_not_mem fun h => hj (hw.eq_of_mem h hp)]
    have hkept (g : Group π) (j : Slot) (hj : j ≠ i) :
        update (fun j => { w.st.groups j with taskList := (w.st.groups j).taskList.erase p }) i g j
          = w.st.groups j := by
      rw [update_of_ne hj, hother j hj]
    by_cases h1 : (w.st.groups i).taskNum - 1 = 0
    · have hl : (w.st.groups i).taskList = [p] := by
        have hlen : (w.st.groups i).taskList.length = 1 := by
          rw [← hu.taskNum]
          omega
        obtain ⟨q, hq⟩ := length_eq_one_iff.1 hlen
        rw [hq] at hp ⊢
        rw [mem_singleton.1 hp]
      obtain rfl : i = 0 := by
        obtain ⟨-, -, ⟨q, hq, hqp, -⟩ | ⟨-, h0⟩⟩ := hmay
        · rw [hl] at hq
          exact (hqp (mem_singleton.1 hq)).elim
        · exact h0
      refine hw.clear ?_ ?_ rfl rfl ?_ ?_
      · exact hkept _
      · exact fun j hj => hw.names_kept (hkept _ j hj) []
      · simp [State.set, h1]
      · simp [namesAfter, State.set, h1, Group.zero]
    · refine hw.leave hb hmay (hkept _) (funext fun j => ?_) rfl rfl ?_ (by omega)
      · by_cases hj : j = i
        · subst hj
          simp [namesAfter, State.set, h1, hb]
        · exact hw.names_kept (hkept _ j hj) []
      · simp [State.set, h1]

theorem Table.exit (hc : (Op.exit p).Careful w)
    (h : period_sched_group_exit p w.st = some s') : Table ((Op.exit p).after w s') := by
  rw [period_sched_group_exit] at h
  rcases hg : get_sched_group_by_period w.st (w.st.periodTime p) with _ | i
  · rw [hg] at h
    cases h
    exact hw.congr rfl (funext fun j => hw.names_kept rfl []) rfl rfl
  · rw [hg] at h
    obtain ⟨⟨r, s'⟩, hrem, rfl⟩ := map_eq_some_iff.1 h
    refine hw.remove (fun j hj => ?_) hrem
    obtain ⟨hji, -⟩ := isValid_eq_some.1 hj
    rw [hw.id i] at hji
    obtain rfl : i = j := Fin.ext (by exact_mod_cast hji)
    exact hc i hg

/-- **Every call keeps the table.** -/
theorem Table.step {recursive : Bool}
    (h : Step recursive (fun w op => op.Careful w) w w') : Table w' := by
  obtain ⟨op, r, s', hp, hc, hrun⟩ := h
  cases op with
  | create period name => exact hw.create hp hc hrun
  | add p id => exact hw.add hc hrun
  | remove p id => exact hw.remove hc hrun
  | complete p =>
    obtain ⟨-, rfl⟩ := mk.inj (some.inj hrun)
    exact hw.complete hc
  | exit p =>
    obtain ⟨s'', hexit, he⟩ := map_eq_some_iff.1 hrun
    cases he
    exact hw.exit hc hexit

/-! ## The lock -/

end

theorem remove_lock {r : ℤ} (h : period_sched_group_remove p id s = some (r, s')) :
    s'.lock = s.lock ∧ s'.twice = s.twice := by
  rw [period_sched_group_remove] at h
  rcases hv : isValid s id with _ | i
  · rw [hv] at h
    cases h
    exact ⟨rfl, rfl⟩
  · simp only [hv] at h
    split_ifs at h
    all_goals
      cases h
      exact ⟨rfl, rfl⟩

/-- As long as every name was registered, the lock is free and was taken once at a time. -/
def LockOk (w : World π) : Prop := w.newName = false → w.st.lock = 0 ∧ w.st.twice = false

theorem LockOk.step (hl : LockOk w) (hw : Table w) {recursive : Bool} {ok : World π → Op π → Prop}
    (h : Step recursive ok w w') : LockOk w' := by
  obtain ⟨op, r, s', hp, hc, hrun⟩ := h
  have keep (hk : s'.lock = w.st.lock ∧ s'.twice = w.st.twice) (hn : w.newName = false) :
      s'.lock = 0 ∧ s'.twice = false := by
    rw [hk.1, hk.2]
    exact hl hn
  cases op with
  | create period name =>
    intro hn
    simp only [Op.after, Bool.or_eq_false_iff, decide_eq_false_iff_not, not_forall, not_not] at hn
    obtain ⟨hn, i, hi⟩ := hn
    obtain ⟨h0, ht⟩ := hl hn
    cases create_cases hw hrun with
    | found _ _ _ hs =>
      simp only [Op.after, hs]
      exact ⟨h0, by simp [h0, ht]⟩
    | full hn' => exact (hn' i hi).elim
    | new hn' => exact (hn' i hi).elim
  | add p id =>
    refine keep ?_
    simp only [Op.run, period_sched_group_add] at hrun
    rcases hv : isValid w.st id with _ | i
    · rw [hv] at hrun
      cases hrun
      exact ⟨rfl, rfl⟩
    · simp only [hv] at hrun
      split_ifs at hrun
      cases hrun
      exact ⟨rfl, rfl⟩
  | remove p id => exact keep (remove_lock hrun)
  | complete p =>
    refine keep ?_
    obtain ⟨-, rfl⟩ := mk.inj (some.inj hrun)
    simp only
    rcases isValid w.st (w.st.schedGroupId p) with _ | i
    · exact ⟨rfl, rfl⟩
    · simp only
      split_ifs <;> exact ⟨rfl, rfl⟩
  | exit p =>
    refine keep ?_
    obtain ⟨s'', hexit, he⟩ := map_eq_some_iff.1 hrun
    cases he
    rw [period_sched_group_exit] at hexit
    rcases hg : get_sched_group_by_period w.st (w.st.periodTime p) with _ | i
    · rw [hg] at hexit
      cases hexit
      exact ⟨rfl, rfl⟩
    · rw [hg] at hexit
      obtain ⟨⟨r, s'⟩, hrem, rfl⟩ := map_eq_some_iff.1 hexit
      exact remove_lock hrem

/-! ## Runs -/

/-- What holds of the table between two calls. -/
structure Good (recursive : Bool) (w : World π) : Prop where
  /-- A group is the one of its slot. -/
  id : ∀ i, (w.st.groups i).groupId = i
  /-- The name that a group is in use under is the one it was created with, and no other
  group has it. -/
  name : ∀ i, (w.st.groups i).busy = true → ∃ n, w.name i = some n ∧
    cString (w.st.groups i).name = some n ∧ ∀ j, w.name j = some n → j = i
  /-- A call that returns gives the group of the name, or a free one, or -1 if the table is
  full. -/
  create : ∀ period n r s', 0 ∉ n → n.length < CONFIG_GROUP_NAME_LEN →
    period_sched_group_create recursive period n w.st = some (r, s') →
    (∃ i : Slot, r = (i : ℕ) ∧ w.name i = some n ∧ s'.groups = w.st.groups) ∨
    (∀ i, w.name i ≠ some n) ∧
      (r = -1 ∧ (∀ i, (w.st.groups i).busy = true) ∧ s'.groups = w.st.groups ∨
        ∃ i : Slot, r = (i : ℕ) ∧ (w.st.groups i).busy = false ∧
          (s'.groups i).busy = true ∧ cString (s'.groups i).name = some n ∧
          ∀ j, j ≠ i → s'.groups j = w.st.groups j)
  taskNum : ∀ i, (w.st.groups i).taskNum = (w.st.groups i).taskList.length
  /-- A process is in one list, once. -/
  lists : (∀ i, (w.st.groups i).taskList.Nodup) ∧
    ∀ i j, ∀ p ∈ (w.st.groups i).taskList, p ∈ (w.st.groups j).taskList → i = j
  count : ∀ i, (w.st.groups i).taskCompleteCount =
    ((w.st.groups i).taskList.filter fun p => w.done p).length
  count_le : ∀ i, (w.st.groups i).taskCompleteCount ≤ (w.st.groups i).taskNum
  /-- The cycle of a group ends with the call of the process that is the last of those in
  the group, and it has not ended before. -/
  cycle : ∀ i, ∀ p ∈ (w.st.groups i).taskList, w.done p = false →
    ((period_sched_group_work_complete p w.st).2.groups i).groupCompleteCount =
      (w.st.groups i).groupCompleteCount +
        if AllDone w.st (update w.done p true) i then 1 else 0
  open_cycle : ∀ i, (w.st.groups i).taskList ≠ [] → ¬AllDone w.st w.done i
  /-- No call has returned with the lock held, or taken it while it was held, if every name
  that was asked for was registered. -/
  lock : LockOk w

theorem Table.good (hw : Table w) (hl : LockOk w) (recursive : Bool) : Good recursive w where
  id := hw.id
  name i hb := by
    obtain ⟨n, hn, -, hc⟩ := (hw.used i hb).name
    exact ⟨n, hn, hc, fun j hj => hw.inj j i n hj hn⟩
  create period n r s' h0 hlen h := by
    cases create_cases hw h with
    | found i hi _ hs => exact .inl ⟨i, rfl, hi, by rw [hs]⟩
    | full hn hf _ hg _ => exact .inr ⟨hn, .inl ⟨rfl, hf, hg⟩⟩
    | new hn i hi _ hg _ =>
      refine .inr ⟨hn, .inr ⟨i, rfl, hi, ?_, ?_, fun j hj => ?_⟩⟩
      · rw [hg, update_self]
      · rw [hg, update_self]
        simp only
        rw [copyName_eq _ hlen, cString_of_not_mem h0]
      · rw [hg, update_of_ne hj]
  taskNum i := by
    rcases hb : (w.st.groups i).busy with _ | _
    · rw [(hw.unused i hb).taskNum, (hw.unused i hb).taskList, length_nil]
    · exact (hw.used i hb).taskNum
  lists := by
    refine ⟨fun i => ?_, fun i j p => hw.eq_of_mem⟩
    rcases hb : (w.st.groups i).busy with _ | _
    · rw [(hw.unused i hb).taskList]
      exact nodup_nil
    · exact (hw.used i hb).nodup
  count i := by
    rcases hb : (w.st.groups i).busy with _ | _
    · rw [(hw.unused i hb).count, (hw.unused i hb).taskList, filter_nil, length_nil]
    · exact (hw.used i hb).count
  count_le i := by
    rcases hb : (w.st.groups i).busy with _ | _
    · rw [(hw.unused i hb).count]
      exact Nat.zero_le _
    · rw [(hw.used i hb).count, (hw.used i hb).taskNum]
      exact length_filter_le _ _
  cycle i p hp hd := by
    have hb := hw.busy_of_mem hp
    have hu := hw.used i hb
    have hv : isValid w.st (w.st.schedGroupId p) = some i :=
      isValid_eq_some.2 ⟨hu.own p hp, hb⟩
    by_cases hall : AllDone w.st (update w.done p true) i
    · have hlast := (hu.last_iff hp hd).2 hall
      simp [period_sched_group_work_complete, hv, hlast, hall, State.set]
    · have hlast := mt (hu.last_iff hp hd).1 hall
      simp [period_sched_group_work_complete, hv, hlast, hall, State.set]
  open_cycle i hne hall := by
    have hb : (w.st.groups i).busy = true := by
      obtain ⟨p, hp⟩ := exists_mem_of_ne_nil _ hne
      exact hw.busy_of_mem hp
    obtain ⟨p, hp, hd⟩ := (hw.used i hb).unfinished hne
    rw [hall p hp] at hd
    cases hd
  lock := hl

/-- **The groups of a run.**  From any table that is in order, with the lock free, calls that
are careful keep groups, names, members and counts in order. -/
theorem groups_run {recursive : Bool} {w₀ w : World π} (h₀ : Table w₀) (hl₀ : w₀.st.lock = 0)
    (ht₀ : w₀.st.twice = false) (h : ReflTransGen (Step recursive fun w op => op.Careful w) w₀ w) :
    Good recursive w := by
  suffices h : Table w ∧ LockOk w from h.1.good h.2 recursive
  induction h with
  | refl => exact ⟨h₀, fun _ => ⟨hl₀, ht₀⟩⟩
  | tail _ hs ih => exact ⟨ih.1.step hs, ih.2.step ih.1 hs⟩

/-- What `period_sched_group_init` leaves. -/
def init (periodTime : π → ℕ) : World π where
  st :=
    { groups := fun i => { Group.zero with groupId := i }
      schedGroupId := fun _ => -1
      periodTime := periodTime
      curPeriodGroup := none
      lock := 0
      twice := false }
  name := fun _ => none
  done := fun _ => false
  newName := false

omit [DecidableEq π] in
theorem table_init (periodTime : π → ℕ) : Table (init periodTime) where
  id _ := rfl
  size _ := length_replicate
  used _ h := by cases h
  unused _ _ := ⟨rfl, rfl, rfl, rfl⟩
  inj _ _ _ h := by cases h

/-- A group gets two processes, and one of them completes its work. -/
theorem groups_run_two : Good true (init fun _ : Bool => 5) ∧
    ∃ w, ReflTransGen (Step true fun w op => op.Careful w) (init fun _ : Bool => 5) w ∧
      (w.st.groups 0).taskCompleteCount = 1 ∧ Good true w := by
  have h0 : ReflTransGen (Step true fun w op => op.Careful w) (init fun _ : Bool => 5) _ := .refl
  have h1 := h0.tail (.call _ (.create 5 [97]) _ _ (by simp [Op.Possible])
    (by simp [Op.Careful, CONFIG_GROUP_NAME_LEN]) rfl)
  have h2 := h1.tail (.call _ (.add false 0) _ _ trivial (fun _ _ => by decide) rfl)
  have h3 := h2.tail (.call _ (.add true 0) _ _ trivial (fun _ _ => by decide) rfl)
  have h4 := h3.tail (.call _ (.complete false) _ _ trivial
    (fun i hi => by
      obtain rfl : i = 0 := some.inj (hi.symm.trans rfl)
      exact ⟨by decide, by decide⟩) rfl)
  exact ⟨groups_run (table_init _) rfl rfl h0, _, h4, rfl, groups_run (table_init _) rfl rfl h4⟩

instance : (op : Op π) → Decidable op.Possible
  | .create _ name => inferInstanceAs (Decidable (0 ∉ name))
  | .add .. | .remove .. | .complete _ | .exit _ => inferInstanceAs (Decidable True)

def Op.next (recursive : Bool) (w : World π) (op : Op π) : Option (World π) :=
  if op.Possible then (op.run recursive w.st).map fun r => op.after w r.2 else none

theorem next_run {recursive : Bool} {ops : List (Op π)}
    (h : exec (Op.next recursive) w ops = some w') :
    ReflTransGen (Step recursive fun _ _ => True) w w' := by
  refine exec_run (fun w op w' h => ?_) h
  unfold Op.next at h
  split_ifs at h with hp
  obtain ⟨⟨r, s'⟩, hr, rfl⟩ := map_eq_some_iff.1 h
  exact .call w op r s' hp trivial hr

/-- **What goes wrong.**  The first name that a group is asked for is never answered.  Were
the lock recursive, it would have been taken twice; a second group that lost its only process
would later be found under its name as group 0; and a process that left after it had completed
would still be counted, so that the cycle would not end with the process that remains. -/
theorem groups_break : period_sched_group_create false 5 [97] (init fun _ : Bool => 5).st = none ∧
    (∃ w, ReflTransGen (Step true fun _ _ => True) (init fun _ : Bool => 5) w ∧
      w.st.twice = true ∧ w.name 1 = some [98] ∧ (w.st.groups 1).groupId = 0 ∧
      period_sched_group_find w.st [98] = some 0) ∧
    ∃ w, ReflTransGen (Step true fun _ _ => True) (init fun _ : Bool => 5) w ∧
      (w.st.groups 0).taskList = [true] ∧ w.done true = false ∧
      (w.st.groups 0).taskCompleteCount = 1 ∧ AllDone w.st (update w.done true true) 0 ∧
      ((period_sched_group_work_complete true w.st).2.groups 0).groupCompleteCount =
        (w.st.groups 0).groupCompleteCount := by
  refine ⟨rfl, ?_, ?_⟩
  · let ops : List (Op Bool) :=
      [.create 5 [97], .create 5 [98], .add true 1, .remove true 1, .create 5 [98]]
    have hend : ∃ w, exec (Op.next true) (init fun _ => 5) ops = some w ∧
        (w.st.twice, w.name 1, (w.st.groups 1).groupId, period_sched_group_find w.st [98])
          = (true, some [98], 0, some 0) := map_eq_some_iff.1 (by decide +kernel)
    obtain ⟨w, hw, he⟩ := hend
    simp only [mk.injEq] at he
    exact ⟨w, next_run hw, he⟩
  · let ops : List (Op Bool) :=
      [.create 5 [97], .add false 0, .add true 0, .complete false, .remove false 0]
    have hend : ∃ w, exec (Op.next true) (init fun _ => 5) ops = some w ∧
        ((w.st.groups 0).taskList, w.done true, (w.st.groups 0).taskCompleteCount,
          decide (AllDone w.st (update w.done true true) 0),
          ((period_sched_group_work_complete true w.st).2.groups 0).groupCompleteCount,
          (w.st.groups 0).groupCompleteCount)
          = ([true], false, 1, true, 0, 0) := map_eq_some_iff.1 (by decide +kernel)
    obtain ⟨w, hw, he⟩ := hend
    simp only [mk.injEq, decide_eq_true_eq] at he
    obtain ⟨hl, hd, hc, hall, hg, hg'⟩ := he
    exact ⟨w, next_run hw, hl, hd, hc, hall, hg.trans hg'.symm⟩

end Intewell.SchedGroup
