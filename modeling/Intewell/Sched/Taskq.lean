/-
# Priority wait queues

The queue of the tasks that wait for a resource, with the discipline
`T_TTOS_QUEUE_DISCIPLINE_PRIORITY` (kernel/task: ttosEnequeueTaskq.c, ttosDequeueTaskq.c,
ttosExtractTaskq.c, and the part of `taskChangePriority` for a task in such a queue).
Four headers, for 64 priorities each, hold one task of each priority, the leader; the
others of its priority hang off the leader's `samePriQueue`, in their order.

The lists are those of include/list.h, node by node: `next` and `prev` are links between
the headers, the `resourceNode`s and the `samePriQueue`s of the tasks, and a link may be
`NULL`.  Writing through a null pointer is a fault (`none`), and so is a loop that has
used up its rounds.
-/

import Intewell.Lib.Ring

namespace Intewell.Sched

open List Nat
open Linked (Links Rings Free Seg mem_concat_iff)
open Function

/-- The list nodes of a queue and of its tasks. -/
inductive Node (τ : Type*) where
  | null
  | header (i : ℕ)
  | resource (t : τ)
  | samePri (t : τ)
deriving DecidableEq

open Node

variable {τ : Type*} [DecidableEq τ]

/-! ## include/list.h -/

def INIT_LIST_HEAD (head : Node τ) (L : Links (Node τ)) : Links (Node τ) := L.single head

/-- `__list_add`, to which the four ways to add a node come down. -/
def listAdd (new prev next : Node τ) (L : Links (Node τ)) : Option (Links (Node τ)) :=
  if prev = null ∨ next = null then none else some (L.link new prev next)

def listAddTail (node head : Node τ) (L : Links (Node τ)) : Option (Links (Node τ)) :=
  listAdd node (L.prev head) head L

def listAddAfter (new head : Node τ) (L : Links (Node τ)) : Option (Links (Node τ)) :=
  listAdd new head (L.next head) L

def listAddBefore (node head : Node τ) (L : Links (Node τ)) : Option (Links (Node τ)) :=
  listAdd node (L.prev head) head L

def listAddHead (node head : Node τ) (L : Links (Node τ)) : Option (Links (Node τ)) :=
  listAdd node head (L.next head) L

def listDelete (node : Node τ) (L : Links (Node τ)) : Option (Links (Node τ)) :=
  if L.next node = null ∨ L.prev node = null then none else some (L.unlink node null)

def listReplace (old new : Node τ) (L : Links (Node τ)) : Option (Links (Node τ)) :=
  if L.next old = null ∨ L.prev old = null then none else some (L.replace old new)

def listIsEmpty (head : Node τ) (L : Links (Node τ)) : Bool := L.next head = head

def listFirst (head : Node τ) (L : Links (Node τ)) : Node τ :=
  if L.next head ≠ head then L.next head else null

def listTail (head : Node τ) (L : Links (Node τ)) : Node τ :=
  if L.prev head ≠ head then L.prev head else null

def listNext (node head : Node τ) (L : Links (Node τ)) : Node τ :=
  if L.next node ≠ head then L.next node else null

def listPrev (node head : Node τ) (L : Links (Node τ)) : Node τ :=
  if L.prev node ≠ head then L.prev node else null

def listDeleteHead (head : Node τ) (L : Links (Node τ)) : Option (Node τ × Links (Node τ)) :=
  if L.next head ≠ head then (listDelete (L.next head) L).map fun L' => (L.next head, L')
  else some (null, L)

/-! ## The queue -/

/-- The nodes of a queue, and the priorities of the tasks. -/
structure TaskQueue (τ : Type*) where
  links : Links (Node τ)
  taskCurPriority : τ → ℕ

def TTOS_QUEUE_DATA_NUMBER_OF_PRIORITY_HEADERS : ℕ := 4
def TTOS_QUEUE_DATA_PRIORITIES_PER_HEADER : ℕ := 64
def TTOS_QUEUE_DATA_REVERSE_SEARCH_LEVEL : ℕ := 0x20

/-- The loop that looks for the place of a task, in `n` rounds, from `recordNode` on. -/
def search (follow : Node τ → Node τ) (stop : τ → Prop) [DecidablePred stop] :
    ℕ → Node τ → Option (Node τ)
  | 0, _ => none
  | _ + 1, null => some null
  | n + 1, resource t =>
    if stop t then some (resource t) else search follow stop n (follow (resource t))
  | _ + 1, _ => none

/-- The place of a task from the tail of a header's list: behind the last leader that is as
urgent, or more urgent. -/
def placeFromTail (n : ℕ) (theTask : τ) (head : Node τ) (prio : τ → ℕ) (L : Links (Node τ)) :
    Option (Links (Node τ)) := do
  let recordNode ← search (fun r => listPrev r head L) (fun t => prio t ≤ prio theTask) n
    (listTail head L)
  match recordNode with
  | resource searchTask =>
    if prio theTask = prio searchTask then listAddTail (resource theTask) (samePri searchTask) L
    else listAddAfter (resource theTask) recordNode L
  | _ => listAddHead (resource theTask) head L

/-- The place from the head: before the first leader that is as urgent, or less urgent. -/
def placeFromHead (n : ℕ) (theTask : τ) (head : Node τ) (prio : τ → ℕ) (L : Links (Node τ)) :
    Option (Links (Node τ)) := do
  let recordNode ← search (fun r => listNext r head L) (fun t => prio t ≥ prio theTask) n
    (listFirst head L)
  match recordNode with
  | resource searchTask =>
    if prio theTask = prio searchTask then listAddTail (resource theTask) (samePri searchTask) L
    else listAddBefore (resource theTask) recordNode L
  | _ => listAddTail (resource theTask) head L

def ttosEnqueuePriority (n : ℕ) (theTask : τ) (s : TaskQueue τ) : Option (TaskQueue τ) := do
  let L := INIT_LIST_HEAD (samePri theTask) s.links
  let priority := s.taskCurPriority theTask
  let tmpPriority := priority % TTOS_QUEUE_DATA_PRIORITIES_PER_HEADER
  let head := header (priority / TTOS_QUEUE_DATA_PRIORITIES_PER_HEADER)
  let L ←
    if tmpPriority ≥ TTOS_QUEUE_DATA_REVERSE_SEARCH_LEVEL then
      placeFromTail n theTask head s.taskCurPriority L
    else placeFromHead n theTask head s.taskCurPriority L
  some { s with links := L }

/-- The first node of the first header that has one. -/
def firstNode (L : Links (Node τ)) : Node τ :=
  match (List.range TTOS_QUEUE_DATA_NUMBER_OF_PRIORITY_HEADERS).find? fun i =>
      !listIsEmpty (header i) L with
  | some i => listFirst (header i) L
  | none => null

/-- The task that is first is taken out.  If others hang off it, the first of them takes its
place in the header's list, and takes over the rest if there is any. -/
def ttosDequeuePriority (s : TaskQueue τ) : Option (Option τ × TaskQueue τ) :=
  let L := s.links
  match firstNode L with
  | resource theTask =>
    let node := resource theTask
    let newFirstNode := listFirst (samePri theTask) L
    if L.next node = null ∨ L.prev node = null then some (none, s)
    else if listIsEmpty (samePri theTask) L = false then
      match newFirstNode with
      | resource newFirstTask =>
        let lastNode := listTail (samePri theTask) L
        let newSecondNode := L.next newFirstNode
        let L := L.replace node newFirstNode
        if lastNode = null then some (none, { s with links := L })
        else if newFirstNode ≠ lastNode then
          if newSecondNode = null then none
          else
            let L := L.adopt (samePri newFirstTask) newSecondNode lastNode
            some (some theTask, { s with links := L.clear node null })
        else some (some theTask, { s with links := L.clear node null })
      | _ => none
    else some (some theTask, { s with links := L.unlink node null })
  | null => some (none, s)
  | _ => none

/-- The loop that moves what hangs off one task to another, in `n` rounds. -/
def moveChain (src dst : Node τ) : ℕ → Links (Node τ) → Option (Links (Node τ))
  | 0, _ => none
  | n + 1, L =>
    if listIsEmpty src L then some L
    else do
      let (samePriNode, L) ← listDeleteHead src L
      let L ← listAddTail samePriNode dst L
      moveChain src dst n L

def ttosExtractPriority (n : ℕ) (theTask : τ) (L : Links (Node τ)) : Option (Links (Node τ)) :=
  let node := resource theTask
  if L.next node ≠ null then do
    let L ←
      if listIsEmpty (samePri theTask) L = false then do
        let (newFirstNode, L) ← listDeleteHead (samePri theTask) L
        match newFirstNode with
        | resource newFirstTask =>
          let L ← listReplace node newFirstNode L
          let L := L.clear node null
          let L := INIT_LIST_HEAD (samePri newFirstTask) L
          moveChain (samePri theTask) (samePri newFirstTask) n L
        | _ => none
      else listDelete node L
    some (INIT_LIST_HEAD (samePri theTask) L)
  else some L

/-- `taskChangePriority` of a task that waits in the queue. -/
def taskChangePriority (n : ℕ) (theTask : τ) (newPriority : ℕ) (s : TaskQueue τ) :
    Option (TaskQueue τ) := do
  let prio := update s.taskCurPriority theTask newPriority
  let L ← ttosExtractPriority n theTask s.links
  ttosEnqueuePriority n theTask ⟨L, prio⟩

/-! ## What the list functions do -/

/-- Rings whose nodes are no null pointers; a `resourceNode` that is in none of them is not
linked. -/
structure Lists (L : Links (Node τ)) (D : Set (Node τ)) (c : Node τ → List (Node τ)) : Prop where
  rings : Rings L D c
  nonnull : ∀ h ∈ D, ∀ z ∈ h :: c h, z ≠ null
  out : ∀ t, Free D c (resource t) → L.next (resource t) = null

variable {L L' : Links (Node τ)} {D : Set (Node τ)} {c : Node τ → List (Node τ)}
  {h x y a : Node τ} {t : τ} {l l1 l2 : List (Node τ)}

omit [DecidableEq τ] in
theorem Lists.congr {c' : Node τ → List (Node τ)} (W : Lists L D c) (hc : ∀ h ∈ D, c' h = c h) :
    Lists L D c' where
  rings := W.rings.congr hc
  nonnull h hh := hc h hh ▸ W.nonnull h hh
  out t ht := W.out t ⟨ht.1, fun h hh => hc h hh ▸ ht.2 h hh⟩

omit [DecidableEq τ] in
theorem mem_middle {z : Node τ} : z ∈ l1 ++ x :: l2 ↔ z = x ∨ z ∈ l1 ++ l2 := by
  rw [← mem_cons]
  exact perm_middle.mem_iff

theorem free_of_free_update {z : Node τ} (hh : h ∈ D) (hsub : ∀ y ∈ c h, y ∈ l ∨ y = x)
    (hz : Free D (update c h l) z) (hx : z ≠ x) : Free D c z := by
  refine ⟨hz.1, fun h' hh' hmem => ?_⟩
  by_cases he : h' = h
  · subst he
    have := hz.2 h' hh'
    rw [update_self] at this
    exact (hsub z hmem).elim this hx
  · have := hz.2 h' hh'
    rw [update_of_ne he] at this
    exact this hmem

section
variable (W : Lists L D c)
include W

section
variable (hh : h ∈ D)
include hh

theorem Lists.update_nonnull (hl : ∀ y ∈ l, y ∈ c h ∨ y = x) (hx : x ≠ null) :
    ∀ h' ∈ D, ∀ z ∈ h' :: update c h l h', z ≠ null := by
  intro h' hh' z hz
  by_cases he : h' = h
  · subst he
    rw [update_self] at hz
    rcases mem_cons.1 hz with rfl | hz
    · exact W.nonnull z hh' z (.head _)
    · rcases hl z hz with hz | rfl
      · exact W.nonnull h' hh' z (.tail _ hz)
      · exact hx
  · rw [update_of_ne he] at hz
    exact W.nonnull h' hh' z hz

section
variable (hx : Free D c x) (hnull : x ≠ null)
include hx hnull

theorem Lists.link (hc : c h = l1 ++ l2) (ha : (h :: l1).getLast (by simp) = a) :
    listAdd x a (L.next a) L = some (L.link x a (L.next a)) ∧
      Lists (L.link x a (L.next a)) D (update c h (l1 ++ x :: l2)) := by
  have hamem : a ∈ h :: c h := by
    rw [hc, ← cons_append, ← ha]
    exact mem_append_left _ (getLast_mem _)
  have hbmem := W.rings.next_mem hh hamem
  have hmem (y : Node τ) : y ∈ l1 ++ x :: l2 ↔ y = x ∨ y ∈ c h := by rw [hc, mem_middle]
  refine ⟨if_neg ?_, W.rings.link hh hc hx ha, ?_, fun t ht => ?_⟩
  · rintro (he | he)
    · exact W.nonnull h hh a hamem he
    · exact W.nonnull h hh _ hbmem he
  · exact W.update_nonnull hh (fun y hy => ((hmem y).1 hy).symm) hnull
  · have htx : resource t ≠ x := fun he =>
      ht.2 h hh (by rw [update_self]; exact (hmem _).2 (.inl he))
    have hf := free_of_free_update hh (fun y hy => .inl ((hmem y).2 (.inr hy))) ht htx
    rw [Links.link_next_of_ne htx (hf.ne hh hamem).symm]
    exact W.out t hf

theorem Lists.listAddTail :
    ∃ L', listAddTail x h L = some L' ∧ Lists L' D (update c h (c h ++ [x])) := by
  have hseg := W.rings.seg h hh
  have hlink := W.link hh hx hnull (append_nil _).symm rfl
  rw [hseg.next_getLast] at hlink
  refine ⟨_, ?_, hlink.2⟩
  rw [Sched.listAddTail, hseg.prev_eq_getLast]
  exact hlink.1

theorem Lists.listAddHead :
    ∃ L', listAddHead x h L = some L' ∧ Lists L' D (update c h (x :: c h)) :=
  ⟨_, W.link hh hx hnull (nil_append _).symm rfl⟩

theorem Lists.listAddAfter (hc : c h = l1 ++ y :: l2) :
    ∃ L', listAddAfter x y L = some L' ∧ Lists L' D (update c h (l1 ++ y :: x :: l2)) := by
  have hlink := W.link (a := y) hh hx hnull (hc.trans (append_cons l1 y l2)) (by simp)
  rw [← append_cons] at hlink
  exact ⟨_, hlink⟩

theorem Lists.listAddBefore (hc : c h = l1 ++ y :: l2) :
    ∃ L', listAddBefore x y L = some L' ∧ Lists L' D (update c h (l1 ++ x :: y :: l2)) := by
  have hseg := W.rings.seg h hh
  rw [hc] at hseg
  obtain ⟨hseg1, -⟩ := Seg.append.1 hseg
  have hlink := W.link hh hx hnull hc rfl
  rw [hseg1.next_getLast] at hlink
  refine ⟨_, ?_, hlink.2⟩
  rw [Sched.listAddBefore, hseg1.prev_eq_getLast]
  exact hlink.1

end

omit [DecidableEq τ] in
theorem Lists.linked (hx : x ∈ c h) : ¬(L.next x = null ∨ L.prev x = null) := by
  rintro (he | he)
  · exact W.nonnull h hh _ (W.rings.next_mem hh (.tail _ hx)) he
  · exact W.nonnull h hh _ (W.rings.prev_mem hh (.tail _ hx)) he

theorem Lists.unlink (hc : c h = l1 ++ x :: l2) :
    Lists (L.unlink x null) D (update c h (l1 ++ l2)) := by
  have hxmem : x ∈ c h := by simp [hc]
  have hmem : ∀ y ∈ c h, y ∈ l1 ++ l2 ∨ y = x := fun y hy => by
    rw [hc] at hy
    exact (mem_cons.1 (perm_middle.mem_iff.1 hy)).symm
  refine ⟨W.rings.unlink hh hc null, ?_, fun t ht => ?_⟩
  · refine W.update_nonnull hh (fun y hy => .inl ?_) (W.nonnull h hh x (.tail _ hxmem))
    rw [hc]
    exact perm_middle.mem_iff.2 (.tail x hy)
  · by_cases htx : resource t = x
    · rw [← htx]
      simp [Links.unlink]
    · have hf := free_of_free_update hh hmem ht htx
      have := W.rings.prev_mem hh (.tail h hxmem)
      rw [Links.unlink_next_of_ne htx (hf.ne hh this).symm]
      exact W.out t hf

theorem Lists.listDelete (hc : c h = l1 ++ x :: l2) : listDelete x L = some (L.unlink x null) :=
  if_neg (W.linked hh (by simp [hc]))

theorem Lists.listIsEmpty_iff : listIsEmpty h L = true ↔ c h = [] := by
  have hseg := W.rings.seg h hh
  rw [listIsEmpty, decide_eq_true_iff]
  cases hc : c h with
  | nil =>
    rw [hc] at hseg
    simp [hseg.1]
  | cons y l =>
    rw [hc] at hseg
    have hne : y ≠ h := fun he => W.rings.heads h hh y (by simp [hc]) (he ▸ hh)
    simp [hseg.1, hne]

theorem Lists.init_eq (hc : c h = []) : INIT_LIST_HEAD h L = L := by
  have hseg := W.rings.seg h hh
  rw [hc] at hseg
  have hn : update L.next h h = L.next := update_eq_self_iff.2 hseg.1.symm
  have hp : update L.prev h h = L.prev := update_eq_self_iff.2 hseg.2.symm
  rw [INIT_LIST_HEAD, Links.single, hn, hp]

end

theorem Lists.init (hx : Free D c (samePri t)) :
    Lists (INIT_LIST_HEAD (samePri t) L) (insert (samePri t) D) (update c (samePri t) []) := by
  refine ⟨W.rings.single hx, fun h hh z hz => ?_, fun u hu => ?_⟩
  · rcases hh with rfl | hh
    · rw [update_self, mem_singleton] at hz
      simp [hz]
    · rw [update_of_ne (ne_of_mem_of_not_mem hh hx.1)] at hz
      exact W.nonnull h hh z hz
  · have hf : Free D c (resource u) := by
      refine ⟨fun hmem => hu.1 (Set.mem_insert_of_mem _ hmem), fun h hh hmem => hu.2 h ?_ ?_⟩
      · exact Set.mem_insert_of_mem _ hh
      · rwa [update_of_ne (ne_of_mem_of_not_mem hh hx.1)]
    rw [← W.out u hf]
    simp [INIT_LIST_HEAD, Links.single]

theorem Lists.drop (hc : c (samePri t) = []) : Lists L (D \ {samePri t}) c := by
  refine ⟨W.rings.mono fun _ hz => hz.1, fun h hh => W.nonnull h hh.1, fun u hu => W.out u ?_⟩
  refine ⟨fun hmem => hu.1 ⟨hmem, by simp⟩, fun h hh => ?_⟩
  by_cases he : h = samePri t
  · simp [he, hc]
  · exact hu.2 h ⟨hh, he⟩

theorem Lists.listDeleteHead (hh : h ∈ D) (hc : c h = x :: l) :
    listDeleteHead h L = some (x, L.unlink x null) ∧ Lists (L.unlink x null) D (update c h l) := by
  have hseg := W.rings.seg h hh
  rw [hc] at hseg
  have hne : x ≠ h := fun he => W.rings.heads h hh x (by simp [hc]) (he ▸ hh)
  have hc' : c h = [] ++ x :: l := hc
  have hdel := W.listDelete hh hc'
  refine ⟨?_, W.unlink hh hc'⟩
  rw [Sched.listDeleteHead, hseg.1, if_pos hne, hdel]
  rfl

theorem Lists.replace (hh : h ∈ D) (hc : c h = l1 ++ x :: l2) (hy : Free D c y) (hnull : y ≠ null) :
    listReplace x y L = some (L.replace x y) ∧
      Lists ((L.replace x y).clear x null) D (update c h (l1 ++ y :: l2)) := by
  have hxmem : x ∈ c h := by simp [hc]
  have hyx : x ≠ y := hy.ne hh (.tail h hxmem)
  have hmem' (z : Node τ) : z ∈ c h ↔ z = x ∨ z ∈ l1 ++ l2 := by rw [hc, mem_middle]
  have hxout := (nodup_cons.1 (W.rings.nodup_split hh hc)).1
  have hxfree : Free D (update c h (l1 ++ y :: l2)) x := by
    refine ⟨W.rings.heads h hh x hxmem, fun h' hh' hx' => ?_⟩
    by_cases he : h' = h
    · rw [he, update_self, mem_middle] at hx'
      exact hx'.elim hyx fun hx' => hxout (.tail h hx')
    · rw [update_of_ne he] at hx'
      exact he (W.rings.disj h' hh' h hh x hx' hxmem)
  refine ⟨if_neg (W.linked hh hxmem), (W.rings.replace hh hc hy).clear hxfree null, ?_, fun t ht =>
    ?_⟩
  · refine W.update_nonnull hh (fun z hz => ?_) hnull
    exact (mem_middle.1 hz).symm.imp_left fun hz => (hmem' z).2 (.inr hz)
  · by_cases htx : resource t = x
    · rw [← htx]
      simp [Links.clear]
    · have hty : resource t ≠ y := fun he =>
        ht.2 h hh (by rw [update_self]; exact mem_middle.2 (.inl he))
      have hf : Free D c (resource t) :=
        free_of_free_update hh
          (fun z hz => ((hmem' z).1 hz).symm.imp_left fun hz => mem_middle.2 (.inr hz)) ht htx
      have hprev := hf.ne hh (W.rings.prev_mem hh (.tail h hxmem))
      rw [← W.out t hf, ← Links.replace_next_of_ne hty hprev.symm]
      simp [Links.clear, htx]

section
variable {k k' : Node τ} {m : List (Node τ)}

omit W in
/-- What is in the lists of `h` and `k'` after both have changed. -/
theorem of_mem_update_update {h' z : Node τ} (hz : z ∈ update (update c h l) k' m h') :
    h' = k' ∧ z ∈ m ∨ h' = h ∧ z ∈ l ∨ h' ≠ h ∧ z ∈ c h' := by
  by_cases he : h' = k'
  · rw [he, update_self] at hz
    exact .inl ⟨he, hz⟩
  · rw [update_of_ne he] at hz
    by_cases heh : h' = h
    · rw [heh, update_self] at hz
      exact .inr (.inl ⟨heh, hz⟩)
    · rw [update_of_ne heh] at hz
      exact .inr (.inr ⟨heh, hz⟩)

variable (hh : h ∈ D) (hc : c h = l1 ++ x :: l2) (hk : k ∈ D) (hkc : c k = y :: m) (hk' : k' ∈ D)
  (hkc' : c k' = []) (hhk : h ≠ k) (hkk : k' ≠ k) (hkh : k' ≠ h)
include hh hc hk hkc hhk

/-- What was in the ring `k` is in no ring once `k` is given up. -/
theorem Lists.free_given_up {z : Node τ} (hz : z ∈ m) :
    Free (D \ {k}) (update c h (l1 ++ y :: l2)) z := by
  have R := W.rings
  have hzk : z ∈ c k := hkc ▸ .tail y hz
  refine ⟨fun hzD => R.heads k hk z hzk hzD.1, fun h' hh' hz' => ?_⟩
  by_cases he : h' = h
  · rw [he, update_self, mem_middle] at hz'
    rcases hz' with rfl | hz'
    · exact (nodup_cons.1 (hkc ▸ R.nodup k hk)).1 hz
    · have hzh : z ∈ c h := hc ▸ mem_middle.2 (.inr hz')
      exact R.ne_of_mem hh hk hhk.symm (.tail h hzh) (.tail k hzk) rfl
  · rw [update_of_ne he] at hz'
    exact hh'.2 (R.disj h' hh'.1 k hk z hz' hzk)

theorem Lists.free_replaced : Free (D \ {k}) (update (update c h (l1 ++ y :: l2)) k' m) x := by
  have R := W.rings
  have hxmem : x ∈ c h := by simp [hc]
  have hkm (z : Node τ) (hz : z ∈ y :: m) : x ≠ z :=
    R.ne_of_mem hk hh hhk (.tail k (hkc ▸ hz)) (.tail h hxmem)
  refine ⟨fun hxD => R.heads h hh x hxmem hxD.1, fun h' hh' hx' => ?_⟩
  obtain ⟨-, hx'⟩ | ⟨-, hx'⟩ | ⟨he, hx'⟩ := of_mem_update_update hx'
  · exact hkm x (.tail y hx') rfl
  · exact (mem_middle.1 hx').elim (hkm y (.head m)) fun hx' =>
      (nodup_cons.1 (R.nodup_split hh hc)).1 (.tail h hx')
  · exact he (R.disj h' hh'.1 h hh x hx' hxmem)

include hk' hkc' hkk hkh

theorem Lists.rings_takeOver (hL : (m = [] ∧ L' = L.replace x y) ∨ ∃ a m', ∃ hm : m = a :: m',
      L' = (L.replace x y).adopt k' a (m.getLast (by simp [hm]))) :
    Rings L' (D \ {k}) (update (update c h (l1 ++ y :: l2)) k' m) := by
  have R := W.rings
  have hxmem : x ∈ c h := by simp [hc]
  have hymem : y ∈ c k := by simp [hkc]
  have hmmem (z : Node τ) (hz : z ∈ m) : z ∈ c k := hkc ▸ .tail y hz
  have hnd : (y :: m).Nodup := hkc ▸ R.nodup k hk
  have hyfree : Free (D \ {k}) c y :=
    ⟨fun hD => R.heads k hk y hymem hD.1, fun h' hh' hy =>
      hh'.2 (R.disj h' hh'.1 k hk y hy hymem)⟩
  have R2 := (R.mono fun _ hz => hz.1 : Rings L (D \ {k}) c).replace ⟨hh, hhk⟩ hc hyfree
  rcases hL with ⟨rfl, rfl⟩ | ⟨a, m', rfl, rfl⟩
  · refine R2.congr fun h' hh' => ?_
    by_cases he : h' = k'
    · rw [he, update_self, update_of_ne hkh, hkc']
    · rw [update_of_ne he]
  · have hseg := R.seg k hk
    rw [hkc] at hseg
    refine R2.adopt ⟨hk', hkk⟩ (hseg.2.2.2.2.congr (fun z hz => ?_) fun z hz => ?_) hnd.of_cons
      (fun z hz => W.free_given_up hh hc hk hkc hhk hz) rfl
    · exact Links.replace_next_of_ne (ne_of_mem_of_not_mem hz (nodup_cons.1 hnd).1)
        (R.ne_of_mem hh hk hhk.symm (R.prev_mem hh (.tail h hxmem)) (.tail k (hmmem z hz)))
    · have hzk : z ∈ k :: c k := by
        rcases mem_cons.1 (mem_concat_iff.1 hz) with rfl | hz
        · exact .head _
        · exact .tail k (hmmem z (.tail a hz))
      refine Links.replace_prev_of_ne (fun he => ?_)
        (R.ne_of_mem hh hk hhk.symm (R.next_mem hh (.tail h hxmem)) hzk)
      rcases mem_cons.1 (mem_concat_iff.1 hz) with rfl | hz
      · exact R.heads z hk y hymem (he ▸ hk)
      · exact (nodup_cons.1 hnd).1 (.tail a (he ▸ hz))

omit W hh hk hhk in
/-- A node that is in no ring afterwards was in none before. -/
theorem free_of_takeOver {z : Node τ} (hh1 : h ∈ D \ {k}) (hzk : z ≠ k) (hzx : z ≠ x)
    (hz : Free (D \ {k}) (update (update c h (l1 ++ y :: l2)) k' m) z) :
    Free D c z ∧ z ≠ y ∧ z ∉ m := by
  have hzh := hz.2 h hh1
  rw [update_of_ne hkh.symm, update_self, mem_middle, not_or] at hzh
  have hzm := hz.2 k' ⟨hk', hkk⟩
  rw [update_self] at hzm
  refine ⟨⟨fun hD => hz.1 ⟨hD, hzk⟩, fun h' hh' hmem => ?_⟩, hzh.1, hzm⟩
  by_cases hek : h' = k
  · rw [hek, hkc] at hmem
    exact (mem_cons.1 hmem).elim hzh.1 hzm
  · have hnot := hz.2 h' ⟨hh', hek⟩
    by_cases he : h' = k'
    · rw [he, hkc'] at hmem
      cases hmem
    · rw [update_of_ne he] at hnot
      by_cases heh : h' = h
      · rw [heh, hc, mem_middle] at hmem
        exact hmem.elim hzx hzh.2
      · rw [update_of_ne heh] at hnot
        exact hnot hmem

/-- The first element of one ring takes the place of a node of another, and the rest of
the ring goes to an empty one. -/
theorem Lists.takeOver (hkr : ∀ t, resource t ≠ k)
    (hL : (m = [] ∧ L' = L.replace x y) ∨ ∃ a m', ∃ hm : m = a :: m',
      L' = (L.replace x y).adopt k' a (m.getLast (by simp [hm]))) :
    Lists (L'.clear x null) (D \ {k}) (update (update c h (l1 ++ y :: l2)) k' m) := by
  have hrings := W.rings_takeOver hh hc hk hkc hk' hkc' hhk hkk hkh hL
  refine ⟨hrings.clear (W.free_replaced hh hc hk hkc hhk) null, fun h' hh' z hz => ?_,
    fun t ht => ?_⟩
  · rcases mem_cons.1 hz with rfl | hz
    · exact W.nonnull z hh'.1 z (.head _)
    · have hin (z : Node τ) (hz : z ∈ y :: m) : z ≠ null := W.nonnull k hk z (.tail k (hkc ▸ hz))
      obtain ⟨-, hz⟩ | ⟨-, hz⟩ | ⟨-, hz⟩ := of_mem_update_update hz
      · exact hin z (.tail y hz)
      · rcases mem_middle.1 hz with rfl | hz
        · exact hin z (.head m)
        · exact W.nonnull h hh z (.tail h (hc ▸ mem_middle.2 (.inr hz)))
      · exact W.nonnull h' hh'.1 z (.tail h' hz)
  · by_cases htx : resource t = x
    · rw [← htx]
      simp [Links.clear]
    · obtain ⟨hf, hty, htm⟩ :=
        free_of_takeOver hc hkc hk' hkc' hkk hkh ⟨hh, hhk⟩ (hkr t) htx ht
      have hprev := W.rings.prev_mem hh (.tail h (by simp [hc] : x ∈ c h))
      have hrep : (L.replace x y).next (resource t) = null :=
        (Links.replace_next_of_ne hty (hf.ne hh hprev).symm).trans (W.out t hf)
      have hL' : L'.next (resource t) = null := by
        rcases hL with ⟨-, rfl⟩ | ⟨a, m', hm, rfl⟩
        · exact hrep
        · have htk : resource t ≠ k' := fun he => hf.1 (he ▸ hk')
          have htl : resource t ≠ m.getLast (by simp [hm]) := fun he => htm (he ▸ getLast_mem _)
          simp [Links.adopt, htk, htl, hrep]
      simpa [Links.clear, htx] using hL'

end

/-- The loop moves a whole list behind another. -/
theorem Lists.moveChain {src dst : Node τ} (hsrc : src ∈ D) (hdst : dst ∈ D) (hne : src ≠ dst)
    (hl : c src = l) : ∃ L', (∀ n, l.length < n → moveChain src dst n L = some L') ∧
      Lists L' D (update (update c src []) dst (c dst ++ l)) := by
  induction l generalizing L c with
  | nil =>
    refine ⟨L, fun n hn => ?_, ?_⟩
    · obtain ⟨n, rfl⟩ := exists_eq_succ_of_ne_zero hn.ne'
      exact if_pos ((W.listIsEmpty_iff hsrc).2 hl)
    rw [append_nil, ← hl, update_eq_self, update_eq_self]
    exact W
  | cons x l ih =>
    have hempty : ¬listIsEmpty src L = true := fun he => by
      rw [(W.listIsEmpty_iff hsrc).1 he] at hl
      simp at hl
    obtain ⟨hdel, W1⟩ := W.listDeleteHead hsrc hl
    have hxnull : x ≠ null := W.nonnull src hsrc x (by simp [hl])
    have hxfree : Free D (update c src l) x :=
      W.rings.free_of_unlink hsrc (show c src = [] ++ x :: l from hl)
    obtain ⟨L2, hadd, W2⟩ := W1.listAddTail hdst hxfree hxnull
    rw [update_of_ne hne.symm] at W2
    obtain ⟨L', hmove, W'⟩ := ih W2 (by rw [update_of_ne hne, update_self])
    refine ⟨L', fun n hn => ?_, ?_⟩
    · obtain ⟨n, rfl⟩ := exists_eq_succ_of_ne_zero (ne_of_gt (zero_lt_of_lt hn))
      rw [Sched.moveChain, if_neg hempty, hdel]
      simp only [Option.bind_eq_bind, Option.bind_some, hadd]
      exact hmove n (lt_of_succ_lt_succ hn)
    · have hc : update (update (update (update c src l) dst (c dst ++ [x])) src []) dst
          (c dst ++ [x] ++ l) = update (update c src []) dst (c dst ++ x :: l) := by
        rw [update_comm hne.symm, update_idem, update_idem, append_assoc]
        rfl
      rw [update_self, hc] at W'
      exact W'

end

end Intewell.Sched
