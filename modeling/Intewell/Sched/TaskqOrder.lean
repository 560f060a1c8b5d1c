/-
# The order of a priority wait queue

Each header has its leaders `lead i`, in ascending order of priority, and each leader the
tasks `chain t` of its priority.  Read header by header, each leader before what hangs
off it, this is one list of tasks (`flat`), in the order in which they will be dequeued.

`Rep s lead chain q` says that the nodes of `s` are linked in this way and that `q` is
the list.  Enqueuing puts a task behind all that are at least as urgent, and dequeuing
and extracting take one out (`Rep.ttosEnqueuePriority`, `Rep.ttosDequeuePriority`,
`Rep.ttosExtractPriority`).
-/

import Intewell.Sched.Taskq

namespace Intewell.Sched

open List Set
open Linked (Links Rings Free Seg mem_concat_iff)
open Function Node

variable {τ : Type*}

/-- The elements of the lists of a queue. -/
def content (lead : ℕ → List τ) (chain : τ → List τ) : Node τ → List (Node τ)
  | header i => (lead i).map resource
  | samePri t => (chain t).map resource
  | _ => []

/-- Leaders, each with what hangs off it. -/
def groups (chain : τ → List τ) (l : List τ) : List τ := l.flatMap fun t => t :: chain t

/-- All tasks, header by header. -/
def flat (lead : ℕ → List τ) (chain : τ → List τ) : List τ :=
  (range 4).flatMap fun i => groups chain (lead i)

/-- The heads of the lists: the four headers, and a list for each task of the queue. -/
def heads (q : List τ) : Set (Node τ) := {h | (∃ i < 4, h = header i) ∨ ∃ t ∈ q, h = samePri t}

/-- The nodes are linked as `lead` and `chain` say, and the tasks in order are `q`. -/
structure Rep (s : TaskQueue τ) (lead : ℕ → List τ) (chain : τ → List τ) (q : List τ) : Prop where
  lists : Lists s.links (heads q) (content lead chain)
  order : q = flat lead chain
  nodup : q.Nodup
  strict : ∀ i < 4, (lead i).Pairwise fun t u => s.taskCurPriority t < s.taskCurPriority u
  band : ∀ i < 4, ∀ t ∈ lead i, s.taskCurPriority t / 64 = i
  same : ∀ i < 4, ∀ t ∈ lead i, ∀ u ∈ chain t, s.taskCurPriority u = s.taskCurPriority t
  follower : ∀ i < 4, ∀ t ∈ lead i, ∀ u ∈ chain t, chain u = []

/-- `t` has been put into `q` behind all that are at least as urgent. -/
def Enqueued (prio : τ → ℕ) (t : τ) (q q' : List τ) : Prop :=
  ∃ X Y, q = X ++ Y ∧ q' = X ++ t :: Y ∧ (∀ x ∈ X, prio x ≤ prio t) ∧ ∀ y ∈ Y, prio t < prio y

/-- `t` has been taken out of `q`. -/
def Removed (t : τ) (q q' : List τ) : Prop := ∃ X Y, q = X ++ t :: Y ∧ q' = X ++ Y

variable {s : TaskQueue τ} {lead : ℕ → List τ} {chain chain' : τ → List τ} {q q' : List τ}
  {i : ℕ} {t u g : τ} {l A B : List τ}

theorem groups_append : groups chain (A ++ B) = groups chain A ++ groups chain B :=
  flatMap_append

theorem groups_cons : groups chain (t :: l) = t :: (chain t ++ groups chain l) := by
  simp [groups]

theorem groups_congr (h : ∀ t ∈ l, chain' t = chain t) : groups chain' l = groups chain l :=
  flatMap_congr fun t ht => by rw [h t ht]

theorem mem_groups : u ∈ groups chain l ↔ ∃ t ∈ l, u = t ∨ u ∈ chain t := by
  simp [groups]

theorem range_split (hi : i < 4) : ∃ P S, range 4 = P ++ i :: S ∧ (∀ j ∈ P, j < i) ∧
    ∀ j ∈ S, i < j ∧ j < 4 := by
  refine ⟨range i, (List.range' (i + 1) (3 - i)), ?_, by simp, fun j hj => ?_⟩
  · obtain rfl | rfl | rfl | rfl : i = 0 ∨ i = 1 ∨ i = 2 ∨ i = 3 := by omega
    all_goals rfl
  · rw [List.mem_range'_1] at hj
    omega

section

variable [DecidableEq τ]

theorem content_lead (lead : ℕ → List τ) (chain : τ → List τ) (i : ℕ) (l : List τ) :
    content (update lead i l) chain = update (content lead chain) (header i) (l.map resource) := by
  funext h
  cases h with
  | header j =>
    by_cases hj : j = i
    · simp [content, hj]
    · simp [content, hj]
  | _ => simp [content]

theorem content_chain (lead : ℕ → List τ) (chain : τ → List τ) (t : τ) (l : List τ) :
    content lead (update chain t l) = update (content lead chain) (samePri t) (l.map resource) := by
  funext h
  cases h with
  | samePri u =>
    by_cases hu : u = t
    · simp [content, hu]
    · simp [content, hu]
  | _ => simp [content]

end

namespace Rep

section
variable (h : Rep s lead chain q)
include h

theorem mem_iff : u ∈ q ↔ ∃ i < 4, ∃ t ∈ lead i, u = t ∨ u ∈ chain t := by
  simp [h.order, flat, mem_groups]

theorem lead_mem (hi : i < 4) (ht : t ∈ lead i) : t ∈ q := h.mem_iff.2 ⟨i, hi, t, ht, .inl rfl⟩

theorem chain_mem (hi : i < 4) (ht : t ∈ lead i) (hu : u ∈ chain t) : u ∈ q :=
  h.mem_iff.2 ⟨i, hi, t, ht, .inr hu⟩

end

theorem header_mem (_h : Rep s lead chain q) (hi : i < 4) : header i ∈ heads q := .inl ⟨i, hi, rfl⟩

theorem samePri_mem (_h : Rep s lead chain q) (ht : t ∈ q) : samePri t ∈ heads q :=
  .inr ⟨t, ht, rfl⟩

section
variable (h : Rep s lead chain q)
include h

theorem lead_not_mem_chain (hi : i < 4) (ht : t ∈ lead i) (hg : g ∈ q) :
    t ∉ chain g := fun hmem => by
  have := h.lists.rings.disj (header i) (h.header_mem hi) (samePri g) (h.samePri_mem hg)
    (resource t) (mem_map_of_mem ht) (mem_map_of_mem hmem)
  simp at this

theorem chain_disjoint (ht : t ∈ q) (hg : g ∈ q) (hu : u ∈ chain t) (hu' : u ∈ chain g) :
    t = g := by
  have := h.lists.rings.disj (samePri t) (h.samePri_mem ht) (samePri g) (h.samePri_mem hg)
    (resource u) (mem_map_of_mem hu) (mem_map_of_mem hu')
  simpa using this

theorem group_prio (hi : i < 4) (ht : t ∈ lead i) (hu : u = t ∨ u ∈ chain t) :
    s.taskCurPriority u = s.taskCurPriority t ∧ s.taskCurPriority u / 64 = i := by
  have hp : s.taskCurPriority u = s.taskCurPriority t := by
    rcases hu with rfl | hu
    · rfl
    · exact h.same i hi t ht u hu
  exact ⟨hp, hp ▸ h.band i hi t ht⟩

theorem lead_unique {j : ℕ} (hi : i < 4) (hj : j < 4) (ht : t ∈ lead i) (ht' : t ∈ lead j) :
    i = j := (h.band i hi t ht).symm.trans (h.band j hj t ht')

theorem lead_prio (hi : i < 4) (hl : lead i = A ++ g :: B) :
    (∀ a ∈ A, s.taskCurPriority a < s.taskCurPriority g) ∧
      ∀ b ∈ B, s.taskCurPriority g < s.taskCurPriority b := by
  have hstrict := h.strict i hi
  rw [hl] at hstrict
  obtain ⟨-, hsB, hAB⟩ := pairwise_append.1 hstrict
  exact ⟨fun a ha => hAB a ha g (.head B), (pairwise_cons.1 hsB).1⟩

end

variable [DecidableEq τ]

section

omit [DecidableEq τ]

theorem heads_insert (hq : ∀ u, u ∈ q' ↔ u = t ∨ u ∈ q) :
    heads q' = insert (samePri t) (heads q) := by
  ext h
  simp only [heads, mem_ofPred_eq, mem_insert_iff, hq]
  constructor
  · rintro (hh | ⟨u, rfl | hu, rfl⟩)
    · exact .inr (.inl hh)
    · exact .inl rfl
    · exact .inr (.inr ⟨u, hu, rfl⟩)
  · rintro (rfl | hh | ⟨u, hu, rfl⟩)
    · exact .inr ⟨t, .inl rfl, rfl⟩
    · exact .inl hh
    · exact .inr ⟨u, .inr hu, rfl⟩

theorem heads_erase (hq : ∀ u, u ∈ q' ↔ u ≠ t ∧ u ∈ q) : heads q' = heads q \ {samePri t} := by
  ext h
  simp only [heads, mem_ofPred_eq, mem_sdiff, mem_singleton_iff, hq]
  constructor
  · rintro (⟨i, hi, rfl⟩ | ⟨u, ⟨hut, hu⟩, rfl⟩)
    · exact ⟨.inl ⟨i, hi, rfl⟩, by simp⟩
    · exact ⟨.inr ⟨u, hu, rfl⟩, by simpa using hut⟩
  · rintro ⟨hh | ⟨u, hu, rfl⟩, hne⟩
    · exact .inl hh
    · exact .inr ⟨u, ⟨by simpa using hne, hu⟩, rfl⟩

/-- The tasks before and after those of one header.  Its leaders may change, and what hangs off
them. -/
theorem around (h : Rep s lead chain q) (hi : i < 4)
    (hc : ∀ j < 4, j ≠ i → ∀ t ∈ lead j, chain' t = chain t) :
    ∃ X Y, q = X ++ (groups chain (lead i) ++ Y) ∧
      (∀ M, flat (update lead i M) chain' = X ++ (groups chain' M ++ Y)) ∧
      (∀ x ∈ X, s.taskCurPriority x / 64 < i) ∧ ∀ y ∈ Y, i < s.taskCurPriority y / 64 := by
  obtain ⟨P, S, hr, hP, hS⟩ := range_split hi
  have hP' : ∀ j ∈ P, j < 4 ∧ j ≠ i := fun j hj => ⟨(hP j hj).trans hi, (hP j hj).ne⟩
  have hS' : ∀ j ∈ S, j < 4 ∧ j ≠ i := fun j hj => ⟨(hS j hj).2, (hS j hj).1.ne'⟩
  have hband : ∀ T : List ℕ, (∀ j ∈ T, j < 4 ∧ j ≠ i) →
      ∀ x ∈ T.flatMap fun j => groups chain (lead j), s.taskCurPriority x / 64 ∈ T := by
    intro T hT x hx
    obtain ⟨j, hj, hx⟩ := mem_flatMap.1 hx
    obtain ⟨t, ht, hxt⟩ := mem_groups.1 hx
    exact (h.group_prio (hT j hj).1 ht hxt).2 ▸ hj
  have hside : ∀ (M : List τ) (T : List ℕ), (∀ j ∈ T, j < 4 ∧ j ≠ i) →
      (T.flatMap fun j => groups chain' (update lead i M j)) =
        T.flatMap fun j => groups chain (lead j) :=
    fun M T hT => flatMap_congr fun j hj => by
      rw [update_of_ne (hT j hj).2, groups_congr (hc j (hT j hj).1 (hT j hj).2)]
  refine ⟨P.flatMap fun j => groups chain (lead j), S.flatMap fun j => groups chain (lead j), ?_,
    fun M => ?_, fun x hx => hP _ (hband P hP' x hx), fun y hy => (hS _ (hband S hS' y hy)).1⟩
  · rw [h.order, flat, hr, flatMap_append, flatMap_cons]
  · rw [flat, hr, flatMap_append, flatMap_cons, update_self, hside M P hP', hside M S hS']

end

variable {L' : Links (Node τ)}

section
variable (h : Rep s lead chain q)
include h

section

omit [DecidableEq τ]

/-- The leaders of one header become `M`, and what hangs off a task `chain'`. -/
theorem regroup {M : List τ}
    (hc : ∀ j < 4, j ≠ i → ∀ t ∈ lead j, chain' t = chain t ∧ ∀ u ∈ chain t, chain' u = [])
    (hM : M.Pairwise fun t u => s.taskCurPriority t < s.taskCurPriority u)
    (hMc : ∀ t ∈ M, s.taskCurPriority t / 64 = i ∧ ∀ u ∈ chain' t,
      s.taskCurPriority u = s.taskCurPriority t ∧ chain' u = [])
    (hq : q' = flat (update lead i M) chain') (hnd : q'.Nodup)
    (hL : Lists L' (heads q') (content (update lead i M) chain')) :
    Rep ⟨L', s.taskCurPriority⟩ (update lead i M) chain' q' := by
  refine ⟨hL, hq, hnd, fun j hj => ?_, fun j hj t ht => ?_, fun j hj t ht u hu => ?_,
    fun j hj t ht u hu => ?_⟩ <;> by_cases hji : j = i
  · rwa [hji, update_self]
  · rw [update_of_ne hji]
    exact h.strict j hj
  · rw [hji, update_self] at ht
    exact (hMc t ht).1.trans hji.symm
  · rw [update_of_ne hji] at ht
    exact h.band j hj t ht
  · rw [hji, update_self] at ht
    exact ((hMc t ht).2 u hu).1
  · rw [update_of_ne hji] at ht
    rw [(hc j hj hji t ht).1] at hu
    exact h.same j hj t ht u hu
  · rw [hji, update_self] at ht
    exact ((hMc t ht).2 u hu).2
  · rw [update_of_ne hji] at ht
    rw [(hc j hj hji t ht).1] at hu
    exact (hc j hj hji t ht).2 u hu

theorem group_kept (hi : i < 4) (ht : t ∈ lead i) (he : chain' t = chain t)
    (hf : ∀ u ∈ chain t, chain' u = chain u) : s.taskCurPriority t / 64 = i ∧
      ∀ u ∈ chain' t, s.taskCurPriority u = s.taskCurPriority t ∧ chain' u = [] := by
  refine ⟨h.band i hi t ht, fun u hu => ?_⟩
  rw [he] at hu
  exact ⟨h.same i hi t ht u hu, (hf u hu).trans (h.follower i hi t ht u hu)⟩

/-- A task comes between `X` and `Y`, those of the other headers and of its own. -/
theorem enqueued (hi : i < 4) (ht : t ∉ q) (hband : s.taskCurPriority t / 64 = i) {X Y : List τ}
    (hl : lead i = A ++ B) (hq : q = X ++ (groups chain (lead i) ++ Y))
    (hX : ∀ x ∈ X, s.taskCurPriority x / 64 < i) (hY : ∀ y ∈ Y, i < s.taskCurPriority y / 64)
    (hA : ∀ a ∈ A, s.taskCurPriority a ≤ s.taskCurPriority t)
    (hB : ∀ b ∈ B, s.taskCurPriority t < s.taskCurPriority b)
    (hq' : q' = X ++ (groups chain A ++ t :: (groups chain B ++ Y))) :
    Enqueued s.taskCurPriority t q q' ∧ q'.Nodup ∧ heads q' = insert (samePri t) (heads q) := by
  have hq1 : q = (X ++ groups chain A) ++ (groups chain B ++ Y) := by
    rw [hq, hl, groups_append]
    simp only [append_assoc]
  have hq2 : q' = (X ++ groups chain A) ++ t :: (groups chain B ++ Y) := by
    rw [hq', append_assoc]
  refine ⟨⟨_, _, hq1, hq2, fun x hx => ?_, fun y hy => ?_⟩, ?_, heads_insert fun u => ?_⟩
  · rcases mem_append.1 hx with hx | hx
    · have := hX x hx
      omega
    · obtain ⟨a, ha, hxa⟩ := mem_groups.1 hx
      exact (h.group_prio hi (hl ▸ mem_append_left B ha) hxa).1.trans_le (hA a ha)
  · rcases mem_append.1 hy with hy | hy
    · obtain ⟨b, hb, hyb⟩ := mem_groups.1 hy
      exact (hB b hb).trans_eq (h.group_prio hi (hl ▸ mem_append_right A hb) hyb).1.symm
    · have := hY y hy
      omega
  · rw [hq2, perm_middle.nodup_iff, ← hq1]
    exact nodup_cons.2 ⟨ht, h.nodup⟩
  · rw [hq2, perm_middle.mem_iff, ← hq1, mem_cons]

end

theorem insertLeader (hi : i < 4) (hl : lead i = A ++ B) (ht : t ∉ q)
    (hA : ∀ a ∈ A, s.taskCurPriority a < s.taskCurPriority t)
    (hB : ∀ b ∈ B, s.taskCurPriority t < s.taskCurPriority b) (hband : s.taskCurPriority t / 64 = i)
    {L' : Links (Node τ)}
    (hL : Lists L' (insert (samePri t) (heads q))
      (content (update lead i (A ++ t :: B)) (update chain t [])))
    : ∃ q', Rep ⟨L', s.taskCurPriority⟩ (update lead i (A ++ t :: B)) (update chain t []) q' ∧
      Enqueued s.taskCurPriority t q q' := by
  have hold : ∀ u ∈ q, update chain t [] u = chain u := fun u hu =>
    update_of_ne (ne_of_mem_of_not_mem hu ht) _ _
  have hlead : ∀ j < 4, ∀ u ∈ lead j, update chain t [] u = chain u := fun j hj u hu =>
    hold u (h.lead_mem hj hu)
  have hfollow : ∀ j < 4, ∀ u ∈ lead j, ∀ v ∈ chain u, update chain t [] v = chain v :=
    fun j hj u hu v hv => hold v (h.chain_mem hj hu hv)
  obtain ⟨X, Y, hq, hflat, hX, hY⟩ := h.around hi fun j hj _ => hlead j hj
  obtain ⟨henq, hnd, hheads⟩ := h.enqueued hi ht hband hl hq hX hY (fun a ha => (hA a ha).le) hB rfl
  refine ⟨_, h.regroup (fun j hj _ u hu => ⟨hlead j hj u hu, fun v hv => ?_⟩) ?_ (fun u hu => ?_) ?_
    hnd (hheads ▸ hL), henq⟩
  · exact (hfollow j hj u hu v hv).trans (h.follower j hj u hu v hv)
  · have hstrict := h.strict i hi
    rw [hl] at hstrict
    obtain ⟨hsA, hsB, hAB⟩ := pairwise_append.1 hstrict
    refine pairwise_append.2 ⟨hsA, pairwise_cons.2 ⟨hB, hsB⟩, fun a ha b hb => ?_⟩
    rcases mem_cons.1 hb with rfl | hb
    · exact hA a ha
    · exact hAB a ha b hb
  · rcases mem_cons.1 (perm_middle.mem_iff.1 hu) with rfl | hu
    · refine ⟨hband, fun v hv => ?_⟩
      rw [update_self] at hv
      cases hv
    · rw [← hl] at hu
      exact h.group_kept hi hu (hlead i hi u hu) (hfollow i hi u hu)
  · rw [hflat, groups_append, groups_cons, update_self,
      groups_congr fun u hu => hlead i hi u (by simp [hl, hu]),
      groups_congr fun u hu => hlead i hi u (by simp [hl, hu])]
    simp

theorem appendChain (hi : i < 4) (hl : lead i = A ++ g :: B) (ht : t ∉ q)
    (hp : s.taskCurPriority t = s.taskCurPriority g) {L' : Links (Node τ)}
    (hL : Lists L' (insert (samePri t) (heads q))
      (content lead (update (update chain t []) g (chain g ++ [t]))))
    : ∃ q', Rep ⟨L', s.taskCurPriority⟩ lead (update (update chain t []) g (chain g ++ [t])) q' ∧
      Enqueued s.taskCurPriority t q q' := by
  have hg : g ∈ lead i := by simp [hl]
  have hgt : g ≠ t := ne_of_mem_of_not_mem (h.lead_mem hi hg) ht
  obtain ⟨hA, hB⟩ := h.lead_prio hi hl
  set chain' := update (update chain t []) g (chain g ++ [t])
  have hold : ∀ u ∈ q, u ≠ g → chain' u = chain u := fun u hu hug =>
    (update_of_ne hug _ _).trans (update_of_ne (ne_of_mem_of_not_mem hu ht) _ _)
  have hfollow : ∀ j < 4, ∀ u ∈ lead j, ∀ v ∈ chain u, chain' v = chain v := fun j hj u hu v hv =>
    hold v (h.chain_mem hj hu hv) fun he =>
      h.lead_not_mem_chain hi hg (h.lead_mem hj hu) (he ▸ hv)
  have hlead : ∀ j < 4, j ≠ i → ∀ u ∈ lead j, chain' u = chain u := fun j hj hji u hu =>
    hold u (h.lead_mem hj hu) fun he => hji (h.lead_unique hj hi (he ▸ hu) hg)
  obtain ⟨X, Y, hq, hflat, hX, hY⟩ := h.around hi hlead
  have hAg : ∀ a ∈ A ++ [g], s.taskCurPriority a ≤ s.taskCurPriority t := fun a ha => by
    rcases mem_append.1 ha with ha | ha
    · exact hp ▸ (hA a ha).le
    · exact (congrArg _ (mem_singleton.1 ha)).trans_le hp.ge
  obtain ⟨henq, hnd, hheads⟩ := h.enqueued hi ht (hp ▸ h.band i hi g hg) (by simp [hl]) hq hX hY hAg
    (fun b hb => hp ▸ hB b hb) rfl
  have hrep : Rep ⟨L', _⟩ (update lead i (lead i)) chain' _ := h.regroup
    (fun j hj hji u hu => ⟨hlead j hj hji u hu, fun v hv => ?_⟩) (h.strict i hi) (fun u hu => ?_) ?_
    hnd (by rwa [hheads, update_eq_self])
  · rw [update_eq_self] at hrep
    exact ⟨_, hrep, henq⟩
  · exact (hfollow j hj u hu v hv).trans (h.follower j hj u hu v hv)
  · by_cases hug : u = g
    · subst hug
      refine ⟨h.band i hi u hu, fun v hv => ?_⟩
      rw [show chain' u = chain u ++ [t] from update_self .., mem_concat_iff, mem_cons] at hv
      rcases hv with rfl | hv
      · exact ⟨hp, (update_of_ne hgt.symm _ _).trans (update_self ..)⟩
      · exact ⟨h.same i hi u hu v hv, (hfollow i hi u hu v hv).trans (h.follower i hi u hu v hv)⟩
    · exact h.group_kept hi hu (hold u (h.lead_mem hi hu) hug) (hfollow i hi u hu)
  · have hne : ∀ u ∈ lead i, s.taskCurPriority u ≠ s.taskCurPriority g → chain' u = chain u :=
      fun u hu hug => hold u (h.lead_mem hi hu) fun he => hug (congrArg _ he)
    have hAc : groups chain' A = groups chain A :=
      groups_congr fun u hu => hne u (by simp [hl, hu]) (hA u hu).ne
    have hBc : groups chain' B = groups chain B :=
      groups_congr fun u hu => hne u (by simp [hl, hu]) (hB u hu).ne'
    have hgc : chain' g = chain g ++ [t] := update_self ..
    simp only [hflat, hl, groups_append, groups_cons, hAc, hBc, hgc]
    simp [groups]

end

omit [DecidableEq τ] in
theorem removed_mem (hq : q = A ++ t :: B) (hnd : q.Nodup) (u : τ) :
    u ∈ A ++ B ↔ u ≠ t ∧ u ∈ q := by
  rw [hq, perm_middle.nodup_iff, nodup_cons] at hnd
  rw [hq, perm_middle.mem_iff, mem_cons]
  refine ⟨fun hu => ⟨ne_of_mem_of_not_mem hu hnd.1, .inr hu⟩, fun ⟨hne, hu⟩ => hu.resolve_left hne⟩

section
variable (h : Rep s lead chain q)
include h

section

omit [DecidableEq τ]

theorem removed {X Y : List τ} (hq : q = X ++ t :: Y) (hq' : q' = X ++ Y) :
    Removed t q q' ∧ q'.Nodup ∧ heads q' = heads q \ {samePri t} := by
  have hnd := h.nodup
  rw [hq, perm_middle.nodup_iff] at hnd
  exact ⟨⟨X, Y, hq, hq'⟩, hq' ▸ hnd.of_cons, hq' ▸ heads_erase (removed_mem hq h.nodup)⟩

theorem removeLeader (hi : i < 4) (hl : lead i = A ++ t :: B) (hc : chain t = [])
    (hL : Lists L' (heads q \ {samePri t}) (content (update lead i (A ++ B)) chain)) :
    ∃ q', Rep ⟨L', s.taskCurPriority⟩ (update lead i (A ++ B)) chain q' ∧ Removed t q q' := by
  obtain ⟨X, Y, hq, hflat, -, -⟩ := h.around hi fun _ _ _ t _ => (rfl : chain t = _)
  have hq1 : q = (X ++ groups chain A) ++ t :: (groups chain B ++ Y) := by
    rw [hq, hl, groups_append, groups_cons, hc]
    simp
  obtain ⟨hrem, hnd, hheads⟩ := h.removed hq1 rfl
  refine ⟨_, h.regroup (fun j hj _ u hu => ⟨rfl, h.follower j hj u hu⟩) ?_ (fun u hu => ?_) ?_ hnd
    (hheads ▸ hL), hrem⟩
  · exact (hl ▸ h.strict i hi).sublist ((List.Sublist.refl A).append (sublist_cons_self t B))
  · have hu' : u ∈ lead i := hl ▸ perm_middle.mem_iff.2 (.tail t hu)
    exact h.group_kept hi hu' rfl fun _ _ => rfl
  · rw [hflat, groups_append]
    simp only [append_assoc]

end

theorem promote (hi : i < 4) (hl : lead i = A ++ t :: B) {C : List τ} (hc : chain t = u :: C)
    {L' : Links (Node τ)}
    (hL : Lists L' (heads q \ {samePri t})
      (content (update lead i (A ++ u :: B)) (update (update chain t []) u C)))
    :
    ∃ q', Rep ⟨L', s.taskCurPriority⟩ (update lead i (A ++ u :: B)) (update (update chain t []) u C)
      q' ∧
      Removed t q q' := by
  have htl : t ∈ lead i := by simp [hl]
  have htq := h.lead_mem hi htl
  have huc : u ∈ chain t := by simp [hc]
  have hup := h.same i hi t htl u huc
  obtain ⟨hA, hB⟩ := h.lead_prio hi hl
  set chain' := update (update chain t []) u C
  have hother : ∀ j < 4, ∀ v ∈ lead j, v ≠ t → chain' v = chain v := fun j hj v hv hvt => by
    have hvu : v ≠ u := fun he => h.lead_not_mem_chain hj hv htq (he ▸ huc)
    exact (update_of_ne hvu _ _).trans (update_of_ne hvt _ _)
  have hlead : ∀ j < 4, j ≠ i → ∀ v ∈ lead j, v ≠ t := fun j hj hji v hv he =>
    hji (h.lead_unique hj hi (he ▸ hv) htl)
  have hnil : ∀ v ≠ u, chain v = [] → chain' v = [] := fun v hvu hv => by
    refine (update_of_ne hvu _ _).trans ?_
    by_cases hvt : v = t
    · rw [hvt, update_self]
    · rw [update_of_ne hvt, hv]
  have hfollow : ∀ j < 4, ∀ v ∈ lead j, v ≠ t → ∀ k ∈ chain v, chain' k = [] :=
    fun j hj v hv hvt k hk => hnil k (fun he => hvt
      (h.chain_disjoint (h.lead_mem hj hv) htq (he ▸ hk) huc)) (h.follower j hj v hv k hk)
  obtain ⟨X, Y, hq, hflat, -, -⟩ := h.around hi fun j hj hji v hv =>
    hother j hj v hv (hlead j hj hji v hv)
  have hq1 : q = (X ++ groups chain A) ++ t :: (u :: (C ++ (groups chain B ++ Y))) := by
    rw [hq, hl, groups_append, groups_cons, hc]
    simp
  obtain ⟨hrem, hnd, hheads⟩ := h.removed hq1 rfl
  have hne : ∀ v ∈ lead i, s.taskCurPriority v ≠ s.taskCurPriority t → v ≠ t := fun v _ hvt he =>
    hvt (congrArg _ he)
  refine ⟨_, h.regroup (fun j hj hji v hv => ?_) ?_ (fun v hv => ?_) ?_ hnd (hheads ▸ hL), hrem⟩
  · exact ⟨hother j hj v hv (hlead j hj hji v hv), hfollow j hj v hv (hlead j hj hji v hv)⟩
  · obtain ⟨hsA, hsB, hAB⟩ := pairwise_append.1 (hl ▸ h.strict i hi)
    refine pairwise_append.2 ⟨hsA, pairwise_cons.2 ⟨fun b hb => hup ▸ hB b hb, hsB.of_cons⟩,
      fun a ha b hb => ?_⟩
    rcases mem_cons.1 hb with rfl | hb
    · exact hup ▸ hA a ha
    · exact hAB a ha b (.tail t hb)
  · rcases mem_cons.1 (perm_middle.mem_iff.1 hv) with rfl | hv
    · have hnd' : (v :: C).Nodup := hc ▸ (h.lists.rings.nodup _ (h.samePri_mem htq)).of_map
      refine ⟨hup ▸ h.band i hi t htl, fun k hk => ?_⟩
      rw [show chain' v = C from update_self ..] at hk
      have hk' : k ∈ chain t := hc ▸ .tail v hk
      exact ⟨(h.same i hi t htl k hk').trans hup.symm,
        hnil k (ne_of_mem_of_not_mem hk (nodup_cons.1 hnd').1) (h.follower i hi t htl k hk')⟩
    · have hvl : v ∈ lead i := hl ▸ perm_middle.mem_iff.2 (.tail t hv)
      have hvt := hne v hvl ((mem_append.1 hv).elim (fun hv => (hA v hv).ne) fun hv =>
        (hB v hv).ne')
      refine ⟨h.band i hi v hvl, fun k hk => ?_⟩
      rw [hother i hi v hvl hvt] at hk
      exact ⟨h.same i hi v hvl k hk, hfollow i hi v hvl hvt k hk⟩
  · rw [hflat, groups_append, groups_cons, show chain' u = C from update_self ..,
      groups_congr fun v hv => hother i hi v (by simp [hl, hv])
        (hne v (by simp [hl, hv]) (hA v hv).ne),
      groups_congr fun v hv => hother i hi v (by simp [hl, hv])
        (hne v (by simp [hl, hv]) (hB v hv).ne')]
    simp

theorem removeFollower (hi : i < 4) (hl : lead i = A ++ g :: B) {C1 C2 : List τ}
    (hc : chain g = C1 ++ t :: C2)
    (hL : Lists L' (heads q \ {samePri t}) (content lead (update chain g (C1 ++ C2)))) :
    ∃ q', Rep ⟨L', s.taskCurPriority⟩ lead (update chain g (C1 ++ C2)) q' ∧ Removed t q q' := by
  have hgl : g ∈ lead i := by simp [hl]
  obtain ⟨hA, hB⟩ := h.lead_prio hi hl
  set chain' := update chain g (C1 ++ C2)
  have hlead : ∀ j < 4, j ≠ i → ∀ v ∈ lead j, chain' v = chain v := fun j hj hji v hv =>
    update_of_ne (fun he => hji (h.lead_unique hj hi (he ▸ hv) hgl)) _ _
  have hsub : ∀ v, ∀ k ∈ chain' v, k ∈ chain v := by
    intro v k hk
    by_cases hvg : v = g
    · subst hvg
      rw [show chain' v = C1 ++ C2 from update_self ..] at hk
      exact hc ▸ perm_middle.mem_iff.2 (.tail t hk)
    · rwa [show chain' v = chain v from update_of_ne hvg _ _] at hk
  have hfollow : ∀ j < 4, ∀ v ∈ lead j, ∀ k ∈ chain v, chain' k = [] := fun j hj v hv k hk => by
    have hkg : k ≠ g := fun he => h.lead_not_mem_chain hi hgl (h.lead_mem hj hv) (he ▸ hk)
    exact (update_of_ne hkg _ _).trans (h.follower j hj v hv k hk)
  obtain ⟨X, Y, hq, hflat, -, -⟩ := h.around hi hlead
  have hq1 : q = (X ++ (groups chain A ++ g :: C1)) ++ t :: (C2 ++ (groups chain B ++ Y)) := by
    rw [hq, hl, groups_append, groups_cons, hc]
    simp
  obtain ⟨hrem, hnd, hheads⟩ := h.removed hq1 rfl
  have hrep : Rep ⟨L', _⟩ (update lead i (lead i)) chain' _ := h.regroup
    (fun j hj hji v hv => ⟨hlead j hj hji v hv, hfollow j hj v hv⟩) (h.strict i hi)
    (fun v hv => ⟨h.band i hi v hv, fun k hk => ?_⟩) ?_ hnd (by rwa [hheads, update_eq_self])
  · rw [update_eq_self] at hrep
    exact ⟨_, hrep, hrem⟩
  · exact ⟨h.same i hi v hv k (hsub v k hk), hfollow i hi v hv k (hsub v k hk)⟩
  · have hne : ∀ v, s.taskCurPriority v ≠ s.taskCurPriority g → chain' v = chain v :=
      fun v hvg => update_of_ne (fun he => hvg (congrArg _ he)) _ _
    rw [hflat, hl, groups_append, groups_cons, show chain' g = C1 ++ C2 from update_self ..,
      groups_congr fun v hv => hne v (hA v hv).ne, groups_congr fun v hv => hne v (hB v hv).ne']
    simp

end

end Rep
end Intewell.Sched
