/-
# The operations of a priority wait queue

What `ttosEnqueuePriority`, `ttosDequeuePriority`, `ttosExtractPriority` and
`taskChangePriority` do to the order of the tasks.  The two loops that look for the place
of a task stop where they should (`search_back`, `search_forward`); the rest is which
list the task is put into or taken out of.
-/

import Intewell.Sched.TaskqOrder
import Mathlib.Data.List.Induction
import Mathlib.Data.List.Perm.Subperm

namespace Intewell.Sched

open List
open Linked (Links Rings Free Seg mem_concat_iff)
open Function Node

variable {τ : Type*} [DecidableEq τ]

/-! ## The loops -/

/-- The node of the last task of a list. -/
def lastOf (l : List τ) : Node τ := l.getLast?.elim null resource

/-- The node of the first task of a list. -/
def firstOf (l : List τ) : Node τ := l.head?.elim null resource

variable {L : Links (Node τ)} {i n : ℕ} {A B l : List τ} {t : τ} {h : Node τ}

theorem listTail_eq (hs : Seg L.next L.prev h (l.map resource) h) (hh : ∀ t, resource t ≠ h) :
    listTail h L = lastOf l := by
  rw [listTail, hs.prev_eq_getLast]
  rcases eq_nil_or_concat l with rfl | ⟨A, t, rfl⟩
  · simp [lastOf]
  · simp [lastOf, hh]

theorem listPrev_eq (hs : Seg L.next L.prev h ((A ++ t :: B).map resource) h)
    (hh : ∀ t, resource t ≠ h) : listPrev (resource t) h L = lastOf A := by
  rw [map_append, map_cons] at hs
  rw [listPrev, (Seg.append.1 hs).1.prev_eq_getLast]
  rcases eq_nil_or_concat A with rfl | ⟨A, u, rfl⟩
  · simp [lastOf]
  · simp [lastOf, hh]

theorem listFirst_eq (hs : Seg L.next L.prev h (l.map resource) h) (hh : ∀ t, resource t ≠ h) :
    listFirst h L = firstOf l := by
  rw [listFirst]
  cases l with
  | nil => simp [firstOf, hs.1]
  | cons t l => simp [firstOf, hs.1, hh]

theorem listNext_eq (hs : Seg L.next L.prev h ((A ++ t :: B).map resource) h)
    (hh : ∀ t, resource t ≠ h) : listNext (resource t) h L = firstOf B := by
  rw [map_append, map_cons] at hs
  have hs := (Seg.append.1 hs).2
  rw [listNext]
  cases B with
  | nil => simp [firstOf, hs.1]
  | cons u B => simp [firstOf, hs.1, hh]

section

omit [DecidableEq τ]

/-- A search that meets a task, once it has a round for each task of `l` and one more. -/
theorem search_cons {follow : Node τ → Node τ} {stop : τ → Prop} [DecidablePred stop] {g : τ}
    (hn : l.length + 1 < n) : ∃ k, l.length < k ∧ search follow stop n (resource g) =
      if stop g then some (resource g) else search follow stop k (follow (resource g)) := by
  obtain ⟨n, rfl⟩ := Nat.exists_eq_succ_of_ne_zero (show n ≠ 0 by omega)
  exact ⟨n, by omega, rfl⟩

theorem search_null {follow : Node τ → Node τ} {stop : τ → Prop} [DecidablePred stop] (hn : 0 < n) :
    search follow stop n null = some null := by
  obtain ⟨n, rfl⟩ := Nat.exists_eq_succ_of_ne_zero hn.ne'
  rfl

end

section
variable (stop : τ → Prop) [DecidablePred stop] (hs : Seg L.next L.prev h ((A ++ B).map resource) h)
  (hh : ∀ t, resource t ≠ h)
include stop hs hh

theorem search_back :
    ∃ r, (∀ n, A.length < n → search (fun r => listPrev r h L) stop n (lastOf A) = some r) ∧
      ((∃ A' g B', A = A' ++ g :: B' ∧ stop g ∧ (∀ b ∈ B', ¬stop b) ∧ r = resource g) ∨
        (∀ a ∈ A, ¬stop a) ∧ r = null) := by
  induction A using reverseRecOn generalizing B with
  | nil => exact ⟨null, fun n => search_null, .inr ⟨by simp, rfl⟩⟩
  | append_singleton A g ih =>
    have hs' : Seg L.next L.prev h ((A ++ g :: B).map resource) h := by simpa using hs
    have hstep : ∀ n, (A ++ [g]).length < n → ∃ k, A.length < k ∧
        search (fun r => listPrev r h L) stop n (lastOf (A ++ [g])) =
          if stop g then some (resource g) else search (fun r => listPrev r h L) stop k
            (lastOf A) := by
      intro n hn
      have hlast : lastOf (A ++ [g]) = resource g := by simp [lastOf]
      rw [hlast, ← listPrev_eq hs' hh]
      exact search_cons (by simpa using hn)
    by_cases hg : stop g
    · simp only [hg, if_true] at hstep
      exact ⟨_, fun n hn => (hstep n hn).choose_spec.2, .inl ⟨A, g, [], rfl, hg, by simp, rfl⟩⟩
    · simp only [hg, if_false] at hstep
      obtain ⟨r, hr, hcase⟩ := ih hs'
      refine ⟨r, fun n hn => ?_, hcase.imp ?_ ?_⟩
      · obtain ⟨k, hk, he⟩ := hstep n hn
        exact he.trans (hr k hk)
      · rintro ⟨A', k, B', hA, hk, hB', rfl⟩
        refine ⟨A', k, B' ++ [g], by simp [hA], hk, fun b hb => ?_, rfl⟩
        rcases mem_append.1 hb with hb | hb
        · exact hB' b hb
        · exact mem_singleton.1 hb ▸ hg
      · refine fun ⟨hA, hnull⟩ => ⟨fun a ha => ?_, hnull⟩
        rcases mem_append.1 ha with ha | ha
        · exact hA a ha
        · exact mem_singleton.1 ha ▸ hg

theorem search_forward :
    ∃ r, (∀ n, B.length < n → search (fun r => listNext r h L) stop n (firstOf B) = some r) ∧
      ((∃ B' g B'', B = B' ++ g :: B'' ∧ stop g ∧ (∀ b ∈ B', ¬stop b) ∧ r = resource g) ∨
        (∀ b ∈ B, ¬stop b) ∧ r = null) := by
  induction B generalizing A with
  | nil => exact ⟨null, fun n => search_null, .inr ⟨by simp, rfl⟩⟩
  | cons g B ih =>
    have hstep : ∀ n, (g :: B).length < n → ∃ k, B.length < k ∧
        search (fun r => listNext r h L) stop n (firstOf (g :: B)) =
          if stop g then some (resource g) else search (fun r => listNext r h L) stop k
            (firstOf B) := by
      intro n hn
      rw [← listNext_eq hs hh]
      exact search_cons hn
    by_cases hg : stop g
    · simp only [hg, if_true] at hstep
      exact ⟨_, fun n hn => (hstep n hn).choose_spec.2, .inl ⟨[], g, B, rfl, hg, by simp, rfl⟩⟩
    · simp only [hg, if_false] at hstep
      have hs' : Seg L.next L.prev h ((A ++ [g] ++ B).map resource) h := by simpa using hs
      obtain ⟨r, hr, hcase⟩ := ih hs'
      refine ⟨r, fun n hn => ?_, hcase.imp ?_ ?_⟩
      · obtain ⟨k, hk, he⟩ := hstep n hn
        exact he.trans (hr k hk)
      · rintro ⟨B', k, B'', hB, hk, hB', rfl⟩
        exact ⟨g :: B', k, B'', by simp [hB], hk, by simpa [hg] using hB', rfl⟩
      · exact fun ⟨hB, hnull⟩ => ⟨by simpa [hg] using hB, hnull⟩

end

/-! ## Enqueuing -/

variable {s : TaskQueue τ} {lead : ℕ → List τ} {chain : τ → List τ} {q : List τ} {u g : τ}

section
variable (hr : Rep s lead chain q)
include hr

section

omit [DecidableEq τ]

theorem Rep.chain_mem' (ht : t ∈ q) (hu : u ∈ chain t) : u ∈ q := by
  obtain ⟨i, hi, g, hg, rfl | htg⟩ := hr.mem_iff.1 ht
  · exact hr.chain_mem hi hg hu
  · rw [hr.follower i hi g hg t htg] at hu
    simp at hu

theorem Rep.lead_length_le (hi : i < 4) : (lead i).length ≤ q.length := by
  have hnd : (lead i).Nodup := List.Nodup.of_map _ (hr.lists.rings.nodup _ (hr.header_mem hi))
  exact (subperm_of_subset hnd fun t => hr.lead_mem hi).length_le

end

theorem Rep.init (ht : t ∉ q) :
    Lists (INIT_LIST_HEAD (samePri t) s.links) (insert (samePri t) (heads q))
      (content lead (update chain t [])) ∧
    Free (insert (samePri t) (heads q)) (content lead (update chain t [])) (resource t) := by
  have hnode : ∀ h ∈ heads q, resource t ∉ content lead chain h := by
    rintro h (⟨i, hi, rfl⟩ | ⟨u, hu, rfl⟩) hmem
    · obtain ⟨v, hv, hvt⟩ := mem_map.1 hmem
      exact ht (Node.resource.inj hvt ▸ hr.lead_mem hi hv)
    · obtain ⟨v, hv, hvt⟩ := mem_map.1 hmem
      exact ht (Node.resource.inj hvt ▸ hr.chain_mem' hu hv)
  have hfree : Free (heads q) (content lead chain) (samePri t) := by
    refine ⟨?_, ?_⟩
    · rintro (⟨i, hi, he⟩ | ⟨u, hu, he⟩)
      · cases he
      · exact ht (Node.samePri.inj he ▸ hu)
    · rintro h (⟨i, hi, rfl⟩ | ⟨u, hu, rfl⟩) <;> simp [content]
  rw [content_chain]
  refine ⟨hr.lists.init hfree, ⟨?_, fun h hh => ?_⟩⟩
  · simp [heads]
  · rcases hh with rfl | hh
    · simp
    · rw [update_of_ne (ne_of_mem_of_not_mem hh hfree.1)]
      exact hnode h hh

end

/-- Where the search leads: the task hangs off a leader of its priority, or is a leader
between the more and the less urgent ones. -/
inductive Placed (lead : ℕ → List τ) (prio : τ → ℕ) (t : τ) (i : ℕ) (D : Set (Node τ))
    (c : Node τ → List (Node τ)) (L' : Links (Node τ)) : Prop where
  | chain (A : List τ) (g : τ) (B : List τ) (hl : lead i = A ++ g :: B) (hp : prio t = prio g)
      (W : Lists L' D (update c (samePri g) (c (samePri g) ++ [resource t])))
  | leader (A B : List τ) (hl : lead i = A ++ B) (hA : ∀ a ∈ A, prio a < prio t)
      (hB : ∀ b ∈ B, prio t < prio b)
      (W : Lists L' D (update c (header i) (A.map resource ++ resource t :: B.map resource)))

section

variable {D : Set (Node τ)} {c : Node τ → List (Node τ)} {prio : τ → ℕ} (W : Lists L D c)
  (hhead : header i ∈ D) (hc : c (header i) = (lead i).map resource)
  (hsame : ∀ g ∈ lead i, samePri g ∈ D) (hfree : Free D c (resource t))
  (hstrict : (lead i).Pairwise fun u v => prio u < prio v)
include W hhead hc hsame hfree hstrict

theorem placeFromTail_spec :
    ∃ L', (∀ n, (lead i).length < n → placeFromTail n t (header i) prio L = some L') ∧
      Placed lead prio t i D c L' := by
  have hseg := W.rings.seg (header i) hhead
  rw [hc] at hseg
  simp only [placeFromTail, listTail_eq hseg (by simp)]
  obtain ⟨r, hres, ⟨A, g, B, hl, hg, hB, rfl⟩ | ⟨hA, rfl⟩⟩ :=
    search_back (fun u => prio u ≤ prio t) (B := []) (by simpa using hseg) (by simp)
  · rw [hl] at hstrict
    by_cases hpg : prio t = prio g
    · obtain ⟨L', hadd, hW⟩ := W.listAddTail (hsame g (by simp [hl])) hfree (by simp)
      exact ⟨L', fun n hn => by rw [hres n hn]; simp [hpg, hadd], .chain A g B hl hpg hW⟩
    · rw [hl, map_append, map_cons] at hc
      obtain ⟨L', hadd, hW⟩ := W.listAddAfter hhead hfree (by simp) hc
      refine ⟨L', fun n hn => by simp [hres n hn, hpg, hadd], .leader (A ++ [g]) B (by simp [hl])
        (fun a ha => ?_) (fun b hb => Nat.lt_of_not_le (hB b hb)) (by simpa using hW)⟩
      rcases mem_append.1 ha with ha | ha
      · have := (pairwise_append.1 hstrict).2.2 a ha g (.head B)
        omega
      · rw [mem_singleton.1 ha]
        omega
  · obtain ⟨L', hadd, hW⟩ := W.listAddHead hhead hfree (by simp)
    exact ⟨L', fun n hn => by simp [hres n hn, hadd], .leader [] (lead i) rfl (by simp)
      (fun b hb => Nat.lt_of_not_le (hA b hb)) (by simpa [hc] using hW)⟩

theorem placeFromHead_spec :
    ∃ L', (∀ n, (lead i).length < n → placeFromHead n t (header i) prio L = some L') ∧
      Placed lead prio t i D c L' := by
  have hseg := W.rings.seg (header i) hhead
  rw [hc] at hseg
  simp only [placeFromHead, listFirst_eq hseg (by simp)]
  obtain ⟨r, hres, ⟨A, g, B, hl, hg, hA, rfl⟩ | ⟨hA, rfl⟩⟩ :=
    search_forward (fun u => prio u ≥ prio t) (A := []) hseg (by simp)
  · rw [hl] at hstrict
    by_cases hpg : prio t = prio g
    · obtain ⟨L', hadd, hW⟩ := W.listAddTail (hsame g (by simp [hl])) hfree (by simp)
      exact ⟨L', fun n hn => by rw [hres n hn]; simp [hpg, hadd], .chain A g B hl hpg hW⟩
    · rw [hl, map_append, map_cons] at hc
      obtain ⟨L', hadd, hW⟩ := W.listAddBefore hhead hfree (by simp) hc
      refine ⟨L', fun n hn => by simp [hres n hn, hpg, hadd], .leader A (g :: B) hl
        (fun a ha => Nat.lt_of_not_le (hA a ha)) (fun b hb => ?_) (by simpa using hW)⟩
      rcases mem_cons.1 hb with rfl | hb
      · omega
      · have := (pairwise_cons.1 (pairwise_append.1 hstrict).2.1).1 b hb
        omega
  · obtain ⟨L', hadd, hW⟩ := W.listAddTail hhead hfree (by simp)
    exact ⟨L', fun n hn => by simp [hres n hn, hadd], .leader (lead i) [] (by simp)
      (fun a ha => Nat.lt_of_not_le (hA a ha)) (by simp) (by simpa [hc] using hW)⟩

end

/-- **Enqueuing puts a task behind all that are at least as urgent.** -/
theorem Rep.ttosEnqueuePriority (hr : Rep s lead chain q) (ht : t ∉ q)
    (hp : s.taskCurPriority t < 256) : ∃ L' lead' chain' q',
      (∀ n, q.length < n → ttosEnqueuePriority n t s = some ⟨L', s.taskCurPriority⟩) ∧
      Rep ⟨L', s.taskCurPriority⟩ lead' chain' q' ∧ Enqueued s.taskCurPriority t q q' := by
  obtain ⟨W, hfree⟩ := hr.init ht
  set i := s.taskCurPriority t / 64 with hidef
  have hi : i < 4 := by omega
  have hhead : header i ∈ insert (samePri t) (heads q) := .inr (hr.header_mem hi)
  have hsame : ∀ g ∈ lead i, samePri g ∈ insert (samePri t) (heads q) := fun g hg =>
    .inr (hr.samePri_mem (hr.lead_mem hi hg))
  have hplaced : ∃ L',
      (∀ n, q.length < n → Sched.ttosEnqueuePriority n t s = some ⟨L', s.taskCurPriority⟩) ∧
      Placed lead s.taskCurPriority t i (insert (samePri t) (heads q))
        (content lead (update chain t [])) L' := by
    by_cases hrev : 32 ≤ s.taskCurPriority t % 64
    on_goal 1 => obtain ⟨L', heq, hL'⟩ :=
      placeFromTail_spec W hhead rfl hsame hfree (hr.strict i hi)
    on_goal 2 => obtain ⟨L', heq, hL'⟩ :=
      placeFromHead_spec W hhead rfl hsame hfree (hr.strict i hi)
    all_goals
      refine ⟨L', fun n hn => ?_, hL'⟩
      have := heq n ((hr.lead_length_le hi).trans_lt hn)
      simp [Sched.ttosEnqueuePriority, TTOS_QUEUE_DATA_PRIORITIES_PER_HEADER,
        TTOS_QUEUE_DATA_REVERSE_SEARCH_LEVEL, hrev, ← hidef, this]
  obtain ⟨L', heq, hL'⟩ := hplaced
  cases hL' with
  | chain A g B hl hpg hW =>
    have hg : g ≠ t := ne_of_mem_of_not_mem (hr.lead_mem hi (by simp [hl])) ht
    have hcont : content lead (update chain t []) (samePri g) ++ [resource t] =
        (chain g ++ [t]).map resource := by simp [content, hg]
    rw [hcont, ← content_chain] at hW
    obtain ⟨q', hr', hq'⟩ := hr.appendChain hi hl ht hpg hW
    exact ⟨L', _, _, q', heq, hr', hq'⟩
  | leader A B hl hA hB hW =>
    rw [← map_cons, ← map_append, ← content_lead] at hW
    obtain ⟨q', hr', hq'⟩ := hr.insertLeader hi hl ht hA hB hidef.symm hW
    exact ⟨L', _, _, q', heq, hr', hq'⟩

/-! ## Dequeuing -/

section
variable (hr : Rep s lead chain q)
include hr

omit [DecidableEq τ] in
theorem Rep.samePri_content (hi : i < 4) (ht : t ∈ lead i) (hu : u ∈ chain t) :
    content lead chain (samePri u) = [] := by
  simp [content, hr.follower i hi t ht u hu]

theorem Rep.header_empty (hi : i < 4) : listIsEmpty (header i) s.links = decide (lead i = []) := by
  rw [Bool.eq_iff_iff, hr.lists.listIsEmpty_iff (hr.header_mem hi), decide_eq_true_iff]
  simp [content]

theorem Rep.first : (q = [] ∧ firstNode s.links = null) ∨
    ∃ i < 4, ∃ t B, lead i = t :: B ∧ firstNode s.links = resource t ∧ q.head? = some t := by
  have hfirst : ∀ i < 4, listFirst (header i) s.links = firstOf (lead i) := fun i hi =>
    listFirst_eq (hr.lists.rings.seg _ (hr.header_mem hi)) (by simp)
  have hq : q = groups chain (lead 0) ++ (groups chain (lead 1) ++
      (groups chain (lead 2) ++ groups chain (lead 3))) := by
    rw [hr.order, flat, show range 4 = [0, 1, 2, 3] from rfl]
    simp
  have hfind : firstNode s.links = firstOf (lead 0 ++ (lead 1 ++ (lead 2 ++ lead 3))) := by
    rw [firstNode, show range TTOS_QUEUE_DATA_NUMBER_OF_PRIORITY_HEADERS = [0, 1, 2, 3] from rfl]
    simp only [find?_cons, find?_nil, hr.header_empty (show 0 < 4 by omega),
      hr.header_empty (show 1 < 4 by omega), hr.header_empty (show 2 < 4 by omega),
      hr.header_empty (show 3 < 4 by omega)]
    cases h0 : lead 0 <;> cases h1 : lead 1 <;> cases h2 : lead 2 <;> cases h3 : lead 3 <;>
      simp [hfirst, h0, h1, h2, h3, firstOf]
  rw [hfind]
  cases h0 : lead 0 with
  | cons t B => exact .inr ⟨0, by omega, t, B, h0, by simp [firstOf], by simp [hq, h0, groups_cons]⟩
  | nil =>
    cases h1 : lead 1 with
    | cons t B =>
      exact .inr ⟨1, by omega, t, B, h1, by simp [firstOf], by simp [hq, h0, h1, groups]⟩
    | nil =>
      cases h2 : lead 2 with
      | cons t B =>
        exact .inr ⟨2, by omega, t, B, h2, by simp [firstOf], by simp [hq, h0, h1, h2, groups]⟩
      | nil =>
        cases h3 : lead 3 with
        | cons t B =>
          exact .inr ⟨3, by omega, t, B,
            h3, by simp [firstOf], by simp [hq, h0, h1, h2, h3, groups]⟩
        | nil => exact .inl ⟨by simp [hq, h0, h1, h2, h3, groups], by simp [firstOf]⟩

end

omit [DecidableEq τ] in
theorem Removed.tail {q' : List τ} (hrem : Removed t (t :: q) q') (hnd : (t :: q).Nodup) :
    q' = q := by
  obtain ⟨X, Y, hq, rfl⟩ := hrem
  cases X with
  | nil => exact (cons.inj hq).2.symm
  | cons x X =>
    obtain ⟨rfl, hq'⟩ := cons.inj hq
    exact absurd (hq' ▸ mem_append_right X (.head Y)) (nodup_cons.1 hnd).1

theorem Rep.unlinkLeader (hr : Rep s lead chain q) (hi : i < 4) (hl : lead i = A ++ t :: B)
    (hc : chain t = []) :
    listDelete (resource t) s.links = some (s.links.unlink (resource t) null) ∧
    INIT_LIST_HEAD (samePri t) (s.links.unlink (resource t) null) =
      s.links.unlink (resource t) null ∧
    ∃ lead' q', Rep ⟨s.links.unlink (resource t) null, s.taskCurPriority⟩ lead' chain q' ∧
      Removed t q q' := by
  have hcont : content lead chain (header i) = A.map resource ++ resource t :: B.map resource := by
    simp [content, hl]
  have W := hr.lists.unlink (hr.header_mem hi) hcont
  rw [← map_append, ← content_lead] at W
  have htD := hr.samePri_mem (hr.lead_mem hi (by simp [hl] : t ∈ lead i))
  obtain ⟨q', hr', hrem⟩ := hr.removeLeader hi hl hc (W.drop (by simp [content, hc]))
  exact ⟨hr.lists.listDelete (hr.header_mem hi) hcont, W.init_eq htD (by simp [content, hc]), _, q',
    hr', hrem⟩

/-- **Dequeuing takes out the first task.** -/
theorem Rep.ttosDequeuePriority (hr : Rep s lead chain (t :: q)) :
    ∃ L' lead' chain', ttosDequeuePriority s = some (some t, ⟨L', s.taskCurPriority⟩) ∧
      Rep ⟨L', s.taskCurPriority⟩ lead' chain' q := by
  obtain ⟨i, hi, B, hl, hfirst⟩ : ∃ i < 4, ∃ B, lead i = t :: B ∧
    firstNode s.links = resource t := by
    rcases hr.first with ⟨hq, -⟩ | ⟨i, hi, v, B, hl, hfirst, hq⟩
    · simp at hq
    · obtain rfl : t = v := by simpa using hq
      exact ⟨i, hi, B, hl, hfirst⟩
  have htl : t ∈ lead i := by simp [hl]
  have htq : t ∈ t :: q := .head q
  have hlinked := hr.lists.linked (hr.header_mem hi) (mem_map_of_mem htl)
  have hempty := hr.lists.listIsEmpty_iff (hr.samePri_mem htq)
  cases hc : chain t with
  | nil =>
    obtain ⟨-, -, lead', q', hr', hrem⟩ := hr.unlinkLeader hi (A := []) hl hc
    rw [hrem.tail hr.nodup] at hr'
    refine ⟨_, lead', chain, ?_, hr'⟩
    have hemp : listIsEmpty (samePri t) s.links = true := hempty.2 (by simp [content, hc])
    simp [Sched.ttosDequeuePriority, hfirst, hlinked, hemp]
  | cons u C =>
    have huc : u ∈ chain t := by simp [hc]
    have huq := hr.chain_mem hi htl huc
    have hut : u ≠ t := fun he => hr.lead_not_mem_chain hi htl htq (he ▸ huc)
    have hemp : listIsEmpty (samePri t) s.links = false := by
      rw [Bool.eq_false_iff]
      exact fun he => by simpa [content, hc] using hempty.1 he
    have hseg := hr.lists.rings.seg _ (hr.samePri_mem htq)
    have hseg' : Seg s.links.next s.links.prev (samePri t) ((u :: C).map resource) (samePri t) := by
      simpa [content, hc] using hseg
    have hnew : listFirst (samePri t) s.links = resource u := by
      rw [listFirst_eq hseg' (by simp)]
      rfl
    have hlast : listTail (samePri t) s.links = lastOf (u :: C) := listTail_eq hseg' (by simp)
    -- the links after the surgery
    obtain ⟨L', hL', heq⟩ : ∃ L', ((C.map resource = [] ∧
      L' = s.links.replace (resource t) (resource u)) ∨
        ∃ a m', ∃ hm : C.map resource = a :: m', L' = (s.links.replace (resource t)
          (resource u)).adopt (samePri u) a ((C.map resource).getLast (by simp [hm]))) ∧
        Sched.ttosDequeuePriority s = some
          (some t, ⟨L'.clear (resource t) null, s.taskCurPriority⟩) := by
      cases C with
      | nil =>
        refine ⟨_, .inl ⟨rfl, rfl⟩, ?_⟩
        simp [Sched.ttosDequeuePriority, hfirst, hlinked, hemp, hnew, hlast, lastOf]
      | cons v C =>
        refine ⟨_, .inr ⟨resource v, C.map resource, rfl, rfl⟩, ?_⟩
        have hnext : s.links.next (resource u) = resource v := hseg'.2.2.1
        have hne : resource u ≠ lastOf (u :: v :: C) := by
          have hnd := hr.lists.rings.nodup _ (hr.samePri_mem htq)
          simp only [content, hc, map_cons, nodup_cons] at hnd
          intro he
          apply hnd.1
          rw [he, lastOf, getLast?_cons_cons, getLast?_eq_some_getLast (by simp)]
          exact (mem_map_of_mem (getLast_mem (by simp)) :
            resource ((v :: C).getLast (by simp)) ∈ (v :: C).map resource)
        have hlast' : lastOf (u :: v :: C) = ((v :: C).map resource).getLast (by simp) := by
          rw [lastOf, getLast?_cons_cons, getLast?_eq_some_getLast (by simp), getLast_map]
          rfl
        have hnn : lastOf (u :: v :: C) ≠ null := by
          rw [hlast', getLast_map]
          simp
        simp only [Sched.ttosDequeuePriority, hfirst, hlinked, hemp, hnew, hlast, hnext, hnn]
        simp [hlast']
        exact fun he => absurd (he.trans hlast'.symm) hne
    have hcont : content lead chain (header i) = [] ++ resource t :: B.map resource := by
      simp [content, hl]
    have W := hr.lists.takeOver (hr.header_mem hi) hcont (hr.samePri_mem htq)
      (by simp [content, hc]) (hr.samePri_mem huq)
      (hr.samePri_content hi htl huc) (by simp) (by simpa using hut) (by simp) (by simp) hL'
    have W' : Lists (L'.clear (resource t) null) (heads (t :: q) \ {samePri t})
        (content (update lead i (u :: B)) (update (update chain t []) u C)) := by
      rw [content_chain, content_chain, content_lead]
      refine W.congr fun h hh => ?_
      by_cases he : h = samePri u
      · rw [he, update_self, update_self]
      · rw [update_of_ne he, update_of_ne he, update_of_ne hh.2]
        rfl
    obtain ⟨q', hr', hrem⟩ := hr.promote hi (A := []) hl hc W'
    rw [hrem.tail hr.nodup] at hr'
    exact ⟨_, _, _, heq, hr'⟩

/-! ## Extracting and changing the priority -/

section
variable (hr : Rep s lead chain q)
include hr

theorem Rep.extractLeader (hi : i < 4) (hl : lead i = A ++ t :: B) {C : List τ}
    (hc : chain t = u :: C) :
    ∃ L1 L2 L', listDeleteHead (samePri t) s.links = some (resource u, L1) ∧
      listReplace (resource t) (resource u) L1 = some L2 ∧
      (∀ n, q.length < n → moveChain (samePri t) (samePri u) n
        (INIT_LIST_HEAD (samePri u) (L2.clear (resource t) null)) = some L') ∧
      INIT_LIST_HEAD (samePri t) L' = L' ∧
      ∃ lead' chain' q', Rep ⟨L', s.taskCurPriority⟩ lead' chain' q' ∧ Removed t q q' := by
  have htl : t ∈ lead i := by simp [hl]
  have htq := hr.lead_mem hi htl
  have htD := hr.samePri_mem htq
  have huc : u ∈ chain t := by simp [hc]
  have huD := hr.samePri_mem (hr.chain_mem hi htl huc)
  have hut : samePri u ≠ samePri t := fun he =>
    hr.lead_not_mem_chain hi htl htq (Node.samePri.inj he ▸ huc)
  have hcont : content lead chain (samePri t) =
    resource u :: C.map resource := by simp [content, hc]
  obtain ⟨hdel, W1⟩ := hr.lists.listDeleteHead htD hcont
  have hfree : Free (heads q) (update (content lead chain) (samePri t) (C.map resource))
    (resource u) :=
    hr.lists.rings.free_of_unlink htD (show _ = [] ++ _ from hcont)
  have hhead : update (content lead chain) (samePri t) (C.map resource) (header i) =
      A.map resource ++ resource t :: B.map resource := by simp [content, hl]
  obtain ⟨hrep, W2⟩ := W1.replace (hr.header_mem hi) hhead hfree (by simp)
  have hcu : update (update (content lead chain) (samePri t) (C.map resource)) (header i)
      (A.map resource ++ resource u :: B.map resource) (samePri u) = [] := by
    rw [update_of_ne (by simp), update_of_ne hut]
    exact hr.samePri_content hi htl huc
  have hlen : (C.map resource : List (Node τ)).length < q.length := by
    have hnd : (chain t).Nodup := List.Nodup.of_map _ (hr.lists.rings.nodup _ htD)
    have := (subperm_of_subset hnd fun v => hr.chain_mem hi htl).length_le
    rw [hc, length_cons] at this
    rw [length_map]
    omega
  obtain ⟨L', hmove, W'⟩ := W2.moveChain htD huD hut.symm
    (by rw [update_of_ne (by simp), update_self] : _ = C.map resource)
  rw [hcu, nil_append] at W'
  have hinit := W'.init_eq htD (by rw [update_of_ne hut.symm, update_self])
  have W'' : Lists L' (heads q \ {samePri t})
      (content (update lead i (A ++ u :: B)) (update (update chain t []) u C)) := by
    refine (W'.drop (by rw [update_of_ne hut.symm, update_self])).congr fun h hh => ?_
    rw [content_chain, content_chain, content_lead, map_append, map_cons]
    by_cases he : h = samePri u
    · rw [he, update_self, update_self]
    · rw [update_of_ne he, update_of_ne he, update_of_ne hh.2, update_of_ne hh.2]
      by_cases hei : h = header i
      · rw [hei, update_self, update_self]
      · rw [update_of_ne hei, update_of_ne hei, update_of_ne hh.2]
  obtain ⟨q', hr', hrem⟩ := hr.promote hi hl hc W''
  refine ⟨_, _, L', hdel, hrep, fun n hn => ?_, hinit, _, _, q', hr', hrem⟩
  rw [W2.init_eq huD hcu]
  exact hmove n (hlen.trans hn)

/-- **Extracting takes out the task that it is told to.** -/
theorem Rep.ttosExtractPriority (ht : t ∈ q) :
    ∃ L' lead' chain' q', (∀ n, q.length < n → ttosExtractPriority n t s.links = some L') ∧
      Rep ⟨L', s.taskCurPriority⟩ lead' chain' q' ∧ Removed t q q' := by
  have htD := hr.samePri_mem ht
  have hempty := hr.lists.listIsEmpty_iff htD
  obtain ⟨i, hi, g, hg, htg⟩ := hr.mem_iff.1 ht
  obtain ⟨A, B, hl⟩ := append_of_mem hg
  rcases htg with rfl | htg
  · have htl : t ∈ lead i := by simp [hl]
    have hlinked := (not_or.1 (hr.lists.linked (hr.header_mem hi) (mem_map_of_mem htl))).1
    cases hc : chain t with
    | nil =>
      obtain ⟨hdel, hinit, lead', q', hr', hrem⟩ := hr.unlinkLeader hi hl hc
      have hemp : listIsEmpty (samePri t) s.links = true := hempty.2 (by simp [content, hc])
      refine ⟨_, lead', chain, q', fun n hn => ?_, hr', hrem⟩
      simp [Sched.ttosExtractPriority, hlinked, hemp, hdel, hinit]
    | cons u C =>
      have hemp : listIsEmpty (samePri t) s.links = false := by
        rw [Bool.eq_false_iff]
        exact fun he => by simpa [content, hc] using hempty.1 he
      obtain ⟨L1, L2, L', hdel, hrep, hmove, hinit, lead', chain', q', hr', hrem⟩ :=
        hr.extractLeader hi hl hc
      refine ⟨L', lead', chain', q', fun n hn => ?_, hr', hrem⟩
      simp [Sched.ttosExtractPriority, hlinked, hemp, hdel, hrep, hmove n hn, hinit]
  · obtain ⟨C1, C2, hc⟩ := append_of_mem htg
    have hgl : g ∈ lead i := by simp [hl]
    have hgD := hr.samePri_mem (hr.lead_mem hi hgl)
    have htc : t ∈ chain g := by simp [hc]
    have hcont : content lead chain (samePri g) =
      C1.map resource ++ resource t :: C2.map resource := by
      simp [content, hc]
    have htg : samePri t ≠ samePri g := fun he =>
      hr.lead_not_mem_chain hi hgl (hr.lead_mem hi hgl) (Node.samePri.inj he ▸ htc)
    have hct := hr.samePri_content hi hgl htc
    have W := hr.lists.unlink hgD hcont
    rw [← map_append, ← content_chain] at W
    have hct' : content lead (update chain g (C1 ++ C2)) (samePri t) = [] := by
      rw [content_chain, update_of_ne htg, hct]
    obtain ⟨q', hr', hrem⟩ := hr.removeFollower hi hl hc (W.drop hct')
    refine ⟨_, lead, _, q', fun n hn => ?_, hr', hrem⟩
    have hlinked := (not_or.1 (hr.lists.linked hgD (x := resource t) (by simp [hcont]))).1
    have hdel := hr.lists.listDelete hgD hcont
    have hinit := W.init_eq htD hct'
    simp [Sched.ttosExtractPriority, hlinked, hempty.2 hct, hdel, hinit]

omit [DecidableEq τ] in
theorem Rep.congr_prio {prio : τ → ℕ} (h : ∀ t ∈ q, prio t = s.taskCurPriority t) :
    Rep ⟨s.links, prio⟩ lead chain q where
  lists := hr.lists
  order := hr.order
  nodup := hr.nodup
  strict i hi := (hr.strict i hi).imp_of_mem fun ht hu htu => by
    simpa only [h _ (hr.lead_mem hi ht), h _ (hr.lead_mem hi hu)] using htu
  band i hi t ht := by
    simpa only [h t (hr.lead_mem hi ht)] using hr.band i hi t ht
  same i hi t ht u hu := by
    simpa only [h t (hr.lead_mem hi ht), h u (hr.chain_mem hi ht hu)] using hr.same i hi t ht u hu
  follower := hr.follower

/-- **A change of priority takes the task out and puts it behind all that are at least as
urgent as it is then.** -/
theorem Rep.taskChangePriority (ht : t ∈ q) {p : ℕ} (hp : p < 256) :
    ∃ L' lead' chain' q1 q', (∀ n, q.length < n →
        taskChangePriority n t p s = some ⟨L', update s.taskCurPriority t p⟩) ∧
      Rep ⟨L', update s.taskCurPriority t p⟩ lead' chain' q' ∧ Removed t q q1 ∧
      Enqueued (update s.taskCurPriority t p) t q1 q' := by
  obtain ⟨L1, lead1, chain1, q1, hext, hr1, hrem⟩ := hr.ttosExtractPriority ht
  obtain ⟨X, Y, rfl, rfl⟩ := id hrem
  have ht1 : t ∉ X ++ Y := fun hmem => ((Rep.removed_mem rfl hr.nodup t).1 hmem).1 rfl
  have hr2 := hr1.congr_prio fun u hu =>
    (update_of_ne (ne_of_mem_of_not_mem hu ht1) p s.taskCurPriority)
  obtain ⟨L', lead', chain', q', henq, hr', hq'⟩ := hr2.ttosEnqueuePriority ht1 (by simpa using hp)
  refine ⟨L', lead', chain', X ++ Y, q', fun n hn => ?_, hr', hrem, hq'⟩
  simp only [Sched.taskChangePriority, hext n hn, Option.bind_eq_bind, Option.bind_some]
  refine henq n ?_
  simp only [length_append, length_cons] at hn ⊢
  omega

end

end Intewell.Sched
