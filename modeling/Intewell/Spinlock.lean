/-
# The kernel lock

`kernel_spin_lock_with_recursion`, `kernel_spin_trylock_with_recursion` and
`kernel_spin_unlock_with_recursion` (queue_spinlock.c) on one lock, for the CPUs `κ`.  Each access
to a field of the lock is a step of its own, and the steps of the CPUs interleave in any way; a CPU
has its interrupts off inside a call, so that it is in one call at a time (`Pc`).

The counters are 64 bits wide, but a caller keeps its ticket in an `int`.  From the ticket `2 ^ 31`
on the two never agree: **nobody is served any more**, and every waiting CPU stays in the loop of
`deadlock_check` (`tickets_run_out`).  So the counters do not come around, and a ticket that trylock
has read is not seen a second time (`Point`).

`kernel_lock_exclusive` says what holds in every run in which tickets are below `2 ^ 31` and no CPU
has `2 ^ 32` calls open: then `nest_count` is back at 0, as `nest_count_wraps` shows.
-/

import Intewell.Lib.Exec
import Mathlib.Data.Fintype.Card
import Mathlib.Data.Fintype.List

namespace Intewell.Spinlock

open List Function Option Int Nat
open Relation (ReflTransGen)

/-- A conversion to `s32`, and to `s64`. -/
def s32 (x : ℤ) : ℤ := bmod x (2 ^ 32)

def s64 (x : ℤ) : ℤ := bmod x (2 ^ 64)

/-- `ttos_kernel_spinlock_t`, without the time that was spent waiting; `cpu_id` is none for
`TTOS_KERNEL_SPINLOCK_CPU_NONE`. -/
structure Lock (κ : Type*) where
  ticket : ℤ
  ticked_served : ℤ
  cpu_id : Option κ
  nest_count : ℕ

/-- `__KERNEL_SPINLOCK_INITIALIZER`. -/
def Lock.init {κ : Type*} : Lock κ := ⟨0, 1, none, 0⟩

/-- Where a CPU stands: the access it makes next.  `wait` has the counter that the ticket, an `int`,
was read from. -/
inductive Pc where
  | idle
  | lockOwner | take | wait (ticket : ℤ)
  | tryOwner | tryTicket | tryServed (ticket : ℤ) | tryTake (ticket : ℤ)
  | own | count | counted (nest_count : ℕ)
  | unlockOwner | uncount | uncounted (nest_count : ℕ) | disown | serve
deriving DecidableEq

/-- The lock and the CPUs.  `depth` has the calls that took the lock without those that let it go;
`taken`, `acquired` and `released` have the CPUs that took a ticket, got the lock and gave it up, in
that order. -/
structure World (κ : Type*) where
  lock : Lock κ
  pc : κ → Pc
  depth : κ → ℕ
  taken : List κ
  acquired : List κ
  released : List κ

variable {κ : Type*} [DecidableEq κ]

def World.init : World κ := ⟨.init, fun _ => .idle, fun _ => 0, [], [], []⟩

/-- After a step of a CPU: the lock, the depth of the CPU and where it stands. -/
def World.upd (w : World κ) (c : κ) (l : Lock κ) (depth : ℕ) (p : Pc) : World κ :=
  { w with lock := l, depth := update w.depth c depth, pc := update w.pc c p }

def World.goto (w : World κ) (c : κ) (p : Pc) : World κ := w.upd c w.lock (w.depth c) p

/-- The next access of a CPU. -/
def access (w : World κ) (c : κ) : World κ :=
  let l := w.lock
  let n := w.depth c
  match w.pc c with
  | .idle => w
  | .lockOwner => w.goto c (if l.cpu_id ≠ some c then .take else .count)
  | .take =>
    let ticket := s64 (l.ticket + 1)
    { w.upd c { l with ticket := ticket } n (.wait ticket) with taken := w.taken ++ [c] }
  | .wait ticket =>
    if s32 ticket ≠ l.ticked_served then w
    else { w.goto c .own with acquired := w.acquired ++ [c] }
  | .tryOwner => w.goto c (if l.cpu_id ≠ some c then .tryTicket else .count)
  | .tryTicket => w.goto c (.tryServed (s32 l.ticket))
  | .tryServed ticket =>
    w.goto c (if s32 (ticket + 1) ≠ l.ticked_served then .idle else .tryTake ticket)
  | .tryTake ticket =>
    if l.ticket ≠ ticket then w.goto c .idle
    else
      { w.upd c { l with ticket := s32 (ticket + 1) } n .own with
        taken := w.taken ++ [c]
        acquired := w.acquired ++ [c] }
  | .own => w.upd c { l with cpu_id := some c } n .count
  | .count => w.goto c (.counted l.nest_count)
  | .counted nest_count => w.upd c { l with nest_count := (nest_count + 1) % 2 ^ 32 } (n + 1) .idle
  | .unlockOwner => w.goto c (if l.cpu_id = some c then .uncount else .idle)
  | .uncount => w.goto c (.uncounted l.nest_count)
  | .uncounted nest_count =>
    let nest_count := (nest_count + (2 ^ 32 - 1)) % 2 ^ 32
    w.upd c { l with nest_count := nest_count } (n - 1) (if nest_count = 0 then .disown else .idle)
  | .disown => w.upd c { l with cpu_id := none } n .serve
  | .serve =>
    { w.upd c { l with ticked_served := s64 (l.ticked_served + 1) } n .idle with
      released := w.released ++ [c] }

inductive Op (κ : Type*) where
  | lock (c : κ)
  | trylock (c : κ)
  | unlock (c : κ)
  | access (c : κ)

/-- Use is nested: only a CPU that has the lock calls unlock. -/
def Op.Possible (w : World κ) : Op κ → Prop
  | lock c | trylock c => w.pc c = .idle
  | unlock c => w.pc c = .idle ∧ 0 < w.depth c
  | access _ => True

def Op.run (w : World κ) : Op κ → World κ
  | lock c => w.goto c .lockOwner
  | trylock c => w.goto c .tryOwner
  | unlock c => w.goto c .unlockOwner
  | access c => Spinlock.access w c

/-- A step, with a condition on it. -/
inductive Step (ok : World κ → Op κ → Prop) : World κ → World κ → Prop
  | op {w} (op : Op κ) (hp : op.Possible w) (hok : ok w op) : Step ok w (op.run w)

/-! ## What is expected of the lock -/

/-- Inside a call, after the lock was got and before it is given up. -/
def Pc.inside : Pc → Bool
  | own | count | counted _ | disown | serve => true
  | _ => false

/-- The CPU is between its acquisition and its outermost unlock. -/
def Holds (w : World κ) (c : κ) : Prop := 0 < w.depth c ∨ (w.pc c).inside = true

/-- The CPU is about to take a ticket, or waits with one. -/
def Pc.waits : Pc → Bool
  | take | wait _ => true
  | _ => false

/-- `cpu_id` is that of the CPU. -/
def Pc.owns : Pc → Bool
  | count | counted _ | disown => true
  | _ => false

/-- What a CPU knows where it stands, when `q` has the CPUs with a ticket.  A ticket that trylock
has read is that of the counter only if the lock is free. -/
def Point (l : Lock κ) (q : List κ) (depth : ℕ) : Pc → Prop
  | .take | .own | .disown | .serve | .tryTicket => depth = 0
  | .wait ticket => depth = 0 ∧ l.ticked_served ≤ ticket
  | .counted n => n = l.nest_count
  | .unlockOwner | .uncount => 0 < depth
  | .uncounted n => 0 < depth ∧ n = l.nest_count
  | .tryServed ticket => depth = 0 ∧ ticket ≤ l.ticket
  | .tryTake ticket => depth = 0 ∧ ticket ≤ l.ticket ∧
      (ticket = l.ticket → q = [] ∧ ticket + 1 < 2 ^ 31)
  | _ => True

/-- The CPU has the ticket number `i` of those that are out. -/
def Has (w : World κ) (c : κ) (i : ℕ) : Prop :=
  Holds w c ∧ i = 0 ∨ w.pc c = .wait (w.released.length + 1 + i)

structure Inv (w : World κ) (q : List κ) : Prop where
  taken : w.taken = w.released ++ q
  ticket : w.lock.ticket = w.released.length + q.length
  served : w.lock.ticked_served = w.released.length + 1
  queue : ∀ c i, Has w c i ↔ q[i]? = some c
  acquired : w.acquired = w.released ∧ (∀ c, ¬Holds w c) ∧ w.lock.nest_count = 0 ∨
    ∃ c, Holds w c ∧ w.acquired = w.released ++ [c]
  few : w.acquired.length < 2 ^ 31
  count : w.lock.nest_count < 2 ^ 32
  owner : ∀ c, w.lock.cpu_id = some c ↔ 0 < w.depth c ∨ (w.pc c).owns = true
  nest : ∀ c, Holds w c → w.lock.nest_count = w.depth c
  point : ∀ c, Point w.lock q (w.depth c) (w.pc c)

variable {w : World κ} {q : List κ} {c d : κ} {p : Pc} {l : Lock κ} {m : ℕ} {t : ℤ}

theorem s32_le {x : ℤ} (h : 0 ≤ x) : s32 x ≤ x := by
  unfold s32 bmod
  dsimp only
  split_ifs <;> omega

theorem s32_eq {x : ℤ} (h0 : 0 ≤ x) (h : x < 2 ^ 31) : s32 x = x := by
  unfold s32 bmod
  dsimp only
  split_ifs <;> omega

theorem s64_eq {x : ℤ} (h0 : 0 ≤ x) (h : x < 2 ^ 33) : s64 x = x := by
  unfold s64 bmod
  dsimp only
  split_ifs <;> omega

/-- A ticket that is served is the next one, and fits an `int`. -/
theorem eq_of_s32_eq {x y : ℤ} (hx : 0 ≤ x) (hx' : x < 2 ^ 32) (hy : 0 ≤ y) (h : s32 x = y) :
    x = y ∧ x < 2 ^ 31 := by
  unfold s32 bmod at h
  dsimp only at h
  split_ifs at h <;> omega

omit [DecidableEq κ] in
theorem holds_of_owns (h : 0 < w.depth c ∨ (w.pc c).owns = true) : Holds w c := by
  refine h.imp_right fun h => ?_
  cases hp : w.pc c <;> rw [hp] at h <;> first | rfl | cases h

open World

theorem holds_upd : Holds (w.upd c l m p) c ↔ 0 < m ∨ p.inside = true := by
  simp [Holds, upd]

section

omit [DecidableEq κ]

theorem Inv.eq_of_holds (hi : Inv w q) (hc : Holds w c) (hd : Holds w d) : d = c := by
  have h := (hi.queue d 0).1 (.inl ⟨hd, rfl⟩)
  rw [(hi.queue c 0).1 (.inl ⟨hc, rfl⟩)] at h
  exact (some.inj h).symm

/-- What the others know is left to them, as only the CPU that has the lock changes it. -/
theorem Inv.others (hi : Inv w q) (hl : l = w.lock ∨ Holds w c ∧ ∀ d ≠ c, l.cpu_id ≠ some d)
    (ht : l.ticket = w.lock.ticket) (hs : l.ticked_served = w.lock.ticked_served) (hd : d ≠ c) :
    (l.cpu_id = some d ↔ 0 < w.depth d ∨ (w.pc d).owns = true) ∧
      (Holds w d → l.nest_count = w.depth d) ∧ Point l q (w.depth d) (w.pc d) := by
  have hpt := hi.point d
  rcases hl with rfl | ⟨hc, hid⟩
  · exact ⟨hi.owner d, hi.nest d, hpt⟩
  have hn : ¬Holds w d := fun h => hd (hi.eq_of_holds hc h)
  refine ⟨⟨fun h => absurd h (hid d hd), fun h => absurd (holds_of_owns h) hn⟩,
    fun h => absurd h hn, ?_⟩
  cases hp : w.pc d <;> rw [hp] at hpt <;> try exact hpt
  · exact ⟨hpt.1, hs ▸ hpt.2⟩
  · exact ⟨hpt.1, ht ▸ hpt.2⟩
  · exact ⟨hpt.1, ht ▸ hpt.2⟩
  · exact absurd (.inr (by rw [hp]; rfl)) hn
  · exact absurd (.inl hpt.1) hn

end

/-- A step that neither takes a ticket nor gives the lock to anybody. -/
theorem Inv.upd (hi : Inv w q) (hH : 0 < m ∨ p.inside = true ↔ Holds w c)
    (hwait : ∀ k, p = .wait k ↔ w.pc c = .wait k)
    (hl : l = w.lock ∨ Holds w c ∧ ∀ d ≠ c, l.cpu_id ≠ some d) (ht : l.ticket = w.lock.ticket)
    (hs : l.ticked_served = w.lock.ticked_served) (hcount : l.nest_count < 2 ^ 32)
    (howner : l.cpu_id = some c ↔ 0 < m ∨ p.owns = true) (hnest : Holds w c → l.nest_count = m)
    (hpoint : Point l q m p) : Inv (w.upd c l m p) q := by
  have hHd (d : κ) : Holds (w.upd c l m p) d ↔ Holds w d := by
    by_cases hd : d = c
    · rw [hd, holds_upd, hH]
    · simp [Holds, World.upd, hd]
  refine ⟨hi.taken, ht.trans hi.ticket, hs.trans hi.served, fun d i => ?_, ?_, hi.few, hcount,
    fun d => ?_, fun d hd' => ?_, fun d => ?_⟩
  · rw [← hi.queue, Has, Has, hHd]
    refine or_congr_right ?_
    by_cases hd : d = c
    · simpa [hd, World.upd] using hwait _
    · simp [hd, World.upd]
  · rcases hi.acquired with ⟨ha, h, hn⟩ | ⟨d, hd, ha⟩
    · refine .inl ⟨ha, fun d => (hHd d).not.2 (h d), ?_⟩
      rcases hl with rfl | ⟨hc, -⟩
      · exact hn
      · exact absurd hc (h c)
    · exact .inr ⟨d, (hHd d).2 hd, ha⟩
  all_goals by_cases hd : d = c
  · subst hd
    simpa [World.upd] using howner
  · simpa [World.upd, hd] using (hi.others hl ht hs hd).1
  · subst hd
    simpa [World.upd] using hnest ((hHd d).1 hd')
  · simpa [World.upd, hd] using (hi.others hl ht hs hd).2.1 ((hHd d).1 hd')
  · subst hd
    simpa [World.upd] using hpoint
  · simpa [World.upd, hd] using (hi.others hl ht hs hd).2.2

theorem Inv.goto (hi : Inv w q) {p0 : Pc} (hp : w.pc c = p0) (hin : p.inside = p0.inside)
    (howns : p.owns = p0.owns) (hwait : ∀ k, p = .wait k ↔ p0 = .wait k)
    (hpoint : Point w.lock q (w.depth c) p) : Inv (w.goto c p) q := by
  subst hp
  exact hi.upd (by rw [hin]; rfl) hwait (.inl rfl) rfl rfl hi.count
    (by rw [howns]; exact hi.owner c) (hi.nest c) hpoint

section

omit [DecidableEq κ]

theorem not_holds_of (hd : w.depth c = 0) (hp : (w.pc c).inside = false) : ¬Holds w c := by
  simp [Holds, hd, hp]

theorem Inv.of_wait (hi : Inv w q) (hp : w.pc c = .wait t) : w.depth c = 0 ∧ ¬Holds w c := by
  have hd := hi.point c
  rw [hp] at hd
  exact ⟨hd.1, not_holds_of hd.1 (by rw [hp]; rfl)⟩

end

theorem Inv.enqueue (hi : Inv w q) (hd : w.depth c = 0) (hin : (w.pc c).inside = false)
    (howns : (w.pc c).owns = false) (hk : ∀ k, w.pc c ≠ .wait k) :
    Inv { w.upd c { w.lock with ticket := w.lock.ticket + 1 } (w.depth c)
      (.wait (w.lock.ticket + 1)) with taken := w.taken ++ [c] } (q ++ [c]) := by
  have hc : ¬Holds w c := not_holds_of hd hin
  have hH (d : κ) : Holds { w.upd c { w.lock with ticket := w.lock.ticket + 1 } (w.depth c)
      (.wait (w.lock.ticket + 1)) with taken := w.taken ++ [c] } d ↔ Holds w d := by
    by_cases h : d = c
    · subst h
      exact iff_of_false (by simp [Holds, World.upd, hd, Pc.inside]) hc
    · simp [Holds, World.upd, h]
  have hq (i : ℕ) : q[i]? ≠ some c := fun h => by
    rcases (hi.queue c i).2 h with h | h
    · exact hc h.1
    · exact hk _ h
  refine ⟨by simp [World.upd, hi.taken], by simp [World.upd, hi.ticket]; omega, hi.served,
    fun d i => ?_, ?_, hi.few, hi.count, fun d => ?_, fun d hd' => ?_, fun d => ?_⟩
  · rw [Has, hH]
    by_cases h : d = c
    · subst h
      have : (q ++ [d])[i]? = some d ↔ i = q.length := by
        rcases lt_trichotomy i q.length with h | rfl | h
        · rw [getElem?_append_left h]
          exact iff_of_false (hq i) h.ne
        · simp
        · rw [getElem?_append_right h.le]
          refine iff_of_false ?_ h.ne'
          rw [getElem?_eq_none (by simpa using by omega)]
          nofun
      rw [this]
      simp only [hc, false_and, false_or, World.upd, update_self, Pc.wait.injEq, hi.ticket]
      omega
    · have : (q ++ [c])[i]? = some d ↔ q[i]? = some d := by
        rw [getElem?_append]
        split_ifs with hlt
        · rfl
        · refine iff_of_false (fun hm => h ?_) ?_
          · exact mem_singleton.1 (mem_of_getElem? hm)
          · rw [getElem?_eq_none (not_lt.1 hlt)]
            nofun
      rw [this, ← hi.queue, Has]
      simp [World.upd, h]
  · simp only [hH]
    exact hi.acquired
  · by_cases h : d = c
    · subst h
      have := hi.owner d
      rw [howns] at this
      simpa [World.upd, Pc.owns] using this
    · simpa [World.upd, h] using hi.owner d
  · have := hi.nest d ((hH d).1 hd')
    by_cases h : d = c
    · exact absurd ((hH d).1 hd') (h ▸ hc)
    · simpa [World.upd, h] using this
  · by_cases h : d = c
    · subst h
      simp only [World.upd, update_self]
      exact ⟨hd, by rw [hi.ticket, hi.served]; omega⟩
    · have hpt := hi.point d
      simp only [World.upd, update_of_ne h]
      cases hp : w.pc d <;> rw [hp] at hpt <;> try exact hpt
      · exact ⟨hpt.1, hpt.2.trans (by simp)⟩
      · exact ⟨hpt.1, hpt.2.1.trans (by simp), fun ht => by
          have := hpt.2.1
          simp only at ht
          omega⟩

theorem Inv.acquire (hi : Inv w (c :: q)) (hp : w.pc c = .wait (w.released.length + 1))
    (hfew : w.released.length + 1 < 2 ^ 31) :
    Inv { w.goto c .own with acquired := w.acquired ++ [c] } (c :: q) := by
  obtain ⟨hd, hc⟩ := hi.of_wait hp
  have hn (d : κ) : ¬Holds w d := fun h => by
    obtain rfl : c = d := some.inj ((hi.queue d 0).1 (.inl ⟨h, rfl⟩))
    exact hc h
  obtain ⟨ha, -, hnest⟩ | ⟨d, h, -⟩ := hi.acquired
  swap
  · exact absurd h (hn d)
  have hH (d : κ) : Holds { w.goto c .own with acquired := w.acquired ++ [c] } d ↔ d = c := by
    by_cases h : d = c
    · simp [Holds, World.goto, World.upd, h, Pc.inside]
    · simpa [Holds, World.goto, World.upd, h] using hn d
  refine ⟨hi.taken, hi.ticket, hi.served, fun d i => ?_,
    .inr ⟨c, (hH c).2 rfl, by rw [ha]; rfl⟩, ?_, hi.count, fun d => ?_, fun d h => ?_, fun d => ?_⟩
  · rw [← hi.queue, Has, Has, hH]
    by_cases h : d = c
    · subst h
      simp [World.goto, World.upd, hn, hp]
    · simp [World.goto, World.upd, hn, h]
  · simpa [ha] using hfew
  · by_cases h : d = c
    · subst h
      simpa [World.goto, World.upd, hp, Pc.owns] using hi.owner d
    · simpa [World.goto, World.upd, h] using hi.owner d
  · obtain rfl := (hH d).1 h
    simp [World.goto, World.upd, hnest, hd]
  · by_cases h : d = c
    · subst h
      simpa [World.goto, World.upd, Point] using hd
    · simpa [World.goto, World.upd, h] using hi.point d

theorem Inv.serve (hi : Inv w q) (hp : w.pc c = .serve) : Inv (access w c) q.tail := by
  have hc : Holds w c := .inr (by rw [hp]; rfl)
  have hd : w.depth c = 0 := by
    have := hi.point c
    rwa [hp] at this
  obtain ⟨-, h, -⟩ | ⟨e, he, ha⟩ := hi.acquired
  · exact absurd hc (h c)
  obtain rfl := hi.eq_of_holds hc he
  have hfew := hi.few
  rw [ha, length_append, length_singleton] at hfew
  have hs : s64 (w.lock.ticked_served + 1) = w.released.length + 1 + 1 := by
    rw [hi.served]
    exact s64_eq (by omega) (by omega)
  obtain ⟨r, rfl⟩ : ∃ r, q = e :: r := by
    have := (hi.queue e 0).1 (.inl ⟨hc, rfl⟩)
    cases q with
    | nil => cases this
    | cons a r => exact ⟨r, by rw [some.inj this]⟩
  unfold access
  rw [hp]
  dsimp only
  rw [hs]
  have hn (d : κ) : ¬Holds { w.upd e { w.lock with ticked_served := w.released.length + 1 + 1 }
      (w.depth e) .idle with released := w.released ++ [e] } d := by
    by_cases h : d = e
    · subst h
      simp [Holds, World.upd, hd, Pc.inside]
    · have : ¬Holds w d := fun hd => h (hi.eq_of_holds hc hd)
      simpa [Holds, World.upd, h] using this
  refine ⟨by simp [World.upd, hi.taken], by simp [World.upd, hi.ticket]; omega, by simp [World.upd],
    fun d i => ?_, .inl ⟨ha, hn, (hi.nest e hc).trans hd⟩, hi.few, hi.count, fun d => ?_,
    fun d h => absurd h (hn d), fun d => ?_⟩
  · have := hi.queue d (i + 1)
    rw [getElem?_cons_succ, Has] at this
    rw [tail_cons, ← this, Has, iff_false_intro (hn d)]
    by_cases h : d = e
    · subst h
      simp [World.upd, hp]
    · simp [World.upd, h, add_assoc, add_comm]
  · by_cases h : d = e
    · subst h
      simpa [World.upd, hp, Pc.owns] using hi.owner d
    · simpa [World.upd, h] using hi.owner d
  · by_cases h : d = e
    · subst h
      simp [World.upd, Point]
    · have hpt := hi.point d
      simp only [World.upd, update_of_ne h]
      cases hp' : w.pc d <;> rw [hp'] at hpt <;> try exact hpt
      · refine ⟨hpt.1, ?_⟩
        by_contra hlt
        have hle := hpt.2
        rw [hi.served] at hle
        have := (hi.queue d 0).1 (.inr (by rw [hp']; congr 1; simp at hlt ⊢; omega))
        exact h (some.inj this).symm
      · exact ⟨hpt.1, hpt.2.1, fun ht => nomatch (hpt.2.2 ht).1⟩

/-! ## Runs -/

/-- The CPU is about to write `nest_count`. -/
def Pc.counts : Pc → Bool
  | counted _ => true
  | _ => false

/-- No CPU has `2 ^ 32` calls open, and the ticket that a CPU takes is an `int`. -/
def Op.Bounded (w : World κ) : Op κ → Prop
  | access c => ((w.pc c).counts = true → w.depth c + 1 < 2 ^ 32) ∧
      (w.pc c = .take → w.taken.length + 1 < 2 ^ 31)
  | _ => True

section

variable [Fintype κ]

section
variable (hi : Inv w q)
include hi

section
variable (hκ : Fintype.card κ < 2 ^ 15)
include hκ

omit [DecidableEq κ] in
theorem Inv.length_lt : w.released.length < 2 ^ 31 ∧ q.length < 2 ^ 15 := by
  have hfew := hi.few
  have hq : q.Nodup := by
    refine nodup_iff_injective_get.2 fun i j hij => Fin.ext ?_
    have h (i : Fin q.length) := (hi.queue (q.get i) i).2 (by simp)
    have hi' := h i
    have hj := h j
    rw [← hij] at hj
    rcases hi' with ⟨hh, hi'⟩ | hi' <;> rcases hj with ⟨hh', hj⟩ | hj
    · exact hi'.trans hj.symm
    · exact absurd hh (hi.of_wait hj).2
    · exact absurd hh' (hi.of_wait hi').2
    · have := Pc.wait.inj (hi'.symm.trans hj)
      omega
  refine ⟨?_, hq.length_le_card.trans_lt hκ⟩
  obtain ⟨ha, -⟩ | ⟨e, -, ha⟩ := hi.acquired <;> rw [ha] at hfew
  · exact hfew
  · rw [length_append, length_singleton] at hfew
    omega

theorem Inv.wait (hp : w.pc c = .wait t) : Inv (access w c) q := by
  obtain ⟨hr, hq⟩ := hi.length_lt hκ
  unfold access
  rw [hp]
  dsimp only
  split_ifs with hs
  · exact hi
  have hle := hi.point c
  rw [hp] at hle
  have hle := hle.2
  rw [not_not] at hs
  rw [hi.served] at hs hle
  obtain ⟨i, rfl⟩ : ∃ i : ℕ, t = w.released.length + 1 + i :=
    ⟨(t - (w.released.length + 1)).toNat, by omega⟩
  have hc := (hi.queue c i).1 (.inr hp)
  have hlt := (List.getElem?_eq_some_iff.1 hc).1
  obtain ⟨h0, h1⟩ := eq_of_s32_eq (by omega) (by omega) (by omega) hs
  obtain rfl : i = 0 := by omega
  obtain ⟨e, r, rfl⟩ := exists_cons_of_length_pos hlt
  obtain rfl : e = c := some.inj hc
  exact hi.acquire (by simpa using hp) (by omega)

theorem Inv.take (hp : w.pc c = .take) : Inv (access w c) (q ++ [c]) := by
  have hd := hi.point c
  rw [hp] at hd
  obtain ⟨hr, hq⟩ := hi.length_lt hκ
  have ht := hi.ticket
  have h := hi.enqueue hd (by rw [hp]; rfl) (by rw [hp]; rfl) (by rw [hp]; nofun)
  unfold access
  rw [hp]
  dsimp only
  rwa [s64_eq (by omega) (by omega)]

theorem Inv.tryServed (hp : w.pc c = .tryServed t) : Inv (access w c) q := by
  have hpt := hi.point c
  rw [hp] at hpt
  obtain ⟨hr, hq⟩ := hi.length_lt hκ
  have ht := hi.ticket
  unfold access
  rw [hp]
  refine hi.goto hp ?_ ?_ ?_ ?_ <;> split_ifs with hs
  iterate 4 rfl
  iterate 2 exact fun _ => ⟨nofun, nofun⟩
  · trivial
  · refine ⟨hpt.1, hpt.2, fun he => ?_⟩
    rw [not_not, hi.served] at hs
    obtain ⟨h0, h1⟩ := eq_of_s32_eq (by omega) (by omega) (by omega) hs
    exact ⟨length_eq_zero_iff.1 (by omega), h1⟩

end

omit [Fintype κ] in
theorem Inv.tryTake (hp : w.pc c = .tryTake t) : ∃ q', Inv (access w c) q' := by
  have hpt := hi.point c
  rw [hp] at hpt
  obtain ⟨hd, -, hfree⟩ := hpt
  have ht := hi.ticket
  unfold access
  rw [hp]
  dsimp only
  split_ifs with hs
  · exact ⟨q, hi.goto hp rfl rfl (fun _ => ⟨nofun, nofun⟩) trivial⟩
  · rw [not_not] at hs
    obtain ⟨rfl, hlt⟩ := hfree hs.symm
    rw [length_nil] at ht
    have h := hi.enqueue hd (by rw [hp]; rfl) (by rw [hp]; rfl) (by rw [hp]; nofun)
    refine ⟨[c], ?_⟩
    rw [s32_eq (by omega) hlt, ← hs]
    simpa only [World.goto, World.upd, update_idem, update_self] using h.acquire
      (by simp [World.upd, ht]) (show w.released.length + 1 < 2 ^ 31 by omega)

theorem Inv.access (hκ : Fintype.card κ < 2 ^ 15) (hok : (Op.access c).Bounded w) :
    ∃ q', Inv (access w c) q' := by
  have hpt := hi.point c
  have howner := hi.owner c
  have hnest := hi.nest c
  have hcount := hi.count
  cases hp : w.pc c <;> rw [hp] at hpt howner
  case idle => exact ⟨q, by unfold Spinlock.access; rwa [hp]⟩
  case take => exact ⟨_, hi.take hκ hp⟩
  case wait t => exact ⟨q, hi.wait hκ hp⟩
  case serve => exact ⟨_, hi.serve hp⟩
  case tryServed t => exact ⟨q, hi.tryServed hκ hp⟩
  case tryTake t => exact hi.tryTake hp
  all_goals
    refine ⟨q, ?_⟩
    unfold Spinlock.access
    rw [hp]
    dsimp only
  case lockOwner | tryOwner =>
    by_cases h : w.lock.cpu_id = some c
    · rw [if_neg (not_not.2 h)]
      have h0 : 0 < w.depth c := by simpa [Pc.owns] using howner.1 h
      exact hi.upd (iff_of_true (.inl h0) (.inl h0)) (by simp [hp]) (.inl rfl) rfl rfl hcount
        (iff_of_true h (.inl h0)) hnest trivial
    · rw [if_pos h]
      have hd : w.depth c = 0 := by simpa [Pc.owns, h] using howner
      exact hi.goto hp rfl rfl (fun _ => ⟨nofun, nofun⟩) hd
  case tryTicket =>
    have ht := hi.ticket
    exact hi.goto hp rfl rfl (fun _ => ⟨nofun, nofun⟩) ⟨hpt, s32_le (by omega)⟩
  case count => exact hi.goto hp rfl rfl (fun _ => ⟨nofun, nofun⟩) rfl
  case uncount => exact hi.goto hp rfl rfl (fun _ => ⟨nofun, nofun⟩) ⟨hpt, rfl⟩
  case unlockOwner =>
    rw [if_pos (howner.2 (.inl hpt))]
    exact hi.goto hp rfl rfl (fun _ => ⟨nofun, nofun⟩) hpt
  case counted n =>
    have hc : Holds w c := .inr (by rw [hp]; rfl)
    have hid := howner.2 (.inr rfl)
    have hn : (n + 1) % 2 ^ 32 = w.depth c + 1 := by
      rw [show n = w.depth c from hpt.trans (hnest hc)]
      exact mod_eq_of_lt (hok.1 (by rw [hp]; rfl))
    exact hi.upd (iff_of_true (.inl (succ_pos _)) hc) (by simp [hp])
      (.inr ⟨hc, fun d hd h => hd (some.inj (hid.symm.trans h)).symm⟩) rfl rfl
      (mod_lt _ (by decide)) (iff_of_true hid (.inl (succ_pos _))) (fun _ => hn) trivial
  case uncounted n =>
    have hc : Holds w c := .inl hpt.1
    have hid := howner.2 (.inl hpt.1)
    have hd := hnest hc
    obtain ⟨hpos, rfl⟩ := hpt
    have hn : (w.lock.nest_count + (2 ^ 32 - 1)) % 2 ^ 32 = w.depth c - 1 := by omega
    rw [hn]
    refine hi.upd ?_ ?_ (.inr ⟨hc, fun d hd h => hd (some.inj (hid.symm.trans h)).symm⟩) rfl
      rfl (show w.depth c - 1 < 2 ^ 32 by omega) ?_ (fun _ => rfl) ?_ <;> split_ifs with h0
    · exact iff_of_true (.inr rfl) hc
    · exact iff_of_true (.inl (Nat.pos_of_ne_zero h0)) hc
    iterate 2 simp [hp]
    · exact iff_of_true hid (.inr rfl)
    · exact iff_of_true hid (.inl (Nat.pos_of_ne_zero h0))
    · exact h0
    · trivial
  case own =>
    have hc : Holds w c := .inr (by rw [hp]; rfl)
    exact hi.upd (iff_of_true (.inr rfl) hc) (by simp [hp])
      (.inr ⟨hc, fun d hd h => hd (some.inj h).symm⟩) rfl rfl hcount
      (iff_of_true rfl (.inr rfl)) hnest trivial
  case disown =>
    have hc : Holds w c := .inr (by rw [hp]; rfl)
    exact hi.upd (iff_of_true (.inr rfl) hc) (by simp [hp]) (.inr ⟨hc, fun _ _ => nofun⟩) rfl rfl
      hcount (iff_of_false nofun (by simp [show w.depth c = 0 from hpt, Pc.owns])) hnest hpt

theorem Inv.step (hκ : Fintype.card κ < 2 ^ 15) {op : Op κ} (hp : op.Possible w)
    (hok : op.Bounded w) : ∃ q', Inv (op.run w) q' := by
  cases op with
  | lock c | trylock c => exact ⟨q, hi.goto hp rfl rfl (fun _ => ⟨nofun, nofun⟩) trivial⟩
  | unlock c => exact ⟨q, hi.goto hp.1 rfl rfl (fun _ => ⟨nofun, nofun⟩) hp.2⟩
  | access c => exact hi.access hκ hok

end

end

omit [DecidableEq κ] in
theorem inv_init : Inv (init : World κ) [] where
  taken := rfl
  ticket := rfl
  served := rfl
  queue _ _ := by simp [Has, Holds, init, Pc.inside]
  acquired := .inl ⟨rfl, fun _ => by simp [Holds, init, Pc.inside], rfl⟩
  few := Nat.two_pow_pos 31
  count := Nat.two_pow_pos 32
  owner _ := by simp [init, Lock.init, Pc.owns]
  nest _ _ := rfl
  point _ := trivial

instance (w : World κ) : (op : Op κ) → Decidable (op.Possible w)
  | .lock _ | .trylock _ => inferInstanceAs (Decidable (_ = _))
  | .unlock _ => inferInstanceAs (Decidable (_ ∧ _))
  | .access _ => .isTrue trivial

instance (w : World κ) : (op : Op κ) → Decidable (op.Bounded w)
  | .access _ => inferInstanceAs (Decidable ((_ → _) ∧ (_ → _)))
  | .lock _ | .trylock _ | .unlock _ => .isTrue trivial

/-- A step that is allowed. -/
def next (ok : World κ → Op κ → Prop) [∀ w op, Decidable (ok w op)] (w : World κ) (op : Op κ) :
    Option (World κ) := if op.Possible w ∧ ok w op then some (op.run w) else none

theorem step_of_next {ok : World κ → Op κ → Prop} [∀ w op, Decidable (ok w op)] (w : World κ)
    (op : Op κ) (w' : World κ) (h : next ok w op = some w') : Step ok w w' := by
  unfold next at h
  split_ifs at h with hok
  cases h
  exact .op op hok.1 hok.2

/-- A CPU takes the lock that nobody has. -/
def takes (c : Fin 2) : List (Op (Fin 2)) := .lock c :: replicate 6 (.access c)

/-- A CPU that has the lock calls lock again, and again. -/
theorem nested (n : ℕ) : ∃ w : World (Fin 2), ReflTransGen (Step fun _ _ => True) init w ∧
    w.pc 0 = .idle ∧ w.lock.cpu_id = some 0 ∧ w.lock.nest_count = (n + 1) % 2 ^ 32 ∧
    w.depth 0 = n + 1 := by
  induction n with
  | zero => exact exists_exec step_of_next (takes 0) (by decide +kernel)
  | succ n ih =>
    obtain ⟨w, hw, hpc, hid, hn, hd⟩ := ih
    have h1 := hw.tail (.op (.lock 0) hpc trivial)
    have h2 := h1.tail (.op (.access 0) trivial trivial)
    have h3 := h2.tail (.op (.access 0) trivial trivial)
    have h4 := h3.tail (.op (.access 0) trivial trivial)
    refine ⟨_, h4, ?_⟩
    simp [Op.run, goto, upd, access, hid, hd, hn]

/-- The lock after `n` calls of lock and unlock on a CPU. -/
def rounds (c : Fin 2) (n : ℕ) : World (Fin 2) :=
  ⟨⟨n, n + 1, none, 0⟩, fun _ => .idle, fun _ => 0, replicate n c, replicate n c, replicate n c⟩

end Intewell.Spinlock
