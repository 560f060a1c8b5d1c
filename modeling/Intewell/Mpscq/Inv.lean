/-
# What holds of the ring throughout

While a re-base is under way the counters are apart although nothing is between them.  `Flight`
says which of its compare-and-swaps have been made, and by whom; `Flight.lo` and `Flight.hi` are
the ends of what is in the ring all the same.

The elements that have been dequeued and those between the ends are what has been enqueued
(`Core`); the slots above, up to `reserve_tail`, are each some producer's (`Inv`).
-/

import Intewell.Mpscq.Basic

namespace Intewell.Mpscq

open Function (update)
open Circular

variable {θ α : Type*}

/-- The re-base that is under way, at `seq`, by a producer or by the consumer (`none`):
`reserve_tail` has been moved, or `commit_tail` as well. -/
inductive Flight (θ : Type*) where
  | none
  | reserved (a : Option θ) (seq : ℕ)
  | committed (a : Option θ) (seq : ℕ)

namespace Flight

def lo (r : Ring α) : Flight θ → ℕ
  | none => r.head
  | reserved _ seq => up r.size seq
  | committed _ seq => up r.size seq

def hi (r : Ring α) : Flight θ → ℕ
  | none => r.commit_tail
  | reserved _ seq => up r.size seq
  | committed _ _ => r.commit_tail

/-- The order of the counters. -/
def Shape (r : Ring α) (skipped : List ℕ) : Flight θ → Prop
  | none => r.head ≤ r.commit_tail ∧ r.commit_tail ≤ r.reserve_tail
  | reserved _ seq =>
    r.head = seq ∧ r.commit_tail = seq ∧ up r.size seq ≤ r.reserve_tail
  | committed _ seq =>
    r.head = seq ∧ up r.size seq ≤ r.commit_tail ∧ r.commit_tail ≤ r.reserve_tail ∧
      seq ∈ skipped

end Flight

/-- The elements enqueued, in the order of their tokens. -/
def World.stream (w : World θ α) : List α := (w.sent.map Prod.snd).flatten

/-- The counters and the elements. -/
structure Core (w : World θ α) (f : Flight θ) : Prop where
  shape : f.Shape w.ring w.skipped
  room : w.ring.reserve_tail ≤ w.ring.head + w.ring.size
  bound : w.ring.reserve_tail < 2 ^ 63
  content :
    w.got ++ span w.ring.size w.ring.data (f.lo w.ring) (f.hi w.ring - f.lo w.ring) = w.stream
  tokens : w.sent.Pairwise fun a b => a.1 < b.1
  below : ∀ e ∈ w.sent, e.1 < f.hi w.ring

/-- A producer has the slots from `tok` on, as many as it has elements. -/
structure Held (r : Ring α) (f : Flight θ) (tok : ℕ) (data : List α) : Prop where
  pos : 0 < data.length
  hi_le : f.hi r ≤ tok
  le_reserve : tok + data.length ≤ r.reserve_tail
  whole : tok % r.size + data.length ≤ r.size

/-- What the agent `a` knows of a re-base that it has entered. -/
def AtStage (r : Ring α) (f : Flight θ) (a : Option θ) (seq : ℕ) : Stage → Prop
  | .casCommit => f = .reserved a seq
  | .casHead => f = .committed a seq
  | _ => seq ≤ r.head

/-- `mpscq_alloc` has checked the length. -/
def Fits (r : Ring α) (data : List α) : Prop := 0 < data.length ∧ data.length ≤ r.size

/-- What the producer `p` knows at the point it has reached. -/
def AtPc (r : Ring α) (f : Flight θ) (p : θ) : Pc α → Prop
  | .idle _ => True
  | .head data => Fits r data
  | .reserve data head => Fits r data ∧ head ≤ r.head
  | .empty data old => Fits r data ∧ old ≤ r.head
  | .rebase data seq s => Fits r data ∧ AtStage r f (some p) seq s
  | .cas data old =>
    Fits r data ∧ old + data.length ≤ r.head + r.size ∧ old % r.size + data.length ≤ r.size
  | .copy data tok i => Held r f tok data ∧ i ≤ data.length ∧ span r.size r.data tok i = data.take i
  | .spin data tok => Held r f tok data ∧ span r.size r.data tok data.length = data
  | .publish data tok =>
    Held r f tok data ∧ span r.size r.data tok data.length = data ∧ r.commit_tail = tok

/-- What the consumer knows.  While it copies, no re-base can be under way; while it is about to
read `commit_tail`, one may have taken `head` away. -/
def AtConsumer (r : Ring α) (f : Flight θ) (skipped : List ℕ) : Consumer α → Prop
  | .idle _ => True
  | .tail k head => 0 < k ∧ (head = r.head ∨ head ∈ skipped)
  | .copy k head out =>
    f = .none ∧ 0 < k ∧ head = r.head ∧ head + k ≤ r.commit_tail ∧
      head % r.size + k ≤ r.size ∧ out.length ≤ k ∧ out = span r.size r.data head out.length
  | .popTail new_head => new_head ≤ r.head
  | .rebase seq s => AtStage r f .none seq s

/-- The token and the elements of a producer that has slots. -/
def Pc.holds : Pc α → Option (ℕ × List α)
  | .copy data tok _ => some (tok, data)
  | .spin data tok => some (tok, data)
  | .publish data tok => some (tok, data)
  | _ => none

def Pc.stage : Pc α → Option (ℕ × Stage)
  | .rebase _ seq s => some (seq, s)
  | _ => none

def Consumer.stage : Consumer α → Option (ℕ × Stage)
  | .rebase seq s => some (seq, s)
  | _ => none

def World.stage (w : World θ α) : Option θ → Option (ℕ × Stage)
  | some p => (w.pc p).stage
  | none => w.consumer.stage

/-- Whoever has begun to move the counters is at it. -/
def Owned (w : World θ α) : Flight θ → Prop
  | .none => True
  | .reserved a seq => w.stage a = some (seq, .casCommit)
  | .committed a seq => w.stage a = some (seq, .casHead)

structure Inv (w : World θ α) (f : Flight θ) : Prop where
  core : Core w f
  owned : Owned w f
  atPc : ∀ p, AtPc w.ring f p (w.pc p)
  atConsumer : AtConsumer w.ring f w.skipped w.consumer
  apart : ∀ p q, p ≠ q → ∀ x ∈ (w.pc p).holds, ∀ y ∈ (w.pc q).holds,
    x.1 + x.2.length ≤ y.1 ∨ y.1 + y.2.length ≤ x.1
  cover : ∀ i, f.hi w.ring ≤ i → i < w.ring.reserve_tail →
    ∃ p, ∃ x ∈ (w.pc p).holds, x.1 ≤ i ∧ i < x.1 + x.2.length

variable {w : World θ α} {f : Flight θ} {r r' : Ring α} {p q : θ} {pc pc' : Pc α}
  {data : List α} {seq tok i k : ℕ} {s : Stage}

/-! ## The counters -/

namespace Core

section
variable (h : Core w f)
include h

theorem lo_le_hi : f.lo w.ring ≤ f.hi w.ring := by
  have hs := h.shape
  cases f with
  | none => exact hs.1
  | reserved a seq => exact le_rfl
  | committed a seq => exact hs.2.1

theorem hi_le : f.hi w.ring ≤ w.ring.reserve_tail := by
  have hs := h.shape
  cases f with
  | none => exact hs.2
  | reserved a seq => exact hs.2.2
  | committed a seq => exact hs.2.2.1

theorem head_le_lo : w.ring.head ≤ f.lo w.ring := by
  have hs := h.shape
  have hup : ∀ seq, seq < up w.ring.size seq := fun seq => lt_up w.ring.size_pos
  cases f with
  | none => exact le_rfl
  | reserved a seq => exact hs.1 ▸ (hup seq).le
  | committed a seq => exact hs.1 ▸ (hup seq).le

theorem head_le_commit : w.ring.head ≤ w.ring.commit_tail := by
  have hs := h.shape
  cases f with
  | none => exact hs.1
  | reserved a seq => exact hs.1.trans_le hs.2.1.ge
  | committed a seq => exact hs.1.trans_le ((lt_up w.ring.size_pos).le.trans hs.2.1)

theorem commit_le : w.ring.commit_tail ≤ w.ring.reserve_tail := by
  have hs := h.shape
  cases f with
  | none => exact hs.2
  | reserved a seq =>
    exact hs.2.1.trans_le ((lt_up w.ring.size_pos).le.trans hs.2.2)
  | committed a seq => exact hs.2.2.1

/-- The slots in use are less than one turn of the buffer. -/
theorem reserve_le : w.ring.reserve_tail ≤ f.lo w.ring + w.ring.size :=
  h.room.trans (Nat.add_le_add_right h.head_le_lo _)

/-- No counter moves once it has been found where `head` was: the ring is empty, and no re-base
is under way. -/
theorem eq_none (hle : seq ≤ w.ring.head) (hr : w.ring.reserve_tail = seq) :
    f = .none ∧ w.ring.head = seq ∧ w.ring.commit_tail = seq := by
  have hc := h.head_le_commit
  have hc' := h.commit_le
  have hs := h.shape
  have hup : ∀ seq, seq < up w.ring.size seq := fun seq => lt_up w.ring.size_pos
  refine ⟨?_, by omega, by omega⟩
  cases f with
  | none => rfl
  | reserved a s =>
    have := hup s
    have := hs.1
    have := hs.2.2
    omega
  | committed a s =>
    have := hup s
    have := hs.1
    have := hs.2.1
    omega

end

end Core

/-! ## What the others know when one agent moves -/

/-- A producer keeps what it knows if the counters do not go back, nobody touches its slots, and
a re-base that it makes stays its own. -/
theorem AtPc.frame {f' : Flight θ} (h : AtPc r f p pc) (hbits : r'.bits = r.bits)
    (hhead : r.head ≤ r'.head) (hheld : ∀ x ∈ pc.holds, Held r f x.1 x.2 → Held r' f' x.1 x.2 ∧
      (∀ i ≤ x.2.length, span r.size r'.data x.1 i = span r.size r.data x.1 i) ∧
      (r.commit_tail = x.1 → r'.commit_tail = x.1))
    (hres : ∀ seq, f = .reserved (some p) seq → f' = .reserved (some p) seq)
    (hcom : ∀ seq, f = .committed (some p) seq → f' = .committed (some p) seq) :
    AtPc r' f' p pc := by
  have hsize : r'.size = r.size := by rw [Ring.size, Ring.size, hbits]
  have hfits : ∀ data : List α, Fits r data → Fits r' data := fun data hd => by
    rwa [Fits, hsize]
  cases pc with
  | idle code => exact trivial
  | head data => exact hfits data h
  | reserve data head => exact ⟨hfits data h.1, h.2.trans hhead⟩
  | empty data old => exact ⟨hfits data h.1, h.2.trans hhead⟩
  | rebase data seq s =>
    refine ⟨hfits data h.1, ?_⟩
    have hs := h.2
    cases s with
    | commit | reserve | casReserve => exact Nat.le_trans hs hhead
    | casCommit => exact hres seq hs
    | casHead => exact hcom seq hs
  | cas data old =>
    refine ⟨hfits data h.1, h.2.1.trans ?_, ?_⟩
    · rw [hsize]
      exact Nat.add_le_add_right hhead _
    · rw [hsize]
      exact h.2.2
  | copy data tok i =>
    obtain ⟨hh, hspan, -⟩ := hheld (tok, data) rfl h.1
    refine ⟨hh, h.2.1, ?_⟩
    rw [hsize, hspan i h.2.1]
    exact h.2.2
  | spin data tok =>
    obtain ⟨hh, hspan, -⟩ := hheld (tok, data) rfl h.1
    refine ⟨hh, ?_⟩
    rw [hsize, hspan _ le_rfl]
    exact h.2
  | publish data tok =>
    obtain ⟨hh, hspan, hcommit⟩ := hheld (tok, data) rfl h.1
    refine ⟨hh, ?_, hcommit h.2.2⟩
    rw [hsize, hspan _ le_rfl]
    exact h.2.1

theorem AtPc.held (h : AtPc r f p pc) {x : ℕ × List α} (hx : x ∈ pc.holds) : Held r f x.1 x.2 := by
  cases pc with
  | idle _ | head _ | reserve _ _ | empty _ _ | rebase _ _ _ | cas _ _ => cases hx
  | copy data tok i =>
    cases hx
    exact h.1
  | spin data tok =>
    cases hx
    exact h.1
  | publish data tok =>
    cases hx
    exact h.1

/-- The consumer keeps what it knows under the same conditions. -/
theorem AtConsumer.frame {f' : Flight θ} {skipped skipped' : List ℕ} {c : Consumer α}
    (h : AtConsumer r f skipped c) (hbits : r'.bits = r.bits) (hhead : r.head ≤ r'.head)
    (hskip : ∀ x ∈ skipped, x ∈ skipped') (htail : r'.head = r.head ∨ r.head ∈ skipped')
    (hcopy : ∀ k, f = .none → 0 < k → r.head + k ≤ r.commit_tail → k ≤ r.size →
      f' = .none ∧ r'.head = r.head ∧ r.commit_tail ≤ r'.commit_tail ∧
        ∀ i ≤ k, span r.size r'.data r.head i = span r.size r.data r.head i)
    (hres : ∀ seq, f = .reserved .none seq → f' = .reserved .none seq)
    (hcom : ∀ seq, f = .committed .none seq → f' = .committed .none seq) :
    AtConsumer r' f' skipped' c := by
  have hsize : r'.size = r.size := by rw [Ring.size, Ring.size, hbits]
  cases c with
  | idle code => exact trivial
  | tail k head =>
    refine ⟨h.1, ?_⟩
    rcases h.2 with rfl | hmem
    · exact htail.imp Eq.symm id
    · exact .inr (hskip _ hmem)
  | copy k head out =>
    obtain ⟨hf, hk, rfl, hle, hwhole, hout, hspan⟩ := h
    obtain ⟨hf', hh, hc, hdata⟩ := hcopy k hf hk hle (by omega)
    refine ⟨hf', hk, hh.symm, hle.trans hc, ?_, hout, ?_⟩
    · rw [hsize]
      exact hwhole
    · rw [hsize, hdata _ hout]
      exact hspan
  | popTail new_head => exact Nat.le_trans h hhead
  | rebase seq s =>
    cases s with
    | commit | reserve | casReserve => exact Nat.le_trans h hhead
    | casCommit => exact hres seq h
    | casHead => exact hcom seq h

end Intewell.Mpscq
