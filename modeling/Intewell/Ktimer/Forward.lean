/-
# A timer is moved on

`ktimer_forward` (`kernel/time/ktimer.c`).  The resolution is a `uint64_t`, and so the interval is
compared with it as one: **a negative interval is not raised to the resolution**.  The timer then
always goes to `KTIME_MAX`, which is right only where the first expiry later than now is not before
it (`Forwardable`).
-/

import Intewell.Ktimer.Basic

namespace Intewell.Ktimer

open Int

variable {κ : Type*}

def ktimer_add_expires (timer : Timer κ) (time : ℤ) : Timer κ :=
  { timer with expires := ktime_add_safe timer.expires time }

/-- The timer afterwards, and the result. -/
def ktimer_forward (resolution : ℕ) (timer : Timer κ) (now interval : ℤ) : Timer κ × ℕ :=
  let delta := now - timer.expires
  if timer.state = .enqueued ∨ delta < 0 then (timer, 0)
  else
    let interval :=
      if interval % 2 ^ 64 < resolution then (resolution : ℤ).bmod (2 ^ 64) else interval
    if interval ≤ delta then
      let overrun : ℕ := (delta.tdiv interval % 2 ^ 64).toNat
      let timer := ktimer_add_expires timer ((interval * overrun).bmod (2 ^ 64))
      if now < timer.expires then (timer, overrun)
      else (ktimer_add_expires timer interval, (overrun + 1) % 2 ^ 64)
    else (ktimer_add_expires timer interval, 1)

theorem bmod_eq {a : ℤ} (h0 : 0 ≤ a) (h : a < 2 ^ 63) : a.bmod (2 ^ 64) = a :=
  bmod_eq_of_le (by omega) (by omega)

theorem ktime_add_safe_eq {a b : ℤ} (ha : 0 ≤ a ∧ a < 2 ^ 63) (hb : 0 ≤ b ∧ b < 2 ^ 63) :
    ktime_add_safe a b = min (a + b) KTIME_MAX := by
  unfold ktime_add_safe KTIME_MAX
  dsimp only
  by_cases h : a + b < 2 ^ 63
  · rw [bmod_eq (by omega) h, if_neg (by omega)]
    omega
  · have : (a + b).bmod (2 ^ 64) = a + b - 2 ^ 64 := by
      rw [← sub_bmod_right]
      exact bmod_eq_of_le (by omega) (by omega)
    rw [this, if_pos (by omega)]
    omega

/-- With `i` the larger of interval and resolution, the first `e + k * i` later than now and `k`, or
`KTIME_MAX` if that is no time. -/
def Forwarded (resolution : ℕ) (timer : Timer κ) (now interval : ℤ) (r : Timer κ × ℕ) : Prop :=
  (now < timer.expires → r = (timer, 0)) ∧ (timer.expires ≤ now → ∃ k : ℕ,
    now < timer.expires + k * max interval resolution ∧
    (∀ j < k, timer.expires + j * max interval resolution ≤ now) ∧
    r.1 = { timer with expires := min (timer.expires + k * max interval resolution) KTIME_MAX } ∧
    (timer.expires + k * max interval resolution ≤ KTIME_MAX → r.2 = k))

/-- The timers that are moved on as they should be.  Of those with a negative interval: the first
expiry later than now would be past `KTIME_MAX`; or it is `KTIME_MAX`, and no interval has gone by
since the last one. -/
def Forwardable (resolution : ℕ) (timer : Timer κ) (now interval : ℤ) : Prop :=
  now < timer.expires ∨ 0 ≤ interval ∨
    KTIME_MAX < timer.expires + ((now - timer.expires) / resolution + 1) * resolution ∨
    (KTIME_MAX = timer.expires + ((now - timer.expires) / resolution + 1) * resolution ∧
      now - timer.expires < resolution ∧ now - timer.expires < -interval)

section

variable {resolution : ℕ} {timer : Timer κ} {now interval : ℤ}
  (hr : 0 < resolution ∧ resolution < 2 ^ 63) (hs : timer.state ≠ .enqueued)
  (he : 0 ≤ timer.expires ∧ timer.expires < 2 ^ 63) (hn : 0 ≤ now ∧ now < 2 ^ 63)
  (hi : -2 ^ 63 ≤ interval ∧ interval < 2 ^ 63) (hd : timer.expires ≤ now)
include hr hs he hn hi hd

/-- An interval that is not negative. -/
theorem ktimer_forward_of_nonneg (h : 0 ≤ interval) : ∃ k : ℕ,
    now < timer.expires + k * max interval resolution ∧
    (∀ j < k, timer.expires + j * max interval resolution ≤ now) ∧
    ktimer_forward resolution timer now interval =
      ({ timer with expires := min (timer.expires + k * max interval resolution) KTIME_MAX },
        k) := by
  obtain ⟨e, _⟩ := timer
  unfold ktimer_forward
  dsimp only at *
  rw [if_neg (not_or.2 ⟨hs, by omega⟩)]
  have hmax : (if interval % 2 ^ 64 < resolution then (resolution : ℤ).bmod (2 ^ 64) else
    interval) = max interval resolution := by
    rw [bmod_eq (by omega) (by omega)]
    split_ifs <;> omega
  rw [hmax]
  generalize hi' : max interval (resolution : ℤ) = i
  have hi0 : 0 < i ∧ i < 2 ^ 63 := by omega
  by_cases h1 : i ≤ now - e
  · -- the whole intervals that have gone by, and one more
    obtain ⟨n, hn'⟩ : ∃ n : ℕ, (now - e) / i = n :=
      eq_ofNat_of_zero_le (ediv_nonneg (by omega) hi0.1.le)
    have hle := Int.ediv_mul_le (now - e) hi0.1.ne'
    have hlt := lt_ediv_add_one_mul_self (now - e) hi0.1
    rw [hn'] at hle hlt
    have hn1 : (n : ℤ) ≤ n * i := le_mul_of_one_le_right (by omega) hi0.1
    have hover : ((now - e).tdiv i % 2 ^ 64).toNat = n := by
      rw [tdiv_eq_ediv_of_nonneg (by omega), hn']
      omega
    have hadd : ktime_add_safe e (n * i) = e + n * i := by
      rw [ktime_add_safe_eq he (by omega), KTIME_MAX]
      omega
    rw [if_pos h1, hover, mul_comm i, bmod_eq (by omega) (by omega)]
    unfold ktimer_add_expires
    rw [hadd]
    dsimp only
    rw [if_neg (by omega)]
    refine ⟨n + 1, by push_cast; omega, fun j hj => ?_, ?_⟩
    · have : (j : ℤ) * i ≤ n * i := mul_le_mul_of_nonneg_right (by omega) hi0.1.le
      omega
    · rw [ktime_add_safe_eq (by omega) (by omega), Nat.mod_eq_of_lt (by omega), Nat.cast_succ,
        add_one_mul, add_assoc]
  · rw [if_neg h1]
    refine ⟨1, by push_cast; omega, fun j hj => ?_, ?_⟩
    · obtain rfl : j = 0 := by omega
      push_cast
      omega
    · unfold ktimer_add_expires
      rw [ktime_add_safe_eq he (by omega), Nat.cast_one, one_mul]

/-- A negative interval: the last addition is refused, whatever has been added before. -/
theorem ktimer_forward_of_neg (h : interval < 0) : ktimer_forward resolution timer now interval =
    ({ timer with expires := KTIME_MAX },
      ((1 - (now - timer.expires) / -interval) % 2 ^ 64).toNat) := by
  obtain ⟨e, _⟩ := timer
  unfold ktimer_forward
  dsimp only at *
  have hkeep : ¬interval % 2 ^ 64 < resolution := by omega
  rw [if_neg (not_or.2 ⟨hs, by omega⟩), if_neg hkeep, if_pos (by omega)]
  obtain ⟨n, hn'⟩ : ∃ n : ℕ, (now - e) / -interval = n :=
    eq_ofNat_of_zero_le (ediv_nonneg (by omega) (by omega))
  have hle := Int.ediv_mul_le (now - e) (b := -interval) (by omega)
  rw [hn'] at hle ⊢
  have hdiv : (now - e).tdiv interval = -n := by
    rw [← neg_neg interval, Int.tdiv_neg, tdiv_eq_ediv_of_nonneg (by omega), hn']
  have hn1 : (n : ℤ) ≤ n * -interval := le_mul_of_one_le_right (by omega) (by omega)
  -- the product wraps to the time that has gone by in whole intervals
  have hprod : (interval * ((-n % 2 ^ 64 : ℤ).toNat : ℤ)).bmod (2 ^ 64) = n * -interval := by
    have hmod : interval * (-n % 2 ^ 64) % 2 ^ 64 = n * -interval % 2 ^ 64 := by
      rw [Int.mul_emod, Int.emod_emod_of_dvd _ dvd_rfl, ← Int.mul_emod]
      ring_nf
    rw [toNat_of_nonneg (by omega), ← bmod_eq (a := n * -interval) (by omega) (by omega)]
    have hcast : ((2 ^ 64 : ℕ) : ℤ) = 2 ^ 64 := rfl
    rw [← emod_bmod, hcast, hmod, ← hcast, emod_bmod]
  rw [hdiv, hprod]
  unfold ktimer_add_expires
  have hadd : ktime_add_safe e (n * -interval) = e + n * -interval := by
    rw [ktime_add_safe_eq he (by omega), KTIME_MAX]
    omega
  have hlast : ktime_add_safe (e + n * -interval) interval = KTIME_MAX := by
    unfold ktime_add_safe
    dsimp only
    rw [bmod_eq_of_le (by omega) (by omega), if_pos (.inr (.inl (by omega)))]
  dsimp only
  rw [hadd, if_neg (by omega), hlast]
  refine Prod.ext rfl ?_
  dsimp only
  omega

end

/-- A quotient, and when it is zero. -/
theorem quotient_bounds {a b : ℤ} {n : ℕ} (hb : 0 < b) (hn : a / b = n) :
    n * b ≤ a ∧ a < (n + 1) * b ∧ n ≤ a ∧ (a < b ↔ n = 0) := by
  have hle := Int.ediv_mul_le a hb.ne'
  have hlt := lt_ediv_add_one_mul_self a hb
  rw [hn] at hle hlt
  refine ⟨hle, hlt, by nlinarith, fun h => ?_, ?_⟩
  · by_contra hne
    have : (1 : ℤ) ≤ n := by omega
    nlinarith
  · rintro rfl
    simpa using hlt

/-- **The timer is moved to the first multiple of the interval later than now**, or to
`KTIME_MAX`, exactly if it is `Forwardable`. -/
theorem ktimer_forward_spec {resolution : ℕ} {timer : Timer κ} {now interval : ℤ}
    (hr : 0 < resolution ∧ resolution < 2 ^ 63) (hs : timer.state ≠ .enqueued)
    (he : 0 ≤ timer.expires ∧ timer.expires < 2 ^ 63) (hn : 0 ≤ now ∧ now < 2 ^ 63)
    (hi : -2 ^ 63 ≤ interval ∧ interval < 2 ^ 63) :
    Forwarded resolution timer now interval (ktimer_forward resolution timer now interval) ↔
      Forwardable resolution timer now interval := by
  by_cases hd : timer.expires ≤ now
  swap
  · have hcall : ktimer_forward resolution timer now interval = (timer, 0) := by
      unfold ktimer_forward
      dsimp only
      rw [if_pos (.inr (by omega))]
    exact ⟨fun _ => .inl (by omega), fun _ => ⟨fun _ => hcall, fun h => absurd h hd⟩⟩
  have hnot : ¬now < timer.expires := by omega
  by_cases hpos : 0 ≤ interval
  · obtain ⟨k, hlt, hmin, hcall⟩ := ktimer_forward_of_nonneg hr hs he hn hi hd hpos
    rw [hcall]
    exact ⟨fun _ => .inr (.inl hpos), fun _ => ⟨fun h => absurd h hnot,
      fun _ => ⟨k, hlt, hmin, rfl, fun _ => rfl⟩⟩⟩
  have hmax : max interval (resolution : ℤ) = resolution := by omega
  have hr0 : (0 : ℤ) < resolution := by omega
  rw [ktimer_forward_of_neg hr hs he hn hi hd (by omega), Forwarded, Forwardable, hmax]
  obtain ⟨n, hn'⟩ : ∃ n : ℕ, (now - timer.expires) / (resolution : ℤ) = n :=
    eq_ofNat_of_zero_le (ediv_nonneg (by omega) hr0.le)
  obtain ⟨m, hm⟩ : ∃ m : ℕ, (now - timer.expires) / -interval = m :=
    eq_ofNat_of_zero_le (ediv_nonneg (by omega) (by omega))
  rw [hn', hm]
  have hn0 := quotient_bounds hr0 hn'
  have hm0 := quotient_bounds (b := -interval) (by omega) hm
  constructor
  · rintro ⟨-, hmove⟩
    obtain ⟨k, hlt, hmin, hexp, hres⟩ := hmove hd
    -- the first expiry later than now is the one after those that have gone by
    obtain rfl : k = n + 1 := by
      have h1 : ¬k ≤ n := fun h => by nlinarith [hn0.1]
      have h2 : ¬n + 1 < k := fun h => by
        have := hmin (n + 1) h
        push_cast at this
        omega
      omega
    simp only [Timer.mk.injEq, and_true] at hexp
    push_cast at hexp hres
    by_cases heq : timer.expires + (n + 1) * resolution ≤ KTIME_MAX
    · have hk := hres heq
      have hzero : n = 0 ∧ m = 0 := by
        clear hlt hmin hexp
        omega
      refine .inr (.inr (.inr ⟨by omega, hn0.2.2.2.2 hzero.1, hm0.2.2.2.2 hzero.2⟩))
    · exact .inr (.inr (.inl (by omega)))
  · rintro (h | h | h)
    · omega
    · omega
    refine ⟨fun h => absurd h hnot, fun _ => ⟨n + 1, by push_cast; omega, fun j hj => ?_, ?_,
      fun hle => ?_⟩⟩
    · have : (j : ℤ) * resolution ≤ n * resolution := mul_le_mul_of_nonneg_right (by omega) hr0.le
      omega
    · push_cast
      congr 1
      omega
    · push_cast at hle
      have hzero : n = 0 ∧ m = 0 := by omega
      simp [hzero]

/-- Expired at 5, not in a queue. -/
def expired : Timer Unit := ⟨5, false, ((), .monotonic), .inactive, .monotonic⟩

/-- At 27 with an interval of 10: the third expiry is the next one.  At 10 with an interval of -1
and a resolution of `2 ^ 63 - 1`: the next one would be past `KTIME_MAX`. -/
theorem ktimer_forward_expired : Forwarded 1 expired 27 10 (ktimer_forward 1 expired 27 10) ∧
    Forwarded (2 ^ 63 - 1) expired 10 (-1) (ktimer_forward (2 ^ 63 - 1) expired 10 (-1)) :=
  ⟨(ktimer_forward_spec (by decide) (by decide) (by decide) (by decide) (by decide)).2
      (.inr (.inl (by decide))),
    (ktimer_forward_spec (by decide) (by decide) (by decide) (by decide) (by decide)).2
      (.inr (.inr (.inl (by decide))))⟩

/-- With an interval of -1 the timer never expires again, and the result is `2 ^ 64 - 4`. -/
theorem ktimer_forward_negative :
    ktimer_forward 1 expired 10 (-1) = ({ expired with expires := KTIME_MAX }, 2 ^ 64 - 4) ∧
      ¬Forwarded 1 expired 10 (-1) (ktimer_forward 1 expired 10 (-1)) := by
  refine ⟨rfl, fun h => ?_⟩
  obtain ⟨k, -, hmin, hexp, -⟩ := h.2 (by decide)
  have hmax : min (5 + k * max (-1 : ℤ) 1) KTIME_MAX = KTIME_MAX :=
    (congrArg Timer.expires hexp).symm
  rw [show max (-1 : ℤ) 1 = 1 by decide, KTIME_MAX] at hmax
  exact absurd (hmin 6 (by omega)) (by decide)

end Intewell.Ktimer
