/-
# Timeouts in ticks

`clock_time_to_tick` (`components/clock/clock_time_to_tick.c`).  The number of ticks is narrowed to
an `int` before one is added and before it is tested, so that **a long timeout may become a short
one, and one that is long past may become long**.  Where one more than `INT_MAX` would be asked for,
the sum of two `int` overflows and there is no result.
-/

import Mathlib.Tactic.Linarith
import Mathlib.Tactic.Ring

namespace Intewell.Tick

open Int

structure Timespec where
  tv_sec : ℤ
  tv_nsec : ℤ

def NSEC_PER_SEC : ℕ := 10 ^ 9

def Timespec.ns (t : Timespec) : ℤ := t.tv_sec * NSEC_PER_SEC + t.tv_nsec

def TTOS_WAIT_FOREVER : ℤ := -1

def INT_MAX : ℤ := 2 ^ 31 - 1

/-- With `CONFIG_SYS_TICK_NS`, and `now` the time of `CLOCK_REALTIME`. -/
def clock_time_to_tick (sys_tick_ns : ℕ) (now : Timespec) (time : Option Timespec)
    (is_abs_timeout : Bool) : Option ℤ :=
  match time with
  | none => some TTOS_WAIT_FOREVER
  | some time =>
    if time.tv_sec ≠ 0 ∨ time.tv_nsec ≠ 0 then
      let tp : Timespec := if is_abs_timeout then now else ⟨0, 0⟩
      let (nsecond, second) :=
        if time.tv_nsec - tp.tv_nsec < 0 then
          (NSEC_PER_SEC - (tp.tv_nsec - time.tv_nsec), time.tv_sec - tp.tv_sec - 1)
        else (time.tv_nsec - tp.tv_nsec, time.tv_sec - tp.tv_sec)
      let narrowed := (second * (NSEC_PER_SEC / sys_tick_ns : ℕ) +
        (nsecond + (sys_tick_ns - 1)) / sys_tick_ns * sys_tick_ns / sys_tick_ns).bmod (2 ^ 32)
      if narrowed = INT_MAX then none
      else
        let tick := narrowed + 1
        some (if tick < 0 then 0 else tick)
    else some 0

/-- How long to wait from `now` on. -/
def wait (now time : Timespec) (is_abs_timeout : Bool) : ℤ :=
  time.ns - if is_abs_timeout then now.ns else 0

/-- A wait in ticks, rounded up. -/
def ticks (p : ℕ) (d : ℤ) : ℤ := (d + (p - 1)) / p

/-- What a wait of `d` asks of the result `r`: from any point `c` in the `m`-th tick, `r` ticks end
no earlier than asked for, and at most two ticks later, if there is such an `int`; else it is the
largest one, or the wait has no end.  What is past is waited for one tick at most. -/
structure Timely (p : ℕ) (d r : ℤ) : Prop where
  fits : 0 ≤ d → ticks p d + 1 ≤ INT_MAX → ∀ m c : ℤ, m * p ≤ c → c < (m + 1) * p →
    c + d ≤ (m + r) * p ∧ (m + r) * p ≤ c + d + 2 * p
  long : 0 ≤ d → INT_MAX < ticks p d + 1 → r = INT_MAX ∨ r = TTOS_WAIT_FOREVER
  past : d < 0 → r ≤ 1

/-- The waits whose result is right.  The second case of each line is a wait of a multiple of
`2 ^ 32` ticks more, or less, that the narrowing takes for the right one. -/
def InTime (p : ℕ) (d : ℤ) : Prop :=
  (0 ≤ d ∧ (ticks p d + 1 ≤ INT_MAX ∨ ticks p d % 2 ^ 32 + 1 = INT_MAX)) ∨
    (d < 0 ∧ (ticks p d % 2 ^ 32 = 0 ∨ 2 ^ 31 ≤ ticks p d % 2 ^ 32))

/-- The number of ticks, and one more, is an `int`. -/
def Fits (p : ℕ) (d : ℤ) : Prop := -(2 ^ 31 + 1) * p < d ∧ d ≤ (2 ^ 31 - 2) * p

/-- The wait in ticks is narrowed, and one is added. -/
theorem clock_time_to_tick_eq {p : ℕ} {now time : Timespec} {abs : Bool} (hp : p ∣ NSEC_PER_SEC)
    (hz : time.tv_sec ≠ 0 ∨ time.tv_nsec ≠ 0) : clock_time_to_tick p now (some time) abs =
      if (ticks p (wait now time abs)).bmod (2 ^ 32) = INT_MAX then none
      else some (max 0 ((ticks p (wait now time abs)).bmod (2 ^ 32) + 1)) := by
  have hp0 : 0 < p := Nat.pos_of_dvd_of_pos hp (by decide)
  obtain ⟨k, hk⟩ := hp
  -- seconds and nanoseconds of the wait
  obtain ⟨tp, htp, hw⟩ : ∃ tp, (if abs = true then now else ⟨0, 0⟩) = tp ∧
      wait now time abs = time.ns - tp.ns := by
    cases abs
    · exact ⟨_, rfl, rfl⟩
    · exact ⟨_, rfl, rfl⟩
  obtain ⟨ns, s, hns, hw'⟩ : ∃ ns s, (if time.tv_nsec - tp.tv_nsec < 0 then
      ((NSEC_PER_SEC : ℤ) - (tp.tv_nsec - time.tv_nsec), time.tv_sec - tp.tv_sec - 1)
      else (time.tv_nsec - tp.tv_nsec, time.tv_sec - tp.tv_sec)) = (ns, s) ∧
      wait now time abs = ns + p * (s * k) := by
    unfold Timespec.ns at hw
    rw [hw, hk]
    push_cast
    split_ifs
    · exact ⟨_, _, rfl, by ring⟩
    · exact ⟨_, _, rfl, by ring⟩
  have hn : s * k + (ns + (p - 1)) / p * p / p = ticks p (wait now time abs) := by
    rw [ticks, mul_ediv_cancel _ (by omega), hw', add_right_comm, add_mul_ediv_left _ _ (by omega),
      add_comm]
  unfold clock_time_to_tick
  dsimp only
  rw [if_pos hz, htp, hns, hk, Nat.mul_div_cancel_left _ hp0]
  dsimp only
  rw [hn]
  refine if_congr Iff.rfl rfl (congrArg some ?_)
  split_ifs <;> omega

section
variable {p : ℕ} {d : ℤ} (hp : 0 < (p : ℤ))
include hp

/-- The bounds of the rounded wait. -/
theorem ticks_bounds : d ≤ ticks p d * p ∧ ticks p d * p ≤ d + (p - 1) := by
  have h1 := Int.ediv_mul_le (d + (p - 1)) hp.ne'
  have h2 := lt_ediv_add_one_mul_self (d + (p - 1)) hp
  unfold ticks
  constructor <;> linarith

theorem ticks_nonneg (hd : 0 ≤ d) : 0 ≤ ticks p d :=
  Int.ediv_nonneg (by omega) hp.le

/-- One tick more than the rounded wait is right from any point in a tick. -/
theorem ticks_succ_timely (m c : ℤ) (hm : m * p ≤ c) (hc : c < (m + 1) * p) :
    c + d ≤ (m + (ticks p d + 1)) * p ∧ (m + (ticks p d + 1)) * p ≤ c + d + 2 * p := by
  obtain ⟨h1, h2⟩ := ticks_bounds (d := d) hp
  constructor <;> linarith

theorem fits_ticks (h : Fits p d) : -2 ^ 31 ≤ ticks p d ∧ ticks p d < 2 ^ 31 - 1 := by
  obtain ⟨h1, h2⟩ := ticks_bounds (d := d) hp
  obtain ⟨hlo, hhi⟩ := h
  constructor
  · by_contra hlt
    nlinarith
  · by_contra hge
    nlinarith

/-- Whatever is narrowed, the result is right exactly for the waits `InTime`. -/
theorem timely_iff (r : Option ℤ) (hr : r = if (ticks p d).bmod (2 ^ 32) = INT_MAX then none
      else some (max 0 ((ticks p d).bmod (2 ^ 32) + 1))) :
    (∃ t, r = some t ∧ Timely p d t) ↔ InTime p d := by
  have hb : (ticks p d).bmod (2 ^ 32) = if ticks p d % 2 ^ 32 < 2 ^ 31 then ticks p d % 2 ^ 32
      else ticks p d % 2 ^ 32 - 2 ^ 32 := by
    rw [Int.bmod_def]
    norm_num
  rw [hr, hb]
  unfold InTime INT_MAX
  constructor
  · rintro ⟨t, ht, hfits, hlong, hpast⟩
    unfold INT_MAX TTOS_WAIT_FOREVER at *
    by_cases hd : 0 ≤ d
    · refine .inl ⟨hd, ?_⟩
      by_cases hfit : ticks p d + 1 ≤ 2 ^ 31 - 1
      · exact .inl hfit
      · have := hlong hd (by omega)
        split_ifs at ht <;> simp only [Option.some.injEq] at ht <;> omega
    · refine .inr ⟨by omega, ?_⟩
      have := hpast (by omega)
      split_ifs at ht <;> simp only [Option.some.injEq] at ht <;> omega
  · rintro (⟨hd, hn⟩ | ⟨hd, hn⟩)
    · have h0 := ticks_nonneg hp hd
      refine ⟨_, if_neg (by split_ifs <;> omega), fun _ hfit => ?_, fun _ hlong => .inl ?_,
        fun h => by omega⟩
      · have heq : max 0 ((if ticks p d % 2 ^ 32 < 2 ^ 31 then ticks p d % 2 ^ 32
            else ticks p d % 2 ^ 32 - 2 ^ 32) + 1) = ticks p d + 1 := by
          unfold INT_MAX at hfit
          split_ifs <;> omega
        rw [heq]
        exact ticks_succ_timely hp
      · unfold INT_MAX at *
        split_ifs <;> omega
    · exact ⟨_, if_neg (by split_ifs <;> omega), fun h => by omega, fun h => by omega,
        fun _ => by split_ifs <;> omega⟩

end

/-- **Which timeouts end in time**; and of two that fit, the later one ends no earlier. -/
theorem clock_time_to_tick_timely {p : ℕ} {now time : Timespec} {abs : Bool} (hp : p ∣ NSEC_PER_SEC)
    (hz : time.tv_sec ≠ 0 ∨ time.tv_nsec ≠ 0) :
    ((∃ r, clock_time_to_tick p now (some time) abs = some r ∧ Timely p (wait now time abs) r) ↔
      InTime p (wait now time abs)) ∧
    ∀ time', time'.tv_sec ≠ 0 ∨ time'.tv_nsec ≠ 0 → Fits p (wait now time abs) →
      Fits p (wait now time' abs) → time.ns ≤ time'.ns →
      ∃ r r', clock_time_to_tick p now (some time) abs = some r ∧
        clock_time_to_tick p now (some time') abs = some r' ∧ r ≤ r' := by
  have hp0 : 0 < (p : ℤ) := natCast_pos.2 (Nat.pos_of_dvd_of_pos hp (by decide))
  refine ⟨timely_iff hp0 _ (clock_time_to_tick_eq hp hz), fun time' hz' hf hf' hle => ?_⟩
  have hmono : ticks p (wait now time abs) ≤ ticks p (wait now time' abs) :=
    Int.ediv_le_ediv hp0 (by unfold wait; omega)
  have hfits := fits_ticks hp0 hf
  have hfits' := fits_ticks hp0 hf'
  rw [clock_time_to_tick_eq hp hz, clock_time_to_tick_eq hp hz',
    bmod_eq_of_le (by omega) (by omega), bmod_eq_of_le (by omega) (by omega)]
  unfold INT_MAX
  exact ⟨_, _, if_neg (by omega), if_neg (by omega), by omega⟩

/-- 5 ms in ticks of 1 ms: six ticks.  An instant that passed `2 ^ 31` ticks ago: none. -/
theorem clock_time_to_tick_five :
    (∃ r, clock_time_to_tick 1000000 ⟨0, 0⟩ (some ⟨0, 5000000⟩) false = some r ∧
      Timely 1000000 (wait ⟨0, 0⟩ ⟨0, 5000000⟩ false) r) ∧
    ∃ r, clock_time_to_tick 1000000 ⟨2147485, 648000001⟩ (some ⟨2, 0⟩) true = some r ∧
      Timely 1000000 (wait ⟨2147485, 648000001⟩ ⟨2, 0⟩ true) r :=
  ⟨(clock_time_to_tick_timely (by decide) (by decide)).1.2 (by unfold InTime; decide),
    (clock_time_to_tick_timely (by decide) (by decide)).1.2 (by unfold InTime; decide)⟩

/-- 4294968 s become 705 ms, and what was 2147484 s ago is waited for. -/
theorem clock_time_to_tick_narrowed :
    clock_time_to_tick 1000000 ⟨0, 0⟩ (some ⟨4294968, 0⟩) false = some 705 ∧
      ¬Timely 1000000 (wait ⟨0, 0⟩ ⟨4294968, 0⟩ false) 705 ∧
      clock_time_to_tick 1000000 ⟨2147485, 0⟩ (some ⟨1, 0⟩) true = some 2147483297 ∧
      ¬Timely 1000000 (wait ⟨2147485, 0⟩ ⟨1, 0⟩ true) 2147483297 :=
  ⟨by decide, fun h => absurd (h.long (by decide) (by decide)) (by decide), by decide,
    fun h => absurd (h.past (by decide)) (by decide)⟩

end Intewell.Tick
