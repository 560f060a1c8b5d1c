/-
# Byte memory

A memory holds one byte at each address; a machine word of `n` bytes is read and
written little end first.  What a store leaves alone is every byte outside of the
`n` it writes, and a load depends on the `n` bytes it reads and on no others.
-/

import Mathlib.Tactic.Ring

namespace Intewell.Bytes

/-- One byte at each address. -/
abbrev Mem := ℕ → UInt8

/-- The `n` bytes at `a`, little end first. -/
def load : ℕ → Mem → ℕ → ℕ
  | 0, _, _ => 0
  | n + 1, m, a => (m a).toNat + 256 * load n m (a + 1)

/-- `v` in the `n` bytes at `a`. -/
def store (n : ℕ) (m : Mem) (a v : ℕ) : Mem := fun b =>
  if a ≤ b ∧ b < a + n then UInt8.ofNat (v / 256 ^ (b - a)) else m b

/-- `memcpy(dst, src, n)`, the source read before anything is written. -/
def copy (m : Mem) (dst src n : ℕ) : Mem := fun b =>
  if dst ≤ b ∧ b < dst + n then m (src + (b - dst)) else m b

theorem load_congr {m m' : Mem} :
    ∀ {n a : ℕ}, (∀ b, a ≤ b → b < a + n → m b = m' b) → load n m a = load n m' a
  | 0, _, _ => rfl
  | n + 1, a, h => by
    have htail : load n m (a + 1) = load n m' (a + 1) :=
      load_congr fun b hb hb' => h b (by omega) (by omega)
    simp only [load, htail, h a le_rfl (by omega)]

theorem load_lt (m : Mem) : ∀ n a : ℕ, load n m a < 256 ^ n
  | 0, _ => by simp [load]
  | n + 1, a => by
    have hbyte := (m a).toNat_lt
    have htail := load_lt m n (a + 1)
    simp only [load, pow_succ]
    omega

theorem store_apply_of_not_mem {n a v b : ℕ} (m : Mem) (h : b < a ∨ a + n ≤ b) :
    store n m a v b = m b := by
  simp only [store, ite_eq_right_iff]
  omega

theorem copy_apply_of_not_mem {dst src n b : ℕ} (m : Mem) (h : b < dst ∨ dst + n ≤ b) :
    copy m dst src n b = m b := by
  simp only [copy, ite_eq_right_iff]
  omega

theorem load_store_of_disjoint {n k a b : ℕ} (m : Mem) (v : ℕ) (h : b + k ≤ a ∨ a + n ≤ b) :
    load k (store n m a v) b = load k m b :=
  load_congr fun c hc hc' => store_apply_of_not_mem m (by omega)

theorem store_comm {n k a b : ℕ} (m : Mem) (v w : ℕ) (h : a + n ≤ b ∨ b + k ≤ a) :
    store k (store n m a v) b w = store n (store k m b w) a v := by
  funext c
  by_cases hc : a ≤ c ∧ c < a + n
  · rw [store_apply_of_not_mem _ (by omega)]
    simp only [store, hc, and_self, if_true]
  · by_cases hc' : b ≤ c ∧ c < b + k
    · simp only [store, hc, hc', if_false, and_self, if_true]
    · simp only [store, hc, hc', if_false]

private theorem load_digits {m : Mem} {v : ℕ} : ∀ {n a : ℕ}, v < 256 ^ n →
      (∀ i, i < n → m (a + i) = UInt8.ofNat (v / 256 ^ i)) → load n m a = v := by
  intro n
  induction n generalizing v with
  | zero => intro a hv _; simp only [pow_zero, Nat.lt_one_iff] at hv; simp [load, hv]
  | succ n ih =>
    intro a hv h
    have hhead : m a = UInt8.ofNat v := by simpa using h 0 (by omega)
    have htail : load n m (a + 1) = v / 256 := by
      refine ih (by rw [pow_succ] at hv; omega) fun i hi => ?_
      rw [show a + 1 + i = a + (i + 1) by ring, h (i + 1) (by omega), pow_succ,
        Nat.div_div_eq_div_mul, mul_comm]
    simp only [load, hhead, htail, UInt8.toNat_ofNat']
    omega

theorem load_store {n a v : ℕ} (m : Mem) (hv : v < 256 ^ n) : load n (store n m a v) a = v :=
  load_digits hv fun i hi => by simp [store, hi]

end Intewell.Bytes
