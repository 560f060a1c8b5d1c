/-
# Multi-level tables in a memory

A memory holds tables of `B` entries.  An entry of a table of height `h + 1` may
point to a table of height `h` (`next`); the root has height `H`.  A key is read
in base `B`: its digits, from the highest, are the indices of a walk from the root
that ends at the first entry that is not a pointer, at height `0` at the latest
(`walk`).

`Reach m root H h pre p` says that `p` is the table of height `h` on the walks of the
keys whose digits above `h` are those of `pre`.  When no table is reached twice
(`WF`), writing one entry changes the walks of the keys under that entry and no
others (`walk_write_ne`, `walk_write_eq`); clearing an entry, replacing it by a
fresh table, and dropping a table keep `WF`.
-/

import Mathlib.Tactic.Ring

namespace Radix

open Nat

variable {V : Type*} (next : V → Option ℕ) (B : ℕ)

/-- Where the walk for `k` from a table of height `h` ends, and the entry it ends at. -/
def walk (m : ℕ → ℕ → V) : ℕ → ℕ → ℕ → ℕ × V
  | 0, p, k => (0, m p (k % B))
  | h + 1, p, k =>
    match next (m p (k / B ^ (h + 1) % B)) with
    | none => (h + 1, m p (k / B ^ (h + 1) % B))
    | some q => walk m h q k

/-- Where the walk for `k` ends once it has read the entry `v` of a table of height `h`. -/
def resume (m : ℕ → ℕ → V) : ℕ → V → ℕ → ℕ × V
  | 0, v, _ => (0, v)
  | h + 1, v, k =>
    match next v with
    | none => (h + 1, v)
    | some q => walk next B m h q k

theorem walk_eq_resume (m : ℕ → ℕ → V) (h p k : ℕ) :
    walk next B m h p k = resume next B m h (m p (k / B ^ h % B)) k := by
  cases h with
  | zero => simp [walk, resume]
  | succ h => rfl

/-- Write one entry. -/
def write (m : ℕ → ℕ → V) (p i : ℕ) (v : V) : ℕ → ℕ → V :=
  Function.update m p (Function.update (m p) i v)

section
variable (m : ℕ → ℕ → V)
include m

@[simp] theorem write_self (p i : ℕ) (v : V) : write m p i v p i = v := by
  simp [write]

theorem write_table_ne {p q : ℕ} (i : ℕ) (v : V) (h : q ≠ p) : write m p i v q = m q := by
  simp [write, h]

theorem write_ne {p q i j : ℕ} (v : V) (h : ¬(q = p ∧ j = i)) : write m p i v q j = m q j := by
  unfold write
  by_cases hq : q = p
  · subst hq
    simp [show j ≠ i from fun hj => h ⟨rfl, hj⟩]
  · simp [hq]

end

/-- `p` is the table of height `h` for the keys with the digits `pre` above `h`. -/
inductive Reach (m : ℕ → ℕ → V) (root H : ℕ) : ℕ → ℕ → ℕ → Prop where
  | root : Reach m root H H 0 root
  | down {h pre p i q : ℕ} (hp : Reach m root H (h + 1) pre p) (hi : i < B)
      (hq : next (m p i) = some q) : Reach m root H h (pre * B + i) q

/-- No table is reached twice, the tables reached are in `U`, and every entry of a
table reached satisfies `ok`. -/
structure WF (ok : ℕ → V → Prop) (U : Set ℕ) (root H : ℕ) (m : ℕ → ℕ → V) : Prop where
  inj : ∀ {h pre h' pre' p}, Reach next B m root H h pre p → Reach next B m root H h' pre' p →
    h = h' ∧ pre = pre'
  used : ∀ {h pre p}, Reach next B m root H h pre p → p ∈ U
  entries : ∀ {h pre p}, Reach next B m root H h pre p → ∀ i < B, ok h (m p i)

variable {next B} {m m' : ℕ → ℕ → V} {root H h pre p i : ℕ} {v : V}

theorem digits_unique {a a' i' : ℕ} (hi : i < B) (hi' : i' < B) (h : a * B + i = a' * B + i') :
    a = a' ∧ i = i' := by
  have hB : 0 < B := by omega
  have hdiv := congrArg (· / B) h
  have hmod := congrArg (· % B) h
  simp only [mul_comm _ B, mul_add_div hB, div_eq_of_lt hi, div_eq_of_lt hi',
    mul_add_mod, mod_eq_of_lt hi, mod_eq_of_lt hi', add_zero] at hdiv hmod
  exact ⟨hdiv, hmod⟩

namespace Reach

section
variable (hr : Reach next B m root H h pre p)
include hr

theorem height_le : h ≤ H := by
  induction hr with
  | root => exact le_rfl
  | down _ _ _ ih => exact (le_succ _).trans ih

theorem cases_on :
    (h = H ∧ pre = 0 ∧ p = root) ∨ ∃ pre' p' i, Reach next B m root H (h + 1) pre' p' ∧ i < B ∧
      next (m p' i) = some p ∧ pre = pre' * B + i := by
  cases hr with
  | root => exact .inl ⟨rfl, rfl, rfl⟩
  | @down _ pre' p' i _ hp hi hq => exact .inr ⟨pre', p', i, hp, hi, hq, rfl⟩

theorem unique {p' : ℕ} (hr' : Reach next B m root H h pre p') : p = p' := by
  induction hr generalizing p' with
  | root =>
    rcases hr'.cases_on with ⟨-, -, rfl⟩ | ⟨_, _, _, hp', -⟩
    · rfl
    · exact absurd hp'.height_le (by omega)
  | @down h pre p i q hp hi hq ih =>
    rcases hr'.cases_on with ⟨rfl, -⟩ | ⟨pre', p2, i', hp', hi', hq', he⟩
    · exact absurd hp.height_le (by omega)
    · obtain ⟨rfl, rfl⟩ := digits_unique hi hi' he
      obtain rfl := ih hp'
      exact Option.some.inj (hq.symm.trans hq')

theorem walk_eq {k : ℕ} (hk : k / B ^ (h + 1) = pre) :
    walk next B m H root k = walk next B m h p k := by
  induction hr with
  | root => rfl
  | @down h pre p i q hp hi hq ih =>
    have hB : 0 < B := by omega
    have hstep : k / B ^ (h + 1) / B = k / B ^ (h + 1 + 1) := by
      rw [Nat.div_div_eq_div_mul, ← pow_succ]
    have hidx : k / B ^ (h + 1) % B = i := by
      rw [hk, mul_comm, mul_add_mod, mod_eq_of_lt hi]
    have hpre : k / B ^ (h + 1 + 1) = pre := by
      rw [← hstep, hk, mul_comm, mul_add_div hB, div_eq_of_lt hi, add_zero]
    rw [ih hpre, walk, hidx, hq]

end

end Reach

section

variable {ok : ℕ → V → Prop} {U : Set ℕ}

theorem slot_eq {k : ℕ} (hk : k / B ^ (h + 1) = pre) : pre * B + k / B ^ h % B = k / B ^ h := by
  have hstep : k / B ^ h / B = pre := by
    rw [← hk, pow_succ, Nat.div_div_eq_div_mul]
  rw [← hstep, mul_comm]
  exact div_add_mod _ _

section
variable (hwf : WF next B ok U root H m)
include hwf

theorem WF.mono {U' : Set ℕ} (hU : U ⊆ U') : WF next B ok U' root H m :=
  ⟨hwf.inj, fun hr => hU (hwf.used hr), hwf.entries⟩

theorem WF.reach_write (hr : Reach next B m root H h pre p) {h1 pre1 q : ℕ}
    (hq : Reach next B m root H h1 pre1 q) (hle : h ≤ h1) :
    Reach next B (write m p i v) root H h1 pre1 q := by
  induction hq with
  | root => exact Reach.root
  | @down h1 pre1 p1 i1 q hp hi hq ih =>
    refine Reach.down (ih (by omega)) hi ?_
    have hne : p1 ≠ p := by
      rintro rfl
      have := (hwf.inj hp hr).1
      omega
    rw [write_table_ne m i v hne, hq]

/-- **Writing an entry leaves the walks of all other keys as they were.** -/
theorem WF.walk_write_ne (hB : 0 < B) (hr : Reach next B m root H h pre p) {h1 pre1 p1 k : ℕ}
    (hr1 : Reach next B m root H h1 pre1 p1) (hk1 : k / B ^ (h1 + 1) = pre1)
    (hne : k / B ^ h ≠ pre * B + i ∨ h1 < h) :
    walk next B (write m p i v) h1 p1 k = walk next B m h1 p1 k := by
  induction h1 generalizing pre1 p1 with
  | zero =>
    have hentry : write m p i v p1 (k % B) = m p1 (k % B) := by
      refine write_ne m v fun he => ?_
      obtain ⟨rfl, rfl⟩ := he
      obtain ⟨rfl, rfl⟩ := hwf.inj hr1 hr
      rcases hne with hne | hlt
      · have := slot_eq hk1
        simp only [pow_zero, Nat.div_one] at this hne
        exact hne this.symm
      · omega
    rw [walk, walk, hentry]
  | succ h1 ih =>
    have hentry : write m p i v p1 (k / B ^ (h1 + 1) % B) = m p1 (k / B ^ (h1 + 1) % B) := by
      refine write_ne m v fun he => ?_
      obtain ⟨rfl, rfl⟩ := he
      obtain ⟨rfl, rfl⟩ := hwf.inj hr1 hr
      rcases hne with hne | hlt
      · exact hne (slot_eq hk1).symm
      · omega
    rw [walk, walk, hentry]
    cases hq : next (m p1 (k / B ^ (h1 + 1) % B)) with
    | none => rfl
    | some q =>
      have hdown := Reach.down hr1 (Nat.mod_lt _ hB) hq
      refine ih hdown ?_ (hne.imp_right fun hlt => by omega)
      rw [slot_eq hk1]

section
variable (hr : Reach next B m root H h pre p)
include hr

/-- **The walks under the entry written resume with its new value.** -/
theorem WF.walk_write_eq {k : ℕ} (hk : k / B ^ (h + 1) = pre) :
    walk next B (write m p (k / B ^ h % B) v) H root k =
      resume next B (write m p (k / B ^ h % B) v) h v k := by
  rw [(hwf.reach_write hr hr le_rfl).walk_eq hk, walk_eq_resume, write_self]

theorem WF.reach_of_write_leaf (hv : h = 0 ∨ next v = none) {h1 pre1 q : ℕ}
    (hq : Reach next B (write m p i v) root H h1 pre1 q) : Reach next B m root H h1 pre1 q := by
  induction hq with
  | root => exact Reach.root
  | @down h1 pre1 p1 i1 q hp hi hq ih =>
    by_cases he : p1 = p ∧ i1 = i
    · obtain ⟨rfl, rfl⟩ := he
      rw [write_self] at hq
      rcases hv with rfl | hv
      · exact absurd (hwf.inj ih hr).1 (by omega)
      · exact absurd (hv.symm.trans hq) (by simp)
    · rw [write_ne m v he] at hq
      exact Reach.down ih hi hq

/-- **Writing a leaf keeps the tables apart.** -/
theorem WF.write_leaf (hv : h = 0 ∨ next v = none) (hok : ok h v) :
    WF next B ok U root H (write m p i v) := by
  refine ⟨fun h1 h2 => hwf.inj (hwf.reach_of_write_leaf hr hv h1)
    (hwf.reach_of_write_leaf hr hv h2), fun h1 => hwf.used (hwf.reach_of_write_leaf hr hv h1),
    fun {h1 pre1 q} h2 j hj => ?_⟩
  have hq := hwf.reach_of_write_leaf hr hv h2
  by_cases he : q = p ∧ j = i
  · obtain ⟨rfl, rfl⟩ := he
    rw [write_self, (hwf.inj hq hr).1]
    exact hok
  · rw [write_ne m v he]
    exact hwf.entries hq j hj

end

section
variable (hr : Reach next B m root H (h + 1) pre p)
include hr

/-- **Dropping a table**: once the only pointer to it is gone, it may leave `U`. -/
theorem WF.drop (hi : i < B) {q : ℕ} (hq : next (m p i) = some q) (hv : next v = none)
    (hok : ok (h + 1) v) : WF next B ok (U \ {q}) root H (write m p i v) := by
  have hwf' := hwf.write_leaf hr (i := i) (.inr hv) hok
  refine ⟨hwf'.inj, fun {h1 pre1 r} h2 => ⟨hwf'.used h2, ?_⟩, hwf'.entries⟩
  rintro rfl
  have hold := hwf.reach_of_write_leaf hr (.inr hv) h2
  obtain ⟨rfl, rfl⟩ := hwf.inj hold (Reach.down hr hi hq)
  rcases h2.cases_on with ⟨rfl, -⟩ | ⟨pre', p2, i', hp', hi', hq', he⟩
  · exact absurd hr.height_le (by omega)
  · obtain ⟨rfl, rfl⟩ := digits_unique hi hi' he
    obtain rfl := (hwf.reach_of_write_leaf hr (.inr hv) hp').unique hr
    rw [write_self, hv] at hq'
    exact absurd hq' (by simp)

theorem WF.reach_of_attach {q : ℕ} (hq : q ∉ U) (hv : next v = some q)
    (hleaf : h = 0 ∨ ∀ j < B, next (m q j) = none) {h1 pre1 r : ℕ}
    (hr1 : Reach next B (write m p i v) root H h1 pre1 r) :
    Reach next B m root H h1 pre1 r ∨ (h1 = h ∧ pre1 = pre * B + i ∧ r = q) := by
  have hqp : q ≠ p := fun he => hq (he ▸ hwf.used hr)
  induction hr1 with
  | root => exact .inl Reach.root
  | @down h1 pre1 p1 i1 r hp hi hn ih =>
    rcases ih with ih | ⟨heq, -, rfl⟩
    · by_cases he : p1 = p ∧ i1 = i
      · obtain ⟨rfl, rfl⟩ := he
        obtain ⟨h2, rfl⟩ := hwf.inj ih hr
        rw [write_self, hv] at hn
        exact .inr ⟨by omega, rfl, (Option.some.inj hn).symm⟩
      · rw [write_ne m v he] at hn
        exact .inl (Reach.down ih hi hn)
    · -- the new table holds no pointer
      rw [write_table_ne m i v hqp] at hn
      rcases hleaf with h0 | hleaf
      · omega
      · exact absurd ((hleaf i1 hi).symm.trans hn) (by simp)

/-- **Attaching a fresh table of leaves.** -/
theorem WF.attach {q : ℕ} (hq : q ∉ U) (hv : next v = some q) (hok : ok (h + 1) v)
    (hleaf : h = 0 ∨ ∀ j < B, next (m q j) = none) (hoks : ∀ j < B, ok h (m q j)) :
    WF next B ok (insert q U) root H (write m p i v) := by
  have hqp : q ≠ p := fun he => hq (he ▸ hwf.used hr)
  refine ⟨fun {h1 pre1 h2 pre2 r} h3 h4 => ?_, fun {h1 pre1 r} h2 => ?_,
    fun {h1 pre1 r} h2 j hj => ?_⟩
  · rcases hwf.reach_of_attach hr hq hv hleaf h3 with g3 | ⟨rfl, rfl, rfl⟩ <;>
      rcases hwf.reach_of_attach hr hq hv hleaf h4 with g4 | ⟨rfl, rfl, g4⟩
    · exact hwf.inj g3 g4
    · exact absurd (hwf.used g3) (g4 ▸ hq)
    · exact absurd (hwf.used g4) hq
    · exact ⟨rfl, rfl⟩
  · rcases hwf.reach_of_attach hr hq hv hleaf h2 with g2 | ⟨-, -, rfl⟩
    · exact .inr (hwf.used g2)
    · exact .inl rfl
  · rcases hwf.reach_of_attach hr hq hv hleaf h2 with g2 | ⟨rfl, -, rfl⟩
    · by_cases he : r = p ∧ j = i
      · obtain ⟨rfl, rfl⟩ := he
        rw [write_self, (hwf.inj g2 hr).1]
        exact hok
      · rw [write_ne m v he]
        exact hwf.entries g2 j hj
    · rw [write_table_ne m i v hqp]
      exact hoks j hj

end

end

end

section

variable {ok : ℕ → V → Prop} {U : Set ℕ}
  (hm : ∀ {h pre p}, Reach next B m root H h pre p → m' p = m p)
include hm

theorem reach_congr {h1 pre1 r : ℕ} :
    Reach next B m' root H h1 pre1 r ↔ Reach next B m root H h1 pre1 r := by
  constructor
  · intro hr
    induction hr with
    | root => exact Reach.root
    | down _ hi hq ih => exact Reach.down ih hi (by rw [← hm ih]; exact hq)
  · intro hr
    induction hr with
    | root => exact Reach.root
    | down hp hi hq ih => exact Reach.down ih hi (by rw [hm hp]; exact hq)

theorem WF.congr (hwf : WF next B ok U root H m) : WF next B ok U root H m' := by
  refine ⟨fun h1 h2 => hwf.inj ((reach_congr hm).1 h1) ((reach_congr hm).1 h2),
    fun h1 => hwf.used ((reach_congr hm).1 h1), fun h1 j hj => ?_⟩
  have h2 := (reach_congr hm).1 h1
  rw [hm h2]
  exact hwf.entries h2 j hj

theorem walk_congr (hB : 0 < B) {h pre p k : ℕ} (hr : Reach next B m root H h pre p) :
    walk next B m' h p k = walk next B m h p k := by
  induction h generalizing pre p with
  | zero => rw [walk, walk, hm hr]
  | succ h ih =>
    rw [walk, walk, hm hr]
    cases hq : next (m p (k / B ^ (h + 1) % B)) with
    | none => rfl
    | some q => exact ih (Reach.down hr (mod_lt _ hB) hq)

end

end Radix
