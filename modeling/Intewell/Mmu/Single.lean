/-
# One entry: `map_single_entry_r` and `ummap_single_entry_r`

What one call does to the translation (`mapDown_spec`, `ummapDown_spec`).  Creating
tables on the way down, splitting a block and removing tables that have become empty
change the shape of the tables and no translation; the one leaf written changes the
translation of the addresses under it.
-/

import Intewell.Mmu.Walk

namespace Intewell.Mmu

open Nat Radix

variable {S : Type} {A : PtAlloc S} {σ : Pt S} {h p k : ℕ}

theorem walk_leaf (hr : TableOn σ h k p)
    (hv : h = 0 ∨ isTable (σ.mem p (k / 512 ^ h % 512)) = false) {k' : ℕ}
    (hk : k' / 512 ^ h = k / 512 ^ h) :
    walk next 512 σ.mem MAX_TABLE_LEVEL σ.root k' = (h, σ.mem p (k / 512 ^ h % 512)) := by
  rw [hr.walk_eq (key_div_of_le (le_succ h) hk), walk_eq_resume, hk]
  cases h with
  | zero => rfl
  | succ h =>
    rcases hv with hv | hv
    · exact absurd hv (succ_ne_zero h)
    · simp [resume, next_of_not_isTable hv]

theorem leafOf_unused {e : ℕ × Pte} (he : isUsed e.2 = false) : leafOf e = none := by
  simp [leafOf, he]

theorem leafVal_unused {e : ℕ × Pte} (he : isUsed e.2 = false) (va : ℕ) : leafVal e va = none := by
  simp [leafVal, he]

theorem leafVal_leafDesc {h a : ℕ} (attr : Pte) (ha : a % 4096 = 0) (va : ℕ) :
    leafVal (h, leafDesc h attr a) va =
      some (a % 2 ^ 48 + va % LEVEL_SIZE h, attr &&& ENTRY_ATTRIB_MASK) := by
  simp [leafVal, isUsed_leafDesc, entryAddress_leafDesc h attr ha, entryAttrib_leafDesc]

theorem entryOk_unused {v : Pte} (hv : isUsed v = false) (h : ℕ) : EntryOk h v :=
  fun _ hu => absurd hu (by simp [hv])

theorem isTable_of_unused {v : Pte} (hv : isUsed v = false) : isTable v = false := by
  by_contra ht
  exact absurd (isUsed_of_isTable (by simpa using ht)) (by simp [hv])

theorem isUsed_zero : isUsed 0 = false := by decide

theorem page_dvd_LEVEL_SIZE {h a : ℕ} (ha : a % LEVEL_SIZE h = 0) : a % 4096 = 0 :=
  mod_eq_zero_of_dvd (dvd_trans (pow_dvd_pow 2 (le_add_right 12 (h * 9))) (dvd_of_mod_eq_zero ha))

theorem entryOk_leafDesc {h a : ℕ} (attr : Pte) (hh : h ≤ 2) (ha : a % LEVEL_SIZE h = 0) :
    EntryOk h (leafDesc h attr a) := by
  intro _ _ _
  rw [entryAddress_leafDesc h attr (page_dvd_LEVEL_SIZE ha)]
  refine ⟨hh, ?_⟩
  rw [mod_mod_of_dvd a (show LEVEL_SIZE h ∣ 2 ^ 48 from pow_dvd_pow 2 (by omega)), ha]

/-- **A fresh empty table under an unused entry** changes no leaf. -/
theorem Valid.createTable (hσ : Valid A σ) {va : ℕ} (hr : TableOn σ (h + 1) (key va) p)
    (hu : isUsed (σ.mem p (key va / 512 ^ (h + 1) % 512)) = false) {page : ℕ} {s : S}
    (ha : A.alloc σ.alloc = some (page, s)) {τ : Pt S}
    (hτ : τ = { σ with
      mem := write (Function.update σ.mem page fun _ => 0) p (key va / 512 ^ (h + 1) % 512)
        (TABLE_DESC page)
      alloc := s }) :
    Valid A τ ∧ TableOn τ h (key va) page ∧ ∀ k' < 2 ^ 36, leafAt τ k' = leafAt σ k' := by
  obtain ⟨hv, hon, hwalk⟩ := hσ.attach hr ha
    (.inr fun _ _ => isTable_of_unused isUsed_zero) (fun _ _ => entryOk_unused isUsed_zero h) hτ
  refine ⟨hv, hon, fun k' hk' => ?_⟩
  rw [leafAt, leafAt, hwalk _ hk']
  split_ifs with he
  · rw [walk_leaf hr (.inr (isTable_of_unused hu)) he, leafOf_unused isUsed_zero, leafOf_unused hu]
  · rfl

theorem LEVEL_SIZE_succ (h : ℕ) : LEVEL_SIZE (h + 1) = LEVEL_SIZE h * 512 := by
  rw [LEVEL_SIZE, LEVEL_SIZE, show 12 + (h + 1) * 9 = 12 + h * 9 + 9 by ring, pow_add]
  rfl

theorem add_lt_of_aligned {g a b : ℕ} (hg : g ≤ 2) (ha : a % LEVEL_SIZE g = 0) (hlt : a < 2 ^ 48)
    (hb : b < LEVEL_SIZE g) : a + b < 2 ^ 48 := by
  unfold LEVEL_SIZE at *
  interval_cases g <;> norm_num at * <;> omega

/-- **The table of a block that is split** translates every address as the block did. -/
theorem Valid.splitBlock (hσ : Valid A σ) {va : ℕ} (hr : TableOn σ (h + 1) (key va) p) {value : Pte}
    (hval : σ.mem p (key va / 512 ^ (h + 1) % 512) = value) (hu : isUsed value = true)
    (ht : isTable value = false) {page : ℕ} {s : S} (ha : A.alloc σ.alloc = some (page, s))
    {τ : Pt S}
    (hτ : τ = { σ with
      mem := write (Function.update σ.mem page fun i =>
          leafDesc h (entryAttrib value) (entryAddress value + i * LEVEL_SIZE h)) p
        (key va / 512 ^ (h + 1) % 512) (TABLE_DESC page)
      alloc := s }) :
    Valid A τ ∧ TableOn τ h (key va) page ∧ ∀ va', trans τ va' = trans σ va' := by
  obtain ⟨hh, hal⟩ : h + 1 ≤ 2 ∧ entryAddress value % LEVEL_SIZE (h + 1) = 0 :=
    hval ▸ hσ.entries hr _ (mod_lt _ (by decide)) (succ_ne_zero h) (hval ▸ hu) (hval ▸ ht)
  have hlt := (entryAddress_lt value).1
  -- the pieces are aligned and stay in 48 bits
  have hpiece : ∀ i < 512, (entryAddress value + i * LEVEL_SIZE h) % LEVEL_SIZE h = 0 ∧
      entryAddress value + i * LEVEL_SIZE h < 2 ^ 48 := by
    intro i hi
    refine ⟨?_, add_lt_of_aligned hh hal hlt ?_⟩
    · rw [add_mul_mod_self_right]
      exact mod_eq_zero_of_dvd (dvd_trans (LEVEL_SIZE_succ h ▸ Dvd.intro _ rfl)
        (dvd_of_mod_eq_zero hal))
    · rw [LEVEL_SIZE_succ, mul_comm (LEVEL_SIZE h)]
      exact mul_lt_mul_of_pos_right hi (LEVEL_SIZE_pos h)
  obtain ⟨hv, hon, hwalk⟩ := hσ.attach hr ha
    ((Nat.eq_zero_or_pos h).imp_right fun hpos i _ => isTable_leafDesc hpos.ne' _ _)
    (fun i hi => entryOk_leafDesc _ (by omega) (hpiece i hi).1) hτ
  refine ⟨hv, hon, fun va' => ?_⟩
  rw [trans_eq, trans_eq, hwalk _ (key_lt va')]
  split_ifs with he
  · have hi : key va' / 512 ^ h % 512 < 512 := mod_lt _ (by decide)
    have hself : entryAttrib value &&& ENTRY_ATTRIB_MASK = entryAttrib value := by
      rw [entryAttrib, BitVec.and_assoc, BitVec.and_self]
    have hoff : va' % LEVEL_SIZE (h + 1) =
        key va' / 512 ^ h % 512 * LEVEL_SIZE h + va' % LEVEL_SIZE h := by
      rw [← getTableOff_eq (by omega), GET_TABLE_OFF, LEVEL_SIZE_succ, mod_mul, mul_comm, add_comm]
    rw [leafVal_leafDesc _ (page_dvd_LEVEL_SIZE (hpiece _ hi).1),
      mod_eq_of_lt (hpiece _ hi).2, walk_leaf hr (.inr (hval ▸ ht)) he, hval, leafVal,
      if_pos hu, hself]
    simp only [hoff, add_assoc]
  · rfl

/-- What a call that maps one leaf has done: written it, or stopped on the way down for
want of a page or at a block. -/
structure EntryMapped (A : PtAlloc S) (t va : ℕ) (desc : Pte) (σ : Pt S) (ret : ℤ) (σ' : Pt S) :
    Prop where
  valid : Valid A σ'
  root : σ'.root = σ.root
  failed_le : σ.failed ≤ σ'.failed
  ret_cases : ret = 0 ∨ ret = -1
  ok : ret = 0 → ∀ k' < 2 ^ 36, leafAt σ' k' =
    if k' / 512 ^ t = key va / 512 ^ t then leafOf (t, desc) else leafAt σ k'
  fail : ret = -1 → (∀ va', trans σ' va' = trans σ va') ∧
    (σ.failed < σ'.failed ∨ trans σ va ≠ none)

theorem EntryMapped.trans_ok {t va : ℕ} {desc : Pte} {ret : ℤ} {σ' : Pt S}
    (h : EntryMapped A t va desc σ ret σ') (hret : ret = 0) (va' : ℕ) : trans σ' va' =
      if key va' / 512 ^ t = key va / 512 ^ t then leafVal (t, desc) va' else trans σ va' := by
  have hk := h.ok hret (key va') (key_lt va')
  unfold leafAt at hk
  rw [trans_eq, trans_eq, leafVal_eq, leafVal_eq, leafVal_eq, hk]
  split_ifs <;> rfl

/-- **The loop of `map_single_entry_r`.** -/
theorem mapDown_spec {t n va : ℕ} {desc : Pte} (hσ : Valid A σ) (hn : t + n ≤ 3)
    (hr : TableOn σ (t + n) (key va) p) (hd : t = 0 ∨ isTable desc = false) (hok : EntryOk t desc) :
    EntryMapped A t va desc σ (mapDown A t va desc n p σ).1 (mapDown A t va desc n p σ).2 := by
  induction n generalizing p σ with
  | zero =>
    obtain ⟨hv, hwalk⟩ := hσ.setLeaf hr hd hok
    rw [mapDown, getTableOff_eq (by omega)]
    refine ⟨hv, rfl, le_rfl, .inl rfl, fun _ k' hk' => ?_, fun h => absurd h (by simp)⟩
    rw [leafAt, leafAt, add_zero] at *
    simp only at hwalk ⊢
    rw [show (σ.entrySet p (key va / 512 ^ t % 512) desc).root = σ.root from rfl, hwalk _ hk']
    split_ifs <;> rfl
  | succ n ih =>
    have hr' : TableOn σ (t + n + 1) (key va) p := hr
    have hoff : GET_TABLE_OFF (t + n + 1) va = key va / 512 ^ (t + n + 1) % 512 :=
      getTableOff_eq (by omega) va
    set i := key va / 512 ^ (t + n + 1) % 512
    rw [mapDown]
    simp only [hoff]
    by_cases hu : isUsed (σ.mem p i) = false
    · simp only [if_pos hu, Pt.ptableAlloc]
      cases ha : A.alloc σ.alloc with
      | none =>
        exact ⟨hσ, rfl, le_succ _, .inr rfl, fun h => absurd h (by simp), fun _ =>
          ⟨fun _ => rfl, .inl (lt_succ_self _)⟩⟩
      | some ps =>
        obtain ⟨page, s⟩ := ps
        obtain ⟨hv, hon, hsame⟩ := hσ.createTable hr' hu ha rfl
        have hrec := ih hv (by omega) hon
        refine ⟨hrec.valid, hrec.root, hrec.failed_le, hrec.ret_cases, fun h k' hk' => ?_,
          fun h => ?_⟩
        · rw [← hsame k' hk']
          exact hrec.ok h k' hk'
        · obtain ⟨h1, h2⟩ := hrec.fail h
          refine ⟨fun va' => (h1 va').trans (trans_congr hsame va'), h2.imp_right fun h3 => ?_⟩
          rwa [trans_congr hsame va] at h3
    · have hu' : isUsed (σ.mem p i) = true := by simpa using hu
      rw [if_neg hu]
      cases ht : isTable (σ.mem p i) with
      | true =>
        have hb : isBlock (σ.mem p i) = false := by
          simp only [isTable, isBlock, decide_eq_true_eq, decide_eq_false_iff_not] at ht ⊢
          rw [ht]
          decide
        rw [if_neg (by simp [hb])]
        have hdown := Reach.down hr' (mod_lt _ (by decide)) (next_of_isTable ht)
        rw [slot_eq rfl] at hdown
        exact ih hσ (by omega) hdown
      | false =>
        -- a block is in the way
        rw [if_pos (isBlock_of_isUsed hu' ht)]
        refine ⟨hσ, rfl, le_rfl, .inr rfl, fun h => absurd h (by simp), fun _ =>
          ⟨fun _ => rfl, .inr ?_⟩⟩
        rw [trans_eq, walk_leaf hr' (.inr ht) rfl, leafVal, if_pos hu']
        simp

section

/-- `above` are the tables on the walk of `k` above the table `p` of height `h`, the
nearest first. -/
def PathTo (σ : Pt S) (k : ℕ) : ℕ → ℕ → List ℕ → Prop
  | h, p, [] => h = MAX_TABLE_LEVEL ∧ p = σ.root
  | h, p, q :: above =>
    h < MAX_TABLE_LEVEL ∧ isTable (σ.mem q (k / 512 ^ (h + 1) % 512)) = true ∧
      entryAddress (σ.mem q (k / 512 ^ (h + 1) % 512)) = p ∧ PathTo σ k (h + 1) q above

section
variable {above : List ℕ} (hp : PathTo σ k h p above)
include hp

theorem PathTo.tableOn (hk : k < 2 ^ 36) : TableOn σ h k p := by
  induction above generalizing h p with
  | nil =>
    obtain ⟨rfl, rfl⟩ := hp
    unfold TableOn
    rw [div_eq_of_lt (show k < 512 ^ (MAX_TABLE_LEVEL + 1) from hk)]
    exact Reach.root
  | cons q above ih =>
    obtain ⟨-, ht, rfl, hp⟩ := hp
    have := Reach.down (ih hp) (mod_lt _ (by decide)) (next_of_isTable ht)
    rwa [slot_eq rfl] at this

theorem PathTo.congr {τ : Pt S} (hroot : τ.root = σ.root)
    (hmem : ∀ q ∈ above, τ.mem q = σ.mem q) : PathTo τ k h p above := by
  induction above generalizing h p with
  | nil => exact ⟨hp.1, hp.2.trans hroot.symm⟩
  | cons q above ih =>
    obtain ⟨hlt, ht, he, hp⟩ := hp
    have hq := hmem q (.head _)
    exact ⟨hlt, by rw [hq]; exact ht, by rw [hq]; exact he, ih hp fun r hr => hmem r (.tail _ hr)⟩

theorem PathTo.above_tableOn (hk : k < 2 ^ 36) {q : ℕ} (hq : q ∈ above) :
    ∃ g, h < g ∧ TableOn σ g k q := by
  induction above generalizing h p with
  | nil => simp at hq
  | cons r above ih =>
    obtain ⟨-, -, -, hp⟩ := hp
    rcases List.mem_cons.1 hq with rfl | hq
    · exact ⟨h + 1, lt_succ_self h, hp.tableOn hk⟩
    · obtain ⟨g, hg, hon⟩ := ih hp hq
      exact ⟨g, by omega, hon⟩

theorem PathTo.ne_above {U : Set ℕ} (hk : k < 2 ^ 36)
    (hwf : WF next 512 EntryOk U σ.root MAX_TABLE_LEVEL σ.mem) {q : ℕ} (hq : q ∈ above) : q ≠
    p := by
  rintro rfl
  obtain ⟨g, hg, hon⟩ := hp.above_tableOn hk hq
  have := (hwf.inj hon (hp.tableOn hk)).1
  omega

end

theorem ptableValidNum_eq_zero {pte : ℕ} (h : σ.ptableValidNum pte = 0) {i : ℕ} (hi : i < 512) :
    isUsed (σ.mem pte i) = false := by
  unfold Pt.ptableValidNum at h
  rw [List.countP_eq_zero] at h
  simpa using h i (List.mem_range.2 hi)

/-- **Removing an empty table.**  The table `p` of height `h` holds no used entry and has
been given back; clearing the entry above it changes no leaf, and so on up. -/
theorem releaseUp_spec {above : List ℕ} {va : ℕ}
    (hwf : WF next 512 EntryOk (insert p (A.inUse σ.alloc)) σ.root MAX_TABLE_LEVEL σ.mem)
    (hp : PathTo σ (key va) h p above) (hne : above ≠ [])
    (hempty : ∀ i < 512, isUsed (σ.mem p i) = false) : Valid A (releaseUp A va (h + 1) above σ) ∧
    (releaseUp A va (h + 1) above σ).root = σ.root ∧
    (releaseUp A va (h + 1) above σ).failed = σ.failed ∧
    ∀ k' < 2 ^ 36, leafAt (releaseUp A va (h + 1) above σ) k' = leafAt σ k' := by
  induction above generalizing h p σ with
  | nil => exact absurd rfl hne
  | cons q above ih =>
    obtain ⟨hlt, ht, rfl, hq⟩ := hp
    have hlt' : h + 1 ≤ 3 := hlt
    have hoff := getTableOff_eq hlt' va
    set off := key va / 512 ^ (h + 1) % 512
    have hon := hq.tableOn (key_lt va)
    have hdown := Reach.down hon (mod_lt (key va / 512 ^ (h + 1)) (by decide)) (next_of_isTable ht)
    rw [slot_eq rfl] at hdown
    -- clearing the entry drops the table
    have hwf1 : WF next 512 EntryOk (A.inUse σ.alloc) σ.root MAX_TABLE_LEVEL
        (write σ.mem q off 0) := by
      have hd := hwf.drop hon (mod_lt (key va / 512 ^ (h + 1)) (by decide)) (next_of_isTable ht)
        (next_of_not_isTable (isTable_of_unused isUsed_zero)) (entryOk_unused isUsed_zero _)
      exact hd.mono fun r hr => hr.1.resolve_left hr.2
    have hsame : ∀ k' < 2 ^ 36, leafAt (σ.entrySet q off 0) k' = leafAt σ k' := by
      intro k' hk'
      rw [leafAt, leafAt]
      by_cases he : k' / 512 ^ (h + 1) = key va / 512 ^ (h + 1)
      · have hpre := key_div_of_le (le_succ (h + 1)) he
        have hnew : walk next 512 (σ.entrySet q off 0).mem
            MAX_TABLE_LEVEL σ.root k' = (h + 1, 0) := by
          have hw := hwf.walk_write_eq (v := (0 : Pte)) hon hpre
          rw [he] at hw
          rw [Pt.entrySet, hw, resume, next_of_not_isTable (isTable_of_unused isUsed_zero)]
        have hold := hdown.walk_eq he
        rw [show (σ.entrySet q off 0).root = σ.root from rfl, hnew, hold,
          leafOf_unused isUsed_zero, walk_eq_resume]
        have hz := hempty (k' / 512 ^ h % 512) (mod_lt _ (by decide))
        cases h with
        | zero => rw [resume, leafOf_unused hz]
        | succ h =>
          rw [resume, next_of_not_isTable (isTable_of_unused hz)]
          exact (leafOf_unused hz).symm
      · have hw := hwf.walk_write_ne (v := (0 : Pte)) (by decide)
          hon Reach.root (div_eq_of_lt hk') (.inl (by rwa [slot_eq rfl]))
        rw [Pt.entrySet]
        exact congrArg leafOf hw
    rw [releaseUp]
    simp only [hoff]
    split_ifs with hc
    · have hq1 : PathTo ((σ.entrySet q off 0).ptableFree A q) (key va) (h + 1) q above :=
        hq.congr rfl fun r hr => write_table_ne _ _ _ (hq.ne_above (key_lt va) hwf hr)
      have hrec := ih (h := h + 1) ?_ hq1 hc.2 fun i => ptableValidNum_eq_zero hc.1
      · exact ⟨hrec.1, hrec.2.1, hrec.2.2.1, fun k' hk' => (hrec.2.2.2 k' hk').trans (hsame k' hk')⟩
      · refine hwf1.mono fun r hr => ?_
        rw [Pt.ptableFree, A.free_inUse]
        by_cases hrq : r = q
        · exact .inl hrq
        · exact .inr ⟨hr, hrq⟩
    · exact ⟨hwf1, rfl, rfl, hsame⟩

end

end Intewell.Mmu
