/-
# The range loops as operations on the partial map

`mmu_map_r`, `mmu_unmap_r` and `arm_mmu_modify` change the translation of a range one
leaf at a time.  `onRange va size f m` is the map `m` changed by `f` on the `size`
addresses from `va` on; a loop that stops after `j` bytes has done the operation on
`[va, va + j)` and nothing else (`mapLoop_spec`, `ummapLoop_spec`).

Ranges are ranges of the 48 bits of an address that are translated: the position of an
address in the range from `va` is `vaDist va`.
-/

import Intewell.Mmu.Unmap

namespace Intewell.Mmu

open Nat

/-- A partial map from addresses to physical addresses and attributes. -/
abbrev AbsMap := ℕ → Option (ℕ × Pte)

/-- The map changed on the `size` addresses from `va`, by what `f` makes of the position
in the range and the old value. -/
def onRange (va size : ℕ) (f : ℕ → Option (ℕ × Pte) → Option (ℕ × Pte)) (m : AbsMap) : AbsMap :=
  fun v => if vaDist va v < size then f (vaDist va v) (m v) else m v

/-- `va + i ↦ pa + i` with the attributes `attr`, as far as a descriptor can hold them. -/
def mapped (pa : ℕ) (attr : Pte) (i : ℕ) (_ : Option (ℕ × Pte)) : Option (ℕ × Pte) :=
  some ((pa + i) % 2 ^ 48, attr &&& ENTRY_ATTRIB_MASK)

section

variable {va size : ℕ} {f : ℕ → Option (ℕ × Pte) → Option (ℕ × Pte)} {m : AbsMap}

theorem vaDist_add {j : ℕ} (hva : va < 2 ^ 64) (hj : j < 2 ^ 48) :
    vaDist va ((va + j) % 2 ^ 64) = j := by
  unfold vaDist
  omega

theorem vaDist_rest {l v : ℕ} (hva : va < 2 ^ 64) (hl : l ≤ 2 ^ 48) :
    vaDist ((va + l) % 2 ^ 64) v = if l ≤
      vaDist va v then vaDist va v - l else vaDist va v + 2 ^ 48 - l := by
  unfold vaDist
  split_ifs <;> omega

@[simp] theorem onRange_zero : onRange va 0 f m = m := by
  funext v
  simp [onRange]

/-- **A range is its first part and the rest.** -/
theorem onRange_append {l : ℕ} {f' : ℕ → Option (ℕ × Pte) → Option (ℕ × Pte)} (hva : va < 2 ^ 64)
    (hsize : l + size ≤ 2 ^ 48) (hf : ∀ i t, f' i t = f (l + i) t) :
    onRange ((va + l) % 2 ^ 64) size f' (onRange va l f m) = onRange va (l + size) f m := by
  funext v
  simp only [onRange, vaDist_rest hva (by omega : l ≤ 2 ^ 48)]
  have hlt : vaDist va v < 2 ^ 48 := mod_lt _ (by decide)
  by_cases hl : l ≤ vaDist va v
  · rw [if_pos hl, if_neg (by omega : ¬vaDist va v < l), hf, Nat.add_sub_cancel' hl]
    exact if_congr (by omega) rfl rfl
  · rw [if_neg hl, if_neg (by omega), if_pos (by omega), if_pos (by omega)]

theorem onRange_of_key {g : ℕ} (hg : g ≤ 3) (hva : va < 2 ^ 64) (hal : va % LEVEL_SIZE g = 0)
    {m' : AbsMap} (hin : ∀ v, key v / 512 ^ g = key va / 512 ^ g → m' v = f (vaDist va v) (m v))
    (hout : ∀ v, key v / 512 ^ g ≠ key va / 512 ^ g → m' v = m v) :
    m' = onRange va (LEVEL_SIZE g) f m := by
  funext v
  rw [onRange]
  split_ifs with hd
  · exact hin v ((key_div_eq_iff hg hva hal).2 hd)
  · exact hout v fun he => hd ((key_div_eq_iff hg hva hal).1 he)

theorem add_level_aligned {g : ℕ} (hg : g ≤ 2) (hal : va % LEVEL_SIZE g = 0) :
    (va + LEVEL_SIZE g) % 2 ^ 64 % LEVEL_SIZE g = 0 := by
  rw [mod_mod_of_dvd _ (show LEVEL_SIZE g ∣ 2 ^ 64 from pow_dvd_pow 2 (by omega)),
    add_mod_right, hal]

end

variable {S : Type} {A : PtAlloc S} {σ : Pt S}

section

variable {t va pa : ℕ} {attr : Pte}

/-- **`map_single_entry_r`** on aligned addresses. -/
theorem mapSingleEntryR_spec (attr : Pte) (hσ : Valid A σ) (ht : t ≤ 2)
    (hva : va % LEVEL_SIZE t = 0) (hpa : pa % LEVEL_SIZE t = 0) :
    EntryMapped A t va (leafDesc t attr pa) σ (mapSingleEntryR A t va pa attr σ).1
      (mapSingleEntryR A t va pa attr σ).2 := by
  have hn : t + (MAX_TABLE_LEVEL - t) = 3 := Nat.add_sub_cancel' (show t ≤ 3 by omega)
  rw [mapSingleEntryR, if_neg (by simp [IS_LEVEL_ALIGN, hva]),
    if_neg (by simp [IS_LEVEL_ALIGN, hpa])]
  exact mapDown_spec hσ hn.le (by rw [hn]; exact tableOn_root σ va)
    ((Nat.eq_zero_or_pos t).imp_right fun h => isTable_leafDesc h.ne' attr pa)
    (entryOk_leafDesc attr ht hpa)

/-- The leaf written by `map_single_entry_r`, on the partial map. -/
theorem EntryMapped.onRange {ret : ℤ} {σ' : Pt S}
    (h : EntryMapped A t va (leafDesc t attr pa) σ ret σ') (ht : t ≤ 2) (hlt : va < 2 ^ 64)
    (hva : va % LEVEL_SIZE t = 0) (hpa : pa % LEVEL_SIZE t = 0) (hret : ret = 0) :
    trans σ' = onRange va (LEVEL_SIZE t) (mapped pa attr) (trans σ) := by
  refine onRange_of_key (by omega) hlt hva (fun v hv => ?_) fun v hv => ?_
  · have hd := (key_div_eq_iff (by omega) hlt hva).1 hv
    have hdist : vaDist va v = v % LEVEL_SIZE t := by
      unfold vaDist at *
      unfold LEVEL_SIZE at *
      interval_cases t <;> norm_num at * <;> omega
    rw [h.trans_ok hret v, if_pos hv, leafVal_leafDesc attr (page_dvd_LEVEL_SIZE hpa), mapped,
      ← hdist,
      add_mod pa, mod_eq_of_lt (show vaDist va v < 2 ^ 48 from mod_lt _ (by decide)),
      mod_eq_of_lt (add_lt_of_aligned ht ?_ (mod_lt _ (by decide)) hd)]
    rw [mod_mod_of_dvd _ (show LEVEL_SIZE t ∣ 2 ^ 48 from pow_dvd_pow 2 (by omega)), hpa]
  · rw [h.trans_ok hret v, if_neg hv]

/-- How many leaves the loop of `mmu_map_r` writes before it ends or a leaf cannot be
written. -/
def mapLeaves (A : PtAlloc S) (t : ℕ) (attr : Pte) : ℕ → ℕ → ℕ → Pt S → ℕ
  | 0, _, _, _ => 0
  | count + 1, va, pa, σ =>
    let (ret, σ') := mapSingleEntryR A t va pa attr σ
    if ret ≠ 0 then 0
    else
      mapLeaves A t attr count ((va + LEVEL_SIZE t) % 2 ^ 64) ((pa + LEVEL_SIZE t) % 2 ^ 64) σ' + 1

/-- How many bytes `mmu_map_r` maps before it returns. -/
def mapBytes (A : PtAlloc S) (va pa size : ℕ) (attr : Pte) (σ : Pt S) : ℕ :=
  let t := GET_MAP_LEVEL va pa size
  if IS_LEVEL_ALIGN t pa = false then 0
  else if IS_LEVEL_ALIGN t va = false then 0
  else mapLeaves A t attr (size / LEVEL_SIZE t) va pa σ * LEVEL_SIZE t

/-- What a loop that maps has done: the first `j` bytes of the range are mapped. -/
structure RangeMapped (A : PtAlloc S) (va pa size : ℕ) (attr : Pte) (σ : Pt S) (j : ℕ) (ret : ℤ)
    (σ' : Pt S) : Prop where
  valid : Valid A σ'
  root : σ'.root = σ.root
  failed_le : σ.failed ≤ σ'.failed
  trans_eq : trans σ' = onRange va j (mapped pa attr) (trans σ)
  result : (ret = 0 ∧ j = size) ∨ (ret = -1 ∧ j < size ∧ j % 4096 = 0 ∧
    (σ.failed < σ'.failed ∨ trans σ ((va + j) % 2 ^ 64) ≠ none))

/-- **The loop of `mmu_map_r`.** -/
theorem mapLoop_spec (attr : Pte) (count : ℕ) (hσ : Valid A σ) (ht : t ≤ 2) (hlt : va < 2 ^ 64)
    (hva : va % LEVEL_SIZE t = 0) (hpa : pa % LEVEL_SIZE t = 0)
    (hsize : count * LEVEL_SIZE t ≤ 2 ^ 48) : RangeMapped A va pa (count * LEVEL_SIZE t) attr σ
      (mapLeaves A t attr count va pa σ * LEVEL_SIZE t) (mapLoop A t attr count va pa σ).1
      (mapLoop A t attr count va pa σ).2 := by
  induction count generalizing va pa σ with
  | zero => exact ⟨hσ, rfl, le_rfl, by simp [mapLoop, mapLeaves], Or.inl ⟨rfl, rfl⟩⟩
  | succ count ih =>
    have hone := mapSingleEntryR_spec attr hσ ht hva hpa
    have hpos := LEVEL_SIZE_pos t
    rw [succ_mul] at hsize ⊢
    rw [mapLoop, mapLeaves]
    generalize mapSingleEntryR A t va pa attr σ = r at hone
    obtain ⟨ret, τ⟩ := r
    simp only at hone ⊢
    rcases hone.ret_cases with rfl | rfl
    · have hτ := hone.onRange ht hlt hva hpa rfl
      have hrec := ih hone.valid (mod_lt (va + LEVEL_SIZE t) (by decide))
        (add_level_aligned ht hva) (add_level_aligned ht hpa) (by omega)
      rw [if_neg (by simp), if_neg (by simp)]
      generalize mapLeaves A t attr count ((va + LEVEL_SIZE t) % 2 ^ 64)
        ((pa + LEVEL_SIZE t) % 2 ^ 64) τ = n at hrec
      have hle : n * LEVEL_SIZE t ≤ count * LEVEL_SIZE t := by
        rcases hrec.result with ⟨-, h⟩ | ⟨-, h, -⟩ <;> omega
      rw [add_mul, one_mul, add_comm (n * LEVEL_SIZE t)]
      refine ⟨hrec.valid, hrec.root.trans hone.root, hone.failed_le.trans hrec.failed_le, ?_, ?_⟩
      · -- the rest of the range, seen from its start
        rw [hrec.trans_eq, hτ]
        refine onRange_append hlt (by omega) fun i _ => ?_
        simp only [mapped]
        congr 2
        omega
      · refine hrec.result.imp (fun h => ⟨h.1, by omega⟩) ?_
        rintro ⟨hret, hj, hj0, hwhy⟩
        have hL : LEVEL_SIZE t % 4096 = 0 := page_dvd_LEVEL_SIZE (mod_self _)
        refine ⟨hret, by omega, by omega, hwhy.imp (lt_of_le_of_lt hone.failed_le) ?_⟩
        intro h
        rw [show ((va + LEVEL_SIZE t) % 2 ^ 64 + n * LEVEL_SIZE t) % 2 ^ 64 =
          (va + (LEVEL_SIZE t + n * LEVEL_SIZE t)) % 2 ^ 64 by omega, hτ, onRange,
          vaDist_add hlt (by omega), if_neg (by omega)] at h
        exact h
    · obtain ⟨hsame, hwhy⟩ := hone.fail rfl
      rw [if_pos (by simp), if_pos (by simp), zero_mul]
      refine ⟨hone.valid, hone.root, hone.failed_le, ?_, Or.inr ⟨rfl, by omega, rfl, ?_⟩⟩
      · rw [onRange_zero]
        exact funext hsame
      · rw [add_zero, mod_eq_of_lt hlt]
        exact hwhy

theorem GET_MAP_LEVEL_spec {size : ℕ} (hva : va % 4096 = 0) (hpa : pa % 4096 = 0)
    (hs : size % 4096 = 0) : GET_MAP_LEVEL va pa size ≤ 2 ∧
      va % LEVEL_SIZE (GET_MAP_LEVEL va pa size) = 0 ∧
      pa % LEVEL_SIZE (GET_MAP_LEVEL va pa size) = 0 ∧
      size % LEVEL_SIZE (GET_MAP_LEVEL va pa size) = 0 := by
  unfold GET_MAP_LEVEL
  split_ifs with h2 h1
  · simpa [IS_LEVEL_ALIGN, and_assoc] using h2
  · simpa [IS_LEVEL_ALIGN, and_assoc] using h1
  · exact ⟨by omega, hva, hpa, hs⟩

/-- **`mmu_map_r`** on page-aligned arguments. -/
theorem mmuMapR_spec {size : ℕ} (attr : Pte) (hσ : Valid A σ) (hlt : va < 2 ^ 64)
    (hva : va % 4096 = 0) (hpa : pa % 4096 = 0) (hs : size % 4096 = 0) (hsize : size ≤ 2 ^ 48) :
    RangeMapped A va pa size attr σ (mapBytes A va pa size attr σ) (mmuMapR A va pa size attr σ).1
      (mmuMapR A va pa size attr σ).2 := by
  obtain ⟨ht, hva', hpa', hs'⟩ := GET_MAP_LEVEL_spec hva hpa hs
  have hcount := Nat.div_mul_cancel (Nat.dvd_of_mod_eq_zero hs')
  have hpa1 : IS_LEVEL_ALIGN (GET_MAP_LEVEL va pa size) pa = true := decide_eq_true hpa'
  have hva1 : IS_LEVEL_ALIGN (GET_MAP_LEVEL va pa size) va = true := decide_eq_true hva'
  rw [mmuMapR, mapBytes, if_neg (by simp [hpa1]), if_neg (by simp [hva1]), if_neg (by simp [hpa1]),
    if_neg (by simp [hva1])]
  have := mapLoop_spec attr (size / LEVEL_SIZE (GET_MAP_LEVEL va pa size)) hσ ht hlt hva' hpa'
    (by rw [hcount]; exact hsize)
  rwa [hcount] at this

end

section

variable {va size : ℕ} {isUnmap : Bool} {newAttr : Pte}

/-- **`ummap_single_entry_r`** on a page-aligned range that is not empty. -/
theorem ummapSingleEntryR_spec (isUnmap : Bool) (newAttr : Pte) (hσ : Valid A σ)
    (hva : va % 4096 = 0) (hs : size % 4096 = 0) (hpos : 0 < size) :
    EntryChanged A va size isUnmap newAttr σ (ummapSingleEntryR A va size isUnmap newAttr σ).1
      (ummapSingleEntryR A va size isUnmap newAttr σ).2 := by
  have hva' : IS_LEVEL_ALIGN 0 va = true := decide_eq_true hva
  have hs' : IS_LEVEL_ALIGN 0 size = true := decide_eq_true hs
  rw [ummapSingleEntryR, if_neg (by simp [hva']), if_neg (by simp [hs'])]
  exact ummapDown_spec hσ ⟨rfl, rfl⟩ le_rfl hva (by omega)

/-- What a loop that unmaps or modifies has done: the first `j` bytes of the range, all of
them mapped, are changed, and it stopped there at an address that is not mapped or for want
of a page. -/
structure RangeChanged (A : PtAlloc S) (va size : ℕ) (isUnmap : Bool) (newAttr : Pte) (stop : ℤ)
    (σ : Pt S) (ret : ℤ) (σ' : Pt S) : Prop where
  valid : Valid A σ'
  root : σ'.root = σ.root
  failed_le : σ.failed ≤ σ'.failed
  result : ∃ j ≤ size, j % 4096 = 0 ∧
    trans σ' = onRange va j (fun _ => change isUnmap newAttr) (trans σ) ∧
    (∀ v, vaDist va v < j → trans σ v ≠ none) ∧
    ((j = size ∧ ret = 0) ∨ (j < size ∧ ret = stop ∧
      (σ.failed < σ'.failed ∨ trans σ ((va + j) % 2 ^ 64) = none)))

/-- **The `while (size)` loop** ends after at most one round for each page. -/
theorem ummapLoop_spec (isUnmap : Bool) (newAttr : Pte) (stop : ℤ) {n : ℕ} (hσ : Valid A σ)
    (hlt : va < 2 ^ 64) (hva : va % 4096 = 0) (hs : size % 4096 = 0) (hsize : size ≤ 2 ^ 48)
    (hn : size / 4096 ≤ n) :
    ∃ ret σ', ummapLoop A isUnmap newAttr stop n va size σ = some (ret, σ') ∧
      RangeChanged A va size isUnmap newAttr stop σ ret σ' := by
  induction n generalizing va size σ with
  | zero =>
    obtain rfl : size = 0 := by omega
    exact ⟨0, σ, rfl, hσ, rfl, le_rfl, 0, le_rfl, rfl, by simp, by simp, Or.inl ⟨rfl, rfl⟩⟩
  | succ n ih =>
    cases size with
    | zero => exact ⟨0, σ, rfl, hσ, rfl, le_rfl, 0, le_rfl, rfl, by simp, by simp,
        Or.inl ⟨rfl, rfl⟩⟩
    | succ size =>
      have hone := ummapSingleEntryR_spec isUnmap newAttr hσ hva hs (succ_pos size)
      rw [ummapLoop]
      generalize ummapSingleEntryR A va (size + 1) isUnmap newAttr σ = r at hone
      obtain ⟨done, τ⟩ := r
      simp only at hone ⊢
      rcases hone.result with ⟨rfl, hsame, hwhy⟩ | ⟨g, hg, rfl, hal, hle, hmap, htr⟩
      · refine ⟨stop, τ, if_pos rfl, hone.valid, hone.root, hone.failed_le, 0, zero_le _, rfl, ?_,
          by simp, Or.inr ⟨succ_pos size, rfl, ?_⟩⟩
        · rw [onRange_zero]
          exact funext hsame
        · rw [add_zero, mod_eq_of_lt hlt]
          exact hwhy
      · have hL : LEVEL_SIZE g % 4096 = 0 := page_dvd_LEVEL_SIZE (mod_self _)
        have hpos := LEVEL_SIZE_pos g
        have hrem : (size + 1 + 2 ^ 64 - LEVEL_SIZE g) % 2 ^ 64 =
          size + 1 - LEVEL_SIZE g := by omega
        have hτ : trans τ = onRange va (LEVEL_SIZE g) (fun _ => change isUnmap newAttr) (trans σ) :=
          onRange_of_key (by omega) hlt hal (fun v hv => by rw [htr v, if_pos hv])
            fun v hv => by rw [htr v, if_neg hv]
        obtain ⟨ret, σ', hrun, hrec⟩ := ih hone.valid (mod_lt (va + LEVEL_SIZE g) (by decide))
          (by omega) (show (size + 1 - LEVEL_SIZE g) % 4096 = 0 by omega) (by omega) (by omega)
        refine ⟨ret, σ', by rw [if_neg hpos.ne', hrem, hrun], hrec.valid, hrec.root.trans hone.root,
          hone.failed_le.trans hrec.failed_le, ?_⟩
        obtain ⟨j, hj, hj0, htr', hmap', hend⟩ := hrec.result
        have hmapped : ∀ v, vaDist va v < LEVEL_SIZE g + j → trans σ v ≠ none := by
          intro v hv
          by_cases hin : vaDist va v < LEVEL_SIZE g
          · exact hmap v ((key_div_eq_iff (by omega) hlt hal).2 hin)
          · have := hmap' v (by rw [vaDist_rest hlt (by omega), if_pos (by omega)]; omega)
            rwa [hτ, onRange, if_neg hin] at this
        rw [hτ, onRange_append (f := fun _ => change isUnmap newAttr) hlt (by omega)
          fun _ _ => rfl] at htr'
        refine ⟨LEVEL_SIZE g + j, by omega, by omega, htr', hmapped,
          hend.imp (fun h => ⟨by omega, h.2⟩) ?_⟩
        rintro ⟨hjlt, hret, hwhy⟩
        refine ⟨by omega, hret, hwhy.imp (lt_of_le_of_lt hone.failed_le) fun h => ?_⟩
        rw [show ((va + LEVEL_SIZE g) % 2 ^ 64 + j) % 2 ^ 64 = (va + (LEVEL_SIZE g + j)) % 2 ^ 64 by
          omega, hτ, onRange, vaDist_add hlt (by omega), if_neg (by omega)] at h
        exact h

/-- On a range that is mapped throughout the loop stops only for want of a page. -/
theorem RangeChanged.complete {stop ret : ℤ} {σ' : Pt S} (hlt : va < 2 ^ 64) (hsize : size ≤ 2 ^ 48)
    (h : RangeChanged A va size isUnmap newAttr stop σ ret σ')
    (hmapped : ∀ v, vaDist va v < size → trans σ v ≠ none) (hfailed : σ'.failed = σ.failed) :
    ret = 0 ∧ trans σ' = onRange va size (fun _ => change isUnmap newAttr) (trans σ) := by
  obtain ⟨j, -, -, htr, -, ⟨rfl, hret⟩ | ⟨hj, -, hwhy | hwhy⟩⟩ := h.result
  · exact ⟨hret, htr⟩
  · omega
  · refine absurd hwhy (hmapped _ ?_)
    rw [vaDist_add hlt (by omega)]
    exact hj

end

end Intewell.Mmu
