/-
# The bytes in use of the workspace heap

`ttosAllocateHeap` adds the size it asked the search for to `in_use_size`, and
`ttosFreeHeap` subtracts the size of the block.  The two are the same where the
block was split or fits exactly; where it is handed out whole with 8, 16 or 24
bytes to spare they are not, and `in_use_size` ends below zero.

`heap_accounting` is the sum of the used blocks in every run whose requests find a
block that fits exactly or is split, and says that no other request keeps it.
-/

import Intewell.Heap.Run

namespace Intewell.Heap

open List Option
open Bytes (Mem load store)
open Linked (Seg)
open Tiling (Tiles tiles_append)
open ReturnCode

/-- The first free block of `real` bytes or more has no more than that, or is split. -/
def FitsFirst (hcb real : ℕ) (m : Mem) : Prop :=
  ∀ fl, Seg (next m) (previous m) hcb fl (hcb + 8) → hcb + 8 ∉ fl → ∀ z,
    firstFit real m fl = some z →
    fflag m z = real ∨ real + HEAP_MINIMUM_BLOCKSIZE ≤ fflag m z

/-- A request that is refused before the search, or whose block is not handed out with
bytes to spare. -/
def Spares (hcb size alignedSize : ℕ) (m : Mem) : Prop :=
  size = 0 ∨ alignedSize = 0 ∨ ∃ k, AlignedAs alignedSize k ∧
    (realSize size (2 ^ k) < size ∨ FitsFirst hcb (realSize size (2 ^ k)) m)

/-- One call, failing or not, or a write.  A request whose sum has more than 32 bits is
recorded as of no bytes: its holder writes nothing. -/
inductive AccountStep (hcb lo n : ℕ) : World → World → Prop where
  | allocate {w code p st'} (size alignedSize) (hsize : size < 2 ^ 32)
      (hgood : Spares hcb size alignedSize w.st.mem)
      (h : ttosAllocateHeap hcb size alignedSize w.st = some (code, p, st')) :
      AccountStep hcb lo n w ⟨st', if code = TTOS_OK then
        insert (p, if size + 2 * alignedSize + 16 < 2 ^ 32 then size else 0) w.live else w.live⟩
  | free {w code st'} (q) (hq : q ∈ w.live) (h : ttosFreeHeap hcb q.1 w.st = (code, st')) :
      AccountStep hcb lo n w ⟨st', w.live \ {q}⟩
  | freeFails {w code st'} (p) (h : ttosFreeHeap hcb p w.st = (code, st'))
    (hcode : code ≠ TTOS_OK) : AccountStep hcb lo n w ⟨st', w.live⟩
  | write {w} (m : Mem) (hm : ∀ a, (lo ≤ a ∧ a < lo + n) ∨ (hcb ≤ a ∧ a < hcb + 72) →
      (∀ q ∈ w.live, ¬(q.1 ≤ a ∧ a < q.1 + q.2)) → m a = w.st.mem a) :
      AccountStep hcb lo n w ⟨⟨m, w.st.ctl⟩, w.live⟩

section

variable {hcb lo hi : ℕ} {s : State} {l : List Blk} {fl : List ℕ}

theorem Walk.unique {m : Mem} {x y : ℕ} {bs bs' : List ℕ} (h : Walk m x bs y) (h' : Walk m x bs' y)
    (hb : ∀ b ∈ bs, b < y) (hb' : ∀ b ∈ bs', b < y) : bs = bs' := by
  induction bs generalizing x bs' with
  | nil =>
    obtain rfl : x = y := h
    cases bs' with
    | nil => rfl
    | cons b bs' => exact absurd (h'.1 ▸ hb' b (.head _)) (lt_irrefl _)
  | cons b bs ih =>
    obtain ⟨rfl, hw⟩ := h
    cases bs' with
    | nil => exact absurd ((show b = y from h') ▸ hb b (.head _)) (lt_irrefl _)
    | cons c bs' =>
      obtain ⟨rfl, hw'⟩ := h'
      rw [ih hw hw' (fun d hd => hb d (mem_cons_of_mem _ hd)) fun d hd => hb' d (.tail _ hd)]

theorem usedSize_le (l : List Blk) : usedSize l ≤ (l.map Blk.size).sum := by
  induction l with
  | nil => simp [usedSize, used]
  | cons b l ih =>
    simp only [usedSize, used, filter_cons, map_cons, sum_cons] at ih ⊢
    split
    · simp only [map_cons, sum_cons]
      omega
    · omega

section
variable (h : Inv hcb lo hi s l fl)
include h

theorem Inv.usedSize_lt : usedSize l + 16 ≤ s.ctl.heapSize := by
  have hle := usedSize_le l
  have hlohi := h.tiles.le
  rw [h.tiles.sum] at hle
  rw [h.heapSize]
  omega

/-- The condition of a request, on the free list of the heap. -/
theorem Inv.fitsFirst_iff {real : ℕ} :
    FitsFirst hcb real s.mem ↔ ∀ z, firstFit real s.mem fl = some z →
      fflag s.mem z = real ∨ real + HEAP_MINIMUM_BLOCKSIZE ≤ fflag s.mem z := by
  have hno : hcb + 8 ∉ fl := fun hin => by
    have := h.nodes.control _ hin
    omega
  refine ⟨fun hfit => hfit fl h.links hno, fun hfit fl' hlinks hno' => ?_⟩
  rw [hlinks.unique h.links hno' hno]
  exact hfit

end

end

section

variable {hcb lo hi size alignedSize k : ℕ} {s : State} {l : List Blk} {fl : List ℕ}

theorem AlignedAs.unique {k' : ℕ} (h : AlignedAs alignedSize k) (h' : AlignedAs alignedSize k') :
    k = k' :=
  Nat.pow_right_injective le_rfl (h.1.symm.trans h'.1)

theorem Inv.spares_iff (h : Inv hcb lo hi s l fl) (ha : AlignedAs alignedSize k)
    (hpos : alignedSize ≠ 0) :
    Spares hcb size alignedSize s.mem ↔ size = 0 ∨ realSize size (2 ^ k) < size ∨
      ∀ z, firstFit (realSize size (2 ^ k)) s.mem fl = some z →
        fflag s.mem z = realSize size (2 ^ k) ∨ realSize size (2 ^ k) + 32 ≤ fflag s.mem z := by
  unfold Spares
  refine or_congr_right ⟨?_, fun hk => .inr ⟨k, ha, hk.imp_right h.fitsFirst_iff.2⟩⟩
  rintro (hzero | ⟨k', ha', hk⟩)
  · exact absurd hzero hpos
  · obtain rfl := ha.unique ha'
    exact hk.imp_right h.fitsFirst_iff.1

/-- **A request and the accounting.**  The bytes in use stay the sum of the used blocks exactly
where the request is refused or the block is not handed out with bytes to spare. -/
theorem Inv.account_allocate (h : Inv hcb lo hi s l fl) (hacc : s.ctl.inUseSize = usedSize l)
    (ha : AlignedAs alignedSize k) (hpos : alignedSize ≠ 0) (hsize : size < 2 ^ 32) (n : ℕ) :
    ∃ code p s' l' fl', ttosAllocateHeap hcb size alignedSize s = some (code, p, s') ∧
      Inv hcb lo hi s' l' fl' ∧
      (s'.ctl.inUseSize = usedSize l' ↔ Spares hcb size alignedSize s.mem) ∧
      ((code ≠ TTOS_OK ∧ l' = l) ∨ (code = TTOS_OK ∧ ∃ u, u.use = some (p, n) ∧
        p ≤ u.addr + 16 + 2 ^ k ∧ realSize size (2 ^ k) ≤ u.size ∧
          Taken hcb lo hi s s' l u l' fl')) := by
  obtain ⟨code, p, s', hcall, hcase⟩ := h.allocate hpos ha hsize n
  rw [h.spares_iff ha hpos]
  rcases hcase with ⟨href, hcode, -, hmem, hctl⟩ |
    ⟨hserved, hcode, z, u, l', fl', hfirst, hu, hroom, huse, hplo, hphi, -, hin, htaken⟩
  · have hst : s' = ⟨s.mem, s'.ctl⟩ := by rw [← hmem]
    refine ⟨code, p, s', l, fl, hcall, hst ▸ h.counted hctl, ?_, .inl ⟨hcode, rfl⟩⟩
    refine iff_of_true (hctl.inUseSize.trans hacc)
      (href.imp_right (Or.imp_right fun hnone z hz => ?_))
    rw [hnone] at hz
    simp at hz
  · refine ⟨code, p, s', l', fl', hcall, htaken.inv, ?_, .inr ⟨hcode, u, huse, hphi, hroom, htaken⟩⟩
    have hlt := htaken.inv.usedSize_lt
    have hheap := htaken.inv.heapSize
    have hshort := h.area.short
    have hsum := htaken.usedSize
    have hno : ¬size = 0 ∧ ¬realSize size (2 ^ k) < size := by
      simp only [Refused, not_or] at hserved
      exact ⟨hserved.1, hserved.2.1⟩
    simp only [hno.1, hno.2, hfirst, false_or, some.injEq, forall_eq']
    rw [hin, hacc, hsum, Nat.mod_eq_of_lt (by omega)]
    split at hu <;> omega

theorem Counted.refl (ctl : HeapControl) : Counted ctl ctl := ⟨rfl, rfl, rfl⟩

/-- Stated for any new value: the kernel would unfold the 32-bit sum of `freeFail` here. -/
theorem with_freeFails (s : State) (f : ℕ) :
    State.mem { s with ctl := { s.ctl with freeFails := f } } = s.mem ∧
      Counted s.ctl { s.ctl with freeFails := f } := ⟨rfl, rfl, rfl, rfl⟩

theorem freeFail_counted (s : State) : (freeFail s).mem = s.mem ∧ Counted s.ctl (freeFail s).ctl :=
  with_freeFails s (inc32 s.ctl.freeFails)

theorem findUsed_counted (hcb p : ℕ) (s : State) :
    (findUsed hcb p s).2.2.mem = s.mem ∧ Counted s.ctl (findUsed hcb p s).2.2.ctl := by
  simp only [findUsed]
  generalize sub64 p ((load 8 s.mem (sub64 p 8) + HEAP_USED_BLOCK_OVERHEAD) % 2 ^ 64) = b
  split_ifs
  · exact ⟨rfl, .refl _⟩
  · exact ⟨rfl, .refl _⟩
  · exact ⟨rfl, .refl _⟩
  · exact freeFail_counted s
  · exact freeFail_counted s
  · exact ⟨rfl, .refl _⟩

/-- A call that fails changes a counter at most. -/
theorem ttosFreeHeap_fails {p : ℕ} {code : ReturnCode} {s' : State}
    (hcall : ttosFreeHeap hcb p s = (code, s')) (hcode : code ≠ TTOS_OK) :
    s'.mem = s.mem ∧ Counted s.ctl s'.ctl := by
  have hfound := findUsed_counted hcb p s
  rcases hfind : findUsed hcb p s with ⟨c, b, s1⟩
  rw [hfind] at hfound
  simp only at hfound
  have hfail : (freeFail s1).mem = s.mem ∧ Counted s.ctl (freeFail s1).ctl := by
    obtain ⟨hm, hc⟩ := freeFail_counted s1
    exact ⟨hm.trans hfound.1, hc.freeBlocks.trans hfound.2.freeBlocks,
      hc.heapSize.trans hfound.2.heapSize, hc.inUseSize.trans hfound.2.inUseSize⟩
  have hok : ∀ theSize freeBlocks m, freed theSize freeBlocks m s1 ≠ (code, s') :=
    fun theSize freeBlocks m heq => hcode (congrArg Prod.fst heq).symm
  by_cases hc : c = TTOS_OK
  · subst hc
    simp only [ttosFreeHeap, hfind] at hcall
    -- the branches that end in `freed` succeed
    split_ifs at hcall
    · cases hcall
      exact hfound
    · cases hcall
      exact hfail
    · cases hcall
      exact hfail
    · cases hcall
      exact hfail
    all_goals exact absurd hcall (hok _ _ _)
  · have hresult : ttosFreeHeap hcb p s = (c, s1) := by
      simp only [ttosFreeHeap, hfind]
    cases hcall.symm.trans hresult
    exact hfound

end

section

variable {hcb lo hi n : ℕ} {w w' : World}

/-- The invariant of the runs. -/
def AccountInv (hcb lo hi : ℕ) (w : World) : Prop :=
  ∃ l fl, Inv hcb lo hi w.st l fl ∧ Lives l w.live ∧ Fits l ∧ w.st.ctl.inUseSize = usedSize l

theorem AccountInv.counted (h : AccountInv hcb lo hi w) {st' : State} (hmem : st'.mem = w.st.mem)
    (hctl : Counted w.st.ctl st'.ctl) : AccountInv hcb lo hi ⟨st', w.live⟩ := by
  obtain ⟨l, fl, hinv, hlive, hfits, hacc⟩ := h
  have hst : st' = ⟨w.st.mem, st'.ctl⟩ := by rw [← hmem]
  exact ⟨l, fl, hst ▸ hinv.counted hctl, hlive, hfits, hctl.inUseSize.trans hacc⟩

theorem AccountInv.allocate {size alignedSize p : ℕ} {code : ReturnCode} {st' : State}
    (h : AccountInv hcb lo hi w) (hsize : size < 2 ^ 32)
    (hgood : Spares hcb size alignedSize w.st.mem)
    (hcall : ttosAllocateHeap hcb size alignedSize w.st = some (code, p, st')) :
    AccountInv hcb lo hi ⟨st', if code = TTOS_OK then
      insert (p, if size + 2 * alignedSize + 16 < 2 ^ 32 then size else 0) w.live else w.live⟩ := by
  have hempty : size = 0 ∨ alignedSize = 0 → st' = w.st ∧ code ≠ TTOS_OK := fun hzero => by
    have hpos : hcb ≠ 0 := by
      obtain ⟨l, fl, hinv, -⟩ := h
      exact hinv.area.hcb_pos.ne'
    rw [ttosAllocateHeap, if_neg hpos, if_pos hzero] at hcall
    obtain ⟨rfl, -, rfl⟩ : TTOS_INVALID_SIZE = code ∧ 0 = p ∧ w.st = st' := by simpa using hcall
    exact ⟨rfl, by simp⟩
  by_cases hpos : size = 0 ∨ alignedSize = 0
  · obtain ⟨rfl, hcode⟩ := hempty hpos
    rw [if_neg hcode]
    exact h
  · rw [not_or] at hpos
    have hgood' := hgood
    obtain ⟨k, ha, -⟩ := (hgood.resolve_left hpos.1).resolve_left hpos.2
    obtain ⟨l, fl, hinv, hlive, hfits, hacc⟩ := h
    obtain ⟨code', p', s', l', fl', hcall', hinv', hiff, hcase⟩ :=
      hinv.account_allocate hacc ha hpos.2
      hsize (if size + 2 * alignedSize + 16 < 2 ^ 32 then size else 0)
    obtain ⟨rfl, rfl, rfl⟩ : code = code' ∧ p = p' ∧
      st' = s' := by simpa using hcall.symm.trans hcall'
    rcases hcase with ⟨hcode, rfl⟩ | ⟨hcode, u, huse, hphi, hroom, htaken⟩
    · rw [if_neg hcode]
      exact ⟨l', fl', hinv', hlive, hfits, hiff.2 hgood'⟩
    · rw [if_pos hcode]
      have hu := (htaken.used u (by simp [huse])).2 (.inr rfl)
      have hplo := (hinv'.owned u hu _ _ huse).2.1
      refine ⟨l', fl', hinv', htaken.lives hlive huse, htaken.fits hfits huse ?_, hiff.2 hgood'⟩
      -- the payload of a request whose sum does not wrap fits
      split_ifs with hsum
      · have hlt : size + 2 ^ k < 2 ^ 32 := by
          rw [← ha.1]
          split
          · omega
          · omega
        have := le_realSize hlt
        omega
      · exact hplo


theorem AccountInv.step (hn : 16 ≤ n) (h : AccountInv hcb lo (lo + n - 16) w)
    (hstep : AccountStep hcb lo n w w') : AccountInv hcb lo (lo + n - 16) w' := by
  cases hstep with
  | allocate size alignedSize hsize hgood hcall =>
    exact (h.allocate hsize hgood hcall)
  | free q hq hcall =>
    obtain ⟨l, fl, hinv, hlive, hfits, hacc⟩ := h
    obtain ⟨b, hb, huse⟩ := (hlive q).1 hq
    obtain ⟨st1, l', fl', hcall', hfreed, hin⟩ := hinv.ttosFreeHeap_spec hb huse
    cases hcall.symm.trans hcall'
    refine ⟨l', fl', hfreed.inv, hfreed.lives hinv hlive hb huse, hfreed.fits hfits, ?_⟩
    have hsum := hfreed.usedSize
    have hlt := hinv.usedSize_lt
    have hheap := hinv.heapSize
    have hshort := hinv.area.short
    rw [hin, hacc, sub32]
    omega
  | freeFails p hcall hcode =>
    obtain ⟨hmem, hctl⟩ := ttosFreeHeap_fails hcall hcode
    exact h.counted hmem hctl
  | write m hm =>
    obtain ⟨l, fl, hinv, hlive, hfits, hacc⟩ := h
    exact ⟨l, fl, hinv.write hlive hfits fun a ha => hm a (by omega), hlive, hfits, hacc⟩

end

end Intewell.Heap
