/-
# Shared memory segments

`_shm_create` and `_shm_resize` (`kernel/systemV/shm.c`); `addr` is what `pages_alloc` returns.
Both loops over the pages of a segment access the first one each time.
-/

import Intewell.Region.Basic

namespace Intewell.Shm

open Region (PAGE_SIZE PAGE_ALIGN)

/-- Of `struct shm_node`, with the size of `ds`. -/
structure Node where
  addr : ℕ
  shm_segsz : ℕ

/-- The number of pages as an `int`. -/
def pageCount (segsz : ℕ) : ℤ := ((segsz / PAGE_SIZE : ℕ) : ℤ).bmod (2 ^ 32)

/-- The page at `addr` is written. -/
def write (addr : ℕ) (page : ℕ → UInt8) (mem : ℕ → UInt8) (a : ℕ) : UInt8 :=
  if addr ≤ a ∧ a < addr + PAGE_SIZE then page (a - addr) else mem a

def _shm_create (size addr : ℕ) (mem : ℕ → UInt8) : Option (Node × (ℕ → UInt8)) :=
  if addr = 0 then none
  else
    let shm : Node := ⟨addr, PAGE_ALIGN size⟩
    some (shm, (write shm.addr fun _ => 0)^[(pageCount shm.shm_segsz).toNat] mem)

def _shm_resize (shm : Node) (size addr : ℕ) (mem : ℕ → UInt8) : ℤ × Node × (ℕ → UInt8) :=
  let size := PAGE_ALIGN size
  if size ≤ shm.shm_segsz then (0, { shm with shm_segsz := size }, mem)
  else if addr = 0 then (-12, shm, mem)
  else
    let old_page_count := pageCount (PAGE_ALIGN shm.shm_segsz)
    let page_count := pageCount (PAGE_ALIGN size)
    let mem := (fun mem => write addr (fun i => mem (shm.addr + i)) mem)^[old_page_count.toNat] mem
    let mem := (write addr fun _ => 0)^[(page_count - old_page_count).toNat] mem
    (0, ⟨addr, size⟩, mem)

variable {size addr : ℕ} {mem : ℕ → UInt8}

/-- Outside the first page nothing is written. -/
theorem iterate_write_of_le (f : (ℕ → UInt8) → ℕ → UInt8) (n : ℕ) {off : ℕ} (h : PAGE_SIZE ≤ off) :
    (fun mem => write addr (f mem) mem)^[n] mem (addr + off) = mem (addr + off) := by
  induction n generalizing mem with
  | zero => rfl
  | succ n ih =>
    rw [Function.iterate_succ_apply, ih]
    exact if_neg (by omega)

/-- The first page after it has been cleared `n` times. -/
theorem iterate_clear {n off : ℕ} (h : off < PAGE_SIZE) :
    (write addr fun _ => 0)^[n] mem (addr + off) =
    if n = 0 then mem (addr + off) else 0 := by
  cases n with
  | zero => rfl
  | succ n =>
    rw [Function.iterate_succ_apply', if_neg n.succ_ne_zero]
    exact if_pos (by omega)

/-- The first page after another one has been copied to it `n` times. -/
theorem iterate_copy {old n off : ℕ} (hd : old + PAGE_SIZE ≤ addr ∨ addr + PAGE_SIZE ≤ old)
    (h : off < PAGE_SIZE) :
    (fun mem => write addr (fun i => mem (old + i)) mem)^[n] mem (addr + off) =
      if n = 0 then mem (addr + off) else mem (old + off) := by
  have hold : ∀ n, (fun mem => write addr (fun i => mem (old + i)) mem)^[n] mem (old + off) =
      mem (old + off) := by
    intro n
    induction n with
    | zero => rfl
    | succ n ih =>
      rw [Function.iterate_succ_apply', ← ih]
      exact if_neg (by omega)
  cases n with
  | zero => rfl
  | succ n =>
    rw [Function.iterate_succ_apply', if_neg n.succ_ne_zero, ← hold n]
    refine (if_pos (by omega)).trans ?_
    rw [Nat.add_sub_cancel_left]

theorem PAGE_ALIGN_of_dvd {n : ℕ} (h : PAGE_SIZE ∣ n) (hlt : n < 2 ^ 64) : PAGE_ALIGN n = n := by
  unfold PAGE_ALIGN PAGE_SIZE at *
  omega

theorem PAGE_ALIGN_aligned (n : ℕ) : PAGE_SIZE ∣ PAGE_ALIGN n ∧ PAGE_ALIGN n < 2 ^ 64 := by
  unfold PAGE_ALIGN PAGE_SIZE
  omega

/-- The byte at an offset of a new segment: the first page is cleared if the number of pages is
positive as an `int`. -/
def created (size addr : ℕ) (mem : ℕ → UInt8) (off : ℕ) : UInt8 :=
  if off < PAGE_SIZE ∧ 0 < pageCount (PAGE_ALIGN size) then 0 else mem (addr + off)

/-- The byte at an offset of a segment that has grown: the first page is copied for the old pages
and then cleared for the new ones. -/
def grown (shm : Node) (size addr : ℕ) (mem : ℕ → UInt8) (off : ℕ) : UInt8 :=
  if PAGE_SIZE ≤ off then mem (addr + off)
  else if pageCount shm.shm_segsz < pageCount (PAGE_ALIGN size) then 0
  else if 0 < pageCount shm.shm_segsz then mem (shm.addr + off)
  else mem (addr + off)

/-- **Only the first page of a segment is cleared, and its contents are lost when it grows.**  A new
segment is zero, and one that grows keeps what it holds, exactly where the pages that were
allocated say so. -/
theorem shm_contents (size : ℕ) {addr : ℕ} (ha : addr ≠ 0) (mem : ℕ → UInt8) :
    (∃ mem', _shm_create size addr mem = some (⟨addr, PAGE_ALIGN size⟩, mem') ∧
      ((∀ off < PAGE_ALIGN size, mem' (addr + off) = 0) ↔
        ∀ off < PAGE_ALIGN size, created size addr mem off = 0)) ∧
    ∀ shm : Node, PAGE_SIZE ∣ shm.shm_segsz → shm.shm_segsz < PAGE_ALIGN size →
      (shm.addr + PAGE_SIZE ≤ addr ∨ addr + PAGE_SIZE ≤ shm.addr) →
      ∃ mem', _shm_resize shm size addr mem = (0, ⟨addr, PAGE_ALIGN size⟩, mem') ∧
        ((∀ off < PAGE_ALIGN size,
          mem' (addr + off) = if off < shm.shm_segsz then mem (shm.addr + off) else 0) ↔
        ∀ off < PAGE_ALIGN size, grown shm size addr mem off =
          if off < shm.shm_segsz then mem (shm.addr + off) else 0) := by
  obtain ⟨hdvd, hlt⟩ := PAGE_ALIGN_aligned size
  constructor
  · refine ⟨_, if_neg ha, forall₂_congr fun off hoff => Eq.congr_left ?_⟩
    unfold created
    dsimp only
    by_cases h : off < PAGE_SIZE
    · rw [iterate_clear h]
      split_ifs <;> first | rfl | omega
    · rw [iterate_write_of_le (fun _ _ => 0) _ (not_lt.1 h), if_neg fun hc => h hc.1]
  · rintro ⟨old, segsz⟩ hold hgrow hd
    dsimp only at *
    unfold _shm_resize grown
    dsimp only
    rw [if_neg (by omega), if_neg ha, PAGE_ALIGN_of_dvd hdvd hlt,
      PAGE_ALIGN_of_dvd hold (hgrow.trans hlt)]
    generalize PAGE_ALIGN size = segsz' at *
    refine ⟨_, rfl, forall₂_congr fun off hoff => Eq.congr_left ?_⟩
    by_cases h : PAGE_SIZE ≤ off
    · rw [if_pos h, iterate_write_of_le (fun _ _ => 0) _ h]
      exact iterate_write_of_le (fun mem i => mem (old + i)) _ h
    · rw [if_neg h, iterate_clear (not_le.1 h), iterate_copy hd (not_le.1 h)]
      split_ifs <;> first | rfl | omega

/-- A segment of two pages, the second of which was zero; and one page of zeros that grows to two.
-/
theorem shm_contents_page :
    (∃ mem, _shm_create 8000 4096 (fun a => if a < 8192 then 1 else 0) = some (⟨4096, 8192⟩, mem) ∧
      ∀ off < 8192, mem (4096 + off) = 0) ∧
    ∃ mem, _shm_resize ⟨8192, 4096⟩ 8000 12288 (fun a => if a < 8192 then 1 else 0) =
      (0, ⟨12288, 8192⟩, mem) ∧ ∀ off < 8192, mem (12288 + off) = 0 := by
  constructor
  · obtain ⟨mem, h, hmem⟩ :=
      (shm_contents 8000 (by decide : 4096 ≠ 0) fun a => if a < 8192 then 1 else 0).1
    refine ⟨mem, h, hmem.2 fun off hoff => ?_⟩
    have hcount : 0 < pageCount (PAGE_ALIGN 8000) := by decide
    unfold created PAGE_SIZE
    by_cases h : off < 4096
    · rw [if_pos ⟨h, hcount⟩]
    · rw [if_neg fun hc => h hc.1]
      exact if_neg (by omega)
  · obtain ⟨mem, h, hmem⟩ := (shm_contents 8000 (by decide : 12288 ≠ 0)
      fun a => if a < 8192 then 1 else 0).2 ⟨8192, 4096⟩ (by decide) (by decide) (by decide)
    have hzero : ∀ off, (if off < 4096 then if 8192 + off < 8192 then (1 : UInt8) else 0 else 0) =
      0 :=
      fun off => by rw [if_neg (by omega : ¬8192 + off < 8192), ite_self]
    have hcount : pageCount 4096 < pageCount (PAGE_ALIGN 8000) := by decide
    refine ⟨mem, h, fun off hoff => (hmem.2 (fun off _ => ?_) off hoff).trans (hzero off)⟩
    unfold grown PAGE_SIZE
    refine Eq.trans ?_ (hzero off).symm
    rw [if_pos hcount]
    split_ifs
    · exact if_neg (by omega)
    · rfl

/-- The second page of a new segment keeps what it held, and one page that grows to two is lost. -/
theorem shm_second_page : (_shm_create 8192 4096 fun _ => 1).map (fun r => r.2 8192) = some 1 ∧
    (_shm_resize ⟨4096, 4096⟩ 8192 12288 fun _ => 1).2.2 12288 = 0 := by
  decide

end Intewell.Shm
