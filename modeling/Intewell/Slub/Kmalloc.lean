/-
# The kmalloc family

`src/kernel/memory/slub/kmalloc.c`, `page_bits` of `src/kernel/memory/page.c` and
the order bits of `src/include/slub.h`: requests below `8 << 8` bytes go to the
nine slab caches of `8 << i` bytes, the others to the page allocator, with the
order kept in the flags of the first page.

The page allocator is given by its answer `pg`, the first frame of the block, or
`none`.  An order that is no index of `page_list` and a shift of `0x01` past the
width of an `int` are `none`.  `kfree` also returns what was given back to whom.
-/

import Intewell.Slub.Run

namespace Intewell.Slub

open Nat

open Bytes (Mem load store copy)
open Page (pageToAddr pageAddress addrToPage PAGE_SIZE_SHIFT PAGE_LIST_SIZE)

def PG_kmalloc : ℕ := 4

def PG_order_shift : ℕ := 8

def PG_order_mask : ℕ := 0xff <<< PG_order_shift

def PG_order_set (flags order : ℕ) : ℕ := flags ||| (order <<< PG_order_shift)

def PG_order_get (flags : ℕ) : ℕ := (flags &&& PG_order_mask) >>> PG_order_shift

/-- `page_bits`; the highest bit of the size is `64 - __builtin_clzl(size) - 1`. -/
def pageBits (size : ℕ) : ℕ :=
  let bit := size.log2
  let bit := if size ^^^ (1 <<< bit) ≠ 0 then bit + 1 else bit
  bit - PAGE_SIZE_SHIFT

theorem le_pageBits {size : ℕ} (h : size ≠ 0) : size ≤ 2 ^ (12 + pageBits size) := by
  have hlo := log2_self_le h
  have hhi := lt_log2_self (n := size)
  by_cases heq : size = 2 ^ size.log2
  · have hx : size ^^^ (1 <<< size.log2) = 0 := by
      rw [Nat.one_shiftLeft, ← heq, Nat.xor_self]
    simp only [pageBits, hx, ne_eq, not_true_eq_false, if_false, PAGE_SIZE_SHIFT]
    calc size = 2 ^ size.log2 := heq
      _ ≤ 2 ^ (12 + (size.log2 - 12)) := Nat.pow_le_pow_right (by norm_num) (by omega)
  · have hx : size ^^^ (1 <<< size.log2) ≠ 0 := fun hx => heq (by
      rw [one_shiftLeft] at hx
      exact Nat.xor_eq_zero_iff.1 hx)
    simp only [pageBits, hx, ne_eq, not_false_eq_true, if_true, PAGE_SIZE_SHIFT]
    calc size ≤ 2 ^ (size.log2 + 1) := hhi.le
      _ ≤ 2 ^ (12 + (size.log2 + 1 - 12)) := Nat.pow_le_pow_right (by norm_num) (by omega)

theorem pageBits_le {size n : ℕ} (h : size ≠ 0) (hn : size ≤ 2 ^ (12 + n)) : pageBits size ≤ n := by
  have hlo := log2_self_le h
  by_cases hx : size ^^^ (1 <<< size.log2) = 0
  · simp only [pageBits, hx, ne_eq, not_true_eq_false, if_false, PAGE_SIZE_SHIFT]
    have := (Nat.pow_le_pow_iff_right (by norm_num : 1 < 2)).1 (hlo.trans hn)
    omega
  · simp only [pageBits, hx, ne_eq, not_false_eq_true, if_true, PAGE_SIZE_SHIFT]
    have hne : size ≠ 2 ^ size.log2 := fun heq =>
      hx (by rw [Nat.one_shiftLeft, ← heq, Nat.xor_self])
    have hlt : 2 ^ size.log2 < 2 ^ (12 + n) := lt_of_lt_of_le (lt_of_le_of_ne hlo (Ne.symm hne)) hn
    have := (Nat.pow_lt_pow_iff_right (by norm_num : 1 < 2)).1 hlt
    omega

theorem pageBits_le_iff {size n : ℕ} (h : size ≠ 0) : pageBits size ≤ n ↔ size ≤ 2 ^ (12 + n) :=
  ⟨fun hn => (le_pageBits h).trans (Nat.pow_le_pow_right (by norm_num) (by omega)), pageBits_le h⟩

theorem order_get_set {order : ℕ} (h : order < PAGE_LIST_SIZE) :
    PG_order_get (PG_order_set PG_kmalloc order) = order ∧
      PG_order_set PG_kmalloc order &&& PG_kmalloc ≠ 0 := by
  revert h order
  decide

variable {κ : Type}

/-- The class of a small request: the first cache whose objects hold it. -/
def classOf (size : ℕ) : Option (Fin 9) := (List.finRange 9).find? fun i => size ≤ 8 <<< i.val

/-- The descriptor of the first page of a block of the page allocator. -/
def markBlock (order : ℕ) (g : SlabPage (Fin 9) κ) : SlabPage (Fin 9) κ :=
  { g with
    flags := PG_order_set PG_kmalloc order
    objects := 1
    inuse := 1 }

variable [DecidableEq κ]

def kmalloc (E : Env) (k : κ) (size : ℕ) (pg : Option ℕ) (s : State (Fin 9) κ) :
    Option (ℕ × State (Fin 9) κ) :=
  if size = 0 then some (0, s)
  else if size < 8 <<< 8 then
    match classOf size with
    | some i => kmemCacheAlloc E i k pg s
    | none => some (0, s)
  else if PAGE_LIST_SIZE ≤ pageBits size then none
  else
    let addr := (pg.map pageToAddr).getD 0
    if addr = 0 then some (0, s)
    else
      match addrToPage E.toEnv addr with
      | none => some (0, s)
      | some p => some (pageAddress E.toEnv addr, s.setPage p (markBlock (pageBits size)))

/-- What a `kfree` gave back, and to which allocator. -/
inductive GivenBack where
  | nothing
  | pages (addr order : ℕ)
  | object (c : Fin 9)
deriving DecidableEq, Repr

def kfree (E : Env) (k : κ) (ptr : ℕ) (s : State (Fin 9) κ) :
    Option (GivenBack × State (Fin 9) κ) :=
  if ptr = 0 then some (.nothing, s)
  else
    match ptrToPage E ptr with
    | none => some (.nothing, s)
    | some p =>
      if (s.page p).flags &&& PG_kmalloc ≠ 0 then
        some (.pages (pageToAddr p) (PG_order_get (s.page p).flags),
          s.setPage p fun g => { g with flags := 0 })
      else if (s.page p).flags &&& PG_slab ≠ 0 then
        match (s.page p).slabCache with
        | none => some (.nothing, s)
        | some c => (kmemCacheFree E c k ptr s).map fun s => (.object c, s)
      else some (.nothing, s)

def ksize (E : Env) (ptr : ℕ) (s : State (Fin 9) κ) : Option ℕ :=
  if ptr = 0 then some 0
  else
    match ptrToPage E ptr with
    | none => some 0
    | some p =>
      if (s.page p).flags &&& PG_kmalloc ≠ 0 then
        if PG_order_get (s.page p).flags + PAGE_SIZE_SHIFT < 31 then
          some (1 <<< (PG_order_get (s.page p).flags + PAGE_SIZE_SHIFT))
        else none
      else if (s.page p).flags &&& PG_slab ≠ 0 then
        match (s.page p).slabCache with
        | none => some 0
        | some c => some (s.cache c).objectSize
      else some 0

def krealloc (E : Env) (k : κ) (ptr size : ℕ) (pg : Option ℕ) (s : State (Fin 9) κ) :
    Option (ℕ × State (Fin 9) κ) :=
  if ptr = 0 then kmalloc E k size pg s
  else if size = 0 then (kfree E k ptr s).map fun (_, s) => (0, s)
  else
    (ksize E ptr s).bind fun oldSize =>
      if size ≤ oldSize then some (ptr, s)
      else
        (kmalloc E k size pg s).bind fun (p, s) =>
          if p = 0 then some (0, s)
          else (kfree E k ptr (s.setMem (copy s.mem p ptr oldSize))).map fun (_, s) => (p, s)

/-- `__kernel_aligned_alloc_impl`: the alignment is not used. -/
def kernelAlignedAlloc (E : Env) (k : κ) (_align len : ℕ) (pg : Option ℕ) (s : State (Fin 9) κ) :
    Option (ℕ × State (Fin 9) κ) := kmalloc E k len pg s

section

variable {E : Env} {p q o : ℕ}

/-- A block of the page allocator in the linear map. -/
structure IsBlock (E : Env) (p order : ℕ) : Prop where
  aligned : 2 ^ order ∣ p
  usable : ∀ f, p ≤ f → f < p + 2 ^ order → Usable E f

theorem IsBlock.head (h : IsBlock E p o) : Usable E p :=
  h.usable p le_rfl (Nat.lt_add_of_pos_right (Nat.two_pow_pos o))

theorem IsBlock.base (h : IsBlock E p o) (hoff : 2 ^ 30 ∣ E.pvOffset) (ho : o ≤ 18) :
    2 ^ (12 + o) ∣ E.base p ∧ E.base p + 2 ^ (12 + o) ≤ 2 ^ 64 := by
  have hb := base_eq h.head
  have hlt := E.present_lt p h.head.1
  have hd30 : 2 ^ (12 + o) ∣ 2 ^ 30 := pow_dvd_pow 2 (by omega)
  have hd64 : 2 ^ (12 + o) ∣ 2 ^ 64 := pow_dvd_pow 2 (by omega)
  have hp : 2 ^ (12 + o) ∣ p * 4096 := by
    rw [pow_add, mul_comm]
    exact mul_dvd_mul h.aligned (by norm_num)
  have hr : 2 ^ (12 + o) ∣ E.pvOffset % 2 ^ 64 := (dvd_mod_iff hd64).2 (hd30.trans hoff)
  have hdvd : 2 ^ (12 + o) ∣ E.base p := by
    rw [hb, dvd_mod_iff hd64]
    exact Nat.dvd_sub (Nat.dvd_add hp hd64) hr
  refine ⟨hdvd, ?_⟩
  obtain ⟨m, hm⟩ := hdvd
  obtain ⟨n, hn⟩ := hd64
  have hlt' : E.base p < 2 ^ 64 := by
    rw [hb]
    exact mod_lt _ (by norm_num)
  rw [hm, hn] at hlt' ⊢
  have hmn : m < n := lt_of_mul_lt_mul_left hlt' (zero_le _)
  calc 2 ^ (12 + o) * m + 2 ^ (12 + o) = 2 ^ (12 + o) * (m + 1) := by ring
    _ ≤ 2 ^ (12 + o) * n := mul_le_mul_left _ hmn

end

end Intewell.Slub
