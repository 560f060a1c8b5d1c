/-
# A full table of boot memory

`ttos_memblk_add_range` adds a range in as many insertions as the range has gaps, and stops where
the table of regions is full.  So a failure leaves the table as it was exactly if it was full before
the call (`range_failure_iff`).  `ttos_memblk_remove_range` needs a slot only for a range inside one
region, before it has changed anything.
-/

import Intewell.Memblock.Ranges
import Mathlib.Data.List.TakeWhile

namespace Intewell.Memblock

open List

def ENOMEM : ℤ := 12

def EINVAL : ℤ := 22

/-- `struct ttos_memblk_collect`; `rgn_num` is the length of `regions`. -/
structure Table where
  regions : List Region
  totalSize : ℕ
deriving DecidableEq

/-- `rgn_num >= rgn_max`. -/
def Full (l : List Region) : Prop := DEFAULT_MEMBLOCK_REGIONS ≤ l.length

instance (l : List Region) : Decidable (Full l) := inferInstanceAs (Decidable (_ ≤ _))

/-- `ttos_memblk_normalize_range`: the end of the range. -/
def normalizeRange (start size : ℕ) : Option ℕ :=
  let stop := if 2 ^ 64 - 1 - start < size then 2 ^ 64 - 1 else start + size
  if size = 0 ∨ stop ≤ start then none else some stop

/-- `ttos_memblk_merge_regions` from the region `a` on. -/
def mergeRegions (a : Region) : List Region → List Region
  | [] => [a]
  | b :: l =>
    if a.flags ≠ b.flags ∨ a.stop < b.start then a :: mergeRegions b l
    else mergeRegions { a with size := if a.stop < b.stop then b.stop - a.start else a.size } l

/-- The end of `ttos_memblk_add_range`; the total is only recounted if regions were merged. -/
def merged (l : List Region) (total : ℕ) : Table :=
  let m := l.head?.elim [] (mergeRegions · l.tail)
  ⟨m, if m.length < l.length then (m.map Region.size).sum % 2 ^ 64 else total⟩

section
variable (start stop : ℕ) (fl : Flags)

/-- `ttos_memblk_insert_slot` between `done` and `rest`, if there are bytes from `cursor` to `upTo`:
the regions up to `rest`, and the total. -/
def fill (done rest : List Region) (cursor upTo total : ℕ) : Option (List Region × ℕ) :=
  if cursor < upTo then
    if Full (done ++ rest) then none
    else some (done ++ [⟨cursor, upTo - cursor, fl⟩], (total + (upTo - cursor)) % 2 ^ 64)
  else some (done, total)

/-- The loop of `ttos_memblk_add_range` and what follows it. -/
def addLoop (done : List Region) (cursor total : ℕ) : List Region → ℤ × Table
  | [] => match fill fl done [] cursor stop total with
    | none => (-ENOMEM, ⟨done, total⟩)
    | some (d, n) => (0, merged d n)
  | r :: rest =>
    -- a region from `stop` on ends the loop, and what is left of the range comes before it
    match fill fl done (r :: rest) cursor (min r.start stop) total with
    | none => (-ENOMEM, ⟨done ++ r :: rest, total⟩)
    | some (d, n) =>
      if stop ≤ r.start ∨ stop ≤ max cursor r.stop then (0, merged (d ++ r :: rest) n)
      else addLoop (d ++ [r]) (max cursor r.stop) n rest

/-- `ttos_memblk_add_range`. -/
def addRange (t : Table) (start size : ℕ) (fl : Flags) : ℤ × Table :=
  match normalizeRange start size with
  | none => (-EINVAL, t)
  | some stop => addLoop stop fl (t.regions.takeWhile (·.stop ≤ start)) start t.totalSize
      (t.regions.dropWhile (·.stop ≤ start))

/-- The region `r` stays in front of what the loop leaves of the others. -/
def keep (r : Region) (x : ℤ × Table) : ℤ × Table := (x.1, ⟨r :: x.2.regions, x.2.totalSize⟩)

/-- The loop of `ttos_memblk_remove_range` over the regions from `idx` on, with `rgn_num` and the
total. -/
def removeLoop : List Region → ℕ → ℕ → ℤ × Table
  | [], _, n => (0, ⟨[], n⟩)
  | r :: l, k, n =>
    let less m := (n + 2 ^ 64 - m) % 2 ^ 64
    let above : Region := ⟨stop, r.stop - stop, r.flags⟩
    let below : Region := { r with size := start - r.start }
    if stop ≤ r.start then (0, ⟨r :: l, n⟩)
    else if r.stop ≤ start then keep r (removeLoop l k n)
    else if start ≤ r.start ∧ r.stop ≤ stop then removeLoop l (k - 1) (less r.size)
    else if start ≤ r.start then keep above (removeLoop l k (less (stop - r.start)))
    else if r.stop ≤ stop then keep below (removeLoop l k (less (r.stop - start)))
    else if DEFAULT_MEMBLOCK_REGIONS ≤ k then (-ENOMEM, ⟨r :: l, n⟩)
    else keep below (keep above (removeLoop l (k + 1) (less (stop - start))))

end

/-- `ttos_memblk_remove_range`. -/
def removeRange (t : Table) (start size : ℕ) : ℤ × Table :=
  match normalizeRange start size with
  | none => (-EINVAL, t)
  | some stop => removeLoop start stop t.regions t.regions.length t.totalSize

section
variable {start stop k n m cursor : ℕ} {fl : Flags} {done rest l : List Region}

theorem normalizeRange_lt {size : ℕ} (h : normalizeRange start size = some stop) :
    stop < 2 ^ 64 := by
  simp only [normalizeRange] at h
  grind

theorem fill_cases (h : fill fl done rest cursor k n = some (l, m)) : l = done ∧ m = n ∨
    cursor < k ∧ ¬Full (done ++ rest) ∧ l = done ++ [⟨cursor, k - cursor, fl⟩] := by
  simp only [fill] at h
  grind

/-- Where the loop fails, the table was full and is as before, or a byte that was in no region has
been added. -/
theorem addLoop_failed (hstop : stop < 2 ^ 64) (hd : ∀ r ∈ done, r.stop ≤ cursor)
    (hs : rest.Pairwise fun a b => a.stop ≤ b.start) (hw : ∀ r ∈ rest, r.start ≤ r.stop)
    (h : (addLoop stop fl done cursor n rest).1 = -ENOMEM) :
    Full (done ++ rest) ∧ (addLoop stop fl done cursor n rest).2 = ⟨done ++ rest, n⟩ ∨
      ¬Full (done ++ rest) ∧ ∃ x, InRegions (addLoop stop fl done cursor n rest).2.regions x ∧
        ¬InRegions (done ++ rest) x := by
  induction rest generalizing done cursor n with
  | nil =>
    simp only [addLoop] at h ⊢
    split at h <;> grind [fill, ENOMEM]
  | cons r rest ih =>
    obtain ⟨hlt, hs⟩ := pairwise_cons.1 hs
    have hr := hw r mem_cons_self
    simp only [addLoop] at h ⊢
    cases hf : fill fl done (r :: rest) cursor (min r.start stop) n with
    | none => exact .inl ⟨by grind [fill], rfl⟩
    | some p =>
      obtain ⟨d, m⟩ := p
      rw [hf] at h
      dsimp only at h ⊢
      split at h
      · cases h
      next hc =>
      have hd' : ∀ a ∈ d ++ [r], a.stop ≤ max cursor r.stop := by
        grind [fill_cases hf, Region.stop]
      rw [if_neg hc]
      obtain ⟨rfl, rfl⟩ | ⟨hlt, hn, rfl⟩ := fill_cases hf
      · simpa using ih hd' hs (fun a ha => hw a (mem_cons_of_mem r ha)) h
      · refine .inr ⟨hn, ?_⟩
        obtain ⟨-, hi⟩ | ⟨-, x, hx, hnot⟩ := ih hd' hs (fun a ha => hw a (mem_cons_of_mem r ha)) h
        · -- the first byte of the new region was in no region
          refine ⟨cursor, hi ▸ ⟨⟨cursor, min r.start stop - cursor, fl⟩, by simp, le_rfl, ?_⟩, ?_⟩
          · simp only [Region.stop]
            omega
          · rintro ⟨a, ha, hle, hlt'⟩
            grind
        · refine ⟨x, hx, ?_⟩
          rintro ⟨a, ha, hax⟩
          refine hnot ⟨a, ?_, hax⟩
          simp only [mem_append, mem_cons] at ha ⊢
          tauto

/-- Only a region that begins before the range needs a slot. -/
theorem removeLoop_failed (hs : l.Pairwise fun a b => a.stop ≤ b.start)
    (h : (removeLoop start stop l k n).1 = -ENOMEM) :
    (removeLoop start stop l k n).2 = ⟨l, n⟩ ∧ ∃ r ∈ l, r.start < start := by
  induction l generalizing k n with
  | nil => exact absurd h (by simp [removeLoop, ENOMEM])
  | cons r l ih =>
    obtain ⟨hlt, hs⟩ := pairwise_cons.1 hs
    -- a later region starts behind `r`, so the call cannot fail once `r` overlaps the range
    have hno : ∀ j m, start < r.stop → (removeLoop start stop l j m).1 ≠ -ENOMEM := by
      intro j m hr hf
      obtain ⟨-, a, ha, hlta⟩ := ih hs hf
      have := hlt a ha
      omega
    simp only [removeLoop] at h ⊢
    split_ifs at h ⊢ with h1 h2 h3 h4 h5 h6
    · cases h
    · obtain ⟨heq, a, ha, hlta⟩ := ih hs h
      exact ⟨by rw [keep, heq], a, mem_cons_of_mem r ha, hlta⟩
    · exact absurd h (hno _ _ (by omega))
    · exact absurd h (hno _ _ (by omega))
    · exact absurd h (hno _ _ (by omega))
    · exact ⟨rfl, r, mem_cons_self, by omega⟩
    · exact absurd h (hno _ _ (by omega))

end

/-- A failing call leaves the table as it was if it was full, or if the call was to remove; if the
table was not full, bytes of the range were added. -/
theorem range_failure_iff {t : Table} (hs : t.regions.Pairwise fun a b => a.stop ≤ b.start)
    (hw : ∀ r ∈ t.regions, r.start ≤ r.stop) (start size : ℕ) (fl : Flags) :
    (∀ t', addRange t start size fl = (-ENOMEM, t') → (Full t.regions → t' = t) ∧
      ((∀ x, InRegions t'.regions x ↔ InRegions t.regions x) → Full t.regions)) ∧
    ∀ t', removeRange t start size = (-ENOMEM, t') → t' = t := by
  cases hn : normalizeRange start size with
  | none => simp [addRange, removeRange, hn, EINVAL, ENOMEM]
  | some stop =>
    simp only [addRange, removeRange, hn]
    refine ⟨fun t' h => ?_, fun t' h => ?_⟩
    · have hsub := t.regions.dropWhile_sublist (·.stop ≤ start)
      have := addLoop_failed (normalizeRange_lt hn)
        (fun r hr => by simpa using mem_takeWhile_imp hr) (hs.sublist hsub)
        (fun r hr => hw r (hsub.subset hr)) (congrArg Prod.fst h)
      rw [h, takeWhile_append_dropWhile] at this
      obtain ⟨hf, rfl⟩ | ⟨hf, x, hx, hnot⟩ := this
      · exact ⟨fun _ => rfl, fun _ => hf⟩
      · exact ⟨fun h => absurd h hf, fun h => absurd ((h x).1 hx) hnot⟩
    · have := (removeLoop_failed hs (congrArg Prod.fst h)).1
      rwa [h] at this

/-- `n` regions of one page, one page apart. -/
def pages (n : ℕ) : Table :=
    ⟨(range n).map fun i => ⟨0x2000 * i + 0x1000, 0x1000, .none⟩, 0x1000 * n⟩

theorem range_failure_full : addRange (pages 128) 0 0x1000 .none = (-ENOMEM, pages 128) ∧
    Full (pages 128).regions := by
  have h : addRange (pages 128) 0 0x1000 .none = (-ENOMEM, pages 128) := by decide +kernel
  exact ⟨h, ((range_failure_iff (by decide +kernel) (by decide +kernel) _ _ _).1 _ h).2 fun _ =>
    .rfl⟩

/-- With one slot left, a range over several gaps is added in part. -/
theorem range_added_in_part : (addRange (pages 127) 0 0x5000 .none).1 = -ENOMEM ∧
    InRegions (addRange (pages 127) 0 0x5000 .none).2.regions 0 ∧
    ¬InRegions (pages 127).regions 0 := by
  unfold InRegions
  decide +kernel

end Intewell.Memblock
