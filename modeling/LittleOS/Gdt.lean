import Mathlib.Algebra.Order.Ring.Int
import Mathlib.Data.List.Basic
import Mathlib.Logic.Function.Basic
import Mathlib.Tactic.IntervalCases

/-! # The descriptor table of `gdt.c`

    `gdt_table` is a function from indices to entries, of which `GDT_SIZE` are
    in use.  `gdt_alloc_seg` takes an entry for free when its attributes are 0,
    which is what `gdt_init` leaves in all entries but the four segments of
    `os_cfg.h`.

    * `gdtAllocSeg_first` — the answer is the first free entry;
    * `baseOf_gdtSegmentSet` — an entry gives back the base it was set to. -/

namespace LittleOS.Gdt

/-- `gdt_entry_t`; the attributes contain bits 16 to 19 of the limit. -/
structure GdtEntry where
  limitLow : BitVec 16
  baseLow : BitVec 16
  baseMiddle : BitVec 8
  attributes : BitVec 16
  baseHigh : BitVec 8
deriving DecidableEq, Repr

/-- The array `gdt_table`, read at every index. -/
abbrev GdtTable := Nat → GdtEntry

/-- `GDT_SIZE` -/
def gdtSize : Nat := 256

def kernelSelectorCs : BitVec 16 := 1 <<< 3
def kernelSelectorDs : BitVec 16 := 2 <<< 3
def userSelectorCs : BitVec 16 := (4 <<< 3) + 3
def userSelectorDs : BitVec 16 := (5 <<< 3) + 3

def segD : BitVec 16 := 1 <<< 14
def segPPresent : BitVec 16 := 1 <<< 7
def segDpl0 : BitVec 16 := 0 <<< 5
def segDpl3 : BitVec 16 := 3 <<< 5
def segSSystem : BitVec 16 := 0 <<< 4
def segSNormal : BitVec 16 := 1 <<< 4
def segTypeTss : BitVec 16 := 9 <<< 0
def segTypeCode : BitVec 16 := 1 <<< 3
def segTypeData : BitVec 16 := 0 <<< 3
def segTypeRw : BitVec 16 := 1 <<< 1

/-- The index of a selector. -/
def indexOf (selector : BitVec 16) : Nat := (selector >>> 3).toNat

/-- The first entry after 0 without attributes, as a selector; `-1` if all are taken. -/
def gdtAllocSeg (table : GdtTable) : Int :=
  match (List.range' 1 (gdtSize - 1)).find? (fun i => (table i).attributes = 0) with
  | some i => i * 8
  | none => -1

/-- `gdt_segment_set`: limits above `0xFFFFF` are counted in pages. -/
def gdtSegmentSet (table : GdtTable) (selector : BitVec 16) (limit base : BitVec 32)
    (attr : BitVec 16) : GdtTable :=
  let large := limit > 0xFFFFF
  let attr := if large then attr ||| 0x8000 else attr
  let limit := if large then limit / 0x1000 else limit
  Function.update table (indexOf selector)
    { limitLow := (limit &&& 0xFFFF).truncate 16
      baseLow := (base &&& 0xFFFF).truncate 16
      baseMiddle := ((base >>> 16) &&& 0xFF).truncate 8
      attributes := attr ||| (((limit >>> 16) &&& 0xF) <<< 8).truncate 16
      baseHigh := ((base >>> 24) &&& 0xFF).truncate 8 }

/-- The loop of `gdt_init` over the first `k` entries. -/
def gdtClear (table : GdtTable) (k : Nat) : GdtTable :=
  (List.range k).foldl
    (fun table i => gdtSegmentSet table (BitVec.ofNat 16 (i <<< 3)) 0 0 0) table

/-- `gdt_init`: an empty table and the four segments. -/
def gdtInit (table : GdtTable) : GdtTable :=
  let table := gdtClear table gdtSize
  let table := gdtSegmentSet table kernelSelectorCs 0xFFFFFFFF 0
    (segPPresent ||| segDpl0 ||| segSNormal ||| segTypeCode ||| segTypeRw ||| segD)
  let table := gdtSegmentSet table kernelSelectorDs 0xFFFFFFFF 0
    (segPPresent ||| segDpl0 ||| segSNormal ||| segTypeData ||| segTypeRw ||| segD)
  let table := gdtSegmentSet table userSelectorCs 0xFFFFFFFF 0
    (segPPresent ||| segDpl3 ||| segSNormal ||| segTypeCode ||| segTypeRw ||| segD)
  gdtSegmentSet table userSelectorDs 0xFFFFFFFF 0
    (segPPresent ||| segDpl3 ||| segSNormal ||| segTypeData ||| segTypeRw ||| segD)

/-! ## Allocation -/

/-- **FIRST FIT**: the first index from 1 on whose attributes are 0. -/
theorem gdtAllocSeg_first {table : GdtTable} {i : Nat} (h1 : 1 ≤ i) (hi : i < gdtSize)
    (hfree : (table i).attributes = 0)
    (hused : ∀ j, 1 ≤ j → j < i → (table j).attributes ≠ 0) :
    gdtAllocSeg table = i * 8 := by
  have hfind : (List.range' 1 (gdtSize - 1)).find? (fun j => (table j).attributes = 0)
      = some i := by
    rw [List.find?_range'_eq_some]
    refine ⟨by simpa using hfree, ?_, ?_⟩
    · rw [List.mem_range'_1]
      omega
    · intro j hj hji
      simpa using hused j hj hji
  unfold gdtAllocSeg
  rw [hfind]

/-- With no entry free the answer is -1. -/
theorem gdtAllocSeg_none {table : GdtTable}
    (hused : ∀ j, 1 ≤ j → j < gdtSize → (table j).attributes ≠ 0) :
    gdtAllocSeg table = -1 := by
  have hfind : (List.range' 1 (gdtSize - 1)).find? (fun j => (table j).attributes = 0)
      = none := by
    rw [List.find?_eq_none]
    intro j hj
    rw [List.mem_range'_1] at hj
    simpa using hused j hj.1 (by omega)
  unfold gdtAllocSeg
  rw [hfind]

/-! ## Descriptors -/

/-- The base of an entry. -/
def baseOf (e : GdtEntry) : BitVec 32 :=
  e.baseLow.zeroExtend 32 ||| (e.baseMiddle.zeroExtend 32 <<< 16)
    ||| (e.baseHigh.zeroExtend 32 <<< 24)

/-- Describing a segment leaves the other entries. -/
theorem gdtSegmentSet_other {table : GdtTable} {selector attr : BitVec 16}
    {limit base : BitVec 32} {i : Nat} (h : i ≠ indexOf selector) :
    gdtSegmentSet table selector limit base attr i = table i :=
  Function.update_of_ne h ..

/-- The entry holds the base it was set to. -/
theorem baseOf_gdtSegmentSet (table : GdtTable) (selector attr : BitVec 16)
    (limit base : BitVec 32) :
    baseOf (gdtSegmentSet table selector limit base attr (indexOf selector)) = base := by
  unfold gdtSegmentSet baseOf
  rw [Function.update_self]
  ext i hi
  interval_cases i <;> simp

/-- A selector made of an index has that index. -/
theorem indexOf_ofNat {i : Nat} (h : i < 2 ^ 13) :
    indexOf (BitVec.ofNat 16 (i * 8)) = i := by
  unfold indexOf
  rw [BitVec.toNat_ushiftRight, BitVec.toNat_ofNat, Nat.shiftRight_eq_div_pow]
  omega

/-- The answer of `gdt_alloc_seg` as a selector. -/
theorem ofInt_selector (i : Nat) :
    BitVec.ofInt 16 ((i : Int) * 8) = BitVec.ofNat 16 (i * 8) := by
  rw [← BitVec.ofInt_natCast]
  push_cast
  rfl

/-- The loop leaves entries of zeros. -/
theorem gdtClear_attributes (table : GdtTable) :
    ∀ k ≤ gdtSize, ∀ i < k, (gdtClear table k i).attributes = 0 := by
  intro k
  induction k with
  | zero => intro _ i hi; exact absurd hi (Nat.not_lt_zero i)
  | succ k ih =>
      intro hk i hi
      have hk' : k < 256 := hk
      have hindex : indexOf (BitVec.ofNat 16 (k <<< 3)) = k := by
        rw [Nat.shiftLeft_eq]
        exact indexOf_ofNat (by omega)
      unfold gdtClear
      rw [List.range_succ, List.foldl_append, List.foldl_cons, List.foldl_nil]
      by_cases hik : i = k
      · subst hik
        unfold gdtSegmentSet
        rw [hindex, Function.update_self]
        decide
      · rw [gdtSegmentSet_other (by rw [hindex]; exact hik)]
        exact ih (by omega) i (by omega)

/-- The entries of the kernel's and the user's segments. -/
def segments : List Nat :=
  [indexOf kernelSelectorCs, indexOf kernelSelectorDs, indexOf userSelectorCs,
    indexOf userSelectorDs]

/-- The four entries that `gdt_init` describes. -/
theorem mem_segments {i : Nat} : i ∈ segments ↔ i = 1 ∨ i = 2 ∨ i = 4 ∨ i = 5 := by
  have h : segments = [1, 2, 4, 5] := by decide
  simp [h]

/-- `gdt_init` leaves every entry free but those of the segments. -/
theorem gdtInit_free (table : GdtTable) {i : Nat} (hi : i < gdtSize) :
    (gdtInit table i).attributes = 0 ↔ i ∉ segments := by
  have h1 : indexOf kernelSelectorCs = 1 := by decide
  have h2 : indexOf kernelSelectorDs = 2 := by decide
  have h3 : indexOf userSelectorCs = 4 := by decide
  have h4 : indexOf userSelectorDs = 5 := by decide
  have hclear := gdtClear_attributes table gdtSize (Nat.le_refl _) i hi
  unfold gdtInit gdtSegmentSet
  rw [h1, h2, h3, h4]
  simp only [Function.update_apply]
  rw [mem_segments]
  by_cases h5 : i = 5
  · simp [h5]
  by_cases h4 : i = 4
  · simp [h4]
  by_cases h2 : i = 2
  · simp [h2]
  by_cases h1 : i = 1
  · simp [h1]
  simp [h1, h2, h4, h5, hclear]

end LittleOS.Gdt
