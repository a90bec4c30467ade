import Mathlib.Tactic.IntervalCases
import LittleOS.Gdt
import LittleOS.Lib.Descriptors

/-! # What a descriptor decodes to

    `gdt_segment_set` of `gdt.c` and its copy `gdt16_segment_set` in the loader,
    against what the processor reads from the eight bytes of `gdt_entry_t`.

    * `segmentOf_gdtSegmentSet` — base, attributes and limit of one entry;
    * `segment_encoding` — and the table around it. -/

namespace LittleOS.SegmentEncoding

open Descriptors Gdt

/-- The packed `gdt_entry_t` in memory. -/
def bytesOf (e : GdtEntry) : Bytes :=
  #v[low e.limitLow, high e.limitLow, low e.baseLow, high e.baseLow, e.baseMiddle,
    low e.attributes, high e.attributes, e.baseHigh]

/-- The twenty bits of the limit, from their two places. -/
theorem rawLimit_bytesOf (e : GdtEntry) :
    rawLimit (bytesOf e) = (high e.attributes).setWidth 4 ++ e.limitLow := by
  show (high e.attributes).setWidth 4 ++ (high e.limitLow ++ low e.limitLow) = _
  rw [high_append_low]

/-- The granularity bit is that of the attributes. -/
theorem granular_bytesOf (e : GdtEntry) :
    granular (bytesOf e) = (high e.attributes).getLsbD 7 := rfl

/-- `gdt16_segment_set`. -/
def gdt16SegmentSet (table : GdtTable) (selector : BitVec 16) (limit base : BitVec 32)
    (attr : BitVec 16) : GdtTable :=
  let large := limit > 0xFFFFF
  let attr := if large then attr ||| 0x8000 else attr
  let limit := if large then limit / 0x1000 else limit
  Function.update table (indexOf selector)
    { limitLow := (limit &&& 0xFFFF).truncate 16
      baseLow := (base &&& 0xFFFF).truncate 16
      baseMiddle := ((base >>> 16) &&& 0xFF).truncate 8
      attributes := attr ||| (((limit >>> 16) &&& 0xF) <<< 8).truncate 16
      baseHigh := ((base >>> 24) &&& 0xFF).truncate 8 }

/-- Bits 8 to 11 and 15, where the limit and its unit go. -/
def limitBits : BitVec 16 := 0x8F00

section Entry

variable {attr : BitVec 16} {limit base : BitVec 32}

/-- The limit as it is stored. -/
def storedLimit (limit : BitVec 32) : BitVec 32 :=
  if limit > 0xFFFFF then limit / 0x1000 else limit

/-- The attributes as they are stored, with the unit of the limit. -/
def storedAttr (limit : BitVec 32) (attr : BitVec 16) : BitVec 16 :=
  if limit > 0xFFFFF then attr ||| 0x8000 else attr

/-- The limit that is stored fits. -/
theorem storedLimit_lt (limit : BitVec 32) : (storedLimit limit).toNat < 2 ^ 20 := by
  have hlt := limit.isLt
  unfold storedLimit
  split
  · rw [BitVec.toNat_udiv]
    show limit.toNat / 4096 < _
    omega
  · next h =>
      have hle : limit.toNat ≤ 0xFFFFF := BitVec.not_lt.mp h
      omega

/-- The top nibble of the limit between the attributes. -/
theorem truncate_nibble (x : BitVec 32) :
    (((x >>> 16) &&& 0xF) <<< 8).truncate 16 = (x.extractLsb' 16 4).setWidth 16 <<< 8 := by
  have hnibble : (x.extractLsb' 16 4).setWidth 32 = (x >>> 16) &&& 0xF := by
    rw [← truncate_shift_mask x 16 (n := 4) (by decide)]
    ext i hi
    interval_cases i <;> simp
  rw [← hnibble]
  ext i hi
  interval_cases i <;> simp

/-- The five fields as slices of base, limit and attributes. -/
theorem gdtSegmentSet_self (table : GdtTable) (selector attr : BitVec 16)
    (limit base : BitVec 32) :
    gdtSegmentSet table selector limit base attr (indexOf selector)
      = { limitLow := (storedLimit limit).extractLsb' 0 16
          baseLow := base.extractLsb' 0 16
          baseMiddle := base.extractLsb' 16 8
          attributes := storedAttr limit attr |||
            ((storedLimit limit).extractLsb' 16 4).setWidth 16 <<< 8
          baseHigh := base.extractLsb' 24 8 } := by
  have hlimit : (storedLimit limit &&& 0xFFFF).truncate 16
      = (storedLimit limit).extractLsb' 0 16 :=
    truncate_shift_mask (storedLimit limit) 0 (by decide)
  have hlow : (base &&& 0xFFFF).truncate 16 = base.extractLsb' 0 16 :=
    truncate_shift_mask base 0 (by decide)
  have hmiddle : ((base >>> 16) &&& 0xFF).truncate 8 = base.extractLsb' 16 8 :=
    truncate_shift_mask base 16 (by decide)
  have hhigh : ((base >>> 24) &&& 0xFF).truncate 8 = base.extractLsb' 24 8 :=
    truncate_shift_mask base 24 (by decide)
  rw [← truncate_nibble, ← hlimit, ← hlow, ← hmiddle, ← hhigh]
  exact Function.update_self ..

/-- A base is made of its four bytes. -/
theorem base_slices (base : BitVec 32) :
    (base.extractLsb' 24 8 ++ base.extractLsb' 16 8) ++
      (high (base.extractLsb' 0 16) ++ low (base.extractLsb' 0 16)) = base := by
  have hupper : base.extractLsb' 24 8 ++ base.extractLsb' 16 8 = base.extractLsb' 16 (8 + 8) :=
    BitVec.extractLsb'_append_extractLsb'_eq_extractLsb' rfl
  have hwhole : base.extractLsb' 16 16 ++ base.extractLsb' 0 16
      = base.extractLsb' 0 (16 + 16) :=
    BitVec.extractLsb'_append_extractLsb'_eq_extractLsb' rfl
  rw [high_append_low, hupper]
  exact hwhole.trans BitVec.extractLsb'_eq_self

/-- The attributes have nothing where the limit goes. -/
theorem attr_bit {attr : BitVec 16} (hattr : attr &&& limitBits = 0) {i : Nat}
    (hi : i < 16) (hbits : limitBits[i] = true) : attr[i] = false := by
  have hbit := congrArg (fun v => v[i]) hattr
  simpa [hbits] using hbit

/-- Neither the unit nor the limit reaches the other attributes. -/
theorem attributes_kept {attr : BitVec 16} (hattr : attr &&& limitBits = 0)
    (limit : BitVec 32) (nibble : BitVec 4) :
    (high (storedAttr limit attr ||| nibble.setWidth 16 <<< 8) &&& (0x70 : Byte)) ++
      low (storedAttr limit attr ||| nibble.setWidth 16 <<< 8) = attr := by
  have h8 := attr_bit hattr (i := 8) (by decide) (by decide)
  have h9 := attr_bit hattr (i := 9) (by decide) (by decide)
  have h10 := attr_bit hattr (i := 10) (by decide) (by decide)
  have h11 := attr_bit hattr (i := 11) (by decide) (by decide)
  have h15 := attr_bit hattr (i := 15) (by decide) (by decide)
  apply BitVec.eq_of_getLsbD_eq
  intro i hi
  unfold high low storedAttr
  split
  all_goals
    rw [BitVec.getLsbD_append]
    interval_cases i <;> simp [h8, h9, h10, h11, h15]

/-- The nibble is back in its place. -/
theorem nibble_kept {attr : BitVec 16} (hattr : attr &&& limitBits = 0) (limit : BitVec 32)
    (nibble : BitVec 4) :
    (high (storedAttr limit attr ||| nibble.setWidth 16 <<< 8)).setWidth 4 = nibble := by
  have h8 := attr_bit hattr (i := 8) (by decide) (by decide)
  have h9 := attr_bit hattr (i := 9) (by decide) (by decide)
  have h10 := attr_bit hattr (i := 10) (by decide) (by decide)
  have h11 := attr_bit hattr (i := 11) (by decide) (by decide)
  ext i hi
  unfold high storedAttr
  split <;> interval_cases i <;> simp [h8, h9, h10, h11]

/-- The unit is that of a large limit. -/
theorem unit_kept {attr : BitVec 16} (hattr : attr &&& limitBits = 0) (limit : BitVec 32)
    (nibble : BitVec 4) :
    (high (storedAttr limit attr ||| nibble.setWidth 16 <<< 8)).getLsbD 7
      = decide (limit > 0xFFFFF) := by
  have h15 := attr_bit hattr (i := 15) (by decide) (by decide)
  unfold high storedAttr
  split
  · next h =>
      rw [decide_eq_true h]
      simp
  · next h =>
      rw [decide_eq_false h]
      simp [h15]

/-- **THE LIMIT** comes back in bytes or in pages. -/
theorem limit_slices (limit : BitVec 32) :
    (if limit > 0xFFFFF then
      ((storedLimit limit).extractLsb' 16 4 ++ (storedLimit limit).extractLsb' 0 16) ++
        (0xFFF : BitVec 12)
    else ((storedLimit limit).extractLsb' 16 4 ++
      (storedLimit limit).extractLsb' 0 16).setWidth 32)
      = if limit ≤ 0xFFFFF then limit else limit ||| 0xFFF := by
  have hslices : (storedLimit limit).extractLsb' 16 4 ++ (storedLimit limit).extractLsb' 0 16
      = (storedLimit limit).extractLsb' 0 (16 + 4) :=
    BitVec.extractLsb'_append_extractLsb'_eq_extractLsb' rfl
  rw [hslices]
  by_cases h : limit > 0xFFFFF
  · -- the low twelve bits of a limit in pages are ones
    have hpages : storedLimit limit = limit >>> 12 := by
      unfold storedLimit
      rw [if_pos h]
      apply BitVec.eq_of_toNat_eq
      rw [BitVec.toNat_udiv, BitVec.toNat_ushiftRight, Nat.shiftRight_eq_div_pow]
      rfl
    rw [if_pos h, if_neg (BitVec.not_le.mpr h), hpages]
    apply BitVec.eq_of_getLsbD_eq
    intro i hi
    rw [BitVec.getLsbD_append]
    interval_cases i <;> simp
  · have hstored : storedLimit limit = limit := if_neg h
    have hlt := storedLimit_lt limit
    rw [if_neg h, if_pos (BitVec.not_lt.mp h), hstored]
    rw [hstored] at hlt
    apply BitVec.eq_of_toNat_eq
    rw [BitVec.toNat_setWidth, BitVec.extractLsb'_toNat, Nat.shiftRight_zero]
    omega

end Entry

/-! ## The entry and the table -/

section Table

variable (table : GdtTable) (selector : BitVec 16) (limit base : BitVec 32)
  {attr : BitVec 16}

/-- **ONE ENTRY** decodes to what it was set to. -/
theorem segmentOf_gdtSegmentSet (hattr : attr &&& limitBits = 0) :
    segmentOf (bytesOf (gdtSegmentSet table selector limit base attr (indexOf selector)))
      = { base := base
          attributes := attr
          limit := if limit ≤ 0xFFFFF then limit else limit ||| 0xFFF } := by
  have hlimit : effectiveLimit (bytesOf (gdtSegmentSet table selector limit base attr
      (indexOf selector))) = if limit ≤ 0xFFFFF then limit else limit ||| 0xFFF := by
    unfold effectiveLimit
    rw [granular_bytesOf, rawLimit_bytesOf, gdtSegmentSet_self, unit_kept hattr,
      nibble_kept hattr, ← limit_slices limit]
    simp only [decide_eq_true_eq]
  unfold segmentOf
  rw [Segment.mk.injEq]
  refine ⟨?_, ?_, hlimit⟩
  · rw [gdtSegmentSet_self]
    exact base_slices base
  · rw [gdtSegmentSet_self]
    exact attributes_kept hattr limit _

/-- **THE ENCODING** of both copies of the function, and no other entry is written. -/
theorem segment_encoding (hsel : selector.toNat < 8 * gdtSize)
    (hattr : attr &&& limitBits = 0) :
    indexOf selector < gdtSize ∧
    segmentOf (bytesOf (gdtSegmentSet table selector limit base attr (indexOf selector)))
      = { base := base
          attributes := attr
          limit := if limit ≤ 0xFFFFF then limit else limit ||| 0xFFF } ∧
    (∀ i, i ≠ indexOf selector →
      gdtSegmentSet table selector limit base attr i = table i) ∧
    ∀ i, bytesOf (gdt16SegmentSet table selector limit base attr i)
      = bytesOf (gdtSegmentSet table selector limit base attr i) := by
  refine ⟨?_, segmentOf_gdtSegmentSet table selector limit base hattr, ?_, fun i => rfl⟩
  · unfold indexOf
    rw [BitVec.toNat_ushiftRight, Nat.shiftRight_eq_div_pow]
    omega
  · intro i hi
    exact gdtSegmentSet_other hi

/-- The descriptor of the kernel's code with a base. -/
theorem segment_encoding_code :
    ((0x9A ||| segD) &&& limitBits = 0 ∧ kernelSelectorCs.toNat < 8 * gdtSize) ∧
    segmentOf (bytesOf (gdtSegmentSet (fun _ => ⟨0, 0, 0, 0, 0⟩) kernelSelectorCs 0xFFFFFFFF
      0x12345678 (0x9A ||| segD) (indexOf kernelSelectorCs)))
      = { base := 0x12345678, attributes := 0x9A ||| segD, limit := 0xFFFFFFFF } :=
  ⟨by decide, (segment_encoding (fun _ => ⟨0, 0, 0, 0, 0⟩) kernelSelectorCs 0xFFFFFFFF
    0x12345678 (by decide) (by decide)).2.1⟩

end Table

end LittleOS.SegmentEncoding
