import Mathlib.Algebra.Order.Ring.Int
import Mathlib.Logic.Basic

/-! # Segment descriptors of the protected mode

    A descriptor is eight bytes, the lowest address first, and the processor
    puts base and limit together from where they are scattered over them.  The
    granularity bit makes the limit one of pages.

    * `segmentOf` — what the processor reads from the eight bytes;
    * `high_append_low`, `truncate_shift_mask` — fields put together and taken
      out. -/

namespace Descriptors

/-- One byte of a descriptor. -/
abbrev Byte := BitVec 8

/-- A descriptor as it stands in its table. -/
abbrev Bytes := Vector Byte 8

/-- What the processor loads from a descriptor. -/
structure Segment where
  base : BitVec 32
  /-- The access byte, and `AVL`, `L` and `D/B` where they are above it. -/
  attributes : BitVec 16
  /-- The last offset. -/
  limit : BitVec 32
deriving DecidableEq, Repr

/-- The limit before the granularity bit is looked at. -/
def rawLimit (b : Bytes) : BitVec 20 := b[6].setWidth 4 ++ (b[1] ++ b[0])

/-- The granularity bit: the limit counts pages. -/
def granular (b : Bytes) : Bool := b[6].getLsbD 7

/-- The limit in bytes: that of a granular descriptor reaches to the end of its last page. -/
def effectiveLimit (b : Bytes) : BitVec 32 :=
  if granular b then rawLimit b ++ (0xFFF : BitVec 12) else (rawLimit b).setWidth 32

/-- The processor's reading of the eight bytes. -/
def segmentOf (b : Bytes) : Segment where
  base := (b[7] ++ b[4]) ++ (b[3] ++ b[2])
  attributes := (b[6] &&& (0x70 : Byte)) ++ b[5]
  limit := effectiveLimit b

/-! ## Fields of two bytes -/

/-- The low byte of a word. -/
def low (v : BitVec 16) : Byte := v.extractLsb' 0 8

/-- The high byte of a word. -/
def high (v : BitVec 16) : Byte := v.extractLsb' 8 8

/-- A word is made of its two bytes. -/
theorem high_append_low (v : BitVec 16) : high v ++ low v = v := by
  have happend : v.extractLsb' 8 8 ++ v.extractLsb' 0 8 = v.extractLsb' 0 (8 + 8) :=
    BitVec.extractLsb'_append_extractLsb'_eq_extractLsb' rfl
  exact happend.trans BitVec.extractLsb'_eq_self

/-- A shift and a mask take out the field of `n` bits from bit `k` on. -/
theorem truncate_shift_mask (x : BitVec 32) (k : Nat) {n : Nat} (hn : n ≤ 32) :
    ((x >>> k) &&& BitVec.ofNat 32 (2 ^ n - 1)).truncate n = x.extractLsb' k n := by
  apply BitVec.eq_of_getLsbD_eq
  intro i hi
  have hi32 : i < 32 := by omega
  have hmask : (BitVec.ofNat 32 (2 ^ n - 1)).getLsbD i = true := by
    rw [BitVec.getLsbD_ofNat, Nat.testBit_two_pow_sub_one]
    simp [hi, hi32]
  rw [BitVec.truncate_eq_setWidth, BitVec.getLsbD_setWidth, BitVec.getLsbD_and, hmask]
  simp [hi]

end Descriptors
