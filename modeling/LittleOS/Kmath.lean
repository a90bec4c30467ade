import LittleOS.Lib.Numerals
import LittleOS.Klib

/-! # Hexadecimal digits

    `kdecimalToHexadecimal` of `kmath.c`.  Its loop is for positive numbers, so
    of a word from `2 ^ 31` on it makes no digit. -/

namespace LittleOS.Kmath

open ByteStore CStrings Klib
open Numerals (digit numeral)

section Source

variable {found : Mem} (hexadecimalNum : Addr)

/-- The loop of `kdecimalToHexadecimal`. -/
def hexLoop (decimalNum : Int) (i : Nat) (s : Store found) : Nat × Store found :=
  if 0 < decimalNum then
    let remainder := decimalNum.tmod 16
    let c := if remainder < 10 then BitVec.ofInt 8 (remainder + 48)
      else BitVec.ofInt 8 (remainder + 55)
    hexLoop (decimalNum.tdiv 16) (i + 1) (s.write (hexadecimalNum + BitVec.ofNat 32 i) c)
  else (i, s)
termination_by decimalNum.toNat
decreasing_by
  have hpos : 0 < decimalNum := ‹_›
  rw [Int.tdiv_eq_ediv_of_nonneg (Int.le_of_lt hpos)]
  omega

/-- `kdecimal_to_hexadecimal` -/
def kdecimalToHexadecimal (decimalNum : Word) (s : Store found) : Option (Store found) :=
  if decimalNum = 0 then
    some ((s.write hexadecimalNum 0x30).write (hexadecimalNum + 1) 0)
  else
    let r := hexLoop hexadecimalNum decimalNum.toInt 0 s
    kreverseCharstr hexadecimalNum
      (r.2.write (hexadecimalNum + BitVec.ofNat 32 r.1) 0)

end Source

section Spec

variable {found : Mem}

/-- The character of a remainder. -/
theorem remainder_digit (r : Nat) :
    (if (r : Int) < 10 then BitVec.ofInt 8 ((r : Int) + 48)
      else BitVec.ofInt 8 ((r : Int) + 55)) = digit r := by
  have hcast : ∀ c : Nat, BitVec.ofInt 8 ((r : Int) + (c : Int)) = BitVec.ofNat 8 (c + r) := by
    intro c
    rw [← Int.natCast_add, BitVec.ofInt_natCast, Nat.add_comm]
  unfold digit
  exact if_congr (Int.ofNat_lt (m := 10)) (hcast 48) (hcast 55)

/-- The loop writes the hexadecimal digits, the last one first, and counts them; nothing
    for a number that is not positive. -/
theorem hexLoop_eq (hexadecimalNum : Addr) (decimalNum : Int) (i : Nat) (s : Store found) :
    hexLoop hexadecimalNum decimalNum i s
      = (i + ((Nat.digits 16 decimalNum.toNat).map digit).length,
          writeList s (hexadecimalNum + BitVec.ofNat 32 i)
            ((Nat.digits 16 decimalNum.toNat).map digit)) := by
  induction decimalNum, i, s using hexLoop.induct hexadecimalNum with
  | case1 num i s hpos r c ih =>
      obtain ⟨m, rfl⟩ := Int.eq_ofNat_of_zero_le (Int.le_of_lt hpos)
      have hm : 0 < m := Int.ofNat_lt.mp hpos
      have hr : ((m : Int).tmod 16) = ((m % 16 : Nat) : Int) := rfl
      have hdiv : ((m : Int).tdiv 16).toNat = m / 16 := rfl
      have hc : c = digit (m % 16) := remainder_digit (m % 16)
      have hplace : hexadecimalNum + BitVec.ofNat 32 (i + 1)
          = hexadecimalNum + BitVec.ofNat 32 i + 1 := by bv_omega
      rw [hexLoop, if_pos hpos]
      refine ih.trans ?_
      rw [hdiv, hc, hplace, Int.toNat_natCast, Nat.digits_def' (by decide) hm, List.map_cons,
        List.length_cons, Nat.add_assoc, Nat.add_comm 1]
      rfl
  | case2 num i s hpos =>
      have hzero : num.toNat = 0 := Int.toNat_eq_zero.mpr (Int.not_lt.mp hpos)
      rw [hexLoop, if_neg hpos, hzero]
      rfl

/-- The text that `kdecimalToHexadecimal` leaves. -/
def hexText (n : Word) : List Byte := if n.toInt < 0 then [] else numeral 16 n.toNat

/-- From `2 ^ 31` on a word is negative. -/
theorem toInt_neg_iff {n : Word} : n.toInt < 0 ↔ 2 ^ 31 ≤ n.toNat := by
  have hlt := n.isLt
  rw [BitVec.toInt_eq_toNat_cond]
  split
  · omega
  · omega

/-- No digit ends a string. -/
theorem digits_nonzero (n : Nat) : 0 ∉ (Nat.digits 16 n).map digit := by
  rw [List.mem_map]
  rintro ⟨d, hd, he⟩
  exact Numerals.digit_ne (Nat.digits_lt_base (by decide) hd) (by decide) he

/-- Nor does any of the text. -/
theorem hexText_nonzero (n : Word) : 0 ∉ hexText n := by
  unfold hexText numeral
  by_cases hneg : n.toInt < 0
  · rw [if_pos hneg]
    exact List.not_mem_nil
  · rw [if_neg hneg]
    by_cases h0 : n.toNat = 0
    · rw [if_pos h0]
      decide
    · rw [if_neg h0, List.mem_reverse]
      exact digits_nonzero n.toNat

/-- What `kdecimalToHexadecimal` leaves, and what it writes. -/
theorem kdecimalToHexadecimal_written (hexadecimalNum : Addr) (n : Word) (s : Store found) :
    ∃ s', kdecimalToHexadecimal hexadecimalNum n s = some s' ∧
      StringAt s'.mem hexadecimalNum (hexText n) ∧
      ∀ D : Addr → Prop, s'.Within D ↔
        s.Within D ∧ ∀ k < (hexText n).length + 1, D (hexadecimalNum + BitVec.ofNat 32 k) := by
  by_cases hn : n = 0
  · -- the 0 has a branch of its own
    subst hn
    exact ⟨_, rfl, stringAt_writeList (t := [0x30]) (by decide) (by decide) s hexadecimalNum,
      fun D => writeList_within s hexadecimalNum [0x30, 0]⟩
  · obtain ⟨t, ht⟩ : ∃ t, (Nat.digits 16 n.toInt.toNat).map digit = t := ⟨_, rfl⟩
    have hlen : t.length ≤ 8 := by
      have hhigh := BitVec.toInt_lt (x := n)
      rw [← ht, List.length_map, Nat.digits_length_le_iff (by decide)]
      omega
    have hrun : kdecimalToHexadecimal hexadecimalNum n s
        = kreverseCharstr hexadecimalNum (writeList s hexadecimalNum (t ++ [0])) := by
      unfold kdecimalToHexadecimal
      rw [if_neg hn]
      dsimp only
      rw [hexLoop_eq, ht, Nat.zero_add, BitVec.add_zero, writeList_append]
      rfl
    obtain ⟨s', hs', hstring, hwithin⟩ := kreverseCharstr_written (ht ▸ digits_nonzero _)
      (by omega) s hexadecimalNum
    have htext : hexText n = t.reverse := by
      rw [← ht]
      unfold hexText
      by_cases hneg : n.toInt < 0
      · rw [if_pos hneg, Int.toNat_of_nonpos (Int.le_of_lt hneg)]
        rfl
      · have hnat : n.toInt.toNat = n.toNat := by
          rw [toInt_neg_iff, Nat.not_le] at hneg
          rw [toInt_of_lt hneg, Int.toNat_natCast]
        have hne : n.toNat ≠ 0 := fun h0 => hn (BitVec.eq_of_toNat_eq h0)
        rw [if_neg hneg, hnat, numeral, if_neg hne]
    rw [htext, List.length_reverse]
    exact ⟨s', hrun.trans hs', hstring, hwithin⟩

/-- **`kdecimalToHexadecimal`** leaves the numeral of a number that is not
    negative, and no character otherwise. -/
theorem kdecimalToHexadecimal_spec (hexadecimalNum : Addr) (n : Word) (s : Store found) :
    ∃ s', kdecimalToHexadecimal hexadecimalNum n s = some s' ∧
      StringAt s'.mem hexadecimalNum (hexText n) := by
  obtain ⟨s', hs', hstring, -⟩ := kdecimalToHexadecimal_written hexadecimalNum n s
  exact ⟨s', hs', hstring⟩

end Spec

end LittleOS.Kmath
