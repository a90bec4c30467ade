import Mathlib.Data.Nat.Digits.Lemmas

/-! # Numerals

    The numeral of a number in a base up to 16, as ASCII bytes without a leading
    zero, and the number that a numeral is read as.  A negative number has a
    minus sign in front.

    * `valueOf_numeral`, `intValueOf_intNumeral` — a numeral is read as its
      number;
    * `numeral_inj` — so two numbers have two numerals. -/

namespace Numerals

/-- A character. -/
abbrev Byte := BitVec 8

/-- `0` to `9`, then `A` to `F`. -/
def digit (d : Nat) : Byte :=
  if d < 10 then BitVec.ofNat 8 (48 + d) else BitVec.ofNat 8 (55 + d)

/-- What a digit counts, `A` to `F` after the ten others. -/
def digitValue (c : Byte) : Nat :=
  if c.toNat < 58 then c.toNat - 48 else c.toNat - 55

/-- The numeral of a number: its digits with the highest first, and `0` for nothing. -/
def numeral (b n : Nat) : List Byte :=
  if n = 0 then [digit 0] else ((Nat.digits b n).map digit).reverse

/-- The digits are read from the right. -/
def valueOf (b : Nat) (t : List Byte) : Nat :=
  Nat.ofDigits b (t.reverse.map digitValue)

/-- The character `-`. -/
def minus : Byte := 45

/-- The numeral of a signed number. -/
def intNumeral (b : Nat) (n : Int) : List Byte :=
  if n < 0 then minus :: numeral b n.natAbs else numeral b n.natAbs

/-- What a text with an optional sign counts. -/
def intValueOf (b : Nat) (t : List Byte) : Int :=
  if t.head? = some minus then -valueOf b t.tail else valueOf b t

/-- Where the digits stand among the characters. -/
theorem digit_toNat {d : Nat} (hd : d < 16) :
    (digit d).toNat = if d < 10 then 48 + d else 55 + d := by
  unfold digit
  split
  · exact Nat.mod_eq_of_lt (by omega)
  · exact Nat.mod_eq_of_lt (by omega)

/-- A digit counts what it was made of. -/
theorem digitValue_digit {d : Nat} (hd : d < 16) : digitValue (digit d) = d := by
  unfold digitValue
  rw [digit_toNat hd]
  by_cases h10 : d < 10
  · rw [if_pos h10, if_pos (by omega), Nat.add_sub_cancel_left]
  · rw [if_neg h10, if_neg (by omega), Nat.add_sub_cancel_left]

/-- A digit is above every other character of a number. -/
theorem digit_ne {d : Nat} (hd : d < 16) {c : Byte} (hc : c.toNat < 48) : digit d ≠ c := by
  rintro rfl
  rw [digit_toNat hd] at hc
  split at hc
  · omega
  · omega

section Base

variable {b : Nat} (hb : 1 < b) (hb' : b ≤ 16)
include hb hb'

/-- No digit of a base up to sixteen is out of range. -/
theorem digits_lt (n : Nat) : ∀ d ∈ Nat.digits b n, d < 16 :=
  fun _ hd => Nat.lt_of_lt_of_le (Nat.digits_lt_base hb hd) hb'

/-- The characters of the digits count the digits. -/
theorem map_digitValue (n : Nat) :
    ((Nat.digits b n).map digit).map digitValue = Nat.digits b n := by
  rw [List.map_map]
  refine (List.map_congr_left fun d hd => ?_).trans (List.map_id _)
  exact digitValue_digit (digits_lt hb hb' n d hd)

/-- **READING BACK** gives the number. -/
theorem valueOf_numeral (n : Nat) : valueOf b (numeral b n) = n := by
  unfold valueOf numeral
  by_cases hn : n = 0
  · rw [if_pos hn, hn]
    rfl
  · rw [if_neg hn, List.reverse_reverse, map_digitValue hb hb', Nat.ofDigits_digits]

/-- Different numbers have different numerals. -/
theorem numeral_inj {n m : Nat} (h : numeral b n = numeral b m) : n = m := by
  rw [← valueOf_numeral hb hb' n, h, valueOf_numeral hb hb' m]

omit hb hb' in
/-- A numeral is as long as its number has digits. -/
theorem numeral_length {n : Nat} (hn : n ≠ 0) :
    (numeral b n).length = (Nat.digits b n).length := by
  unfold numeral
  rw [if_neg hn, List.length_reverse, List.length_map]

omit hb hb' in
/-- No numeral is empty. -/
theorem numeral_ne_nil (n : Nat) : numeral b n ≠ [] := by
  by_cases hn : n = 0
  · unfold numeral
    rw [if_pos hn]
    exact List.cons_ne_nil _ _
  · intro hnil
    have hlen := numeral_length (b := b) hn
    rw [hnil] at hlen
    exact Nat.digits_ne_nil_iff_ne_zero.mpr hn (List.length_eq_zero_iff.mp hlen.symm)

/-- No numeral holds a sign. -/
theorem minus_notMem_numeral (n : Nat) : minus ∉ numeral b n := by
  unfold numeral
  by_cases hn : n = 0
  · rw [if_pos hn]
    decide
  · rw [if_neg hn, List.mem_reverse, List.mem_map]
    rintro ⟨d, hd, he⟩
    exact digit_ne (digits_lt hb hb' n d hd) (by decide) he

/-- The numeral of a signed number counts that number. -/
theorem intValueOf_intNumeral (n : Int) : intValueOf b (intNumeral b n) = n := by
  unfold intValueOf intNumeral
  by_cases hn : n < 0
  · rw [if_pos hn, List.head?_cons, if_pos rfl, List.tail_cons, valueOf_numeral hb hb']
    omega
  · have hhead : (numeral b n.natAbs).head? ≠ some minus := fun he =>
      minus_notMem_numeral hb hb' n.natAbs (List.mem_of_mem_head? he)
    rw [if_neg hn, if_neg hhead, valueOf_numeral hb hb']
    omega

end Base

end Numerals
