import LittleOS.Vsprintf

/-! # Numbers in formats

    What `%d` and `%x` write, against the numeral of the number.

    * `decimalText_eq` — the digits of `kitoa_s`, without a sign and nothing
      for 0; and `kmemset` clears as many bytes as a pointer has, not as many as
      are reserved;
    * `decimalRight_iff` — so `%d` is right from 100 on;
    * `hexRight_iff` — and `%x` below `2 ^ 31`. -/

namespace LittleOS.NumberOutput

open ByteStore CStrings Klib Kmath Vsprintf
open Numerals (digit numeral intNumeral valueOf intValueOf)

section Texts

variable (env : Env)

def percentD : CString := ⟨[ascii '%', ascii 'd'], by decide⟩
def percentX : CString := ⟨[ascii '%', ascii 'x'], by decide⟩

/-- The text of a decimal. -/
theorem decimalText_eq (n : Word) : decimalText env n = some (chars n.toInt).reverse := by
  obtain ⟨s', hs', hstring, -⟩ := kitoaS_spec env.p n (kintlen n) (Store.start env.stack)
  unfold decimalText
  dsimp only
  rw [hs', Option.bind_some]
  exact readString_of_stringAt hstring

/-- The digits of a hexadecimal. -/
theorem hexDigits_eq (w : Word) : hexDigits env w = some (hexText w) := by
  obtain ⟨s', hs', hstring⟩ := kdecimalToHexadecimal_spec env.cbuf w
    (kmemset env.cbuf 0 50 (Store.start env.stack))
  unfold hexDigits
  dsimp only
  rw [hs', Option.bind_some]
  exact readString_of_stringAt hstring

/-- What `%d` prints. -/
theorem klogVsprintf_percentD (n : Word) (args : List Word) :
    klogVsprintf env percentD (n :: args) = some ((chars n.toInt).reverse, args) := by
  refine (klogVsprintf_conversion env _ _).trans ?_
  unfold conversion
  rw [if_neg (by decide), if_pos rfl, vaArg, Option.bind_some, decimalText_eq]
  rfl

/-- What `%x` prints. -/
theorem klogVsprintf_percentX (w : Word) (args : List Word) :
    klogVsprintf env percentX (w :: args)
      = some ([ascii '0', ascii 'x'] ++ hexText w, args) := by
  refine (klogVsprintf_conversion env _ _).trans ?_
  unfold conversion
  rw [if_neg (by decide), if_neg (by decide), if_neg (by decide), if_neg (by decide),
    if_pos rfl, vaArg, Option.bind_some, hexDigits_eq]
  rfl

end Texts

/-! ## Decimal -/

/-- The digits of a positive number are those of its numeral. -/
theorem chars_reverse {n : Int} (h : 0 < n) : (chars n).reverse = numeral 10 n.natAbs := by
  have hne : n.natAbs ≠ 0 := Int.natAbs_ne_zero.mpr (Int.ne_of_gt h)
  unfold chars numeral
  rw [if_neg hne, Int.sign_eq_one_of_pos h]
  refine congrArg List.reverse (List.map_congr_left fun d hd => ?_)
  have hlt : d < 10 := Nat.digits_lt_base (by decide) hd
  unfold digit
  rw [if_pos hlt, Int.one_mul, ← BitVec.ofInt_natCast]
  rfl

/-- As many characters as decimal digits. -/
theorem chars_length {n : Int} : (chars n).length = (Nat.digits 10 n.natAbs).length :=
  List.length_map _

/-- Of no other number are they. -/
theorem chars_reverse_iff (n : Int) : (chars n).reverse = intNumeral 10 n ↔ 0 < n := by
  unfold intNumeral
  rcases Int.lt_trichotomy n 0 with h | rfl | h
  · -- a sign is missing
    rw [if_pos h]
    refine iff_of_false (fun he => ?_) (by omega)
    have hne : n.natAbs ≠ 0 := Int.natAbs_ne_zero.mpr (Int.ne_of_lt h)
    have hlen := congrArg List.length he
    rw [List.length_reverse, List.length_cons, Numerals.numeral_length hne, chars_length] at hlen
    omega
  · exact iff_of_false (by decide) (by decide)
  · rw [if_neg (by omega)]
    exact iff_of_true (chars_reverse h) h

/-- `%d` writes the numeral of the number, and `kitoa_s` only the bytes reserved
    for it. -/
structure DecimalRight (env : Env) (n : Word) : Prop where
  text : ∀ args, klogVsprintf env percentD (n :: args) = some (intNumeral 10 n.toInt, args)
  value : ∀ args r, klogVsprintf env percentD (n :: args) = some r →
    intValueOf 10 r.1 = n.toInt
  writes : ∀ s', kitoaS env.p n (kintlen n) (Store.start env.stack) = some s' →
    s'.Within (InRange env.p (kintlen n + 1))

/-- The length passed on is enough for them. -/
theorem chars_length_le_kintlen (n : Word) : (chars n.toInt).length ≤ kintlen n := by
  by_cases hn : n = 0
  · subst hn
    exact Nat.zero_le _
  · exact Nat.le_of_eq (kintlen_eq hn).symm

/-- `kitoa_s` clears four bytes, and writes no others that are not reserved. -/
theorem kitoaS_within_iff (env : Env) (n : Word) :
    (∀ s', kitoaS env.p n (kintlen n) (Store.start env.stack) = some s' →
      s'.Within (InRange env.p (kintlen n + 1))) ↔ 3 ≤ kintlen n := by
  obtain ⟨s', hs', -, hwithin⟩ := kitoaS_spec env.p n (kintlen n) (Store.start env.stack)
  have hall : (∀ u, kitoaS env.p n (kintlen n) (Store.start env.stack) = some u →
      u.Within (InRange env.p (kintlen n + 1))) ↔
        s'.Within (InRange env.p (kintlen n + 1)) := by
    rw [hs']
    exact ⟨fun h => h s' rfl, fun h u hu => Option.some.inj hu ▸ h⟩
  have hchars := chars_length_le_kintlen n
  have hten := chars_length_le n
  rw [hall, hwithin]
  constructor
  · rintro ⟨-, hcleared, -⟩
    have h3 := (inRange_ofNat (by decide)).mp (hcleared 3 (by decide))
    omega
  · intro h
    refine ⟨Store.within_start _, fun k hk => (inRange_ofNat ?_).mpr ?_,
      fun k hk => (inRange_ofNat ?_).mpr ?_⟩
    · omega
    · omega
    · omega
    · omega

/-- Three digits from 100 on. -/
theorem three_le_kintlen (n : Word) : 3 ≤ kintlen n ↔ 100 ≤ n.toInt.natAbs := by
  by_cases hn : n = 0
  · subst hn
    exact iff_of_false (by decide) (by decide)
  · rw [kintlen_eq hn, chars_length]
    exact Nat.lt_digits_length_iff (k := 2) (by decide) _

/-- **`%d`** is right for the numbers from 100 on. -/
theorem decimalRight_iff (env : Env) (n : Word) : DecimalRight env n ↔ 100 ≤ n.toInt := by
  constructor
  · intro h
    have htext := (klogVsprintf_percentD env n []).symm.trans (h.text [])
    have hpos := (chars_reverse_iff n.toInt).mp (congrArg Prod.fst (Option.some.inj htext))
    have hlen := (three_le_kintlen n).mp ((kitoaS_within_iff env n).mp h.writes)
    omega
  · intro h
    have htext : ∀ args, klogVsprintf env percentD (n :: args)
        = some (intNumeral 10 n.toInt, args) := by
      intro args
      rw [klogVsprintf_percentD, (chars_reverse_iff n.toInt).mpr (by omega)]
    refine ⟨htext, fun args r hr => ?_, ?_⟩
    · obtain rfl := Option.some.inj ((htext args).symm.trans hr)
      exact Numerals.intValueOf_intNumeral (by decide) (by decide) n.toInt
    · exact (kitoaS_within_iff env n).mpr ((three_le_kintlen n).mpr (by omega))

/-- Of 0 nothing is written. -/
theorem zero_not_printed :
    klogVsprintf emptyEnv percentD [0] = some ([], []) ∧ ¬ DecimalRight emptyEnv 0 := by
  have htext := klogVsprintf_percentD emptyEnv 0 []
  refine ⟨htext, fun h => ?_⟩
  exact absurd (htext.symm.trans (h.text [])) (by decide)

/-! ## Hexadecimal -/

/-- `%x` writes `0x` and the numeral of the word, and of no other word that. -/
structure HexRight (env : Env) (w : Word) : Prop where
  text : ∀ args, klogVsprintf env percentX (w :: args)
    = some ([ascii '0', ascii 'x'] ++ numeral 16 w.toNat, args)
  value : ∀ args r, klogVsprintf env percentX (w :: args) = some r →
    valueOf 16 (r.1.drop 2) = w.toNat
  distinct : ∀ args v, klogVsprintf env percentX (v :: args)
    = klogVsprintf env percentX (w :: args) → v = w

/-- Below `2 ^ 31` the text is the numeral. -/
theorem hexText_of_lt {w : Word} (h : w.toNat < 2 ^ 31) : hexText w = numeral 16 w.toNat :=
  if_neg (fun hneg => Nat.not_le.mpr h (toInt_neg_iff.mp hneg))

/-- From `2 ^ 31` on it is empty. -/
theorem hexText_of_le {w : Word} (h : 2 ^ 31 ≤ w.toNat) : hexText w = [] :=
  if_pos (toInt_neg_iff.mpr h)

/-- **`%x`** is right for the words that are not negative as an `int`. -/
theorem hexRight_iff (env : Env) (w : Word) : HexRight env w ↔ w.toNat < 2 ^ 31 := by
  constructor
  · intro h
    by_contra hle
    have htext := (klogVsprintf_percentX env w []).symm.trans (h.text [])
    have hdigits := List.append_cancel_left (congrArg Prod.fst (Option.some.inj htext))
    rw [hexText_of_le (Nat.not_lt.mp hle)] at hdigits
    exact Numerals.numeral_ne_nil w.toNat hdigits.symm
  · intro h
    have htext : ∀ args, klogVsprintf env percentX (w :: args)
        = some ([ascii '0', ascii 'x'] ++ numeral 16 w.toNat, args) := by
      intro args
      rw [klogVsprintf_percentX, hexText_of_lt h]
    refine ⟨htext, fun args r hr => ?_, fun args v hv => ?_⟩
    · obtain rfl := Option.some.inj ((htext args).symm.trans hr)
      exact Numerals.valueOf_numeral (by decide) (by decide) w.toNat
    · rw [htext, klogVsprintf_percentX] at hv
      have hdigits := List.append_cancel_left (congrArg Prod.fst (Option.some.inj hv))
      rcases Nat.lt_or_ge v.toNat (2 ^ 31) with hlt | hge
      · rw [hexText_of_lt hlt] at hdigits
        exact BitVec.eq_of_toNat_eq (Numerals.numeral_inj (by decide) (by decide) hdigits)
      · rw [hexText_of_le hge] at hdigits
        exact absurd hdigits.symm (Numerals.numeral_ne_nil w.toNat)

/-- Of a kernel address in the upper half only `0x` is written. -/
theorem upper_half_not_printed :
    klogVsprintf emptyEnv percentX [0xC0100000] = some ([ascii '0', ascii 'x'], []) ∧
      ¬ HexRight emptyEnv 0xC0100000 := by
  have htext := klogVsprintf_percentX emptyEnv 0xC0100000 []
  rw [hexText_of_le (by decide)] at htext
  refine ⟨htext, fun h => ?_⟩
  have hnil := List.append_cancel_left
    (congrArg Prod.fst (Option.some.inj (htext.symm.trans (h.text []))))
  exact Numerals.numeral_ne_nil _ hnil.symm

end LittleOS.NumberOutput
