import LittleOS.Lib.WordCells
import LittleOS.Klib

/-! # Reversing in place

    `kreverse_charstr` and `kreverse_intstr` of `klib.c`, and `kswap`, which has a
    body for every type.  All but that of `__CHAR_TYPE` store the second value
    twice and never use `temp`.

    * `kreverseIntstr_spec`, `wordsAt_halfReversed` — so of an array the second
      half is also put, reversed, in place of the first;
    * `charReversed_iff`, `intReversed_iff` — strings are reversed, and of the
      arrays those that are palindromes. -/

namespace LittleOS.Reversal

open ByteStore CStrings WordCells Klib

/-! ## The functions -/

/-- `DateType`, without the types of floating point, which nothing swaps. -/
inductive DateType where
  | int
  | uint8
  | uint16
  | uint32
  | char
deriving DecidableEq, Repr

section Source

variable {found : Mem}

/-- `temp = *p; *p = *s; *s = *p` for a type of `n` bytes. -/
def swapForgetting (n : Nat) (p q : Addr) (s : Store found) : Store found :=
  assign n q p (assign n p q s)

/-- Only the last, which is also that of `kreverse_charstr`, stores `temp`. -/
def kswap (p q : Addr) (type : DateType) (s : Store found) : Store found :=
  match type with
  | .int => swapForgetting 4 p q s
  | .uint8 => swapForgetting 1 p q s
  | .uint16 => swapForgetting 2 p q s
  | .uint32 => swapForgetting 4 p q s
  | .char => kswapChar p q s

/-- From `cnt` on; after `2 ^ 30` turns the addresses are those of the first ones
    again. -/
def karrStrlenLoop (mem : Mem) (buf : Addr) : Nat → Word → Option Word
  | 0, _ => none
  | turns + 1, cnt =>
      if read32 mem (buf + 4 * cnt) ≠ 0 then karrStrlenLoop mem buf turns (cnt + 1)
      else some cnt

/-- `karr_strlen`, with every cell of memory to find the end in. -/
def karrStrlen (mem : Mem) (buf : Addr) : Option Word := karrStrlenLoop mem buf (2 ^ 30) 0

/-- The loop of `kreverse_intstr`. -/
def intLoop (buf : Addr) (l r : Word) (s : Store found) : Store found :=
  if l.toInt < r.toInt then
    intLoop buf (l + 1) (r - 1) (kswap (buf + 4 * l) (buf + 4 * r) .int s)
  else s
termination_by (r.toInt - l.toInt).toNat
decreasing_by
  have hlt : l.toInt < r.toInt := ‹_›
  rw [add_one_toInt hlt, sub_one_toInt hlt]
  omega

/-- `kreverse_intstr` -/
def kreverseIntstr (buf : Addr) (s : Store found) : Option (Store found) :=
  (karrStrlen s.mem buf).map fun len => intLoop buf 0 (len - 1) s

end Source

/-! ## `kswap` -/

section Swap

variable {found : Mem}

/-- **THE SECOND VALUE IS STORED TWICE**: it ends up in both places. -/
theorem swapForgetting_mem {n : Nat} (hn : n ≤ 2 ^ 32) {p q : Addr}
    (hapart : ∀ a, InRange p n a → ¬ InRange q n a) (s : Store found) (a : Addr) :
    (swapForgetting n p q s).mem a = (assign n p q s).mem a := by
  unfold swapForgetting
  rw [assign_mem hn q p]
  by_cases hq : InRange q n a
  · -- what is stored there has just been read there
    have hback : q + (p + (a - q) - p) = a := by
      rw [BitVec.add_comm p, BitVec.add_sub_cancel, BitVec.add_comm, BitVec.sub_add_cancel]
    have hin : InRange p n (p + (a - q)) := inRange_add.mpr hq
    rw [if_pos hq, assign_mem hn, if_pos hin, hback, assign_mem hn,
      if_neg fun hp => hapart a hp hq]
  · rw [if_neg hq]

/-- The cells of an array of `int`. -/
theorem cell_eq {l : Word} (buf : Addr) : buf + 4 * l = cell buf l.toNat 0 := by
  unfold cell
  bv_omega

/-- The exchange of two cells: the second one's value ends up in both. -/
theorem kswap_int_cell {buf : Addr} {l r k b : Nat} (hl : l < 2 ^ 30) (hr : r < 2 ^ 30)
    (hlr : l ≠ r) (hk : k < 2 ^ 30) (hb : b < 4) (s : Store found) :
    (kswap (cell buf l 0) (cell buf r 0) .int s).mem (cell buf k b)
      = if k = l then s.mem (cell buf r b) else s.mem (cell buf k b) := by
  have hapart : ∀ a, InRange (cell buf l 0) 4 a → ¬ InRange (cell buf r 0) 4 a := by
    intro a hla hra
    obtain ⟨j, hj, i, hi, rfl⟩ := exists_cell buf a
    exact hlr (((inRange_cell hl hj hi).mp hla).symm.trans ((inRange_cell hr hj hi).mp hra))
  exact (swapForgetting_mem (by decide) hapart s _).trans (assign_cell hl hk hb s)

/-- Where it writes. -/
theorem kswap_int_within {D : Addr → Prop} {buf : Addr} {l r : Nat} (s : Store found) :
    (kswap (cell buf l 0) (cell buf r 0) .int s).Within D ↔
      (s.Within D ∧ ∀ b < 4, D (cell buf l b)) ∧ ∀ b < 4, D (cell buf r b) := by
  show (swapForgetting 4 (cell buf l 0) (cell buf r 0) s).Within D ↔ _
  unfold swapForgetting
  rw [assign_cell_within, assign_cell_within]

end Swap

/-! ## The loop over an array -/

section Loop

variable {found : Mem} (buf : Addr)

/-- **THE LOOP** copies the upper half down, one end after the other. -/
theorem intLoop_cell {l r : Word} (hl : l.toNat < 2 ^ 30) (hr : r.toNat < 2 ^ 30)
    (s : Store found) {k b : Nat} (hk : k < 2 ^ 30) (hb : b < 4) :
    (intLoop buf l r s).mem (cell buf k b)
      = if l.toNat ≤ k ∧ 2 * k < l.toNat + r.toNat
        then s.mem (cell buf (l.toNat + r.toNat - k) b) else s.mem (cell buf k b) := by
  induction l, r, s using intLoop.induct buf with
  | case1 l r s hlt ih =>
      obtain ⟨hlt', hl', hr'⟩ := swapLoop_turn (by omega) (by omega) hlt
      have hne : l.toNat ≠ r.toNat := Nat.ne_of_lt hlt'
      have hsum : l.toNat + 1 + (r.toNat - 1) = l.toNat + r.toNat := by omega
      rw [intLoop, if_pos hlt, ih (by omega) (by omega), hl', hr', hsum, cell_eq, cell_eq,
        kswap_int_cell hl hr hne hk hb]
      by_cases hin : l.toNat + 1 ≤ k ∧ 2 * k < l.toNat + r.toNat
      · -- between the ends: not written in this turn
        rw [if_pos hin, if_pos (by omega), kswap_int_cell hl hr hne (by omega) hb,
          if_neg (by omega)]
      · rw [if_neg hin]
        by_cases hkl : k = l.toNat
        · have hend : l.toNat + r.toNat - k = r.toNat := by omega
          rw [if_pos hkl, if_pos (by omega), hend]
        · rw [if_neg hkl, if_neg (by omega)]
  | case2 l r s hlt =>
      rw [toInt_of_lt (by omega), toInt_of_lt (by omega)] at hlt
      rw [intLoop, if_neg (by rwa [toInt_of_lt (by omega), toInt_of_lt (by omega)]),
        if_neg (by omega)]

/-- Where the loop writes: between its ends. -/
theorem intLoop_within {D : Addr → Prop} {l r : Word} (hl : l.toNat < 2 ^ 30)
    (hr : r.toNat < 2 ^ 30) (hD : ∀ k ≤ r.toNat, ∀ b < 4, D (cell buf k b)) {s : Store found}
    (hs : s.Within D) : (intLoop buf l r s).Within D := by
  induction l, r, s using intLoop.induct buf with
  | case1 l r s hlt ih =>
      obtain ⟨hlt', hl', hr'⟩ := swapLoop_turn (by omega) (by omega) hlt
      rw [intLoop, if_pos hlt]
      refine ih (by omega) (by omega) (fun k hk => hD k (by omega)) ?_
      rw [cell_eq, cell_eq, kswap_int_within]
      exact ⟨⟨hs, hD _ (Nat.le_of_lt hlt')⟩, hD _ (Nat.le_refl _)⟩
  | case2 l r s hlt =>
      rw [intLoop, if_neg hlt]
      exact hs

end Loop

/-! ## Arrays -/

/-- The second half, reversed, before itself. -/
def halfReversed {α : Type*} (t : List α) : List α :=
  t.reverse.take (t.length / 2) ++ t.drop (t.length / 2)

/-- The list keeps its length. -/
theorem halfReversed_length {α : Type*} (t : List α) :
    (halfReversed t).length = t.length := by
  unfold halfReversed
  rw [List.length_append, List.length_take, List.length_reverse, List.length_drop]
  omega

/-- Nothing new comes into the list. -/
theorem mem_of_mem_halfReversed {α : Type*} {t : List α} {x : α} (h : x ∈ halfReversed t) :
    x ∈ t := by
  rcases List.mem_append.mp h with h | h
  · exact List.mem_reverse.mp (List.mem_of_mem_take h)
  · exact List.mem_of_mem_drop h

/-- The lower half is mirrored, the upper one stays. -/
theorem halfReversed_getD {α : Type*} (t : List α) (k : Nat) (d : α) :
    (halfReversed t).getD k d
      = if 2 * k + 1 < t.length then t.getD (t.length - 1 - k) d else t.getD k d := by
  have hhalf : (t.reverse.take (t.length / 2)).length = t.length / 2 := by
    rw [List.length_take, List.length_reverse]
    omega
  unfold halfReversed
  by_cases hk : 2 * k + 1 < t.length
  · rw [if_pos hk, List.getD_append _ _ _ _ (by omega), List.getD_eq_getElem _ _ (by omega),
      List.getElem_take, List.getElem_reverse, List.getD_eq_getElem]
  · rw [if_neg hk, List.getD_append_right _ _ _ _ (by omega), hhalf]
    simp only [List.getD_eq_getElem?_getD, List.getElem?_drop]
    rw [Nat.add_sub_cancel' (by omega)]

/-- Only a palindrome is reversed by that: the second half has not changed. -/
theorem halfReversed_eq_reverse_iff {α : Type*} (t : List α) :
    halfReversed t = t.reverse ↔ t.reverse = t := by
  constructor
  · intro h
    have hsecond : ∀ k (hk : k < t.length), ¬ 2 * k + 1 < t.length →
        t[t.length - 1 - k] = t[k] := by
      intro k hk hlow
      have hget : (halfReversed t).getD k t[k] = t.reverse.getD k t[k] := by rw [h]
      rw [halfReversed_getD, if_neg hlow, List.getD_eq_getElem _ _ hk,
        List.getD_eq_getElem _ _ (by rw [List.length_reverse]; exact hk),
        List.getElem_reverse] at hget
      exact hget.symm
    refine List.ext_getElem List.length_reverse fun k h1 h2 => ?_
    rw [List.getElem_reverse]
    by_cases hlow : 2 * k + 1 < t.length
    · have hopposite := hsecond (t.length - 1 - k) (by omega) (by omega)
      have hback : t.length - 1 - (t.length - 1 - k) = k := by omega
      simp only [hback] at hopposite
      exact hopposite.symm
    · exact hsecond k h2 hlow
  · intro h
    unfold halfReversed
    rw [h, List.take_append_drop]

section Arrays

variable {found : Mem} {buf : Addr} {t : List (BitVec 32)}

/-- The number of cells before the zero. -/
theorem karrStrlen_eq {mem : Mem} (h : WordsAt mem buf t) :
    karrStrlen mem buf = some (BitVec.ofNat 32 t.length) := by
  have hfits := h.fits
  have hzero : ∀ k ≤ t.length,
      read32 mem (buf + 4 * BitVec.ofNat 32 k) = 0 ↔ t.length ≤ k := by
    intro k hk
    rw [cell_eq, toNat_ofNat (by omega), h.word k hk, getD_eq_zero_iff h.nonzero]
  have hloop : ∀ turns cnt, karrStrlenLoop mem buf (turns + 1) cnt
      = if read32 mem (buf + 4 * cnt) = 0 then some cnt
        else karrStrlenLoop mem buf turns (cnt + 1) :=
    fun turns cnt => ite_not (read32 mem (buf + 4 * cnt) = 0) _ _
  have hgo : ∀ k < t.length, ¬ read32 mem (buf + 4 * BitVec.ofNat 32 k) = 0 :=
    fun k hk => mt (hzero k (Nat.le_of_lt hk)).mp (Nat.not_le.mpr hk)
  have hstop := (hzero t.length (Nat.le_refl _)).mpr (Nat.le_refl _)
  exact countLoop_eq hloop hstop hgo (Nat.zero_le _)
    (Nat.lt_of_lt_of_le h.fits (Nat.le_add_right _ _))

/-- **`kreverse_intstr`**, cell by cell. -/
theorem kreverseIntstr_spec {s : Store found} (h : WordsAt s.mem buf t) :
    ∃ s', kreverseIntstr buf s = some s' ∧
      (∀ k < 2 ^ 30, ∀ b < 4, s'.mem (cell buf k b)
        = if 2 * k + 1 < t.length then s.mem (cell buf (t.length - 1 - k) b)
          else s.mem (cell buf k b)) ∧
      ∀ D : Addr → Prop, (∀ k < t.length, ∀ b < 4, D (cell buf k b)) → s.Within D →
        s'.Within D := by
  have hfits := h.fits
  have hrun : kreverseIntstr buf s
      = some (intLoop buf 0 (BitVec.ofNat 32 t.length - 1) s) := by
    unfold kreverseIntstr
    rw [karrStrlen_eq h]
    rfl
  refine ⟨_, hrun, ?_⟩
  by_cases ht : t.length = 0
  · -- `r` is -1
    rw [ht, intLoop, if_neg (by decide)]
    exact ⟨fun k _ b _ => (if_neg (Nat.not_lt_zero _)).symm, fun _ _ => id⟩
  · have hr : (BitVec.ofNat 32 t.length - 1).toNat = t.length - 1 := by bv_omega
    have hzero : (0 : Word).toNat = 0 := rfl
    constructor
    · intro k hk b hb
      rw [intLoop_cell buf (by decide) (by omega) s hk hb, hr, hzero, Nat.zero_add]
      exact if_congr (by omega) rfl rfl
    · intro D hD hs
      exact intLoop_within buf (by decide) (by omega) (fun k hk => hD k (by omega)) hs

/-- What is in the cells of an array determines its words. -/
theorem wordsAt_halfReversed {mem mem' : Mem} (h : WordsAt mem buf t)
    (hmem : ∀ k < 2 ^ 30, ∀ b < 4, mem' (cell buf k b)
      = if 2 * k + 1 < t.length then mem (cell buf (t.length - 1 - k) b)
        else mem (cell buf k b)) : WordsAt mem' buf (halfReversed t) where
  fits := by
    rw [halfReversed_length]
    exact h.fits
  nonzero := fun h0 => h.nonzero (mem_of_mem_halfReversed h0)
  word := by
    intro k hk
    have hfits := h.fits
    rw [halfReversed_length] at hk
    rw [halfReversed_getD]
    by_cases hlow : 2 * k + 1 < t.length
    · rw [if_pos hlow, ← h.word _ (by omega), read32_cell_eq_iff]
      intro b hb
      rw [hmem k (by omega) b hb, if_pos hlow]
    · rw [if_neg hlow, ← h.word k hk, read32_cell_eq_iff]
      intro b hb
      rw [hmem k (by omega) b hb, if_neg hlow]

/-- Of a palindrome no byte changes. -/
theorem mem_of_palindrome {mem mem' : Mem} (h : WordsAt mem buf t) (ht : t.reverse = t)
    (hmem : ∀ k < 2 ^ 30, ∀ b < 4, mem' (cell buf k b)
      = if 2 * k + 1 < t.length then mem (cell buf (t.length - 1 - k) b)
        else mem (cell buf k b)) : mem' = mem := by
  funext a
  obtain ⟨k, hk, b, hb, rfl⟩ := exists_cell buf a
  rw [hmem k hk b hb]
  by_cases hlow : 2 * k + 1 < t.length
  · rw [if_pos hlow]
    have hword : read32 mem (cell buf (t.length - 1 - k) 0) = read32 mem (cell buf k 0) := by
      rw [h.word _ (by omega), h.word _ (by omega), List.getD_eq_getElem _ _ (by omega),
        List.getD_eq_getElem _ _ (by omega), ← List.getElem_reverse (by rw [ht]; omega)]
      exact List.getElem_of_eq ht _
    exact read32_cell_eq_iff.mp hword b hb
  · rw [if_neg hlow]

end Arrays

/-! ## Reversing -/

/-- A call leaves what is asked for, stores to nothing else, and a second call
    brings back what was found. -/
def Reverses (found : Mem) (call : Store found → Option (Store found)) (D : Addr → Prop)
    (asked : Mem → Prop) : Prop :=
  ∃ s', call (Store.start found) = some s' ∧ asked s'.mem ∧ s'.Within D ∧
    ∃ s'', call s' = some s'' ∧ s''.mem = found

section Right

variable {found : Mem} {buf : Addr}

/-- Of a string and its 0. -/
def CharReversed (found : Mem) (buf : Addr) (t : List Byte) : Prop :=
  Reverses found (kreverseCharstr buf) (InRange buf t.length) (StringAt · buf t.reverse)

/-- Of an array and its 0. -/
def IntReversed (found : Mem) (buf : Addr) (t : List (BitVec 32)) : Prop :=
  Reverses found (kreverseIntstr buf) (InRange buf (4 * t.length)) (WordsAt · buf t.reverse)

/-- Two reversals. -/
theorem reversed_twice {mem mem' mem'' : Mem} {n : Nat} (hn : n < 2 ^ 32)
    (h : Reversed mem mem' buf n) (h' : Reversed mem' mem'' buf n) : mem'' = mem := by
  funext a
  have ha : a = buf + (a - buf) := by rw [BitVec.add_comm, BitVec.sub_add_cancel]
  rw [ha, h', h, h]
  by_cases hk : (a - buf).toNat < n
  · have hother : (BitVec.ofNat 32 n - 1 - (a - buf)).toNat < n := by bv_omega
    have hback : BitVec.ofNat 32 n - 1 - (BitVec.ofNat 32 n - 1 - (a - buf)) = a - buf := by
      bv_omega
    rw [if_pos hk, if_pos hother, hback]
  · rw [if_neg hk, if_neg hk]

/-- Beyond `2 ^ 31` the length is negative, and no turn is taken. -/
theorem kreverseCharstr_long {t : List Byte} {s : Store found} (h : StringAt s.mem buf t)
    (hlen : 2 ^ 31 < t.length) : kreverseCharstr buf s = some s := by
  have hfits := h.fits
  have hneg : ¬ (0 : Word).toInt < (BitVec.ofNat 32 t.length - 1).toInt := by
    have hr : (BitVec.ofNat 32 t.length - 1).toNat = t.length - 1 := by bv_omega
    rw [BitVec.toInt_eq_toNat_cond (BitVec.ofNat 32 t.length - 1), hr, if_neg (by omega)]
    show ¬ (0 : Int) < _
    omega
  unfold kreverseCharstr
  rw [kstrlen_eq h, Option.map_some, swapLoop, if_neg hneg]

/-- **STRINGS** are reversed as long as their length is an `int`. -/
theorem charReversed_iff {t : List Byte} (h : StringAt found buf t) :
    CharReversed found buf t ↔ t.length ≤ 2 ^ 31 ∨ t.reverse = t := by
  by_cases hlen : t.length ≤ 2 ^ 31
  · refine iff_of_true ?_ (.inl hlen)
    obtain ⟨s', hs', hrev, hwithin⟩ := kreverseCharstr_spec (s := Store.start found) h hlen
    have hstring : StringAt s'.mem buf t.reverse := StringAt.reverse h hrev
    obtain ⟨s'', hs'', hrev', -⟩ := kreverseCharstr_spec hstring
      (by rw [List.length_reverse]; exact hlen)
    rw [List.length_reverse] at hrev'
    refine ⟨s', hs', hstring, ?_, s'', hs'', reversed_twice h.fits hrev hrev'⟩
    exact (hwithin _).2 (fun k hk => inRange_add.mpr hk) (Store.within_start _)
  · have hrun := kreverseCharstr_long (s := Store.start found) h (Nat.not_le.mp hlen)
    rw [or_iff_right hlen]
    constructor
    · rintro ⟨s', hs', hstring, -⟩
      obtain rfl := Option.some.inj (hrun.symm.trans hs')
      exact Option.some.inj
        ((readString_of_stringAt hstring).symm.trans (readString_of_stringAt h))
    · intro ht
      refine ⟨Store.start found, hrun, ?_, Store.within_start _, _, hrun, rfl⟩
      rw [ht]
      exact h

/-- **ARRAYS** are reversed if they are palindromes. -/
theorem intReversed_iff {t : List (BitVec 32)} (h : WordsAt found buf t) :
    IntReversed found buf t ↔ t.reverse = t := by
  have hfits := h.fits
  obtain ⟨s', hs', hmem, hwithin⟩ := kreverseIntstr_spec (s := Store.start found) h
  constructor
  · rintro ⟨u, hu, hwords, -⟩
    obtain rfl := Option.some.inj (hs'.symm.trans hu)
    refine (halfReversed_eq_reverse_iff t).mp ((wordsAt_halfReversed h hmem).unique hwords ?_)
    rw [halfReversed_length, List.length_reverse]
  · intro ht
    have hsame : s'.mem = found := mem_of_palindrome h ht hmem
    have hwords : WordsAt s'.mem buf t := by
      rw [hsame]
      exact h
    obtain ⟨s'', hs'', hmem', -⟩ := kreverseIntstr_spec hwords
    refine ⟨s', hs', ?_, ?_, s'', hs'', (mem_of_palindrome hwords ht hmem').trans hsame⟩
    · rw [ht]
      exact hwords
    · refine hwithin _ (fun k hk b hb => ?_) (Store.within_start _)
      unfold cell
      rw [inRange_ofNat (by omega)]
      omega

end Right

/-- **REVERSING IN PLACE**: exactly which strings and arrays are reversed. -/
theorem reversed_exactly (found : Mem) (buf : Addr) :
    (∀ t : List Byte, StringAt found buf t →
      (CharReversed found buf t ↔ t.length ≤ 2 ^ 31 ∨ t.reverse = t)) ∧
    ∀ t : List (BitVec 32), WordsAt found buf t →
      (IntReversed found buf t ↔ t.reverse = t) :=
  ⟨fun _ h => charReversed_iff h, fun _ h => intReversed_iff h⟩

/-- Bytes at `0x1000`, and 0 everywhere else. -/
def memOf (l : List Byte) : Mem := (writeList (Store.start fun _ => 0) 0x1000 l).mem

/-- `ab` is reversed, and so is an array of one number. -/
theorem reversed_exactly_short :
    CharReversed (memOf [0x61, 0x62, 0]) 0x1000 [0x61, 0x62] ∧
    IntReversed (memOf [7]) 0x1000 [7] := by
  have hstring : StringAt (memOf [0x61, 0x62, 0]) 0x1000 [0x61, 0x62] :=
    stringAt_writeList (t := [0x61, 0x62]) (by decide) (by decide) (Store.start fun _ => 0)
      0x1000
  have hwords : WordsAt (memOf [7]) 0x1000 [7] := by
    refine ⟨by decide, by decide, fun k hk => ?_⟩
    rcases Nat.le_one_iff_eq_zero_or_eq_one.mp hk with rfl | rfl
    · decide
    · decide
  exact ⟨((reversed_exactly _ _).1 _ hstring).mpr (.inl (by decide)),
    ((reversed_exactly _ _).2 _ hwords).mpr rfl⟩

/-- The array 1, 2 becomes 2, 2. -/
theorem first_number_lost :
    WordsAt (memOf [1, 0, 0, 0, 2]) 0x1000 [1, 2] ∧
    (∃ s', kreverseIntstr 0x1000 (Store.start (memOf [1, 0, 0, 0, 2])) = some s' ∧
      WordsAt s'.mem 0x1000 [2, 2]) ∧
    ¬ IntReversed (memOf [1, 0, 0, 0, 2]) 0x1000 [1, 2] := by
  have hwords : WordsAt (memOf [1, 0, 0, 0, 2]) 0x1000 [1, 2] := by
    refine ⟨by decide, by decide, fun k hk => ?_⟩
    have hk' : k = 0 ∨ k = 1 ∨ k = 2 := by
      have hlen : k ≤ 2 := hk
      omega
    rcases hk' with rfl | rfl | rfl
    · decide
    · decide
    · decide
  obtain ⟨s', hs', hmem, -⟩ := kreverseIntstr_spec
    (s := Store.start (memOf [1, 0, 0, 0, 2])) hwords
  refine ⟨hwords, ⟨s', hs', wordsAt_halfReversed hwords hmem⟩, fun h => ?_⟩
  exact absurd ((intReversed_iff hwords).mp h) (by decide)

end LittleOS.Reversal
