import Mathlib.Data.Nat.Digits.Lemmas
import LittleOS.Lib.CStrings

/-! # Numbers and strings of `klib.c`

    `kmemset`, `kstrlen`, `kreverse_charstr`, `kintlen` and `kitoa_s` over a
    memory of bytes.  A `char` is signed, but none is compared.

    * `kreverseCharstr_spec` — a string is reversed in place;
    * `chars` — the digits of a number as `kitoa_s` makes them, the last one
      first, below `'0'` where the number is negative;
    * `kitoaS_spec` — what it leaves and what it writes. -/

namespace LittleOS.Klib

open ByteStore CStrings

/-- A `uint32_t`, or an `int` where it is read with its sign. -/
abbrev Word := BitVec 32

/-! ## What the loops count -/

/-- The loops over decimal digits end. -/
theorem natAbs_tdiv_lt {n : Int} (h : n ≠ 0) : (n.tdiv 10).natAbs < n.natAbs := by
  rw [Int.natAbs_tdiv]
  exact Nat.div_lt_self (Int.natAbs_pos.mpr h) (by decide)

/-- An index below another one does not overflow when it goes up. -/
theorem add_one_toInt {l r : Word} (h : l.toInt < r.toInt) : (l + 1).toInt = l.toInt + 1 := by
  have hl := BitVec.le_toInt l
  have hr := BitVec.toInt_lt (x := r)
  have hone : (1 : Word).toInt = 1 := by decide
  rw [BitVec.toInt_add, hone]
  exact Int.bmod_eq_of_le (by omega) (by omega)

/-- An index above another one does not overflow when it goes down. -/
theorem sub_one_toInt {l r : Word} (h : l.toInt < r.toInt) : (r - 1).toInt = r.toInt - 1 := by
  have hl := BitVec.le_toInt l
  have hr := BitVec.toInt_lt (x := r)
  have hone : (1 : Word).toInt = 1 := by decide
  rw [BitVec.toInt_sub, hone]
  exact Int.bmod_eq_of_le (by omega) (by omega)

/-- A loop that counts up to the first place where it stops. -/
theorem countLoop_eq {loop : Nat → Word → Option Word} {stop : Word → Prop}
    [DecidablePred stop]
    (hloop : ∀ turns cnt, loop (turns + 1) cnt
      = if stop cnt then some cnt else loop turns (cnt + 1)) {n : Nat}
    (hstop : stop (BitVec.ofNat 32 n)) (hgo : ∀ k < n, ¬ stop (BitVec.ofNat 32 k))
    {cnt : Nat} (hcnt : cnt ≤ n) {turns : Nat} (hturns : n < turns + cnt) :
    loop turns (BitVec.ofNat 32 cnt) = some (BitVec.ofNat 32 n) := by
  induction turns generalizing cnt with
  | zero => omega
  | succ turns ih =>
      rw [hloop]
      rcases Nat.lt_or_eq_of_le hcnt with hlt | rfl
      · have hsucc : BitVec.ofNat 32 cnt + 1 = BitVec.ofNat 32 (cnt + 1) := by bv_omega
        rw [if_neg (hgo cnt hlt), hsucc]
        exact ih hlt (by omega)
      · exact if_pos hstop

/-! ## The functions -/

section Source

variable {found : Mem}

/-- The turns that are left, and `d`. -/
def kmemsetLoop (data : Byte) : Nat → Addr → Store found → Store found
  | 0, _, s => s
  | size + 1, d, s => kmemsetLoop data size (d + 1) (s.write d data)

/-- `kmemset`: a negative size writes nothing. -/
def kmemset (dest : Addr) (data : Byte) (size : Int) (s : Store found) : Store found :=
  if size < 0 then s else kmemsetLoop data size.toNat dest s

/-- From `cnt` on; after as many turns as there are addresses it does not end. -/
def kstrlenLoop (mem : Mem) (buf : Addr) : Nat → Word → Option Word
  | 0, _ => none
  | turns + 1, cnt =>
      if mem (buf + cnt) ≠ 0 then kstrlenLoop mem buf turns (cnt + 1) else some cnt

/-- `kstrlen`: the length, or nothing if there is no zero byte in all of memory. -/
def kstrlen (mem : Mem) (buf : Addr) : Option Word := kstrlenLoop mem buf (2 ^ 32) 0

/-- `kswap` with `__CHAR_TYPE`. -/
def kswapChar (p q : Addr) (s : Store found) : Store found :=
  let temp := s.mem p
  let s := s.write p (s.mem q)
  s.write q temp

/-- The loop of `kreverse_charstr`. -/
def swapLoop (buf : Addr) (l r : Word) (s : Store found) : Store found :=
  if l.toInt < r.toInt then
    swapLoop buf (l + 1) (r - 1) (kswapChar (buf + l) (buf + r) s)
  else s
termination_by (r.toInt - l.toInt).toNat
decreasing_by
  have hlt : l.toInt < r.toInt := ‹_›
  rw [add_one_toInt hlt, sub_one_toInt hlt]
  omega

/-- `kreverse_charstr` -/
def kreverseCharstr (buf : Addr) (s : Store found) : Option (Store found) :=
  (kstrlen s.mem buf).map fun len => swapLoop buf 0 (len - 1) s

/-- The loop of `kintlen`. -/
def kintlenLoop (n : Int) (i : Nat) : Nat :=
  if n ≠ 0 then kintlenLoop (n.tdiv 10) (i + 1) else i
termination_by n.natAbs
decreasing_by exact natAbs_tdiv_lt ‹n ≠ 0›

/-- `kintlen` -/
def kintlen (n : Word) : Nat :=
  if n = 0 then 1 else kintlenLoop n.toInt 0

/-- The loop of `kitoa_s`. -/
def digitLoop (num : Int) (i : Nat) (p : Addr) (s : Store found) : Nat × Store found :=
  if num ≠ 0 then
    digitLoop (num.tdiv 10) (i + 1) (p + 1) (s.write p (BitVec.ofInt 8 (48 + num.tmod 10)))
  else (i, s)
termination_by num.natAbs
decreasing_by exact natAbs_tdiv_lt ‹num ≠ 0›

/-- `sizeof(buf)` is that of a pointer. -/
def kitoaS (buf : Addr) (value : Word) (_size : Nat) (s : Store found) :
    Option (Store found) :=
  let s := kmemset buf 0 4 s
  let r := digitLoop value.toInt 0 buf s
  kreverseCharstr buf (r.2.write (buf + BitVec.ofNat 32 r.1) 0)

end Source

/-! ## Strings -/

section Strings

variable {found : Mem}

/-- The loop writes its byte over the whole range. -/
theorem kmemsetLoop_eq (data : Byte) (size : Nat) (d : Addr) (s : Store found) :
    kmemsetLoop data size d s = writeList s d (List.replicate size data) := by
  induction size generalizing d s with
  | zero => rfl
  | succ size ih => exact ih (d + 1) (s.write d data)

/-- A negative size is one of 0. -/
theorem kmemset_toNat (dest : Addr) (data : Byte) (size : Int) (s : Store found) :
    kmemset dest data size s = writeList s dest (List.replicate size.toNat data) := by
  unfold kmemset
  by_cases hsize : size < 0
  · rw [if_pos hsize, Int.toNat_of_nonpos (Int.le_of_lt hsize)]
    rfl
  · rw [if_neg hsize, kmemsetLoop_eq]

/-- What `kmemset` writes, for a size that is not negative. -/
theorem kmemset_eq (dest : Addr) (data : Byte) (size : Nat) (s : Store found) :
    kmemset dest data size s = writeList s dest (List.replicate size data) :=
  kmemset_toNat dest data size s

/-- The length of a string that stands in memory. -/
theorem kstrlen_eq {mem : Mem} {buf : Addr} {t : List Byte} (h : StringAt mem buf t) :
    kstrlen mem buf = some (BitVec.ofNat 32 t.length) := by
  have hzero : ∀ k ≤ t.length, mem (buf + BitVec.ofNat 32 k) = 0 ↔ t.length ≤ k := by
    intro k hk
    rw [h.byte k hk, getD_eq_zero_iff h.nonzero]
  have hloop : ∀ turns cnt, kstrlenLoop mem buf (turns + 1) cnt
      = if mem (buf + cnt) = 0 then some cnt else kstrlenLoop mem buf turns (cnt + 1) :=
    fun turns cnt => ite_not (mem (buf + cnt) = 0) _ _
  have hgo : ∀ k < t.length, ¬ mem (buf + BitVec.ofNat 32 k) = 0 :=
    fun k hk => mt (hzero k (Nat.le_of_lt hk)).mp (Nat.not_le.mpr hk)
  have hstop := (hzero t.length (Nat.le_refl _)).mpr (Nat.le_refl _)
  exact countLoop_eq hloop hstop hgo (Nat.zero_le _)
    (Nat.lt_of_lt_of_le h.fits (Nat.le_add_right _ _))

/-- At bytes the exchange is a true one. -/
theorem kswapChar_mem (p q : Addr) (s : Store found) (a : Addr) :
    (kswapChar p q s).mem a = if a = q then s.mem p else if a = p then s.mem q else s.mem a := by
  unfold kswapChar
  dsimp only
  by_cases hq : a = q
  · rw [if_pos hq, hq, Store.write_mem_self]
  · rw [if_neg hq, Store.write_mem_of_ne _ hq]
    by_cases hp : a = p
    · rw [if_pos hp, hp, Store.write_mem_self]
    · rw [if_neg hp, Store.write_mem_of_ne _ hp]

/-- The exchange writes at its two addresses only. -/
theorem kswapChar_within {D : Addr → Prop} (p q : Addr) (s : Store found) :
    (kswapChar p q s).Within D ↔ D q ∧ D p ∧ s.Within D := by
  unfold kswapChar
  rw [Store.within_write, Store.within_write]

/-- Below `2 ^ 31` the sign does not matter. -/
theorem toInt_of_lt {x : Word} (h : x.toNat < 2 ^ 31) : x.toInt = x.toNat :=
  BitVec.toInt_eq_toNat_of_lt (by omega)

/-- Offsets of a buffer. -/
theorem kswapChar_mem_add (buf : Addr) (l r : Word) (s : Store found) (k : Word) :
    (kswapChar (buf + l) (buf + r) s).mem (buf + k)
      = if k = r then s.mem (buf + l) else if k = l then s.mem (buf + r)
        else s.mem (buf + k) := by
  rw [kswapChar_mem]
  exact if_congr (BitVec.add_right_inj buf) rfl
    (if_congr (BitVec.add_right_inj buf) rfl rfl)

/-- The indices of a turn are apart, and so are those of the next. -/
theorem swapLoop_turn {l r : Word} (hl : l.toNat < 2 ^ 31) (hr : r.toNat < 2 ^ 31)
    (h : l.toInt < r.toInt) :
    l.toNat < r.toNat ∧ (l + 1).toNat = l.toNat + 1 ∧ (r - 1).toNat = r.toNat - 1 := by
  rw [toInt_of_lt hl, toInt_of_lt hr] at h
  have hlt : l.toNat < r.toNat := Int.ofNat_lt.mp h
  refine ⟨hlt, ?_, ?_⟩
  · bv_omega
  · bv_omega

/-- **THE SWAPS** from `l` to `r` turn that part round. -/
theorem swapLoop_mem (buf : Addr) {l r : Word} (hl : l.toNat < 2 ^ 31) (hr : r.toNat < 2 ^ 31)
    (s : Store found) (k : Word) :
    (swapLoop buf l r s).mem (buf + k)
      = if l.toNat ≤ k.toNat ∧ k.toNat ≤ r.toNat then s.mem (buf + (l + r - k))
        else s.mem (buf + k) := by
  induction l, r, s using swapLoop.induct buf with
  | case1 l r s hlt ih =>
      obtain ⟨hlt', hl', hr'⟩ := swapLoop_turn hl hr hlt
      have hsum : l + 1 + (r - 1) - k = l + r - k := by bv_omega
      rw [swapLoop, if_pos hlt, ih (by omega) (by omega), hl', hr', hsum,
        kswapChar_mem_add, kswapChar_mem_add]
      by_cases hkr : k = r
      · -- the two ends
        subst hkr
        have hend : l + k - k = l := BitVec.add_sub_cancel l k
        rw [if_neg (by omega), if_pos rfl, if_pos (by omega), hend]
      · by_cases hkl : k = l
        · subst hkl
          have hend : k + r - k = r := by bv_omega
          rw [if_neg (by omega), if_neg hkr, if_pos rfl, if_pos (by omega), hend]
        · -- between them, or outside
          have hkr' : k.toNat ≠ r.toNat := fun he => hkr (BitVec.eq_of_toNat_eq he)
          have hkl' : k.toNat ≠ l.toNat := fun he => hkl (BitVec.eq_of_toNat_eq he)
          have hir : l + r - k ≠ r := by bv_omega
          have hil : l + r - k ≠ l := by bv_omega
          rw [if_neg hir, if_neg hil, if_neg hkr, if_neg hkl]
          exact if_congr (by omega) rfl rfl
  | case2 l r s hlt =>
      rw [toInt_of_lt hl, toInt_of_lt hr] at hlt
      rw [swapLoop, if_neg (by rw [toInt_of_lt hl, toInt_of_lt hr]; exact hlt)]
      by_cases hk : l.toNat ≤ k.toNat ∧ k.toNat ≤ r.toNat
      · have hmid : l + r - k = k := by bv_omega
        rw [if_pos hk, hmid]
      · rw [if_neg hk]

/-- What the loop keeps within a region was within it before. -/
theorem within_of_swapLoop {D : Addr → Prop} {buf : Addr} {l r : Word} {s : Store found}
    (h : (swapLoop buf l r s).Within D) : s.Within D := by
  induction l, r, s using swapLoop.induct buf with
  | case1 l r s hlt ih =>
      rw [swapLoop, if_pos hlt] at h
      exact ((kswapChar_within _ _ s).mp (ih h)).2.2
  | case2 l r s hlt =>
      rw [swapLoop, if_neg hlt] at h
      exact h

/-- The loop writes between its two ends only. -/
theorem swapLoop_within {D : Addr → Prop} (buf : Addr) {l r : Word} (hl : l.toNat < 2 ^ 31)
    (hr : r.toNat < 2 ^ 31) (hD : ∀ k : Word, k.toNat ≤ r.toNat → D (buf + k))
    {s : Store found} (hs : s.Within D) : (swapLoop buf l r s).Within D := by
  induction l, r, s using swapLoop.induct buf with
  | case1 l r s hlt ih =>
      obtain ⟨hlt', hl', hr'⟩ := swapLoop_turn hl hr hlt
      rw [swapLoop, if_pos hlt]
      refine ih (by omega) (by omega) (fun k hk => hD k (by omega)) ?_
      exact (kswapChar_within _ _ s).mpr ⟨hD r (Nat.le_refl _), hD l (Nat.le_of_lt hlt'), hs⟩
  | case2 l r s hlt =>
      rw [swapLoop, if_neg hlt]
      exact hs

/-- **`kreverse_charstr`** turns a string round and leaves the rest. -/
theorem kreverseCharstr_spec {buf : Addr} {t : List Byte} {s : Store found}
    (h : StringAt s.mem buf t) (hlen : t.length ≤ 2 ^ 31) :
    ∃ s', kreverseCharstr buf s = some s' ∧ Reversed s.mem s'.mem buf t.length ∧
      ∀ D : Addr → Prop, (s'.Within D → s.Within D) ∧
        ((∀ k : Word, k.toNat < t.length → D (buf + k)) → s.Within D → s'.Within D) := by
  have hrun : kreverseCharstr buf s
      = some (swapLoop buf 0 (BitVec.ofNat 32 t.length - 1) s) := by
    unfold kreverseCharstr
    rw [kstrlen_eq h]
    rfl
  refine ⟨_, hrun, ?_⟩
  by_cases ht : t.length = 0
  · -- `r` is -1
    rw [ht, swapLoop, if_neg (by decide)]
    exact ⟨fun k => (if_neg (Nat.not_lt_zero _)).symm, fun _ => ⟨id, fun _ => id⟩⟩
  · have hr : (BitVec.ofNat 32 t.length - 1).toNat = t.length - 1 := by bv_omega
    constructor
    · intro k
      have hsum : (0 : Word) + (BitVec.ofNat 32 t.length - 1) - k
          = BitVec.ofNat 32 t.length - 1 - k := by bv_omega
      rw [swapLoop_mem buf (by decide) (by omega), hr, hsum]
      refine if_congr ?_ rfl rfl
      have hzero : (0 : Word).toNat = 0 := rfl
      omega
    · intro D
      refine ⟨within_of_swapLoop, fun hD => ?_⟩
      exact swapLoop_within buf (by decide) (by omega) (fun k hk => hD k (by omega))

/-- Characters that were made from the last on, with a 0 behind them. -/
theorem kreverseCharstr_written {t : List Byte} (h0 : 0 ∉ t) (hlen : t.length ≤ 2 ^ 31)
    (s : Store found) (buf : Addr) :
    ∃ s', kreverseCharstr buf (writeList s buf (t ++ [0])) = some s' ∧
      StringAt s'.mem buf t.reverse ∧
      ∀ D : Addr → Prop, s'.Within D ↔
        s.Within D ∧ ∀ k < t.length + 1, D (buf + BitVec.ofNat 32 k) := by
  have hstring : StringAt (writeList s buf (t ++ [0])).mem buf t :=
    stringAt_writeList (by omega) h0 s buf
  obtain ⟨s', hs', hrev, hwithin⟩ := kreverseCharstr_spec hstring hlen
  refine ⟨s', hs', hstring.reverse hrev, fun D => ?_⟩
  have hwritten : (writeList s buf (t ++ [0])).Within D ↔
      s.Within D ∧ ∀ k < t.length + 1, D (buf + BitVec.ofNat 32 k) := by
    rw [writeList_within, List.length_append, List.length_singleton]
  rw [← hwritten]
  refine ⟨(hwithin D).1, fun h => (hwithin D).2 (fun k hk => ?_) h⟩
  have hk' := (hwritten.mp h).2 k.toNat (by omega)
  rwa [BitVec.ofNat_toNat, BitVec.setWidth_eq] at hk'

end Strings

/-! ## Numbers -/

section Numbers

variable {found : Mem}

/-- What the loop of `kitoa_s` writes. -/
def chars (num : Int) : List Byte :=
  (Nat.digits 10 num.natAbs).map fun d : Nat => BitVec.ofInt 8 (48 + num.sign * (d : Int))

/-- The remainder of C's division has the sign of the number. -/
theorem sign_mul_mod (num : Int) : num.sign * (num.natAbs % 10 : Nat) = num.tmod 10 := by
  have habs : (num.tmod 10).natAbs = num.natAbs % 10 := Int.natAbs_tmod num 10
  rw [← habs, ← Int.sign_mul_natAbs (num.tmod 10), Int.sign_tmod]
  by_cases hdvd : (10 : Int) ∣ num
  · have hzero := Int.tmod_eq_zero_of_dvd hdvd
    rw [hzero, Int.natAbs_zero]
    simp
  · rw [if_neg hdvd, Int.natAbs_mul, Int.natAbs_natCast, Int.natAbs_sign_of_ne_zero, one_mul]
    rintro rfl
    exact hdvd (dvd_zero _)

/-- The characters of a number are the one of its last digit and those of the rest. -/
theorem chars_eq {num : Int} (h : num ≠ 0) :
    chars num = BitVec.ofInt 8 (48 + num.tmod 10) :: chars (num.tdiv 10) := by
  have habs : (num.tdiv 10).natAbs = num.natAbs / 10 := Int.natAbs_tdiv num 10
  unfold chars
  rw [Nat.digits_def' (by decide) (Int.natAbs_pos.mpr h), List.map_cons, sign_mul_mod, habs]
  refine congrArg (List.cons _) ?_
  -- the sign stays as long as there are digits
  rcases Nat.lt_or_ge num.natAbs 10 with hlt | hge
  · rw [Nat.div_eq_of_lt hlt]
    rfl
  · have hsign : (num.tdiv 10).sign = num.sign := by
      rw [Int.sign_tdiv, if_neg (by show ¬ num.natAbs < 10; omega)]
      exact Int.mul_one _
    rw [hsign]

/-- The loop writes the characters of its number and counts them. -/
theorem digitLoop_eq (num : Int) (i : Nat) (p : Addr) (s : Store found) :
    digitLoop num i p s = (i + (chars num).length, writeList s p (chars num)) := by
  induction num, i, p, s using digitLoop.induct with
  | case1 num i p s h ih =>
      rw [digitLoop, if_pos h, ih, chars_eq h, List.length_cons, Nat.add_assoc, Nat.add_comm 1]
      rfl
  | case2 num i p s h =>
      obtain rfl : num = 0 := not_not.mp h
      rw [digitLoop, if_neg h]
      rfl

/-- The counting loop counts the characters. -/
theorem kintlenLoop_eq (n : Int) (i : Nat) : kintlenLoop n i = i + (chars n).length := by
  induction n, i using kintlenLoop.induct with
  | case1 n i h ih =>
      rw [kintlenLoop, if_pos h, ih, chars_eq h, List.length_cons, Nat.add_assoc,
        Nat.add_comm 1]
  | case2 n i h =>
      obtain rfl : n = 0 := not_not.mp h
      rw [kintlenLoop, if_neg h]
      rfl

/-- The length of a number other than 0 is that of its characters. -/
theorem kintlen_eq {n : Word} (h : n ≠ 0) : kintlen n = (chars n.toInt).length := by
  unfold kintlen
  rw [if_neg h, kintlenLoop_eq, Nat.zero_add]

/-- No character of a number ends a string, negative digits included. -/
theorem chars_nonzero (num : Int) : 0 ∉ chars num := by
  unfold chars
  rw [List.mem_map]
  rintro ⟨d, hd, he⟩
  have hlt : d < 10 := Nat.digits_lt_base (by decide) hd
  have hval : (BitVec.ofInt 8 (48 + num.sign * (d : Int))).toNat = 0 :=
    congrArg BitVec.toNat he
  rw [BitVec.toNat_ofInt] at hval
  rcases Int.sign_trichotomy num with hs | hs | hs
  · rw [hs] at hval
    omega
  · rw [hs] at hval
    omega
  · rw [hs] at hval
    omega

/-- An `int` has at most ten digits. -/
theorem chars_length_le (n : Word) : (chars n.toInt).length ≤ 10 := by
  have hlow := BitVec.le_toInt n
  have hhigh := BitVec.toInt_lt (x := n)
  unfold chars
  rw [List.length_map, Nat.digits_length_le_iff (by decide)]
  omega

/-- **`kitoa_s`** leaves the digits of the number and writes four bytes at
    least. -/
theorem kitoaS_spec (buf : Addr) (n : Word) (size : Nat) (s : Store found) :
    ∃ s', kitoaS buf n size s = some s' ∧ StringAt s'.mem buf (chars n.toInt).reverse ∧
      ∀ D : Addr → Prop, s'.Within D ↔
        s.Within D ∧ (∀ k < 4, D (buf + BitVec.ofNat 32 k)) ∧
          ∀ k < (chars n.toInt).length + 1, D (buf + BitVec.ofNat 32 k) := by
  have hlen := chars_length_le n
  have hset : kmemset buf 0 4 s = writeList s buf (List.replicate 4 0) := kmemset_eq buf 0 4 s
  have hrun : kitoaS buf n size s = kreverseCharstr buf
      (writeList (writeList s buf (List.replicate 4 0)) buf (chars n.toInt ++ [0])) := by
    unfold kitoaS
    dsimp only
    rw [hset, digitLoop_eq, Nat.zero_add, writeList_append]
    rfl
  obtain ⟨s', hs', hstring, hwithin⟩ := kreverseCharstr_written (chars_nonzero n.toInt)
    (by omega) (writeList s buf (List.replicate 4 0)) buf
  refine ⟨s', hrun.trans hs', hstring, fun D => ?_⟩
  rw [hwithin, writeList_within, List.length_replicate, and_assoc]

end Numbers

end LittleOS.Klib
