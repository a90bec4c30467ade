import Mathlib.Data.List.GetD
import LittleOS.Lib.ByteStore

/-! # Strings in a byte store

    A string has no byte 0; in memory it ends where there is one.

    * `readString_iff` — reading from an address gives the string there;
    * `stringAt_writeList` — storing a string and a 0 puts it there;
    * `StringAt.reverse` — what is there when its bytes have changed places. -/

namespace CStrings

open ByteStore

/-- A string without its terminator. -/
structure CString where
  bytes : List Byte
  nonzero : 0 ∉ bytes

instance : Append CString where
  append s t := ⟨s.bytes ++ t.bytes, fun h => (List.mem_append.mp h).elim s.nonzero t.nonzero⟩

/-- The bytes of a concatenation. -/
@[simp] theorem bytes_append (s t : CString) : (s ++ t).bytes = s.bytes ++ t.bytes := rfl

/-! ## Reading -/

/-- The bytes before the next 0, if it is one of the next `n`. -/
def readFrom (mem : Mem) : Nat → Addr → Option (List Byte)
  | 0, _ => none
  | n + 1, a => if mem a = 0 then some [] else (readFrom mem n (a + 1)).map (mem a :: ·)

/-- Without a 0 anywhere the reading does not end. -/
def readString (mem : Mem) (a : Addr) : Option (List Byte) := readFrom mem (2 ^ 32) a

/-- `t` and a 0 are in memory from `a` on. -/
structure StringAt (mem : Mem) (a : Addr) (t : List Byte) : Prop where
  fits : t.length < 2 ^ 32
  nonzero : 0 ∉ t
  byte : ∀ k ≤ t.length, mem (a + BitVec.ofNat 32 k) = t.getD k 0

/-- A sequence without a 0 has one behind its end only. -/
theorem getD_eq_zero_iff {w : Nat} {t : List (BitVec w)} (h : 0 ∉ t) {k : Nat} :
    t.getD k 0 = 0 ↔ t.length ≤ k := by
  rcases Nat.lt_or_ge k t.length with hlt | hge
  · rw [List.getD_eq_getElem _ _ hlt]
    exact iff_of_false (fun he => h (he ▸ List.getElem_mem hlt)) (Nat.not_le.mpr hlt)
  · exact iff_of_true (List.getD_eq_default _ _ hge) hge

/-- The next address. -/
theorem add_ofNat_succ (a : Addr) (k : Nat) :
    a + BitVec.ofNat 32 (k + 1) = a + 1 + BitVec.ofNat 32 k := by
  bv_omega

/-- A text that stands in memory with a zero behind it is read to its end. -/
theorem readFrom_eq {mem : Mem} {t : List Byte} (h0 : 0 ∉ t) {a : Addr} {n : Nat}
    (hn : t.length < n) (h : ∀ k ≤ t.length, mem (a + BitVec.ofNat 32 k) = t.getD k 0) :
    readFrom mem n a = some t := by
  induction t generalizing a n with
  | nil =>
      obtain ⟨m, rfl⟩ : ∃ m, n = m + 1 := ⟨n - 1, by simp only [List.length_nil] at hn; omega⟩
      have hnul := h 0 (Nat.le_refl 0)
      rw [BitVec.add_zero] at hnul
      exact if_pos hnul
  | cons v t ih =>
      obtain ⟨m, rfl⟩ : ∃ m, n = m + 1 := ⟨n - 1, by omega⟩
      have hv := h 0 (Nat.zero_le _)
      rw [BitVec.add_zero, List.getD_cons_zero] at hv
      have hne : mem a ≠ 0 := by
        rw [hv]
        exact fun he => h0 (he ▸ List.mem_cons_self)
      have hrest := ih (fun hmem => h0 (List.mem_cons_of_mem v hmem)) (a := a + 1)
        (Nat.lt_of_succ_lt_succ hn) fun k hk => by
          rw [← add_ofNat_succ]
          exact h (k + 1) (Nat.succ_le_succ hk)
      rw [readFrom, if_neg hne, hrest, hv]
      rfl

/-- A string that stands in memory is read. -/
theorem readString_of_stringAt {mem : Mem} {a : Addr} {t : List Byte}
    (h : StringAt mem a t) : readString mem a = some t :=
  readFrom_eq h.nonzero h.fits h.byte

/-- What has been read is there, with the 0 that has ended it. -/
theorem readFrom_some {mem : Mem} {a : Addr} {n : Nat} {t : List Byte}
    (h : readFrom mem n a = some t) :
    t.length < n ∧ 0 ∉ t ∧ ∀ k ≤ t.length, mem (a + BitVec.ofNat 32 k) = t.getD k 0 := by
  induction n generalizing a t with
  | zero => cases h
  | succ n ih =>
      rw [readFrom] at h
      by_cases h0 : mem a = 0
      · rw [if_pos h0] at h
        obtain rfl := Option.some.inj h
        refine ⟨Nat.succ_pos n, List.not_mem_nil, fun k hk => ?_⟩
        obtain rfl : k = 0 := Nat.le_zero.mp hk
        rw [BitVec.add_zero]
        exact h0
      · rw [if_neg h0] at h
        obtain ⟨t', ht', rfl⟩ := Option.map_eq_some_iff.mp h
        obtain ⟨hlen, hnonzero, hbyte⟩ := ih ht'
        refine ⟨Nat.succ_lt_succ hlen, ?_, fun k hk => ?_⟩
        · rw [List.mem_cons, not_or]
          exact ⟨Ne.symm h0, hnonzero⟩
        · cases k with
          | zero =>
              rw [BitVec.add_zero]
              rfl
          | succ k =>
              rw [add_ofNat_succ, List.getD_cons_succ]
              exact hbyte k (Nat.le_of_succ_le_succ hk)

/-- **READING** gives the string that is there. -/
theorem readString_iff {mem : Mem} {a : Addr} {t : List Byte} :
    readString mem a = some t ↔ StringAt mem a t := by
  constructor
  · intro h
    obtain ⟨hlen, hnonzero, hbyte⟩ := readFrom_some h
    exact ⟨hlen, hnonzero, hbyte⟩
  · exact readString_of_stringAt

/-- The string at an address. -/
def readCString (mem : Mem) (a : Addr) : Option CString :=
  match h : readString mem a with
  | none => none
  | some t => some ⟨t, (readString_iff.mp h).nonzero⟩

/-- What is read is a string. -/
theorem readCString_bytes (mem : Mem) (a : Addr) :
    (readCString mem a).map CString.bytes = readString mem a := by
  unfold readCString
  split
  · next h => exact h.symm
  · next t h => exact h.symm

/-! ## Writing -/

variable {found : Mem}

/-- The bytes one after another. -/
def writeList (s : Store found) (a : Addr) : List Byte → Store found
  | [] => s
  | v :: l => writeList (s.write a v) (a + 1) l

/-- Texts written one after the other. -/
theorem writeList_append (s : Store found) (a : Addr) (l l' : List Byte) :
    writeList s a (l ++ l')
      = writeList (writeList s a l) (a + BitVec.ofNat 32 l.length) l' := by
  induction l generalizing s a with
  | nil =>
      rw [List.nil_append, List.length_nil, BitVec.add_zero]
      rfl
  | cons v l ih =>
      rw [List.length_cons, add_ofNat_succ]
      exact ih (s.write a v) (a + 1)

/-- Where a text is written. -/
theorem writeList_within {D : Addr → Prop} (s : Store found) (a : Addr) (l : List Byte) :
    (writeList s a l).Within D ↔
      s.Within D ∧ ∀ k < l.length, D (a + BitVec.ofNat 32 k) := by
  induction l generalizing s a with
  | nil => exact (and_iff_left fun k hk => absurd hk (Nat.not_lt_zero k)).symm
  | cons v l ih =>
      rw [writeList, ih, Store.within_write]
      constructor
      · rintro ⟨⟨ha, hs⟩, hrest⟩
        refine ⟨hs, fun k hk => ?_⟩
        cases k with
        | zero =>
            rw [BitVec.add_zero]
            exact ha
        | succ k =>
            rw [add_ofNat_succ]
            exact hrest k (Nat.lt_of_succ_lt_succ hk)
      · rintro ⟨hs, hall⟩
        refine ⟨⟨?_, hs⟩, fun k hk => ?_⟩
        · have ha := hall 0 (Nat.succ_pos _)
          rwa [BitVec.add_zero] at ha
        · rw [← add_ofNat_succ]
          exact hall (k + 1) (Nat.succ_lt_succ hk)

/-- What a text leaves: its bytes, and all others as they were. -/
theorem writeList_mem {l : List Byte} (hl : l.length ≤ 2 ^ 32) (s : Store found)
    (a b : Addr) :
    (writeList s a l).mem b
      = if InRange a l.length b then l.getD (b - a).toNat 0 else s.mem b := by
  induction l generalizing s a with
  | nil => rfl
  | cons v l ih =>
      rw [List.length_cons] at hl
      rw [writeList, ih (by omega), List.length_cons]
      by_cases hb : b = a
      · -- the first byte, which no later one reaches
        subst hb
        have hfar : ¬ InRange (b + 1) l.length b := by
          unfold InRange
          bv_omega
        have hnear : InRange b (l.length + 1) b := by
          unfold InRange
          rw [BitVec.sub_self]
          exact Nat.succ_pos _
        rw [if_neg hfar, if_pos hnear, BitVec.sub_self, Store.write_mem_self]
        rfl
      · have hpos : (b - a).toNat = (b - (a + 1)).toNat + 1 := by bv_omega
        rw [Store.write_mem_of_ne s hb, hpos, List.getD_cons_succ]
        refine if_congr ?_ rfl rfl
        unfold InRange
        rw [hpos]
        exact Nat.succ_lt_succ_iff.symm

/-- The bytes of a text, counted from its start. -/
theorem writeList_mem_add {l : List Byte} (hl : l.length ≤ 2 ^ 32) (s : Store found)
    (a : Addr) {k : Nat} (hk : k < l.length) :
    (writeList s a l).mem (a + BitVec.ofNat 32 k) = l.getD k 0 := by
  have hlt : k < 2 ^ 32 := Nat.lt_of_lt_of_le hk hl
  rw [writeList_mem hl, if_pos ((inRange_ofNat hlt).mpr hk), BitVec.add_comm,
    BitVec.add_sub_cancel, toNat_ofNat hlt]

/-- **A STRING AND A 0** are a string in memory. -/
theorem stringAt_writeList {t : List Byte} (hlen : t.length < 2 ^ 32) (h0 : 0 ∉ t)
    (s : Store found) (a : Addr) : StringAt (writeList s a (t ++ [0])).mem a t where
  fits := hlen
  nonzero := h0
  byte := by
    intro k hk
    have hlen' : (t ++ [(0 : Byte)]).length = t.length + 1 := List.length_append
    rw [writeList_mem_add (by omega) s a (by omega)]
    rcases Nat.lt_or_eq_of_le hk with hlt | rfl
    · rw [List.getD_append _ _ _ _ hlt]
    · rw [List.getD_append_right _ _ _ _ (Nat.le_refl _), Nat.sub_self,
        List.getD_eq_default _ _ (Nat.le_refl _)]
      rfl

/-! ## Reversing -/

/-- The bytes of a string have changed places, and no others. -/
def Reversed (mem mem' : Mem) (a : Addr) (n : Nat) : Prop :=
  ∀ k : Addr, mem' (a + k)
    = if k.toNat < n then mem (a + (BitVec.ofNat 32 n - 1 - k)) else mem (a + k)

/-- A string reversed in place is the reversed string. -/
theorem StringAt.reverse {mem mem' : Mem} {a : Addr} {t : List Byte}
    (h : StringAt mem a t) (hrev : Reversed mem mem' a t.length) :
    StringAt mem' a t.reverse where
  fits := by
    rw [List.length_reverse]
    exact h.fits
  nonzero := fun h0 => h.nonzero (List.mem_reverse.mp h0)
  byte := by
    intro k hk
    rw [List.length_reverse] at hk
    have hfits := h.fits
    rw [hrev, toNat_ofNat (by omega)]
    rcases Nat.lt_or_eq_of_le hk with hlt | rfl
    · have hplace : BitVec.ofNat 32 t.length - 1 - BitVec.ofNat 32 k
          = BitVec.ofNat 32 (t.length - 1 - k) := by
        bv_omega
      rw [if_pos hlt, hplace, h.byte _ (by omega), List.getD_eq_getElem _ _ (by omega),
        List.getD_eq_getElem _ _ (by rw [List.length_reverse]; exact hlt),
        List.getElem_reverse]
    · rw [if_neg (Nat.lt_irrefl _), h.byte _ (Nat.le_refl _),
        List.getD_eq_default _ _ (Nat.le_refl _),
        List.getD_eq_default _ _ (Nat.le_of_eq List.length_reverse)]

end CStrings
