import LittleOS.Lib.CStrings

/-! # Arrays of words in a byte store

    Cell `k` of an array is four bytes, the lowest first; an array of words ends
    with the first that is 0.

    * `assign_cell` — what one cell holds when another has been copied to some
      cell;
    * `read32_cell_eq_iff` — a word is its four bytes;
    * `WordsAt.unique` — an array holds one sequence. -/

namespace WordCells

open ByteStore CStrings

variable {found : Mem}

/-! ## Copying values -/

/-- The bytes of a range, in order. -/
def readBytes (mem : Mem) (a : Addr) (n : Nat) : List Byte :=
  (List.range n).map fun k => mem (a + BitVec.ofNat 32 k)

/-- `*p = *q` for a type of `n` bytes. -/
def assign (n : Nat) (p q : Addr) (s : Store found) : Store found :=
  writeList s p (readBytes s.mem q n)

/-- As many bytes as were asked for. -/
theorem readBytes_length (mem : Mem) (a : Addr) (n : Nat) :
    (readBytes mem a n).length = n := by
  rw [readBytes, List.length_map, List.length_range]

/-- Each byte read is the one at its address. -/
theorem readBytes_getD (mem : Mem) (a : Addr) {n k : Nat} (hk : k < n) :
    (readBytes mem a n).getD k 0 = mem (a + BitVec.ofNat 32 k) := by
  rw [List.getD_eq_getElem _ _ (by rw [readBytes_length]; exact hk)]
  simp [readBytes]

/-- An assignment through pointers changes the bytes of its target and no others. -/
theorem assign_mem {n : Nat} (hn : n ≤ 2 ^ 32) (p q : Addr) (s : Store found) (a : Addr) :
    (assign n p q s).mem a = if InRange p n a then s.mem (q + (a - p)) else s.mem a := by
  unfold assign
  rw [writeList_mem (by rw [readBytes_length]; exact hn), readBytes_length]
  by_cases ha : InRange p n a
  · rw [if_pos ha, if_pos ha, readBytes_getD _ _ ha, BitVec.ofNat_toNat, BitVec.setWidth_eq]
  · rw [if_neg ha, if_neg ha]

/-- An assignment stays within a region if all bytes of its target are in it. -/
theorem assign_within {D : Addr → Prop} (n : Nat) (p q : Addr) (s : Store found) :
    (assign n p q s).Within D ↔ s.Within D ∧ ∀ k < n, D (p + BitVec.ofNat 32 k) := by
  unfold assign
  rw [writeList_within, readBytes_length]

/-! ## Cells -/

/-- Byte `b` of cell `k`. -/
def cell (buf : Addr) (k b : Nat) : Addr := buf + BitVec.ofNat 32 (4 * k + b)

/-- Every byte of the memory is one of a cell. -/
theorem exists_cell (buf a : Addr) : ∃ k < 2 ^ 30, ∃ b < 4, a = cell buf k b := by
  have hlt := (a - buf).isLt
  refine ⟨(a - buf).toNat / 4, by omega, (a - buf).toNat % 4, by omega, ?_⟩
  unfold cell
  rw [Nat.div_add_mod, BitVec.ofNat_toNat, BitVec.setWidth_eq, BitVec.add_comm,
    BitVec.sub_add_cancel]

/-- The bytes of a cell, counted from its first one. -/
theorem cell_offset (buf : Addr) (j b : Nat) :
    cell buf j 0 + BitVec.ofNat 32 b = cell buf j b := by
  unfold cell
  rw [BitVec.add_assoc, ← BitVec.ofNat_add, Nat.add_zero]

/-- Cells that fit in the address space do not overlap. -/
theorem inRange_cell {buf : Addr} {j k b : Nat} (hj : j < 2 ^ 30) (hk : k < 2 ^ 30)
    (hb : b < 4) : InRange (cell buf j 0) 4 (cell buf k b) ↔ k = j := by
  unfold InRange cell
  have hsub : buf + BitVec.ofNat 32 (4 * k + b) - (buf + BitVec.ofNat 32 (4 * j + 0))
      = BitVec.ofNat 32 (4 * k + b) - BitVec.ofNat 32 (4 * j) := by bv_omega
  rw [hsub, BitVec.toNat_sub, BitVec.toNat_ofNat, BitVec.toNat_ofNat]
  omega

/-- **COPYING** cell `i` to cell `j`. -/
theorem assign_cell {buf : Addr} {i j k b : Nat} (hj : j < 2 ^ 30) (hk : k < 2 ^ 30)
    (hb : b < 4) (s : Store found) :
    (assign 4 (cell buf j 0) (cell buf i 0) s).mem (cell buf k b)
      = if k = j then s.mem (cell buf i b) else s.mem (cell buf k b) := by
  rw [assign_mem (by decide)]
  by_cases hkj : k = j
  · have hplace : cell buf i 0 + (cell buf k b - cell buf j 0) = cell buf i b := by
      rw [hkj, ← cell_offset buf j b, BitVec.add_comm (cell buf j 0), BitVec.add_sub_cancel,
        cell_offset]
    rw [if_pos ((inRange_cell hj hk hb).mpr hkj), if_pos hkj, hplace]
  · rw [if_neg (mt (inRange_cell hj hk hb).mp hkj), if_neg hkj]

/-- An assignment to a cell writes its four bytes. -/
theorem assign_cell_within {D : Addr → Prop} {buf : Addr} {i j : Nat} (s : Store found) :
    (assign 4 (cell buf j 0) (cell buf i 0) s).Within D ↔
      s.Within D ∧ ∀ b < 4, D (cell buf j b) := by
  rw [assign_within]
  exact and_congr_right fun _ => forall₂_congr fun b _ => by rw [cell_offset]

/-! ## Words -/

/-- A cell is read with its lowest byte first. -/
theorem read32_cell (mem : Mem) (buf : Addr) (k : Nat) :
    read32 mem (cell buf k 0)
      = (mem (cell buf k 3) ++ mem (cell buf k 2))
        ++ (mem (cell buf k 1) ++ mem (cell buf k 0)) := by
  rw [← cell_offset buf k 3, ← cell_offset buf k 2, ← cell_offset buf k 1]
  rfl

/-- A concatenation determines its two parts. -/
theorem append_inj {n m : Nat} {x x' : BitVec n} {y y' : BitVec m} (h : x ++ y = x' ++ y') :
    x = x' ∧ y = y' := by
  have hlow : ∀ (u : BitVec n) (v : BitVec m), (u ++ v).setWidth m = v := by
    intro u v
    rw [BitVec.setWidth_append, dif_pos (Nat.le_refl m), BitVec.setWidth_eq]
  have hy : y = y' := by rw [← hlow x y, h, hlow]
  subst hy
  exact ⟨(BitVec.append_left_inj y).mp h, rfl⟩

/-- A word is its four bytes. -/
theorem read32_cell_eq_iff {mem mem' : Mem} {buf buf' : Addr} {k j : Nat} :
    read32 mem (cell buf k 0) = read32 mem' (cell buf' j 0) ↔
      ∀ b < 4, mem (cell buf k b) = mem' (cell buf' j b) := by
  rw [read32_cell, read32_cell]
  constructor
  · intro h
    obtain ⟨hhigh, hlow⟩ := append_inj h
    obtain ⟨h3, h2⟩ := append_inj hhigh
    obtain ⟨h1, h0⟩ := append_inj hlow
    intro b hb
    match b with
    | 0 => exact h0
    | 1 => exact h1
    | 2 => exact h2
    | 3 => exact h3
  · intro h
    rw [h 0 (by decide), h 1 (by decide), h 2 (by decide), h 3 (by decide)]

/-- `t` and a 0 are in the cells of an array. -/
structure WordsAt (mem : Mem) (buf : Addr) (t : List (BitVec 32)) : Prop where
  fits : t.length < 2 ^ 30
  nonzero : 0 ∉ t
  word : ∀ k ≤ t.length, read32 mem (cell buf k 0) = t.getD k 0

/-- A buffer holds one list of words of a length. -/
theorem WordsAt.unique {mem : Mem} {buf : Addr} {t u : List (BitVec 32)}
    (ht : WordsAt mem buf t) (hu : WordsAt mem buf u) (hlen : t.length = u.length) :
    t = u := by
  refine List.ext_getElem hlen fun k h1 h2 => ?_
  have hword := (ht.word k (Nat.le_of_lt h1)).symm.trans (hu.word k (Nat.le_of_lt h2))
  rwa [List.getD_eq_getElem _ _ h1, List.getD_eq_getElem _ _ h2] at hword

end WordCells
