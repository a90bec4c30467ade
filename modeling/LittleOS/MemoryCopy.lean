import LittleOS.Klib
import LittleOS.Lib.ForwardCopy

/-! # `kmemcpy` and `kstrcpy`

    Both loops copy upwards, and neither asks whether the two ranges overlap.
    `kstrcpy` takes the length first and does not copy the NUL.

    * `kmemcpy_exact` — what `kmemcpy` leaves, for any two ranges, and when that is
      a copy;
    * `kstrcpy_string` — the string that is at the destination afterwards. -/

namespace LittleOS.MemoryCopy

open ByteStore CStrings ForwardCopy
open Klib (Word kstrlen kstrlen_eq)

/-- `while (size--) *d++ = *s++`, behind the check of `size`. -/
def kmemcpy (dest src : Addr) (size : Word) (mem : Mem) : Mem :=
  if size.toInt < 0 then mem else copy size.toNat dest src mem

/-- `for (int i = 0; i < len; i++) dest[i] = src[i]`. -/
def kstrcpy (dest src : Addr) (mem : Mem) : Option Mem :=
  (kstrlen mem src).map fun len => copy len.toInt.toNat dest src mem

section Copying

variable {dest src : Addr} {size : Word}

/-- The `int` as a number of bytes. -/
theorem kmemcpy_eq (dest src : Addr) (size : Word) (mem : Mem) :
    kmemcpy dest src size mem = copy size.toInt.toNat dest src mem := by
  unfold kmemcpy
  have hint := BitVec.toInt_eq_toNat_cond size
  by_cases hneg : size.toInt < 0
  · rw [if_pos hneg, Int.toNat_of_nonpos (Int.le_of_lt hneg)]
    rfl
  · have hsize : size.toInt.toNat = size.toNat := by
      have hlt := size.isLt
      split at hint <;> omega
    rw [if_neg hneg, hsize]

theorem zero_ne_one_byte : (0 : Byte) ≠ 1 := by decide

theorem copy_inRange {n : Nat} (hn : n ≤ 2 ^ 32) {mem : Mem} {a : Addr}
    (h : ¬ InRange dest n a) : copy n dest src mem a = mem a := by
  refine copy_outside fun i hi heq => h ?_
  rw [heq]
  exact (inRange_ofNat (by omega)).mpr hi

/-- **ANY TWO RANGES**: the destination repeats the bytes below it, as far as they
    belong to the source, and nothing else changes; so all memories are copied just
    where the destination does not begin within the source. -/
theorem kmemcpy_exact (dest src : Addr) (size : Word) :
    (∀ (mem : Mem), ∀ i < size.toInt.toNat,
      kmemcpy dest src size mem (dest + BitVec.ofNat 32 i)
        = mem (src + BitVec.ofNat 32 (i % (dest - src).toNat))) ∧
    (∀ (mem : Mem) (a : Addr), ¬ InRange dest size.toInt.toNat a →
      kmemcpy dest src size mem a = mem a) ∧
    ((∀ (mem : Mem), ∀ i < size.toInt.toNat,
      kmemcpy dest src size mem (dest + BitVec.ofNat 32 i)
        = mem (src + BitVec.ofNat 32 i)) ↔
      dest = src ∨ size.toInt ≤ (dest - src).toNat) := by
  have hle : size.toInt.toNat ≤ 2 ^ 32 := by
    have hlt := BitVec.toInt_lt (x := size)
    omega
  simp only [kmemcpy_eq]
  refine ⟨fun mem i hi => copy_mem hle hi, fun mem a ha => copy_inRange hle ha, ?_⟩
  rw [copy_iff zero_ne_one_byte hle, Int.toNat_le]

/-- **THE STRING** at the destination goes on with the one that is behind it, so it is
    the source if and only if there is a NUL there already. -/
theorem kstrcpy_string {mem : Mem} {t : List Byte} (h : StringAt mem src t)
    (hlen : t.length < 2 ^ 31) (hover : dest = src ∨ t.length ≤ (dest - src).toNat) :
    ∃ mem', kstrcpy dest src mem = some mem' ∧
      (∀ r, StringAt mem (dest + BitVec.ofNat 32 t.length) r → t.length + r.length < 2 ^ 32 →
        StringAt mem' dest (t ++ r)) ∧
      (StringAt mem' dest t ↔ mem (dest + BitVec.ofNat 32 t.length) = 0) := by
  have hint : (BitVec.ofNat 32 t.length).toInt.toNat = t.length := by
    rw [BitVec.toInt_eq_toNat_cond, toNat_ofNat (by omega), if_pos (by omega)]
    rfl
  have hcopy : kstrcpy dest src mem = some (copy t.length dest src mem) := by
    unfold kstrcpy
    rw [kstrlen_eq h, Option.map_some, hint]
  have hin : ∀ k < t.length, copy t.length dest src mem (dest + BitVec.ofNat 32 k) = t.getD k 0 :=
    fun k hk => ((copy_iff zero_ne_one_byte (by omega)).mpr hover mem k hk).trans
      (h.byte k (Nat.le_of_lt hk))
  have hout : ∀ k, t.length ≤ k → k < 2 ^ 32 →
      copy t.length dest src mem (dest + BitVec.ofNat 32 k) = mem (dest + BitVec.ofNat 32 k) :=
    fun k hk hlt => copy_inRange (by omega) fun hk' =>
      absurd ((inRange_ofNat hlt).mp hk') (Nat.not_lt.mpr hk)
  refine ⟨_, hcopy, fun r hr hfit => ⟨?_, ?_, fun k hk => ?_⟩, fun hs => ?_, fun h0 => ?_⟩
  · rw [List.length_append]
    exact hfit
  · rw [List.mem_append, not_or]
    exact ⟨h.nonzero, hr.nonzero⟩
  · rw [List.length_append] at hk
    rcases Nat.lt_or_ge k t.length with hlt | hge
    · rw [hin k hlt, List.getD_append _ _ _ _ hlt]
    · rw [hout k hge (by omega), List.getD_append_right _ _ _ _ hge, ← hr.byte _ (by omega),
        BitVec.add_assoc, ← BitVec.ofNat_add, Nat.add_sub_cancel' hge]
  · have hend := hs.byte t.length (Nat.le_refl _)
    rwa [hout _ (Nat.le_refl _) (by omega), List.getD_eq_default _ _ (Nat.le_refl _)] at hend
  · refine ⟨h.fits, h.nonzero, fun k hk => ?_⟩
    rcases Nat.lt_or_eq_of_le hk with hlt | rfl
    · exact hin k hlt
    · rw [hout _ (Nat.le_refl _) (by omega), h0, List.getD_eq_default _ _ (Nat.le_refl _)]

end Copying

/-- A short name, and a longer one where it goes. -/
def names (a : Addr) : Byte :=
  match a.toNat with
  | 0x100 => 0x61
  | 0x101 => 0x62
  | 0x200 => 0x78
  | 0x201 => 0x79
  | 0x202 => 0x7A
  | _ => 0

/-- The last letter of the longer name stays. -/
theorem kstrcpy_string_names :
    ∃ mem', kstrcpy 0x200 0x100 names = some mem' ∧ StringAt mem' 0x200 [0x61, 0x62, 0x7A] := by
  have hname : StringAt names 0x100 [0x61, 0x62] := ⟨by decide, by decide, by decide⟩
  have hbehind : StringAt names 0x202 [0x7A] := ⟨by decide, by decide, by decide⟩
  have hover : (0x200 : Addr) = 0x100 ∨ 2 ≤ ((0x200 : Addr) - 0x100).toNat := .inr (by decide)
  obtain ⟨mem', hcopy, happend, -⟩ := kstrcpy_string hname (by decide) hover
  exact ⟨mem', hcopy, happend [0x7A] hbehind (by decide)⟩

end LittleOS.MemoryCopy
