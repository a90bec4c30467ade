import Mathlib.Algebra.Order.Ring.Int
import Mathlib.Logic.Function.Basic
import Mathlib.Tactic.TypeStar

/-! # Copying upwards

    Cells are copied one by one, from the first on, and the two ranges may
    overlap.  With the destination `d` cells above the source the copy repeats
    the first `d` cells of the source; addresses wrap, so `d` is never negative,
    and at 0 nothing changes.

    * `copy_mem` — what is in the destination afterwards;
    * `copy_iff` — when that is what was in the source. -/

namespace ForwardCopy

variable {w : Nat} {α : Type*}

/-- `while (n--) *dest++ = *src++`. -/
def copy : Nat → BitVec w → BitVec w → (BitVec w → α) → BitVec w → α
  | 0, _, _, mem => mem
  | n + 1, dest, src, mem => copy n (dest + 1) (src + 1) (Function.update mem dest (mem src))

theorem add_succ_ofNat (a : BitVec w) (i : Nat) :
    a + BitVec.ofNat w (i + 1) = a + 1 + BitVec.ofNat w i := by
  rw [BitVec.add_assoc, Nat.add_comm, BitVec.ofNat_add]
  rfl

theorem add_ofNat_inj (a : BitVec w) {i j : Nat} (hi : i < 2 ^ w) (hj : j < 2 ^ w) :
    a + BitVec.ofNat w i = a + BitVec.ofNat w j ↔ i = j := by
  rw [BitVec.add_right_inj]
  constructor
  · intro h
    have hnat := congrArg BitVec.toNat h
    rwa [BitVec.toNat_ofNat, BitVec.toNat_ofNat, Nat.mod_eq_of_lt hi, Nat.mod_eq_of_lt hj]
      at hnat
  · rintro rfl
    rfl

/-- Outside of the destination nothing changes. -/
theorem copy_outside {n : Nat} {dest src a : BitVec w} {mem : BitVec w → α}
    (h : ∀ i < n, a ≠ dest + BitVec.ofNat w i) : copy n dest src mem a = mem a := by
  induction n generalizing dest src mem with
  | zero => rfl
  | succ n ih =>
      have hfirst : a ≠ dest := by
        simpa using h 0 (Nat.succ_pos n)
      refine (ih fun i hi => ?_).trans (Function.update_of_ne hfirst ..)
      rw [← add_succ_ofNat]
      exact h (i + 1) (Nat.succ_lt_succ hi)

/-- The destination is `d` cells above the source. -/
theorem dest_eq (dest src : BitVec w) : dest = src + BitVec.ofNat w (dest - src).toNat := by
  rw [BitVec.ofNat_toNat, BitVec.setWidth_eq, BitVec.add_comm, BitVec.sub_add_cancel]

/-- With the source in rounds of `d`.  Induction over the cells: the next one is read
    where the first one was written exactly at the end of a round. -/
theorem copy_rounds {n d i : Nat} {dest src : BitVec w} {mem : BitVec w → α} (hn : n ≤ 2 ^ w)
    (hlt : d < 2 ^ w) (hd : dest = src + BitVec.ofNat w d) (hi : i < n) :
    copy n dest src mem (dest + BitVec.ofNat w i) = mem (src + BitVec.ofNat w (i % d)) := by
  induction n generalizing i dest src mem with
  | zero => exact absurd hi (Nat.not_lt_zero i)
  | succ n ih =>
      show copy n (dest + 1) (src + 1) (Function.update mem dest (mem src)) _ = _
      cases i with
      | zero =>
          have hstays : copy n (dest + 1) (src + 1) (Function.update mem dest (mem src))
              (dest + BitVec.ofNat w 0) = mem src := by
            refine (copy_outside fun j hj => ?_).trans ?_
            · rw [← add_succ_ofNat]
              exact fun h => absurd ((add_ofNat_inj dest (by omega) (by omega)).mp h) (by omega)
            · rw [BitVec.add_zero, Function.update_self]
          rw [hstays, Nat.zero_mod, BitVec.add_zero]
      | succ i =>
          have hd' : dest + 1 = src + 1 + BitVec.ofNat w d := by
            rw [hd, BitVec.add_assoc, BitVec.add_assoc, BitVec.add_comm (BitVec.ofNat w d)]
          rw [add_succ_ofNat, ih (by omega) hd' (by omega), ← add_succ_ofNat]
          by_cases hround : i % d + 1 = d
          · have hnext : (i + 1) % d = 0 := by
              rw [← Nat.mod_add_mod, hround, Nat.mod_self]
            rw [hround, ← hd, Function.update_self, hnext, BitVec.add_zero]
          · have hnext : (i + 1) % d = i % d + 1 := by
              rcases Nat.eq_zero_or_pos d with rfl | hpos
              · rw [Nat.mod_zero, Nat.mod_zero]
              · have hmod := Nat.mod_lt i hpos
                rw [← Nat.mod_add_mod, Nat.mod_eq_of_lt (by omega)]
            have hle := Nat.mod_le i d
            rw [hnext, Function.update_of_ne]
            rw [hd]
            exact fun h => hround ((add_ofNat_inj src (by omega) hlt).mp h)

/-- **THE COPY**: cell `i` is that of the source at `i` modulo the distance. -/
theorem copy_mem {n i : Nat} {dest src : BitVec w} {mem : BitVec w → α} (hn : n ≤ 2 ^ w)
    (hi : i < n) :
    copy n dest src mem (dest + BitVec.ofNat w i)
      = mem (src + BitVec.ofNat w (i % (dest - src).toNat)) :=
  copy_rounds hn (dest - src).isLt (dest_eq dest src) hi

/-- **WHATEVER THE CELLS HOLD**, they are copied if and only if no cell of the source
    is written before it is read. -/
theorem copy_iff {x y : α} (hxy : x ≠ y) {n : Nat} {dest src : BitVec w} (hn : n ≤ 2 ^ w) :
    (∀ (mem : BitVec w → α), ∀ i < n,
      copy n dest src mem (dest + BitVec.ofNat w i) = mem (src + BitVec.ofNat w i)) ↔
        dest = src ∨ n ≤ (dest - src).toNat := by
  obtain ⟨d, hd⟩ : ∃ d, d = (dest - src).toNat := ⟨_, rfl⟩
  have hdest := dest_eq dest src
  have hlt := (dest - src).isLt
  rw [← hd] at hdest hlt ⊢
  constructor
  · intro h
    by_contra hnot
    rw [not_or, Nat.not_le] at hnot
    -- a memory in which the first cell of the source differs from all others
    have hcell := h (Function.update (fun _ => x) src y) d hnot.2
    have hne : src + BitVec.ofNat w d ≠ src := hdest ▸ hnot.1
    rw [copy_mem hn hnot.2, ← hd, Nat.mod_self, BitVec.add_zero, Function.update_self,
      Function.update_of_ne hne] at hcell
    exact hxy hcell.symm
  · rintro (rfl | hle) mem i hi
    · rw [copy_mem hn hi, BitVec.sub_self, BitVec.toNat_zero, Nat.mod_zero]
    · rw [copy_mem hn hi, ← hd, Nat.mod_eq_of_lt (Nat.lt_of_lt_of_le hi hle)]

end ForwardCopy
