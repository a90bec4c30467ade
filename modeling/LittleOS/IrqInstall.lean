import LittleOS.Gdt
import LittleOS.Lib.Descriptors

/-! # Interrupt gates

    `irq_segment_set` and `irq_install` of `irq.c`.  The first refuses an
    address above `0xFFFFF` and says so; the second does not look at what it
    says.

    * `irqInstall_gate` — the gate afterwards;
    * `installed_iff` — the answer of `irq_install` is right up to `0xFFFFF`,
      and above it only if there is nothing to do. -/

namespace LittleOS.IrqInstall

open Descriptors Gdt

/-- A handler's address. -/
abbrev Word := BitVec 32

/-- `irq_desc_t`. -/
structure IrqDesc where
  limit15_0 : BitVec 16
  selector : BitVec 16
  /-- `attribute`. -/
  attr : BitVec 16
  limit31_16 : BitVec 16
deriving DecidableEq, Repr

/-- The array `idt_table`, read at every index. -/
abbrev IdtTable := Nat → IrqDesc

/-- `IDT_SIZE` -/
def idtSize : Nat := 256

def gateTypeIdt : BitVec 16 := 0xE <<< 8
def gateP : BitVec 16 := 1 <<< 15
def gateDpl0 : BitVec 16 := 0 <<< 13

/-- `none`: the end of the function without a `return`. -/
def irqSegmentSet (table : IdtTable) (desc : Nat) (selector : BitVec 16) (offset : Word)
    (attr : BitVec 16) : Option Bool × IdtTable :=
  if offset > 0xFFFFF then (some false, table)
  else
    (none, Function.update table desc
      { limit15_0 := (offset &&& 0xFFFF).truncate 16
        selector := selector
        attr := attr
        limit31_16 := ((offset >>> 16) &&& 0xFFFF).truncate 16 })

/-- `irq_install`: it does not look at what `irq_segment_set` answers. -/
def irqInstall (table : IdtTable) (irqNum : BitVec 16) (handler : Word) : Bool × IdtTable :=
  if idtSize ≤ irqNum.toNat then (false, table)
  else
    (true, (irqSegmentSet table irqNum.toNat kernelSelectorCs handler
      (gateTypeIdt ||| gateP ||| gateDpl0)).2)

/-- The address in a gate. -/
def offsetOf (d : IrqDesc) : Word := d.limit31_16 ++ d.limit15_0

/-- The gate leads to the handler in the kernel's code. -/
def LeadsTo (d : IrqDesc) (handler : Word) : Prop :=
  offsetOf d = handler ∧ d.selector = kernelSelectorCs

instance (d : IrqDesc) (handler : Word) : Decidable (LeadsTo d handler) :=
  inferInstanceAs (Decidable (_ ∧ _))

/-- What `irq_install` should say and do. -/
structure Installs (table : IdtTable) (irqNum : BitVec 16) (handler : Word) : Prop where
  reported : (irqInstall table irqNum handler).1 = true ↔
    irqNum.toNat < idtSize ∧ LeadsTo ((irqInstall table irqNum handler).2 irqNum.toNat) handler
  refused : (irqInstall table irqNum handler).1 = false →
    (irqInstall table irqNum handler).2 = table
  others : ∀ i, i ≠ irqNum.toNat → (irqInstall table irqNum handler).2 i = table i

section Install

variable (table : IdtTable) (irqNum : BitVec 16) (handler : Word)

/-- The two halves of an address. -/
theorem halves (offset : Word) :
    ((offset >>> 16) &&& 0xFFFF).truncate 16 ++ (offset &&& 0xFFFF).truncate 16 = offset := by
  have hhigh : ((offset >>> 16) &&& 0xFFFF).truncate 16 = offset.extractLsb' 16 16 :=
    truncate_shift_mask offset 16 (by decide)
  have hlow : (offset &&& 0xFFFF).truncate 16 = offset.extractLsb' 0 16 :=
    truncate_shift_mask offset 0 (by decide)
  have happend : offset.extractLsb' 16 16 ++ offset.extractLsb' 0 16
      = offset.extractLsb' 0 (16 + 16) :=
    BitVec.extractLsb'_append_extractLsb'_eq_extractLsb' rfl
  rw [hhigh, hlow]
  exact happend.trans BitVec.extractLsb'_eq_self

/-- The other gates stay as they are. -/
theorem irqInstall_other {i : Nat} (h : i ≠ irqNum.toNat) :
    (irqInstall table irqNum handler).2 i = table i := by
  unfold irqInstall irqSegmentSet
  split
  · rfl
  · split
    · rfl
    · exact Function.update_of_ne h ..

variable {irqNum}

/-- It answers that it succeeded. -/
theorem irqInstall_fst (hnum : irqNum.toNat < idtSize) :
    (irqInstall table irqNum handler).1 = true := by
  unfold irqInstall
  rw [if_neg (Nat.not_le.mpr hnum)]

/-- **THE GATE** behind the call. -/
theorem irqInstall_gate (hnum : irqNum.toNat < idtSize) :
    LeadsTo ((irqInstall table irqNum handler).2 irqNum.toNat) handler ↔
      handler ≤ 0xFFFFF ∨ LeadsTo (table irqNum.toNat) handler := by
  unfold irqInstall irqSegmentSet
  rw [if_neg (Nat.not_le.mpr hnum)]
  by_cases hlarge : handler > 0xFFFFF
  · rw [if_pos hlarge]
    exact (or_iff_right (BitVec.not_le.mpr hlarge)).symm
  · rw [if_neg hlarge]
    refine iff_of_true ?_ (Or.inl (BitVec.not_lt.mp hlarge))
    dsimp only
    rw [Function.update_self]
    exact ⟨halves handler, rfl⟩

end Install

/-- **THE ANSWER** is right exactly for a vector out of range, an address the
    gate is set to, or one that it has already. -/
theorem installed_iff (table : IdtTable) (irqNum : BitVec 16) (handler : Word) :
    Installs table irqNum handler ↔
      idtSize ≤ irqNum.toNat ∨ handler ≤ 0xFFFFF ∨
        LeadsTo (table irqNum.toNat) handler := by
  by_cases hnum : irqNum.toNat < idtSize
  · rw [or_iff_right (Nat.not_le.mpr hnum), ← irqInstall_gate table handler hnum]
    have hsaid := irqInstall_fst table handler hnum
    constructor
    · intro h
      exact (h.reported.mp hsaid).2
    · intro h
      refine ⟨iff_of_true hsaid ⟨hnum, h⟩, ?_, fun i => irqInstall_other table irqNum handler⟩
      intro hfalse
      exact absurd (hsaid.symm.trans hfalse) (by decide)
  · -- no gate, and the table as it was
    have hout : irqInstall table irqNum handler = (false, table) :=
      if_pos (Nat.not_lt.mp hnum)
    refine iff_of_true ⟨?_, ?_, ?_⟩ (Or.inl (Nat.not_lt.mp hnum))
    · rw [hout]
      exact iff_of_false Bool.false_ne_true (fun h => hnum h.1)
    · intro _
      rw [hout]
    · intro i _
      rw [hout]

/-- A handler at 1 MB is reported and not installed. -/
theorem handler_not_installed :
    ¬ ∀ (table : IdtTable) (irqNum : BitVec 16) (handler : Word),
      Installs table irqNum handler := by
  intro h
  have hzero := (h (fun _ => ⟨0, 0, 0, 0⟩) 0 0x100000).reported.mp (by decide)
  exact absurd hzero.2 (by decide)

end LittleOS.IrqInstall
