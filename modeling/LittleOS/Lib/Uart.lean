import Mathlib.Algebra.Order.Ring.Int
import Mathlib.Logic.Function.Iterate
import Mathlib.Order.Lattice

/-! # A serial port with a FIFO

    A 16550 as the sender sees it.  What is written to the data register waits in
    a FIFO until the line takes it, in the format and at the speed that are set
    then; the divisor lies behind the same two offsets as the data and the
    interrupt register.  Nothing is known of when the line takes a character,
    but that it always takes one more.

    * `Registers.write` — the registers, with the latch for the divisor;
    * `carried` — what the line has had, and what it will get;
    * `elapse_carried` — it does not depend on how fast the line is. -/

namespace Uart

/-- A byte. -/
abbrev Byte := BitVec 8
abbrev Half := BitVec 16

/-- The registers that can be written, and whether the FIFO is on. -/
structure Registers where
  divisor : Half
  ier : Byte
  lcr : Byte
  mcr : Byte
  fifoEnabled : Bool
deriving DecidableEq, Repr

/-- The divisor latch is open. -/
def Registers.dlab (r : Registers) : Bool := r.lcr.getLsbD 7

/-- What is sent comes back, and the line stays idle. -/
def Registers.loopback (r : Registers) : Bool := r.mcr.getLsbD 4

/-- A character on the line, with the divisor and the format it is sent with. -/
structure Sent where
  byte : Byte
  divisor : Half
  format : BitVec 7
deriving DecidableEq, Repr

/-- A byte as it goes out with these registers. -/
def Registers.send (r : Registers) (b : Byte) : Sent := ⟨b, r.divisor, r.lcr.setWidth 7⟩

/-- `time` counts the accesses. -/
structure Chip where
  regs : Registers
  pending : List Byte
  line : List Sent
  time : Nat
deriving DecidableEq, Repr

/-- How many characters the line is ready for before each access, and the other
    bits of the line status there. -/
structure Outside where
  rate : Nat → Nat
  status : Nat → Byte
  goes_on : ∀ t, ∃ k, 0 < rate (t + k)

/-- The line takes a character. -/
def Chip.shift (c : Chip) : Chip :=
  match c.pending with
  | [] => c
  | b :: bs =>
      { c with
        pending := bs
        line := if c.regs.loopback then c.line else c.line ++ [c.regs.send b] }

section Ports

variable (o : Outside)

/-- Up to the next access. -/
def elapse (c : Chip) : Chip := { Chip.shift^[o.rate c.time] c with time := c.time + 1 }

/-- A byte is written to the register at an offset. -/
def Registers.write (r : Registers) (offset : Nat) (b : Byte) : Registers :=
  match offset with
  | 0 => if r.dlab then { r with divisor := r.divisor.extractLsb' 8 8 ++ b } else r
  | 1 =>
      if r.dlab then { r with divisor := b ++ r.divisor.extractLsb' 0 8 }
      else { r with ier := b &&& 0x0F }
  | 2 => { r with fifoEnabled := b.getLsbD 0 }
  | 3 => { r with lcr := b }
  | 4 => { r with mcr := b &&& 0x1F }
  | _ => r

/-- The FIFO has 16 places. -/
def Registers.places (r : Registers) : Nat := if r.fifoEnabled then 16 else 1

/-- A full FIFO takes no more; without it the last character is overwritten. -/
def Chip.put (c : Chip) (b : Byte) : List Byte :=
  if c.pending.length < c.regs.places then c.pending ++ [b]
  else if c.regs.fifoEnabled then c.pending
  else [b]

/-- What waits after a byte has been written.  In the FIFO control register bit 0
    turns the FIFO on or off, which empties it, as bit 2 does. -/
def Chip.pendingAfter (c : Chip) (offset : Nat) (b : Byte) : List Byte :=
  match offset with
  | 0 => if c.regs.dlab then c.pending else c.put b
  | 2 =>
      if b.getLsbD 0 ≠ c.regs.fifoEnabled ∨ b.getLsbD 0 ∧ b.getLsbD 2 then [] else c.pending
  | _ => c.pending

/-- A write to a register. -/
def Chip.write (c : Chip) (offset : Nat) (b : Byte) : Chip :=
  { c with
    regs := c.regs.write offset b
    pending := c.pendingAfter offset b }

/-- Bit 5 of the line status: nothing waits. -/
def Chip.lineStatus (c : Chip) : Byte :=
  if c.pending = [] then o.status c.time ||| 0x20 else o.status c.time &&& ~~~0x20

/-- A write goes to the registers. -/
@[simp] theorem write_regs (c : Chip) (offset : Nat) (b : Byte) :
    (c.write offset b).regs = c.regs.write offset b := rfl

/-- A write to the data register is to be sent. -/
@[simp] theorem write_pending (c : Chip) (offset : Nat) (b : Byte) :
    (c.write offset b).pending = c.pendingAfter offset b := rfl

end Ports

/-! ## What the line carries -/

/-- What has been on the line, and what waits for it. -/
def carried (c : Chip) : List Sent := c.line ++ c.pending.map c.regs.send

section Line

variable {o : Outside} {c : Chip}

/-- Sending leaves the registers. -/
theorem shift_regs (c : Chip) : c.shift.regs = c.regs := by
  unfold Chip.shift
  split <;> rfl

/-- Sending takes the first byte. -/
theorem shift_pending (c : Chip) : c.shift.pending = c.pending.drop 1 := by
  unfold Chip.shift
  split <;> simp_all

/-- A byte that was to be sent is sent, unless it loops back. -/
theorem shift_carried (h : c.regs.loopback = false) : carried c.shift = carried c := by
  unfold carried
  rw [shift_regs]
  unfold Chip.shift
  split
  · rfl
  · next b bs hpending =>
      dsimp only
      rw [if_neg (by simp [h]), hpending, List.map_cons, List.append_assoc]
      rfl

/-- Sending several leaves the registers. -/
theorem shifts_regs (n : Nat) (c : Chip) : (Chip.shift^[n] c).regs = c.regs := by
  induction n generalizing c with
  | zero => rfl
  | succ n ih => exact (ih c.shift).trans (shift_regs c)

/-- Sending several takes the first ones. -/
theorem shifts_pending (n : Nat) (c : Chip) :
    (Chip.shift^[n] c).pending = c.pending.drop n := by
  induction n generalizing c with
  | zero => rfl
  | succ n ih =>
      refine (ih c.shift).trans ?_
      rw [shift_pending, List.drop_drop, Nat.add_comm]

/-- All of them are sent. -/
theorem shifts_carried (n : Nat) (h : c.regs.loopback = false) :
    carried (Chip.shift^[n] c) = carried c := by
  induction n generalizing c with
  | zero => rfl
  | succ n ih => exact (ih (by rw [shift_regs, h])).trans (shift_carried h)

/-- Time leaves the registers. -/
theorem elapse_regs (o : Outside) (c : Chip) : (elapse o c).regs = c.regs := shifts_regs _ c

/-- Time sends as much as the line's speed allows. -/
theorem elapse_pending (o : Outside) (c : Chip) :
    (elapse o c).pending = c.pending.drop (o.rate c.time) := shifts_pending _ c

/-- **WHATEVER THE SPEED**, what is carried is the same. -/
theorem elapse_carried (o : Outside) (h : c.regs.loopback = false) :
    carried (elapse o c) = carried c := shifts_carried _ h

/-- The status says whether something is still to be sent. -/
theorem lineStatus_empty (o : Outside) (c : Chip) :
    c.lineStatus o &&& 0x20 ≠ 0 ↔ c.pending = [] := by
  unfold Chip.lineStatus
  have hbit : ∀ b : Byte, (b ||| 0x20) &&& 0x20 ≠ 0 ∧ b &&& ~~~0x20 &&& 0x20 = 0 := by decide
  by_cases h : c.pending = []
  · rw [if_pos h]
    exact iff_of_true (hbit _).1 h
  · rw [if_neg h]
    exact iff_of_false (not_not.mpr (hbit _).2) h

/-- The divisor, through the open latch. -/
theorem write_divisor {r : Registers} (h : r.dlab = true) (low high : Byte) :
    (r.write 0 low).write 1 high = { r with divisor := high ++ low } := by
  have hlow : r.write 0 low = { r with divisor := r.divisor.extractLsb' 8 8 ++ low } := if_pos h
  rw [hlow]
  refine (if_pos h).trans ?_
  dsimp only
  rw [BitVec.extractLsb'_append_eq_right]

/-- Into an empty FIFO there is always room. -/
theorem put_empty (h : c.pending = []) (b : Byte) : c.put b = [b] := by
  have hroom : c.pending.length < c.regs.places := by
    rw [h]
    unfold Registers.places
    split <;> decide
  unfold Chip.put
  rw [if_pos hroom, h]
  rfl

/-- A byte written to an empty line is the one to be sent. -/
theorem write_data (hdlab : c.regs.dlab = false) (h : c.pending = []) (b : Byte) :
    c.write 0 b = { c with pending := [b] } := by
  have hregs : c.regs.write 0 b = c.regs := if_neg (by simp [hdlab])
  have hpending : c.pendingAfter 0 b = [b] := (if_neg (by simp [hdlab])).trans (put_empty h b)
  unfold Chip.write
  rw [hregs, hpending]

end Line

end Uart
