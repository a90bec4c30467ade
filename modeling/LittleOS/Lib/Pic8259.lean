import Mathlib.Data.List.Nodup
import Mathlib.Data.List.Perm.Subperm
import Mathlib.Algebra.Order.Ring.Nat

/-! # A pair of 8259A interrupt controllers

    Edge-triggered lines in fixed priority, line 0 the highest.  A request is
    held until it is accepted; an accepted line is in service until an EOI, and
    while it is, neither it nor any line behind it is accepted.  The second
    controller is on line 2 of the first.

    * `asks_some` — the line a controller asks with;
    * `Descending.snoc` — the lines in service that nobody ends come one before
      the other, so there are few of them. -/

namespace Pic8259

/-- A byte. -/
abbrev Byte := BitVec 8

/-- What the next byte at the data port is. -/
inductive Expects where
  | icw2
  | icw3
  | icw4
  | mask
deriving DecidableEq, Repr

/-- A controller: requests, interrupts in service, the mask, and what its initialisation
    chose. -/
structure Chip where
  irr : Byte
  isr : Byte
  imr : Byte
  base : Byte
  cascade : Byte
  autoEoi : Bool
  single : Bool
  needsIcw4 : Bool
  expects : Expects
deriving DecidableEq, Repr

namespace Chip

/-- A byte to the control port: `ICW1` starts the initialisation and clears the
    requests, what is in service and the mask; the non-specific EOI ends the line
    of the highest priority.  The other commands are left out. -/
def writeControl (c : Chip) (b : Byte) : Chip :=
  if b.getLsbD 4 then
    { c with irr := 0, isr := 0, imr := 0, autoEoi := false
             single := b.getLsbD 1, needsIcw4 := b.getLsbD 0, expects := .icw2 }
  else if b = 0x20 then { c with isr := c.isr &&& (c.isr - 1) }
  else c

/-- What follows the third initialisation word. -/
def afterIcw3 (c : Chip) : Expects := if c.needsIcw4 then .icw4 else .mask

/-- A byte to the data port. -/
def writeData (c : Chip) (b : Byte) : Chip :=
  match c.expects with
  | .icw2 =>
      { c with base := b &&& 0xF8
               expects := if c.single then c.afterIcw3 else .icw3 }
  | .icw3 => { c with cascade := b, expects := c.afterIcw3 }
  | .icw4 => { c with autoEoi := b.getLsbD 1, expects := .mask }
  | .mask => { c with imr := b }

/-- The data port reads the mask. -/
def readData (c : Chip) : Byte := c.imr

end Chip

/-- The lowest bit that is set. -/
def lowest (b : Byte) : Option Nat := (List.range 8).find? fun k => b.getLsbD k

/-- No line up to `k` is in service. -/
def Free (c : Chip) (k : Nat) : Prop := ∀ j ≤ k, c.isr.getLsbD j = false

instance (c : Chip) (k : Nat) : Decidable (Free c k) :=
  decidable_of_iff (∀ j < k + 1, c.isr.getLsbD j = false)
    (forall_congr' fun _ => imp_congr_left Nat.lt_succ_iff)

/-- The line that a controller asks for service with, of those requested. -/
def asks (c : Chip) (requests : Byte) : Option Nat :=
  (lowest (requests &&& ~~~c.imr)).filter fun k => Free c k

/-- A byte with one bit. -/
def bit (k : Nat) : Byte := BitVec.twoPow 8 k

/-- The line is accepted. -/
def Chip.accept (c : Chip) (k : Nat) : Chip :=
  { c with irr := c.irr &&& ~~~bit k
           isr := if c.autoEoi then c.isr else c.isr ||| bit k }

/-- Two controllers, the second one behind a line of the first. -/
structure Pair where
  master : Chip
  slave : Chip
deriving DecidableEq, Repr

namespace Pair

/-- The line on which the second one asks. -/
def slaveAsks (p : Pair) : Option Nat := asks p.slave p.slave.irr

/-- The second controller asks through line 2. -/
def masterAsks (p : Pair) : Option Nat :=
  asks p.master (if p.slaveAsks.isSome then p.master.irr ||| bit 2 else p.master.irr)

/-- The processor accepts: the vector, and the pair afterwards. -/
def accept (p : Pair) : Option (Byte × Pair) :=
  p.masterAsks.map fun k =>
    match if k = 2 ∧ p.master.cascade = 0x04 ∧ p.slave.cascade = 0x02 then p.slaveAsks
      else none with
    | some j => (p.slave.base + BitVec.ofNat 8 j, ⟨p.master.accept 2, p.slave.accept j⟩)
    | none => (p.master.base + BitVec.ofNat 8 k, ⟨p.master.accept k, p.slave⟩)

/-- A device requests service on one of the lines 0 to 15, of which line 2 is taken. -/
def request (p : Pair) (n : Nat) : Pair :=
  if n = 2 then p
  else if n < 8 then { p with master := { p.master with irr := p.master.irr ||| bit n } }
  else { p with slave := { p.slave with irr := p.slave.irr ||| bit (n - 8) } }

end Pair

/-! ## Priority -/

section Priority

variable {c : Chip} {b : Byte} {k : Nat}

/-- The lowest bit is set and none below it. -/
theorem lowest_some (h : lowest b = some k) :
    k < 8 ∧ b.getLsbD k = true ∧ ∀ j < k, b.getLsbD j = false := by
  rw [lowest, List.find?_range_eq_some] at h
  obtain ⟨hk, hmem, hlow⟩ := h
  refine ⟨List.mem_range.mp hmem, hk, fun j hj => ?_⟩
  simpa using hlow j hj

/-- A request on line 0 comes before all others. -/
theorem lowest_zero (h : b.getLsbD 0 = true) : lowest b = some 0 := by
  rw [lowest, List.find?_range_eq_some]
  exact ⟨h, by decide, fun j hj => absurd hj (Nat.not_lt_zero j)⟩

/-- What is asked for is a request that nothing in service holds back. -/
theorem asks_some (h : asks c b = some k) : k < 8 ∧ b.getLsbD k = true ∧ Free c k := by
  obtain ⟨hlow, hfree⟩ := Option.filter_eq_some_iff.mp h
  obtain ⟨hk, hbit, -⟩ := lowest_some hlow
  rw [BitVec.getLsbD_and, Bool.and_eq_true] at hbit
  exact ⟨hk, hbit.1, by simpa using hfree⟩

/-- Line 0 goes first. -/
theorem asks_zero (h : b.getLsbD 0 = true) (hm : c.imr.getLsbD 0 = false)
    (hs : c.isr.getLsbD 0 = false) : asks c b = some 0 := by
  refine Option.filter_eq_some_iff.mpr ⟨lowest_zero ?_, ?_⟩
  · rw [BitVec.getLsbD_and, BitVec.getLsbD_not, h, hm]
    rfl
  · have hfree : Free c 0 := by
      intro j hj
      rw [Nat.le_zero.mp hj]
      exact hs
    simpa using hfree

/-- What is in service after a line has been accepted. -/
theorem accept_isr (ha : c.autoEoi = false) (hk : k < 8) (j : Nat) :
    (c.accept k).isr.getLsbD j = (c.isr.getLsbD j || decide (j = k)) := by
  have hisr : (c.accept k).isr = c.isr ||| bit k := if_neg (by simp [ha])
  rw [hisr, BitVec.getLsbD_or, bit, BitVec.getLsbD_twoPow, decide_eq_true hk, Bool.true_and,
    decide_eq_decide.mpr eq_comm]

/-- The EOI while line 0 is in service ends that one. -/
theorem eoi_isr (h : c.isr.getLsbD 0 = true) (j : Nat) :
    (c.writeControl 0x20).isr.getLsbD j = (c.isr.getLsbD j && decide (j ≠ 0)) := by
  have hclear : ∀ b : Byte, b.getLsbD 0 = true → b &&& (b - 1) = b &&& 0xFE := by
    decide +kernel
  have hisr : (c.writeControl 0x20).isr = c.isr &&& 0xFE := hclear c.isr h
  have hmask : ∀ j < 8, (0xFE : Byte).getLsbD j = decide (j ≠ 0) := by decide
  rw [hisr, BitVec.getLsbD_and]
  by_cases hj : j < 8
  · rw [hmask j hj]
  · rw [BitVec.getLsbD_of_ge c.isr j (by omega), Bool.false_and, Bool.false_and]

end Priority

/-! ## Lines that nobody ends -/

/-- Each came before the one before it. -/
def Descending (ls : List Nat) : Prop := ls.Pairwise (· > ·)

/-- A line of higher priority than all in service. -/
theorem Descending.snoc {ls : List Nat} {k : Nat} (h : Descending ls) (hk : ∀ j ∈ ls, k < j) :
    Descending (ls ++ [k]) := by
  refine List.pairwise_append.mpr ⟨h, List.pairwise_singleton _ _, fun j hj i hi => ?_⟩
  rw [List.mem_singleton.mp hi]
  exact hk j hj

/-- **FEW OF THEM**. -/
theorem Descending.length_le {ls : List Nat} {n : Nat} (h : Descending ls)
    (hpos : ∀ k ∈ ls, 0 < k ∧ k ≤ n) : ls.length ≤ n := by
  have hnd : ls.Nodup := h.imp fun hgt => Nat.ne_of_gt hgt
  have hsub : ls ⊆ List.range' 1 n := by
    intro k hk
    have := hpos k hk
    rw [List.mem_range'_1]
    omega
  exact (List.subperm_of_subset hnd hsub).length_le.trans_eq List.length_range'

end Pic8259
