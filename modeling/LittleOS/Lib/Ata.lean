import LittleOS.Lib.ByteStore

/-! # A disk drive behind its ports

    Reading from an ATA drive with 48-bit addresses by programmed transfer.  The
    address and count registers are two bytes deep; a command starts a transfer
    of whole sectors; the status tells when the next one is ready, and the data
    port gives its words.

    * `Disk` — a drive as the outside sees it: its contents, and how long each
      sector takes;
    * `Transfer.next` — where a transfer stands after one word more;
    * `loaded_add` — memory that has been filled from the disk, piece by piece. -/

namespace Ata

open ByteStore

/-- A 16-bit value of the data port. -/
abbrev Half := BitVec 16

/-- The registers and the data port. -/
inductive Port where
  | data
  | count
  | lbaLow
  | lbaMid
  | lbaHigh
  | device
  | command
deriving DecidableEq, Repr

/-- A register that keeps the byte before. -/
structure Fifo where
  previous : Byte
  current : Byte
deriving DecidableEq, Repr

/-- A write keeps the previous value. -/
def Fifo.write (f : Fifo) (b : Byte) : Fifo := ⟨f.current, b⟩

/-- The registers of a command, each two deep. -/
structure Registers where
  count : Fifo
  lbaLow : Fifo
  lbaMid : Fifo
  lbaHigh : Fifo
  device : Byte
deriving DecidableEq, Repr

/-- The 48-bit address. -/
def Registers.lba (r : Registers) : Nat :=
  2 ^ 40 * r.lbaHigh.previous.toNat + 2 ^ 32 * r.lbaMid.previous.toNat
    + 2 ^ 24 * r.lbaLow.previous.toNat + 2 ^ 16 * r.lbaHigh.current.toNat
    + 2 ^ 8 * r.lbaMid.current.toNat + r.lbaLow.current.toNat

/-- The number of sectors; zero stands for `2 ^ 16`. -/
def Registers.sectors (r : Registers) : Nat :=
  let n := 2 ^ 8 * r.count.previous.toNat + r.count.current.toNat
  if n = 0 then 2 ^ 16 else n

/-- `BSY` and `DRQ` of the status. -/
def statusMask : Byte := 0x88

/-- `DRQ`. -/
def dataRequest : Byte := 0x08

/-- What a drive holds, how often the status must be read before a sector is
    ready, and the bytes it may show meanwhile. -/
structure Disk where
  word : Nat → Nat → Half
  polls : Nat → Nat
  busy : Nat → Byte
  ready : Byte
  idle : Byte
  noData : Half
  busy_status : ∀ n, busy n &&& statusMask ≠ dataRequest
  ready_status : ready &&& statusMask = dataRequest

/-- A transfer stands at one word of a sector, with this many sectors left. -/
structure Transfer where
  sector : Nat
  left : Nat
  wait : Nat
  index : Nat
deriving DecidableEq, Repr

/-- The drive: its registers and the transfer that is going on. -/
structure Drive where
  regs : Registers
  transfer : Option Transfer
deriving DecidableEq, Repr

/-- `READ SECTORS EXT`. -/
def readSectorsExt : Byte := 0x24

section Ports

variable (d : Disk)

/-- A sector is asked for. -/
def seek (sector left : Nat) : Transfer := ⟨sector, left, d.polls sector, 0⟩

/-- One word more has been read. -/
def Transfer.next (t : Transfer) : Option Transfer :=
  if t.index + 1 < 256 then some { t with index := t.index + 1 }
  else if 1 < t.left then some (seek d (t.sector + 1) (t.left - 1))
  else none

/-- A byte is written to a register.  A command for the other drive, or without
    `LBA`, starts nothing here. -/
def write (p : Port) (b : Byte) (s : Drive) : Drive :=
  match p with
  | .data => s
  | .count => { s with regs := { s.regs with count := s.regs.count.write b } }
  | .lbaLow => { s with regs := { s.regs with lbaLow := s.regs.lbaLow.write b } }
  | .lbaMid => { s with regs := { s.regs with lbaMid := s.regs.lbaMid.write b } }
  | .lbaHigh => { s with regs := { s.regs with lbaHigh := s.regs.lbaHigh.write b } }
  | .device => { s with regs := { s.regs with device := b } }
  | .command =>
      if b = readSectorsExt ∧ s.regs.device &&& 0x50 = 0x40 then
        { s with transfer := some (seek d s.regs.lba s.regs.sectors) }
      else s

/-- The status is read. -/
def status (s : Drive) : Byte × Drive :=
  match s.transfer with
  | none => (d.idle, s)
  | some t =>
      if t.wait = 0 then (d.ready, s)
      else (d.busy t.wait, { s with transfer := some { t with wait := t.wait - 1 } })

/-- A word is read. -/
def readData (s : Drive) : Half × Drive :=
  match s.transfer with
  | none => (d.noData, s)
  | some t =>
      if t.wait = 0 then (d.word t.sector t.index, { s with transfer := t.next d })
      else (d.noData, s)

end Ports

/-! ## Bytes in memory -/

/-- The bytes of the disk, numbered through. -/
def Disk.byte (d : Disk) (n : Nat) : Byte :=
  (d.word (n / 512) (n % 512 / 2) >>> (8 * (n % 2))).setWidth 8

/-- The word at an address. -/
def write16 (mem : Mem) (a : Addr) (w : Half) : Mem :=
  Function.update (Function.update mem a (w.setWidth 8)) (a + 1) ((w >>> 8).setWidth 8)

/-- The memory after `n` bytes of the disk, from number `start` on, have gone to
    the addresses from `buf` on. -/
def loaded (d : Disk) (start : Nat) (buf : Addr) (n : Nat) (mem : Mem) : Mem :=
  fun a => if InRange buf n a then d.byte (start + (a - buf).toNat) else mem a

section Loaded

variable {d : Disk} {start n : Nat} {buf a : Addr} {mem : Mem}

/-- A byte that was loaded is that of the disk. -/
theorem loaded_in (h : (a - buf).toNat < n) :
    loaded d start buf n mem a = d.byte (start + (a - buf).toNat) := if_pos h

/-- All others are as they were. -/
theorem loaded_out (h : ¬ (a - buf).toNat < n) : loaded d start buf n mem a = mem a := if_neg h

/-- Nothing loaded. -/
theorem loaded_zero (d : Disk) (start : Nat) (buf : Addr) (mem : Mem) :
    loaded d start buf 0 mem = mem := by
  funext a
  exact loaded_out (Nat.not_lt_zero _)

/-- **PIECE BY PIECE**: two pieces one behind the other are one. -/
theorem loaded_add (d : Disk) (start : Nat) (buf : Addr) {m n : Nat} (mem : Mem)
    (h : m + n ≤ 2 ^ 32) :
    loaded d (start + m) (buf + BitVec.ofNat 32 m) n (loaded d start buf m mem)
      = loaded d start buf (m + n) mem := by
  rcases Nat.lt_or_ge m (2 ^ 32) with hm | hm
  · funext a
    have hlt := (a - buf).isLt
    have hsub : a - (buf + BitVec.ofNat 32 m) = a - buf - BitVec.ofNat 32 m := by
      bv_omega
    have hoff := BitVec.toNat_sub (a - buf) (BitVec.ofNat 32 m)
    rw [← hsub, toNat_ofNat hm] at hoff
    by_cases hle : m ≤ (a - buf).toNat
    · have hrest : (a - (buf + BitVec.ofNat 32 m)).toNat = (a - buf).toNat - m := by omega
      by_cases hin : (a - buf).toNat < m + n
      · rw [loaded_in (by omega), loaded_in hin, hrest]
        congr 1
        omega
      · rw [loaded_out (by omega), loaded_out (by omega), loaded_out hin]
    · rw [loaded_out (by omega), loaded_in (by omega), loaded_in (by omega)]
  · obtain rfl : n = 0 := by omega
    rw [loaded_zero, Nat.add_zero]

/-- One word. -/
theorem write16_loaded (d : Disk) {sector i : Nat} (hi : i < 256) (buf : Addr) (mem : Mem) :
    write16 mem buf (d.word sector i) = loaded d (512 * sector + 2 * i) buf 2 mem := by
  have hbyte : ∀ k < 2, d.byte (512 * sector + 2 * i + k)
      = (d.word sector i >>> (8 * k)).setWidth 8 := by
    intro k hk
    rw [Disk.byte, show (512 * sector + 2 * i + k) / 512 = sector by omega,
      show (512 * sector + 2 * i + k) % 512 / 2 = i by omega,
      show (512 * sector + 2 * i + k) % 2 = k by omega]
  funext a
  unfold write16
  by_cases h1 : a = buf + 1
  · have hoff : (a - buf).toNat = 1 := by
      rw [h1, BitVec.add_comm, BitVec.add_sub_cancel]
      rfl
    rw [loaded_in (by omega), hoff, hbyte 1 (by decide), h1, Function.update_self]
  · rw [Function.update_of_ne h1]
    by_cases h0 : a = buf
    · have hoff : (a - buf).toNat = 0 := by
        rw [h0, BitVec.sub_self]
        rfl
      rw [loaded_in (by omega), hoff, hbyte 0 (by decide), h0, Function.update_self]
      exact congrArg (BitVec.setWidth 8) (BitVec.ushiftRight_zero _).symm
    · rw [Function.update_of_ne h0, loaded_out]
      bv_omega

end Loaded

end Ata
