import Mathlib.Data.List.GetD
import LittleOS.Lib.Ata
import LittleOS.ReadElf

/-! # Loading the kernel

    `load2mem` of `loader32.c` on the drive of `LittleOS.Lib.Ata`, and
    `loader32c_entry` with the `read_elf` of `LittleOS.ReadElf`.  The polling
    loop has no bound in the source; here it takes some fuel, and any fuel above
    what the drive needs is enough.

    * `load2mem_reads` — the sectors asked for lie in the buffer, whatever the
      registers held before;
    * `kernel_loaded` — from the disk to the entry point. -/

namespace LittleOS.Loader32

open ByteStore Ata ReadElf

/-- The ports of the first drive. -/
def portOf : Nat → Option Port
  | 0x1F0 => some .data
  | 0x1F2 => some .count
  | 0x1F3 => some .lbaLow
  | 0x1F4 => some .lbaMid
  | 0x1F5 => some .lbaHigh
  | 0x1F6 => some .device
  | 0x1F7 => some .command
  | _ => none

section Source

variable (d : Disk)

/-- `outb` on the ports of the drive. -/
def outb (port : Nat) (data : Byte) (s : Drive) : Drive :=
  match portOf port with
  | some p => write d p data s
  | none => s

/-- Of the registers only the status is read. -/
def inb (port : Nat) (s : Drive) : Byte × Drive :=
  match portOf port with
  | some .command => status d s
  | _ => (d.idle, s)

/-- `inw` on the ports of the drive. -/
def inw (port : Nat) (s : Drive) : Half × Drive :=
  match portOf port with
  | some .data => readData d s
  | _ => (d.noData, s)

/-- `SECTOR_SIZE`. -/
def sectorSize : Nat := 512

/-- The loop that polls the status. -/
def pollLoop : Nat → Drive → Option Drive
  | 0, _ => none
  | fuel + 1, s =>
      let (b, s) := inb d 0x1F7 s
      if b &&& 0x88 ≠ 0x8 then pollLoop fuel s else some s

/-- The loop over the words of a sector, with the number of turns to come. -/
def wordLoop : Nat → Addr → Mem → Drive → Mem × Drive
  | 0, _, mem, s => (mem, s)
  | n + 1, dataBuf, mem, s =>
      let (w, s) := inw d 0x1F0 s
      wordLoop n (dataBuf + 2) (write16 mem dataBuf w) s

/-- The loop over the sectors. -/
def sectorLoop (fuel : Nat) : Nat → Addr → Mem → Drive → Option (Mem × Drive)
  | 0, _, mem, s => some (mem, s)
  | n + 1, dataBuf, mem, s =>
      (pollLoop d fuel s).bind fun s =>
        let (mem, s) := wordLoop d (sectorSize / 2) dataBuf mem s
        sectorLoop fuel n (dataBuf + BitVec.ofNat 32 sectorSize) mem s

/-- The writes to the registers. -/
def request (sector : Word) (sectorCount : BitVec 16) (s : Drive) : Drive :=
  let s := outb d 0x1F6 0xE0 s
  let s := outb d 0x1F2 ((sectorCount >>> 8).setWidth 8) s
  let s := outb d 0x1F3 ((sector >>> 24).setWidth 8) s
  let s := outb d 0x1F4 0 s
  let s := outb d 0x1F5 0 s
  let s := outb d 0x1F2 (sectorCount.setWidth 8) s
  let s := outb d 0x1F3 (sector.setWidth 8) s
  let s := outb d 0x1F4 ((sector >>> 8).setWidth 8) s
  let s := outb d 0x1F5 ((sector >>> 16).setWidth 8) s
  outb d 0x1F7 0x24 s

/-- `load2mem`: the request, and one sector after the other. -/
def load2mem (fuel : Nat) (sector : Word) (sectorCount : BitVec 16) (buf : Addr) (mem : Mem)
    (s : Drive) : Option (Mem × Drive) :=
  sectorLoop d fuel sectorCount.toNat buf mem (request d sector sectorCount s)

/-- `KERNEL_ENTRY`. -/
def kernelEntry : Addr := 1024 * 1024

/-- `loader32c_entry` up to the call of the entry point. -/
def loader32cEntry (fuel : Nat) (mem : Mem) (s : Drive) : Option (Word × Mem × Drive) :=
  (load2mem d fuel 100 500 kernelEntry mem s).map fun (mem, s) =>
    let (entry, t) := readElf kernelEntry (Store.start mem)
    (entry, t.mem, s)

end Source

/-! ## Reading sectors -/

section Reading

variable {d : Disk} {fuel : Nat} {s : Drive}

/-- **POLLING** ends as soon as the sector is ready. -/
theorem pollLoop_ready {t : Transfer} (ht : s.transfer = some t) (hw : t.wait < fuel) :
    pollLoop d fuel s = some { s with transfer := some { t with wait := 0 } } := by
  induction fuel generalizing s t with
  | zero => exact absurd hw (Nat.not_lt_zero _)
  | succ fuel ih =>
      have hstatus : inb d 0x1F7 s = if t.wait = 0 then (d.ready, s)
          else (d.busy t.wait, { s with transfer := some { t with wait := t.wait - 1 } }) := by
        show status d s = _
        unfold status
        rw [ht]
      unfold pollLoop
      rw [hstatus]
      by_cases hzero : t.wait = 0
      · rw [if_pos hzero]
        dsimp only
        have hready : ¬ (d.ready &&& 0x88 ≠ 0x8) := not_not.mpr d.ready_status
        rw [if_neg hready, ← hzero, ← ht]
      · rw [if_neg hzero]
        dsimp only
        have hbusy : d.busy t.wait &&& 0x88 ≠ 0x8 := d.busy_status t.wait
        rw [if_pos hbusy]
        refine ih (t := { t with wait := t.wait - 1 }) rfl ?_
        show t.wait - 1 < fuel
        omega

/-- The words of one sector from word `i` on. -/
theorem wordLoop_reads {k left i : Nat} (n : Nat) (buf : Addr) (mem : Mem)
    (hin : i + (n + 1) = 256) (ht : s.transfer = some ⟨k, left, 0, i⟩) :
    wordLoop d (n + 1) buf mem s
      = (loaded d (512 * k + 2 * i) buf (2 * (n + 1)) mem,
          { s with transfer := if 1 < left then some (seek d (k + 1) (left - 1)) else none }) := by
  induction n generalizing i buf mem s with
  | zero =>
      have hread : inw d 0x1F0 s = (d.word k i, { s with
          transfer := if 1 < left then some (seek d (k + 1) (left - 1)) else none }) := by
        show readData d s = _
        simp [readData, ht, Transfer.next, show ¬ i + 1 < 256 by omega]
      unfold wordLoop
      rw [hread]
      dsimp only
      rw [write16_loaded d (by omega)]
      rfl
  | succ n ih =>
      have hread : inw d 0x1F0 s
          = (d.word k i, { s with transfer := some ⟨k, left, 0, i + 1⟩ }) := by
        show readData d s = _
        simp [readData, ht, Transfer.next, show i + 1 < 256 by omega]
      unfold wordLoop
      rw [hread]
      dsimp only
      rw [ih _ _ (by omega) rfl, write16_loaded d (by omega)]
      have hpieces := loaded_add d (512 * k + 2 * i) buf (m := 2) (n := 2 * (n + 1)) mem (by omega)
      rw [Nat.add_assoc] at hpieces
      rw [show 2 * (n + 1 + 1) = 2 + 2 * (n + 1) by omega, ← hpieces]
      rfl

/-- Where a drive stands that has been asked for `left` sectors from `k` on. -/
def Asked (d : Disk) (k left : Nat) (s : Drive) : Prop :=
  s.transfer = if left = 0 then none else some (seek d k left)

/-- **THE SECTORS** one after another.  Induction over those to come. -/
theorem sectorLoop_reads {n k left : Nat} (buf : Addr) (mem : Mem) (hn : n ≤ left)
    (hfits : 512 * n ≤ 2 ^ 32) (hfuel : ∀ j, k ≤ j → j < k + n → d.polls j < fuel)
    (ht : Asked d k left s) :
    ∃ s', sectorLoop d fuel n buf mem s = some (loaded d (512 * k) buf (512 * n) mem, s') ∧
      Asked d (k + n) (left - n) s' := by
  induction n generalizing k left buf mem s with
  | zero =>
      refine ⟨s, ?_, ht⟩
      rw [Nat.mul_zero, loaded_zero]
      rfl
  | succ n ih =>
      have hsome : s.transfer = some (seek d k left) := ht.trans (if_neg (by omega))
      have hnext : Asked d (k + 1) (left - 1) { s with
          transfer := if 1 < left then some (seek d (k + 1) (left - 1)) else none } := by
        unfold Asked
        by_cases hl : 1 < left
        · rw [if_neg (by omega : ¬ left - 1 = 0)]
          exact if_pos hl
        · rw [if_pos (by omega : left - 1 = 0)]
          exact if_neg hl
      have hwords := wordLoop_reads (d := d)
        (s := { s with transfer := some { seek d k left with wait := 0 } }) 255 buf mem rfl rfl
      obtain ⟨s', hloop, hasked⟩ := ih (buf + BitVec.ofNat 32 sectorSize)
        (loaded d (512 * k) buf 512 mem) (by omega) (by omega)
        (fun j h1 h2 => hfuel j (by omega) (by omega)) hnext
      refine ⟨s', ?_, ?_⟩
      · unfold sectorLoop
        rw [pollLoop_ready hsome (hfuel k (Nat.le_refl k) (by omega)), Option.bind_some]
        dsimp only
        rw [show sectorSize / 2 = 255 + 1 from rfl, hwords]
        refine hloop.trans ?_
        have hpieces := loaded_add d (512 * k) buf (m := 512) (n := 512 * n) mem (by omega)
        rw [show 512 * (n + 1) = 512 + 512 * n by omega, ← hpieces]
        rfl
      · rwa [show k + (n + 1) = k + 1 + n by omega, show left - (n + 1) = left - 1 - n by omega]

/-- The sectors that are asked for. -/
theorem request_asked (d : Disk) (sector : Word) (sectorCount : BitVec 16) (s : Drive) :
    Asked d sector.toNat (if sectorCount = 0 then 2 ^ 16 else sectorCount.toNat)
      (request d sector sectorCount s) := by
  obtain ⟨r, hr⟩ : ∃ r : Registers, r =
      { count := ⟨(sectorCount >>> 8).setWidth 8, sectorCount.setWidth 8⟩
        lbaLow := ⟨(sector >>> 24).setWidth 8, sector.setWidth 8⟩
        lbaMid := ⟨0, (sector >>> 8).setWidth 8⟩
        lbaHigh := ⟨0, (sector >>> 16).setWidth 8⟩
        device := 0xE0 } := ⟨_, rfl⟩
  have hstart : (request d sector sectorCount s).transfer = some (seek d r.lba r.sectors) := by
    have hdevice : (0xE0 : Byte) &&& 0x50 = 0x40 := by decide
    rw [hr]
    exact congrArg Drive.transfer (if_pos ⟨rfl, hdevice⟩)
  have hlba : r.lba = sector.toNat := by
    have hlt := sector.isLt
    simp [hr, Registers.lba, Nat.shiftRight_eq_div_pow]
    omega
  have hsectors : r.sectors = if sectorCount = 0 then 2 ^ 16 else sectorCount.toNat := by
    have hlt := sectorCount.isLt
    have hvalue : 2 ^ 8 * r.count.previous.toNat + r.count.current.toNat
        = sectorCount.toNat := by
      simp [hr, Nat.shiftRight_eq_div_pow]
      omega
    unfold Registers.sectors
    rw [hvalue]
    exact if_congr (by bv_omega) rfl rfl
  have hsome : r.sectors ≠ 0 := by
    rw [hsectors]
    split
    · decide
    · next hne => bv_omega
  rw [Asked, hstart, hlba, ← hsectors, if_neg hsome]

/-- **THE SECTORS** asked for lie in the buffer, and nothing else has changed there;
    the drive has no more to give.  This holds whatever the registers held and
    whatever had been asked for before. -/
theorem load2mem_reads {sector : Word} {sectorCount : BitVec 16} (hcount : sectorCount ≠ 0)
    (hfuel : ∀ j, sector.toNat ≤ j → j < sector.toNat + sectorCount.toNat → d.polls j < fuel)
    (buf : Addr) (mem : Mem) (s : Drive) :
    ∃ s', load2mem d fuel sector sectorCount buf mem s
        = some (loaded d (512 * sector.toNat) buf (512 * sectorCount.toNat) mem, s') ∧
      s'.transfer = none := by
  have hasked := request_asked d sector sectorCount s
  rw [if_neg hcount] at hasked
  have hlt := sectorCount.isLt
  obtain ⟨s', hloop, hend⟩ := sectorLoop_reads buf mem (Nat.le_refl sectorCount.toNat)
    (by omega) hfuel hasked
  exact ⟨s', hloop, hend.trans (if_pos (Nat.sub_self _))⟩

end Reading

/-! ## The kernel -/

section Kernel

variable {d : Disk} {fuel size : Nat}

/-- The memory with sectors 100 to 599 in it. -/
def withKernel (d : Disk) (mem : Mem) : Mem :=
  loaded d (512 * 100) kernelEntry (512 * 500) mem

/-- **FROM THE DISK** to the entry point.  Where the 500 sectors hold a well-formed
    image, the kernel is entered where the image says, every segment has the bytes
    of the disk and zeros behind them, and otherwise nothing has changed but the
    buffer. -/
theorem kernel_loaded (hfuel : ∀ j, 100 ≤ j → j < 600 → d.polls j < fuel) (mem : Mem)
    (s : Drive) (hsize : size ≤ 512 * 500)
    (h : WellFormed (withKernel d mem) kernelEntry size) :
    ∃ mem' s',
      loader32cEntry d fuel mem s = some (eEntry (withKernel d mem) kernelEntry, mem', s') ∧
      s'.transfer = none ∧
      (∀ i, Loadable (withKernel d mem) kernelEntry i →
        ∀ k : Word, k.toNat < (header (withKernel d mem) kernelEntry i).pMemsz.toNat →
          mem' ((header (withKernel d mem) kernelEntry i).pPaddr + k)
            = if k.toNat < (header (withKernel d mem) kernelEntry i).pFilesz.toNat then
                d.byte (512 * 100 + (header (withKernel d mem) kernelEntry i).pOffset.toNat
                  + k.toNat)
              else 0) ∧
      ∀ a, ¬ Declared (withKernel d mem) kernelEntry a →
        ¬ InRange kernelEntry (512 * 500) a → mem' a = mem a := by
  obtain ⟨s', hread, hdone⟩ :=
    @load2mem_reads d fuel 100 500 (by decide) hfuel kernelEntry mem s
  refine ⟨(readElf kernelEntry (Store.start (withKernel d mem))).2.mem, s', ?_, hdone, ?_, ?_⟩
  · unfold loader32cEntry
    rw [hread, ← (h.readElf_content 0).1]
    rfl
  · intro i hload k hk
    rw [h.readElf_at hload hk]
    by_cases hfile : k.toNat < (header (withKernel d mem) kernelEntry i).pFilesz.toNat
    · have hfits := h.file i hload
      generalize (header (withKernel d mem) kernelEntry i).pOffset = off at hfits ⊢
      have hoff : (kernelEntry + off + k - kernelEntry).toNat = off.toNat + k.toNat := by
        bv_omega
      rw [if_pos hfile, if_pos hfile, withKernel, loaded_in (by omega), hoff, Nat.add_assoc]
    · rw [if_neg hfile, if_neg hfile]
  · intro a hnone hout
    rw [(h.readElf_content a).2.2 fun i hload hdest => hnone ⟨i, hload, hdest⟩]
    exact loaded_out hout

end Kernel

/-! ## A disk with a small image -/

/-- The image of `LittleOS.ReadElf` from sector 100 on, each sector after three
    polls. -/
def sampleDisk : Disk where
  word := fun sector i =>
    let n := 512 * sector + 2 * i - 512 * 100
    (sampleFile 4 6).getD (n + 1) 0xFF ++ (sampleFile 4 6).getD n 0xFF
  polls := fun _ => 3
  busy := fun _ => 0x80
  ready := 0x58
  idle := 0x50
  noData := 0xFFFF
  busy_status := fun _ => by decide
  ready_status := by decide

/-- Registers that something else has left behind. -/
def sampleDrive : Drive where
  regs := ⟨⟨1, 2⟩, ⟨3, 4⟩, ⟨5, 6⟩, ⟨7, 8⟩, 0xF0⟩
  transfer := some ⟨9, 1, 0, 17⟩

/-- The file stands on the disk from sector 100 on. -/
private theorem sampleDisk_byte (n : Nat) :
    sampleDisk.byte (512 * 100 + n) = (sampleFile 4 6).getD n 0xFF := by
  have hn : 512 * ((512 * 100 + n) / 512) + 2 * ((512 * 100 + n) % 512 / 2) - 512 * 100
      = n - n % 2 := by omega
  have hmod : (512 * 100 + n) % 2 = n % 2 := by omega
  unfold Disk.byte sampleDisk
  dsimp only
  rw [hn, hmod]
  rcases Nat.mod_two_eq_zero_or_one n with h | h
  · rw [h]
    exact BitVec.setWidth_append_eq_right
  · rw [h, Nat.sub_add_cancel (by omega)]
    apply BitVec.eq_of_getLsbD_eq
    intro i hi
    rw [BitVec.getLsbD_setWidth, BitVec.getLsbD_ushiftRight, BitVec.getLsbD_append]
    simp [hi]

/-- The disk is never busy for long. -/
theorem sampleDisk_polls (j : Nat) : sampleDisk.polls j < 4 := by
  show 3 < 4
  decide

/-- Two sectors. -/
theorem load2mem_reads_sample :
    ∃ s', load2mem sampleDisk 4 100 2 0x300000 (fun _ => 0) sampleDrive
        = some (loaded sampleDisk 51200 0x300000 1024 (fun _ => 0), s') ∧
      s'.transfer = none :=
  load2mem_reads (by decide) (fun j _ _ => sampleDisk_polls j) _ _ _

/-- The memory with the file loaded is the sample. -/
theorem withKernel_sample :
    withKernel sampleDisk (fun _ => 0xFF) = sample 4 6 := by
  funext a
  unfold withKernel sample
  by_cases h : (a - kernelEntry).toNat < 512 * 500
  · rw [loaded_in h, sampleDisk_byte]
    rfl
  · rw [loaded_out h]
    exact (List.getD_eq_default _ _ (Nat.le_trans (by decide) (Nat.le_of_not_lt h))).symm

/-- What `kernel_loaded` says of it. -/
theorem kernel_loaded_sample :
    ∃ mem' s', loader32cEntry sampleDisk 4 (fun _ => 0xFF) sampleDrive
        = some (0x200000, mem', s') ∧
      s'.transfer = none ∧ mem' 0x200003 = 0xC3 ∧ mem' 0x200005 = 0 := by
  have hwell : WellFormed (withKernel sampleDisk fun _ => 0xFF) kernelEntry 88 := by
    rw [withKernel_sample]
    exact sample_wellFormed
  obtain ⟨mem', s', hentry, hdone, hloaded, -⟩ :=
    kernel_loaded (fun j _ _ => sampleDisk_polls j) (fun _ => 0xFF) sampleDrive (by decide) hwell
  rw [withKernel_sample] at hentry hloaded
  refine ⟨mem', s', hentry, hdone, ?_, ?_⟩
  · exact (hloaded 0 (by decide) 3 (by decide)).trans (by decide)
  · exact (hloaded 0 (by decide) 5 (by decide)).trans (by decide)

end LittleOS.Loader32
