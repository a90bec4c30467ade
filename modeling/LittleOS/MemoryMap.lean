import LittleOS.Lib.Coverage
import LittleOS.KernelBoot

/-! # The detected memory and the range `memory_init` manages

    The loader lists the usable memory in `mem_info_t`; `total_mem_size` adds
    the lengths up, and `memory_init` manages that many bytes less 1 MB, from
    1 MB on, wherever the regions start.  The pages handed out are so those
    from 1 MB to the sum of the lengths: a gap above 1 MB that is followed by
    enough memory lies among them.

    * `memoryInit_pages` — the managed pages, by frame;
    * `backed_iff` — they all have memory behind them exactly when the lengths
      add up to 1 MB at least, leave some address out, and no region ends below
      the sum without the next one starting there, at a page boundary. -/

namespace LittleOS.MemoryMap

open Intervals Memory PageTable KernelBoot

/-- `MAX_MEM_LENGTH` -/
def maxMemLength : Nat := 20

/-- `mem_info_t.info[i]`. -/
structure Info where
  start : Word
  offset : Word

/-- The units of a region are its bytes. -/
def Info.block (r : Info) : Block := (r.start.toNat, r.offset.toNat)

/-- `mem_info_t`: its first `count` entries. -/
structure MemInfo where
  info : List Info
  length_le : info.length ≤ maxMemLength

/-- The regions as intervals. -/
def MemInfo.blocks (mem : MemInfo) : List Block := mem.info.map Info.block

/-- `total_mem_size`. -/
def totalMemSize (mem : MemInfo) : Word :=
  mem.info.foldl (fun memSize r => memSize + r.offset) 0

/-- `memory_init`; `bits` is what the memory of the bitmap holds before.  The
    closing `ASSERT` is about where the bitmap ends and changes nothing. -/
def memoryInit (bits : Nat → BitVec 8) (mem : MemInfo) : AddrAlloc :=
  Memory.memoryInit bits (totalMemSize mem)

/-- What the detection is relied on for: regions that do not overlap, within
    the address space, and memory at 1 MB. -/
structure Detected (mem : MemInfo) : Prop where
  apart : mem.blocks.Pairwise Apart
  no_wrap : ∀ b ∈ mem.blocks, b.1 + b.2 ≤ 2 ^ 32
  one_mb : ∃ b ∈ mem.blocks, Covers b memKernelfreeStart.toNat

/-- Every page the allocators can hand out lies in one region, and neither the
    sum of the lengths nor the difference with 1 MB wraps. -/
structure Backed (mem : MemInfo) (m : AddrAlloc) : Prop where
  sum : (totalMemSize mem).toNat = total mem.blocks
  difference : memKernelfreeStart.toNat ≤ (totalMemSize mem).toNat
  pages : ∀ p < m.bitmap.count, ∃ b ∈ mem.blocks,
    b.1 ≤ (pageAddr m p).toNat ∧
    (pageAddr m p).toNat + memPageSize.toNat ≤ b.1 + b.2

/-- No gap among the pages counted from address 0 by the lengths' sum. -/
structure Gapless (mem : MemInfo) : Prop where
  total_ge : memKernelfreeStart.toNat ≤ total mem.blocks
  left_out : ∃ a < 2 ^ 32, ∀ b ∈ mem.blocks, ¬ Covers b a
  continued : Continued mem.blocks 4096 256 (total mem.blocks / 4096)

/-! ## The sum of the lengths -/

/-- The loop adds the lengths modulo the word. -/
theorem foldl_offset_toNat (l : List Info) (acc : Word) :
    (l.foldl (fun memSize r => memSize + r.offset) acc).toNat
      = (acc.toNat + total (l.map Info.block)) % 2 ^ 32 := by
  induction l generalizing acc with
  | nil =>
      show acc.toNat = (acc.toNat + 0) % 2 ^ 32
      rw [Nat.add_zero, Nat.mod_eq_of_lt acc.isLt]
  | cons r l ih =>
      rw [List.foldl_cons, ih, List.map_cons, total_cons, BitVec.toNat_add,
        Nat.mod_add_mod, Nat.add_assoc]
      rfl

/-- The sum of the lengths, as a word. -/
theorem totalMemSize_toNat (mem : MemInfo) :
    (totalMemSize mem).toNat = total mem.blocks % 2 ^ 32 := by
  unfold totalMemSize
  rw [foldl_offset_toNat]
  show (0 + total mem.blocks) % 2 ^ 32 = _
  rw [Nat.zero_add]

section Map

variable {mem : MemInfo}

/-- The sum wraps only where the regions are the whole address space. -/
theorem total_lt_iff (h : Detected mem) :
    total mem.blocks < 2 ^ 32 ↔ ∃ a < 2 ^ 32, ∀ b ∈ mem.blocks, ¬ Covers b a := by
  have hle := total_le h.apart h.no_wrap
  have hall := total_eq_iff h.apart h.no_wrap
  constructor
  · intro hlt
    by_contra hno
    push Not at hno
    exact absurd (hall.mpr hno) (Nat.ne_of_lt hlt)
  · rintro ⟨a, ha, hout⟩
    refine Nat.lt_of_le_of_ne hle fun heq => ?_
    obtain ⟨b, hb, hcov⟩ := hall.mp heq a ha
    exact hout b hb hcov

/-- The sum is that of the lengths exactly where that fits a word. -/
theorem sum_iff : (totalMemSize mem).toNat = total mem.blocks ↔
    total mem.blocks < 2 ^ 32 := by
  rw [totalMemSize_toNat]
  constructor
  · intro h
    rw [← h]
    exact Nat.mod_lt _ (Nat.two_pow_pos 32)
  · exact Nat.mod_eq_of_lt

/-! ## The managed pages -/

/-- Without a wrap the managed pages are those from 1 MB to the sum. -/
theorem memoryInit_pages (bits : Nat → BitVec 8)
    (hsum : (totalMemSize mem).toNat = total mem.blocks)
    (hge : memKernelfreeStart.toNat ≤ total mem.blocks) :
    (memoryInit bits mem).bitmap.count = total mem.blocks / 4096 - 256 ∧
    ∀ p < (memoryInit bits mem).bitmap.count,
      (pageAddr (memoryInit bits mem) p).toNat = 4096 * (256 + p) := by
  have hge' : 0x100000 ≤ (totalMemSize mem).toNat := hsum ▸ hge
  obtain ⟨hrange, hcount⟩ := memoryInit_range bits hge'
  constructor
  · show (Memory.memoryInit bits (totalMemSize mem)).bitmap.count = _
    rw [hcount, hsum]
    omega
  · intro p hp
    exact pageAddr_toNat hrange hp

/-- The pages lie in regions exactly where no region ends among them without a
    next one. -/
theorem pages_iff (bits : Nat → BitVec 8) (h : Detected mem)
    (hsum : (totalMemSize mem).toNat = total mem.blocks)
    (hge : memKernelfreeStart.toNat ≤ total mem.blocks) :
    (∀ p < (memoryInit bits mem).bitmap.count, ∃ b ∈ mem.blocks,
      b.1 ≤ (pageAddr (memoryInit bits mem) p).toNat ∧
      (pageAddr (memoryInit bits mem) p).toNat + memPageSize.toNat ≤ b.1 + b.2) ↔
    Continued mem.blocks 4096 256 (total mem.blocks / 4096) := by
  obtain ⟨hcount, haddr⟩ := memoryInit_pages bits hsum hge
  rw [← pagesInside_iff (by omega) h.apart h.one_mb, memPageSize_toNat]
  constructor
  · intro hall i hi hil
    have hp : i - 256 < (memoryInit bits mem).bitmap.count := by omega
    obtain ⟨b, hb, hlow, hhigh⟩ := hall (i - 256) hp
    rw [haddr (i - 256) hp] at hlow hhigh
    exact ⟨b, hb, by omega, by omega⟩
  · intro hall p hp
    obtain ⟨b, hb, hlow, hhigh⟩ := hall (256 + p) (by omega) (by omega)
    rw [haddr p hp]
    exact ⟨b, hb, by omega, by omega⟩

/-- **MEMORY BEHIND EVERY PAGE**: exactly where the lengths counted from
    address 0 do not run past a gap. -/
theorem backed_iff (bits : Nat → BitVec 8) (h : Detected mem) :
    Backed mem (memoryInit bits mem) ↔ Gapless mem := by
  constructor
  · rintro ⟨hsum, hdiff, hpages⟩
    have hge : memKernelfreeStart.toNat ≤ total mem.blocks := hsum ▸ hdiff
    exact ⟨hge, (total_lt_iff h).mp (sum_iff.mp hsum),
      (pages_iff bits h hsum hge).mp hpages⟩
  · rintro ⟨hge, hout, hcont⟩
    have hsum := sum_iff.mpr ((total_lt_iff h).mpr hout)
    exact ⟨hsum, hsum ▸ hge, (pages_iff bits h hsum hge).mpr hcont⟩

end Map

/-! ## Two machines -/

/-- A region that ends where the other begins is apart from it. -/
theorem apart_of_le {b c : Block} (h : b.1 + b.2 ≤ c.1) : Apart b c := by
  rintro p ⟨⟨-, h1⟩, ⟨h2, -⟩⟩
  omega

/-- 640 KB and the memory from 1 MB to 128 MB. -/
def plainMap : MemInfo where
  info := [⟨0, 0x9FC00⟩, ⟨0x100000, 0x7F00000⟩]
  length_le := by decide

/-- Its two regions. -/
theorem plainMap_blocks :
    plainMap.blocks = [(0, 0x9FC00), (0x100000, 0x7F00000)] := rfl

/-- It is one that a BIOS can give. -/
theorem plainMap_detected : Detected plainMap where
  apart := List.pairwise_pair.mpr (apart_of_le (by decide))
  no_wrap := by
    rw [plainMap_blocks]
    decide
  one_mb := by
    rw [plainMap_blocks]
    decide

/-- The last region ends above the sum. -/
theorem plainMap_gapless : Gapless plainMap where
  total_ge := by decide
  left_out := by
    refine ⟨0xFFFFFFFF, by omega, ?_⟩
    rw [plainMap_blocks]
    decide
  continued := by
    have htotal : total plainMap.blocks / 4096 = 0x7F9F := by decide
    rw [htotal, plainMap_blocks]
    intro b hb
    rcases List.mem_pair.mp hb with rfl | rfl
    · intro _ hlow
      exact absurd hlow (by decide)
    · intro _ _ hhigh
      exact absurd hhigh (by decide)

/-- The gap below 1 MB does no harm. -/
theorem backed_iff_plainMap :
    Backed plainMap (memoryInit (fun _ => 0) plainMap) :=
  (backed_iff (fun _ => 0) plainMap_detected).mpr plainMap_gapless

/-- The same with the memory hole from 15 MB to 16 MB. -/
def holeMap : MemInfo where
  info := [⟨0, 0x9FC00⟩, ⟨0x100000, 0xE00000⟩, ⟨0x1000000, 0x7000000⟩]
  length_le := by decide

/-- Its three regions. -/
theorem holeMap_blocks : holeMap.blocks
    = [(0, 0x9FC00), (0x100000, 0xE00000), (0x1000000, 0x7000000)] := rfl

/-- It is one that a BIOS can give. -/
theorem holeMap_detected : Detected holeMap where
  apart := by
    refine List.pairwise_cons.mpr ⟨?_, List.pairwise_pair.mpr
      (apart_of_le (by decide))⟩
    intro b hb
    rcases List.mem_pair.mp hb with rfl | rfl
    · exact apart_of_le (by decide)
    · exact apart_of_le (by decide)
  no_wrap := by
    rw [holeMap_blocks]
    decide
  one_mb := by
    rw [holeMap_blocks]
    decide

/-- The page at 15 MB is managed and in no region. -/
theorem hole_managed : ¬ ∀ (mem : MemInfo) (bits : Nat → BitVec 8),
    Detected mem → Backed mem (memoryInit bits mem) := by
  intro hall
  have hback := hall holeMap (fun _ => 0) holeMap_detected
  have hge : memKernelfreeStart.toNat ≤ total holeMap.blocks := by decide
  obtain ⟨hcount, haddr⟩ := memoryInit_pages (fun _ => 0) hback.sum hge
  have htotal : total holeMap.blocks / 4096 - 256 = 0x7D9F := by decide
  have hp : 0xE00 < (memoryInit (fun _ => 0) holeMap).bitmap.count := by omega
  obtain ⟨b, hb, hlow, hhigh⟩ := hback.pages 0xE00 hp
  rw [haddr 0xE00 hp] at hlow hhigh
  rw [memPageSize_toNat] at hhigh
  rw [holeMap_blocks] at hb
  simp only [List.mem_cons, List.not_mem_nil, or_false] at hb
  rcases hb with rfl | rfl | rfl <;> dsimp only at hlow hhigh <;> omega

end LittleOS.MemoryMap
