import LittleOS.PageBitmap

/-! # The page allocator of `memory/memory.c`

    `addr_manager` over the bitmap: `kalloc_pages` searches from its first
    page, `ualloc_pages` from the page of `MEM_USERFREE_START`, and both give
    the address of the page they found; `kfree_pages` turns an address back
    into an index.  Addresses are 32-bit words.

    * `kallocPages_spec`, `uallocPages_spec` — what an allocation returns and
      marks;
    * `pageIndexOf_pageAddr` — the two conversions fit together;
    * `FromOneMb` — the range `memory_init` sets up, and its addresses. -/

namespace LittleOS.Memory

open Intervals PageBitmap

def memPageSize : BitVec 32 := 4096
def memKernelfreeStart : BitVec 32 := 1024 * 1024
def memKernelfreeEnd : BitVec 32 := 2 * 1024 * 1024
def memUserfreeStart : BitVec 32 := 2 * 1024 * 1024

/-- `addr_alloc_t`. -/
structure AddrAlloc where
  bitmap : Bitmap
  pageSize : BitVec 32
  kernelstart : BitVec 32
  userstart : BitVec 32
  size : BitVec 32

/-- `addr_manager.kernelstart + page_index * MEM_PAGE_SIZE`. -/
def pageAddr (m : AddrAlloc) (pageIndex : Nat) : BitVec 32 :=
  m.kernelstart + BitVec.ofNat 32 pageIndex * memPageSize

/-- `(addr - addr_manager.kernelstart) / addr_manager.page_size`. -/
def pageIndexOf (m : AddrAlloc) (addr : BitVec 32) : Nat :=
  ((addr - m.kernelstart) / m.pageSize).toNat

/-- `kfree_pages` and `ufree_pages` -/
def kfreePages (m : AddrAlloc) (addr : BitVec 32) (n : Nat) : AddrAlloc :=
  { m with bitmap := bitmapSetBit m.bitmap (pageIndexOf m addr) n 0 }

/-- `kalloc_pages`: the index is checked after the bits are set. -/
def kallocPages (m : AddrAlloc) (n : Nat) : BitVec 32 × AddrAlloc :=
  match bitmapAllocNbits m.bitmap 0 n with
  | (none, b) => (0, { m with bitmap := b })
  | (some pageIndex, b) =>
      if 1023 ≤ pageIndex then (0, { m with bitmap := b })
      else (pageAddr m pageIndex, { m with bitmap := b })

/-- The index `ualloc_pages` starts from. -/
def userIndex : Nat :=
  ((memUserfreeStart - memKernelfreeStart) / memPageSize).toNat

/-- `ualloc_pages`: it looks from the user's first page on. -/
def uallocPages (m : AddrAlloc) (n : Nat) : BitVec 32 × AddrAlloc :=
  match bitmapAllocNbits m.bitmap userIndex n with
  | (none, b) => (0, { m with bitmap := b })
  | (some pageIndex, b) => (pageAddr m pageIndex, { m with bitmap := b })

/-- `addr_alloc_init` -/
def allocInit (bits : Nat → BitVec 8) (size kstart ustart pageSize : BitVec 32) :
    AddrAlloc where
  bitmap := bitmapInit (size / pageSize).toNat bits
  pageSize := pageSize
  kernelstart := kstart
  userstart := ustart
  size := size

/-- `memory_init` from the sum of the memory areas on. -/
def memoryInit (bits : Nat → BitVec 8) (totalMemSize : BitVec 32) : AddrAlloc :=
  let memFreeSize := totalMemSize - memKernelfreeStart
  -- `DOWN2(mem_free_size, MEM_PAGE_SIZE)`
  let memFreeSize := memFreeSize &&& ~~~(memPageSize - 1)
  allocInit bits memFreeSize memKernelfreeStart memUserfreeStart memPageSize

/-! ## Addresses and indices -/

/-- A page has 4096 bytes. -/
theorem memPageSize_toNat : memPageSize.toNat = 4096 := rfl

/-- Of an address the managed range can have, the index is that of its page. -/
theorem pageIndexOf_pageAddr {m : AddrAlloc} (hps : m.pageSize = memPageSize)
    {i : Nat} (hi : i < 2 ^ 20) : pageIndexOf m (pageAddr m i) = i := by
  unfold pageIndexOf pageAddr
  rw [hps, BitVec.add_comm, BitVec.add_sub_cancel, BitVec.toNat_udiv,
    BitVec.toNat_mul, BitVec.toNat_ofNat, memPageSize_toNat]
  omega

/-- Of a managed range the count of pages fits the index. -/
theorem allocInit_count_lt (bits : Nat → BitVec 8)
    (size kstart ustart : BitVec 32) :
    (allocInit bits size kstart ustart memPageSize).bitmap.count < 2 ^ 20 := by
  show (size / memPageSize).toNat < 2 ^ 20
  have hlt := size.isLt
  rw [BitVec.toNat_udiv, memPageSize_toNat]
  omega

/-! ## The two allocators -/

/-- The pages marked in the manager. -/
abbrev Marked (m : AddrAlloc) (p : Nat) : Prop := IsSet m.bitmap p

/-- Every function leaves all but the bits as it was. -/
def SameRange (m m' : AddrAlloc) : Prop :=
  m'.bitmap.count = m.bitmap.count ∧ m'.pageSize = m.pageSize ∧
  m'.kernelstart = m.kernelstart

/-- Freeing leaves the region. -/
theorem kfreePages_sameRange (m : AddrAlloc) (addr : BitVec 32) (n : Nat) :
    SameRange m (kfreePages m addr n) :=
  ⟨bitmapSetBit_count _ _ _ _, rfl, rfl⟩

/-- The manager after `n` pages from `i` on have been marked. -/
def marking (m : AddrAlloc) (i n : Nat) : AddrAlloc :=
  { m with bitmap := bitmapSetBit m.bitmap i n 1 }

/-- Marking leaves the region. -/
theorem marking_sameRange (m : AddrAlloc) (i n : Nat) :
    SameRange m (marking m i n) :=
  ⟨bitmapSetBit_count _ _ _ _, rfl, rfl⟩

/-- **`kalloc_pages`** fails and changes nothing, or marks the lowest place
    where the request fits; from page 1023 on it then still answers 0. -/
theorem kallocPages_spec (m : AddrAlloc) {n : Nat} (hn : 1 ≤ n) :
    kallocPages m n = (0, m) ∨
    ∃ i, FirstFit (Marked m) m.bitmap.count 0 n i ∧
      kallocPages m n
        = (if 1023 ≤ i then 0 else pageAddr m i, marking m i n) := by
  unfold kallocPages
  rcases bitmapAllocNbits_cases m.bitmap 0 hn with hr | ⟨i, hfit, hr⟩
  · left
    rw [hr]
  · right
    refine ⟨i, hfit, ?_⟩
    rw [hr]
    dsimp only
    split <;> rfl

/-- **`ualloc_pages`** fails and changes nothing, or marks the lowest place in
    the user pages where the request fits. -/
theorem uallocPages_spec (m : AddrAlloc) {n : Nat} (hn : 1 ≤ n) :
    uallocPages m n = (0, m) ∨
    ∃ i, FirstFit (Marked m) m.bitmap.count userIndex n i ∧
      uallocPages m n = (pageAddr m i, marking m i n) := by
  unfold uallocPages
  rcases bitmapAllocNbits_cases m.bitmap userIndex hn with hr | ⟨i, hfit, hr⟩
  · left
    rw [hr]
  · right
    refine ⟨i, hfit, ?_⟩
    rw [hr]
    rfl

/-- Only more pages are marked. -/
structure Grows (m m' : AddrAlloc) : Prop where
  range : SameRange m m'
  marked : ∀ p, Marked m p → Marked m' p

/-- No page has been freed yet. -/
theorem Grows.refl (m : AddrAlloc) : Grows m m := ⟨⟨rfl, rfl, rfl⟩, fun _ h => h⟩

/-- Pages marked and not freed twice over. -/
theorem Grows.trans {m₁ m₂ m₃ : AddrAlloc} (h : Grows m₁ m₂) (h' : Grows m₂ m₃) :
    Grows m₁ m₃ where
  range := ⟨h'.range.1.trans h.range.1, h'.range.2.1.trans h.range.2.1,
    h'.range.2.2.trans h.range.2.2⟩
  marked := fun p hp => h'.marked p (h.marked p hp)

/-- Marking frees no page. -/
theorem marking_grows (m : AddrAlloc) (i n : Nat) : Grows m (marking m i n) :=
  ⟨marking_sameRange m i n, fun _ hp => isSet_setBit_one hp i n⟩

/-- One page more. -/
theorem marked_marking {m : AddrAlloc} {i : Nat} (hi : i < m.bitmap.count)
    (hc : m.bitmap.count < 2 ^ 31) (p : Nat) :
    Marked (marking m i 1) p ↔ p = i ∨ Marked m p := by
  refine (isSet_setBit hi (by omega) 1 p).trans ?_
  by_cases hp : p = i
  · have hcov : Covers (i, 1) p := by
      unfold Covers
      dsimp only
      omega
    rw [if_pos hcov]
    exact iff_of_true Nat.one_ne_zero (Or.inl hp)
  · have hcov : ¬ Covers (i, 1) p := by
      unfold Covers
      dsimp only
      omega
    rw [if_neg hcov]
    exact (or_iff_right hp).symm

/-- `kalloc_pages` frees no page. -/
theorem kallocPages_grows (m : AddrAlloc) {n : Nat} (hn : 1 ≤ n) :
    Grows m (kallocPages m n).2 := by
  rcases kallocPages_spec m hn with he | ⟨i, -, he⟩
  · rw [he]
    exact Grows.refl m
  · rw [he]
    exact marking_grows m i n

/-- `ualloc_pages` frees no page. -/
theorem uallocPages_grows (m : AddrAlloc) {n : Nat} (hn : 1 ≤ n) :
    Grows m (uallocPages m n).2 := by
  rcases uallocPages_spec m hn with he | ⟨i, -, he⟩
  · rw [he]
    exact Grows.refl m
  · rw [he]
    exact marking_grows m i n

/-- A single page that is handed out was free and is marked. -/
theorem kallocPages_one {m : AddrAlloc} (hc : m.bitmap.count < 2 ^ 20)
    (h : (kallocPages m 1).1 ≠ 0) :
    ∃ i < m.bitmap.count, (kallocPages m 1).1 = pageAddr m i ∧ ¬ Marked m i ∧
      Marked (kallocPages m 1).2 i := by
  rcases kallocPages_spec m (Nat.le_refl 1) with he | ⟨i, hfit, he⟩
  · rw [he] at h
    exact absurd rfl h
  · have hi := hfit.lt_bound
    have hcov : Covers (i, 1) i := ⟨Nat.le_refl _, Nat.lt_succ_self _⟩
    refine ⟨i, hi, ?_, hfit.fits i hcov hi, ?_⟩
    · rw [he] at h ⊢
      dsimp only at h ⊢
      by_cases hlt : 1023 ≤ i
      · rw [if_pos hlt] at h
        exact absurd rfl h
      · rw [if_neg hlt]
    · rw [he]
      exact (marked_marking hi (by omega) i).mpr (Or.inl rfl)

/-- A page that was had is one that was free, from the user's first page on, and is
    marked now. -/
theorem uallocPages_one {m : AddrAlloc} (hc : m.bitmap.count < 2 ^ 20)
    (h : (uallocPages m 1).1 ≠ 0) :
    ∃ i < m.bitmap.count, userIndex ≤ i ∧ (uallocPages m 1).1 = pageAddr m i ∧
      ¬ Marked m i ∧ Marked (uallocPages m 1).2 i := by
  rcases uallocPages_spec m (Nat.le_refl 1) with he | ⟨i, hfit, he⟩
  · rw [he] at h
    exact absurd rfl h
  · have hi := hfit.lt_bound
    have hcov : Covers (i, 1) i := ⟨Nat.le_refl _, Nat.lt_succ_self _⟩
    refine ⟨i, hi, hfit.start_le, by rw [he], hfit.fits i hcov hi, ?_⟩
    rw [he]
    exact (marked_marking hi (by omega) i).mpr (Or.inl rfl)

/-- A request that fits is served. -/
theorem kallocPages_of_firstFit {m : AddrAlloc} {n i : Nat} (hn : 1 ≤ n)
    (h : FirstFit (Marked m) m.bitmap.count 0 n i) (hi : i < 1023) :
    kallocPages m n = (pageAddr m i, marking m i n) := by
  unfold kallocPages
  rw [bitmapAllocNbits_of_firstFit hn h]
  dsimp only
  rw [if_neg (by omega)]
  rfl

/-- The first fit is taken. -/
theorem uallocPages_of_firstFit {m : AddrAlloc} {n i : Nat} (hn : 1 ≤ n)
    (h : FirstFit (Marked m) m.bitmap.count userIndex n i) :
    uallocPages m n = (pageAddr m i, marking m i n) := by
  unfold uallocPages
  rw [bitmapAllocNbits_of_firstFit hn h]
  rfl

/-- No request fits where every page is marked. -/
theorem not_firstFit_of_full {m : AddrAlloc} {start n i : Nat} (hn : 1 ≤ n)
    (hall : ∀ p < m.bitmap.count, Marked m p) :
    ¬ FirstFit (Marked m) m.bitmap.count start n i := by
  intro hfit
  have hi := hfit.lt_bound
  have hcov : Covers (i, n) i := ⟨Nat.le_refl i, by dsimp only; omega⟩
  exact hfit.fits i hcov hi (hall i hi)

/-- Without a free page nothing is handed out. -/
theorem kallocPages_full {m : AddrAlloc} {n : Nat} (hn : 1 ≤ n)
    (hall : ∀ p < m.bitmap.count, Marked m p) : kallocPages m n = (0, m) := by
  rcases kallocPages_spec m hn with he | ⟨i, hfit, -⟩
  · exact he
  · exact absurd hfit (not_firstFit_of_full hn hall)

/-- Where no page is free nothing changes. -/
theorem uallocPages_full {m : AddrAlloc} {n : Nat} (hn : 1 ≤ n)
    (hall : ∀ p < m.bitmap.count, Marked m p) : uallocPages m n = (0, m) := by
  rcases uallocPages_spec m hn with he | ⟨i, hfit, -⟩
  · exact he
  · exact absurd hfit (not_firstFit_of_full hn hall)

/-- A free user page is enough for one page. -/
theorem uallocPages_of_free {m : AddrAlloc} {p : Nat} (hu : userIndex ≤ p)
    (hp : p < m.bitmap.count) (hfree : ¬ Marked m p) :
    ∃ i, FirstFit (Marked m) m.bitmap.count userIndex 1 i ∧
      uallocPages m 1 = (pageAddr m i, marking m i 1) := by
  have hfit : Fits (Marked m) m.bitmap.count (p, 1) := by
    intro q hq _
    have h1 := hq.1
    have h2 := hq.2
    obtain rfl : q = p := by
      dsimp only at h1 h2
      omega
    exact hfree
  obtain ⟨i, hi⟩ := FirstFit.exists hu hp hfit
  exact ⟨i, hi, uallocPages_of_firstFit (Nat.le_refl 1) hi⟩

/-- A request that overflows marks nothing. -/
theorem marking_wrap {m : AddrAlloc} {i n : Nat} (hi : i < 2 ^ 31)
    (hn : n < 2 ^ 31) (hov : 2 ^ 31 ≤ i + n) : marking m i n = m := by
  unfold marking
  rw [bitmapSetBit_wrap hi hn hov]

/-! ## The range from 1 MB on -/

/-- The managed range starts at 1 MB, its count is that of an address space. -/
structure FromOneMb (m : AddrAlloc) : Prop where
  kernelstart : m.kernelstart = memKernelfreeStart
  count_lt : m.bitmap.count < 2 ^ 20

/-- The region of 1 MB on stays the same. -/
theorem FromOneMb.of_sameRange {m m' : AddrAlloc} (h : FromOneMb m)
    (hs : SameRange m m') : FromOneMb m' where
  kernelstart := hs.2.2.trans h.kernelstart
  count_lt := by
    rw [hs.1]
    exact h.count_lt

/-- `memory_init` manages the memory from 1 MB on. -/
theorem memoryInit_fromOneMb (bits : Nat → BitVec 8) (totalMemSize : BitVec 32) :
    FromOneMb (memoryInit bits totalMemSize) where
  kernelstart := rfl
  count_lt := allocInit_count_lt bits _ _ _

/-- The address of page `j` of the block at `addr`. -/
def blockPage (addr : BitVec 32) (j : Nat) : BitVec 32 :=
  addr + BitVec.ofNat 32 j * memPageSize

/-- A block begins with its first page. -/
theorem blockPage_zero (addr : BitVec 32) : blockPage addr 0 = addr := by
  unfold blockPage
  rw [BitVec.zero_mul, BitVec.add_zero]

/-- Where the pages of a block are. -/
theorem FromOneMb.page_toNat {m : AddrAlloc} (h : FromOneMb m) (i j : Nat) :
    (blockPage (pageAddr m i) j).toNat = 4096 * (256 + i + j) % 2 ^ 32 := by
  have hstart : memKernelfreeStart.toNat = 0x100000 := rfl
  unfold blockPage pageAddr
  rw [h.kernelstart, BitVec.toNat_add, BitVec.toNat_add, BitVec.toNat_mul,
    BitVec.toNat_mul, BitVec.toNat_ofNat, BitVec.toNat_ofNat, memPageSize_toNat,
    hstart]
  omega

/-- Where a page is. -/
theorem FromOneMb.addr_toNat {m : AddrAlloc} (h : FromOneMb m) (i : Nat) :
    (pageAddr m i).toNat = 4096 * (256 + i) % 2 ^ 32 := by
  rw [← blockPage_zero (pageAddr m i), h.page_toNat]
  rfl

/-- One index wraps to address 0. -/
theorem FromOneMb.addr_eq_zero {m : AddrAlloc} (h : FromOneMb m) {i : Nat}
    (hi : i < 2 ^ 20) : pageAddr m i = 0 ↔ i = 2 ^ 20 - 256 := by
  have haddr := h.addr_toNat i
  constructor
  · intro h0
    rw [h0] at haddr
    have hz : (0 : BitVec 32).toNat = 0 := rfl
    omega
  · intro hi'
    apply BitVec.eq_of_toNat_eq
    rw [haddr, hi']
    rfl

end LittleOS.Memory
