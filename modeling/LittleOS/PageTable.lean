import LittleOS.Lib.TwoLevel
import LittleOS.Memory

/-! # The page tables of `mmu/pagetable.c`

    Physical memory is a store of frames of 1024 words.  The kernel reaches a
    frame at its own address, so a page-aligned pointer is a frame number, a
    pointer to an entry a frame and a slot.  `kernel_table` and the symbols of
    `kernel.lds` are a `Layout`.  `ASSERT` expands to nothing without
    `KERNEL_DEBUG`, which the build does not set.

    A directory or table entry has its present bit in bit 0 and the frame in
    the upper 20 bits; `walk` of the library reads both levels. -/

namespace LittleOS.PageTable

open TwoLevel Memory

/-- A `uint32_t`: an address or an entry. -/
abbrev Word := BitVec 32
abbrev Frame := BitVec 20
abbrev Slot := BitVec 10

/-- The words of physical memory. -/
abbrev Frames := Store Frame Slot Word

def pdeP : Word := 1
def pdeW : Word := 2
def pdeU : Word := 4
def pteP : Word := 1
def pteW : Word := 2
def pteR : Word := 0
def pteU : Word := 4

/-- `phy_pt_addr` and `phy_page_addr`, and the frame of an address. -/
def frameOf (v : Word) : Frame := v.extractLsb' 12 20

/-- `PDE_ADDR` and `PTE_ADDR` of an entry with this frame. -/
def addrOf (f : Frame) : Word := f.setWidth 32 <<< 12

/-- `VADDR_DIR`: the upper ten bits. -/
def vaddrDir (vaddr : Word) : Slot := (vaddr >>> 22).setWidth 10

/-- `VADDR_TABLE`: the ten bits below them. -/
def vaddrTable (vaddr : Word) : Slot := ((vaddr >>> 12) &&& 0x3FF).setWidth 10

/-- `pde_t` and `pte_t`. -/
def entryFormat : Format Word Frame where
  present := fun v => v.getLsbD 0
  target := frameOf

/-- The present bit of an entry. -/
abbrev Present (v : Word) : Prop := entryFormat.present v = true

/-- The page frames and the allocator they are taken from. -/
structure Mmu where
  mem : Frames
  alloc : AddrAlloc

/-! ## The functions -/

/-- `find_pte`: the entry's place, in a new table if the directory has none there;
    nothing if there is no page for it. -/
def findPte (dir : Frame) (vaddr : Word) (m : Mmu) :
    Option (Frame × Slot) × Mmu :=
  let pde := m.mem dir (vaddrDir vaddr)
  if Present pde then (some (frameOf pde, vaddrTable vaddr), m)
  else
    let r := kallocPages m.alloc 1
    let pageTableAddr := r.1
    if pageTableAddr = 0 then (none, { m with alloc := r.2 })
    else
      let mem := m.mem.set dir (vaddrDir vaddr) (pageTableAddr ||| pdeP ||| pdeW ||| pdeU)
      let pageTable := frameOf pageTableAddr
      (some (pageTable, vaddrTable vaddr),
        { mem := mem.fill pageTable 0, alloc := r.2 })

/-- The loop of `vaddr2paddr` with the pages still to map. -/
def mapLoop (dir : Frame) (perm : Word) : Nat → Word → Word → Mmu → Mmu
  | 0, _, _, m => m
  | count + 1, vaddr, paddr, m =>
      match findPte dir vaddr m with
      | (none, m) => m
      | (some (table, slot), m) =>
          mapLoop dir perm count (vaddr + memPageSize) (paddr + memPageSize)
            { m with mem := m.mem.set table slot (paddr ||| perm ||| pteP) }

/-- `vaddr2paddr` -/
def vaddr2paddr (dir : Frame) (vaddr paddr : Word) (count : Nat) (perm : Word)
    (m : Mmu) : Mmu :=
  mapLoop dir perm count vaddr paddr m

/-- `VADDR_DIR(MEM_KERNELFREE_END)`. -/
def userPdeStart : Nat := (vaddrDir memKernelfreeEnd).toNat

/-- `create_page_table`: a page from the allocator is taken for the directory, unseen
    whether there was one. -/
def createPageTable (kernelTable : Frame) (m : Mmu) : Word × Mmu :=
  let r := uallocPages m.alloc 1
  let dir := frameOf r.1
  let mem := m.mem.fill dir 0
  (r.1,
    { mem := (List.range (userPdeStart + 1)).foldl (fun mem i =>
        mem.set dir (BitVec.ofNat 10 i) (mem kernelTable (BitVec.ofNat 10 i))) mem
      alloc := r.2 })

/-- The inner loop of `pagetable_destroy` over one page table. -/
def destroyTable (mem : Frames) (table : Frame) (alloc : AddrAlloc) : AddrAlloc :=
  (List.range 1024).foldl (fun alloc j =>
    let pte := mem table (BitVec.ofNat 10 j)
    if Present pte then kfreePages alloc (addrOf (frameOf pte)) 1 else alloc)
    alloc

/-- `pagetable_destroy` -/
def pagetableDestroy (dir : Frame) (m : Mmu) : Mmu :=
  let alloc := (List.range' userPdeStart (1024 - userPdeStart)).foldl
    (fun alloc i =>
      let pde := m.mem dir (BitVec.ofNat 10 i)
      if Present pde then
        kfreePages (destroyTable m.mem (frameOf pde) alloc)
          (addrOf (frameOf pde)) 1
      else alloc) m.alloc
  { m with alloc := kfreePages alloc (addrOf dir) 1 }

/-- `kmemcpy` of one page from a virtual address, read through the directory in
    CR3; a page that is not mapped there is not read.  Pages do not overlap, so the
    bytes arrive as they are. -/
def copyPage (cr3 page : Frame) (vaddr : Word) (mem : Frames) : Frames :=
  match walk entryFormat mem cr3 (vaddrDir vaddr) (vaddrTable vaddr) with
  | some pte => fun f i => if f = page then mem (frameOf pte) i else mem f i
  | none => mem

/-- One turn of the inner loop of `copy_pagetable`. -/
def copyEntry (cr3 toPageDir table : Frame) (i : Nat) (m : Mmu) (j : Nat) : Mmu :=
  let pte := m.mem table (BitVec.ofNat 10 j)
  if Present pte then
    let r := uallocPages m.alloc 1
    let page := r.1
    let vaddr := (BitVec.ofNat 32 i <<< 22) ||| (BitVec.ofNat 32 j <<< 12)
    let m := vaddr2paddr toPageDir vaddr page 1 (pte &&& 0x1FF)
      { m with alloc := r.2 }
    { m with mem := copyPage cr3 (frameOf page) vaddr m.mem }
  else m

/-- One turn of the outer loop of `copy_pagetable`. -/
def copyTable (cr3 toPageDir dir : Frame) (m : Mmu) (i : Nat) : Mmu :=
  let pde := m.mem dir (BitVec.ofNat 10 i)
  if Present pde then
    (List.range 1024).foldl (copyEntry cr3 toPageDir (frameOf pde) i) m
  else m

/-- `copy_pagetable` -/
def copyPagetable (kernelTable cr3 dir : Frame) (m : Mmu) : Word × Mmu :=
  let r := createPageTable kernelTable m
  let toPageDir := r.1
  (toPageDir,
    (List.range' userPdeStart (1024 - userPdeStart)).foldl
      (copyTable cr3 (frameOf toPageDir) dir) r.2)

/-! ## The kernel's own table -/

/-- The symbols of `kernel.lds` that depend on the sizes of the sections, and
    the frame of `kernel_table` in the `.bss`. -/
structure Layout where
  etext : Word
  sdata : Word
  kernelTable : Frame
  etext_ge : 0x10000 ≤ etext.toNat
  sdata_ge : etext.toNat ≤ sdata.toNat
  table_ge : sdata.toNat ≤ 4096 * kernelTable.toNat
  table_lt : kernelTable.toNat < 256

def kernelBase : Word := 0
def kernelEnd : Word := 0x10000
def stext : Word := 0x10000
def memEbdaStart : Word := 0x80000

/-- `mmu_manager_t`. -/
structure MmuManager where
  vstart : Word
  vend : Word
  pstart : Word
  perm : Word

/-- The array `kernel_map` of `create_kernel_table`. -/
def kernelMap (l : Layout) : List MmuManager :=
  [⟨kernelBase, kernelEnd, kernelBase, pteW ||| pteU⟩,
    ⟨stext, l.etext, stext, pteR ||| pteU⟩,
    ⟨l.sdata, memEbdaStart - 1, l.sdata, pteW ||| pteU⟩,
    ⟨memKernelfreeStart, memKernelfreeEnd * 10, memKernelfreeStart,
      pteW ||| pteU⟩]

/-- `down2`: rounds down to a multiple. -/
def down2 (data bound : Word) : Word := data &&& ~~~(bound - 1)

/-- `up2`: rounds up to a multiple. -/
def up2 (data bound : Word) : Word := (data + bound - 1) &&& ~~~(bound - 1)

namespace MmuManager

variable (map : MmuManager)

/-- The first page of a region. -/
def vstartPage : Word := down2 map.vstart memPageSize

/-- `(vend - vstart) / MEM_PAGE_SIZE`, an `int`; the loop over a negative one
    ends at once. -/
def npage : Nat :=
  ((PageBitmap.int32 ((up2 map.vend memPageSize).toInt
    - map.vstartPage.toInt)).tdiv 4096).toNat

end MmuManager

/-- One turn of the loop of `create_kernel_table`. -/
def mapRegion (kernelTable : Frame) (m : Mmu) (map : MmuManager) : Mmu :=
  vaddr2paddr kernelTable map.vstartPage map.pstart map.npage map.perm m

/-- `create_kernel_table` -/
def createKernelTable (l : Layout) (m : Mmu) : Mmu :=
  (kernelMap l).foldl (mapRegion l.kernelTable)
    { m with mem := m.mem.fill l.kernelTable 0 }

/-- 2 MB is in the first entry: the 4 MB it covers are the kernel's and the
    first user pages. -/
theorem userPdeStart_eq : userPdeStart = 0 := by decide

/-- The directory is the page that was taken. -/
theorem createPageTable_fst (kernelTable : Frame) (m : Mmu) :
    (createPageTable kernelTable m).1 = (uallocPages m.alloc 1).1 := by
  simp only [createPageTable]

/-- One page is taken and nothing else of the allocator changes. -/
theorem createPageTable_alloc (kernelTable : Frame) (m : Mmu) :
    (createPageTable kernelTable m).2.alloc = (uallocPages m.alloc 1).2 := by
  simp only [createPageTable]

/-- So a new directory copies entry 0 and no other. -/
theorem createPageTable_mem (kernelTable : Frame) (m : Mmu) {dir : Frame}
    (hdir : frameOf (uallocPages m.alloc 1).1 = dir) :
    (createPageTable kernelTable m).2.mem
      = (m.mem.fill dir 0).set dir 0 (m.mem.fill dir 0 kernelTable 0) := by
  subst hdir
  simp only [createPageTable, userPdeStart_eq]
  rfl

/-! ## What the functions do to the allocator -/

/-- A page is taken exactly where there is no table. -/
theorem findPte_alloc (dir : Frame) (vaddr : Word) (m : Mmu) :
    (findPte dir vaddr m).2.alloc
      = if Present (m.mem dir (vaddrDir vaddr)) then m.alloc else (kallocPages m.alloc 1).2 := by
  unfold findPte
  dsimp only
  split
  · rfl
  · split <;> rfl

/-- Finding an entry frees no page. -/
theorem findPte_grows (dir : Frame) (vaddr : Word) (m : Mmu) :
    Grows m.alloc (findPte dir vaddr m).2.alloc := by
  rw [findPte_alloc]
  split
  · exact Grows.refl _
  · exact kallocPages_grows m.alloc (Nat.le_refl 1)

/-- `vaddr2paddr` frees no page.  Induction over the pages to map. -/
theorem mapLoop_grows (dir : Frame) (perm : Word) :
    ∀ (n : Nat) (vaddr paddr : Word) (m : Mmu),
      Grows m.alloc (mapLoop dir perm n vaddr paddr m).alloc := by
  intro n
  induction n with
  | zero => intro vaddr paddr m; exact Grows.refl _
  | succ n ih =>
      intro vaddr paddr m
      have hfind := findPte_grows dir vaddr m
      unfold mapLoop
      split
      · next heq =>
          rw [heq] at hfind
          exact hfind
      · next table slot m₁ heq =>
          rw [heq] at hfind
          have hrest := ih (vaddr + memPageSize) (paddr + memPageSize)
            ⟨m₁.mem.set table slot (paddr ||| perm ||| pteP), m₁.alloc⟩
          exact hfind.trans hrest

/-- Mapping regions frees no page. -/
theorem mapRegions_grows (kernelTable : Frame) (maps : List MmuManager) (m : Mmu) :
    Grows m.alloc (maps.foldl (mapRegion kernelTable) m).alloc := by
  induction maps generalizing m with
  | nil => exact Grows.refl _
  | cons map maps ih =>
      exact (mapLoop_grows kernelTable map.perm map.npage map.vstartPage
        map.pstart m).trans (ih (mapRegion kernelTable m map))

/-- Making the kernel's table frees no page. -/
theorem createKernelTable_grows (l : Layout) (m : Mmu) :
    Grows m.alloc (createKernelTable l m).alloc :=
  mapRegions_grows l.kernelTable (kernelMap l) ⟨m.mem.fill l.kernelTable 0, m.alloc⟩

/-! ## Addresses -/

/-- The number of the page an address is in. -/
def pageOf (v : Word) : Nat := v.toNat / 4096

/-- The address `i` pages further on. -/
def pagesFrom (a : Word) (i : Nat) : Word := a + BitVec.ofNat 32 i * memPageSize

/-- No page on from an address is that address. -/
@[simp] theorem pagesFrom_zero (a : Word) : pagesFrom a 0 = a := by
  simp [pagesFrom]

/-- The pages from the next one on are those after the first. -/
theorem pagesFrom_succ (a : Word) (i : Nat) :
    pagesFrom (a + memPageSize) i = pagesFrom a (i + 1) := by
  refine BitVec.eq_of_toNat_eq ?_
  simp only [pagesFrom, BitVec.toNat_add, BitVec.toNat_mul, BitVec.toNat_ofNat,
    memPageSize_toNat]
  omega

/-- The address of a page, wrapped at the end of the address space. -/
theorem pagesFrom_toNat (a : Word) (i : Nat) :
    (pagesFrom a i).toNat = (a.toNat + 4096 * i) % 2 ^ 32 := by
  simp only [pagesFrom, BitVec.toNat_add, BitVec.toNat_mul, BitVec.toNat_ofNat,
    memPageSize_toNat]
  omega

/-- The number of a page, wrapped likewise. -/
theorem pageOf_pagesFrom (a : Word) (i : Nat) :
    pageOf (pagesFrom a i) = (pageOf a + i) % 2 ^ 20 := by
  unfold pageOf
  rw [pagesFrom_toNat]
  omega

/-- A directory entry spans 4 MB. -/
theorem vaddrDir_toNat (v : Word) : (vaddrDir v).toNat = v.toNat / 2 ^ 22 := by
  unfold vaddrDir
  rw [BitVec.toNat_setWidth, BitVec.toNat_ushiftRight, Nat.shiftRight_eq_div_pow]
  have := v.isLt
  omega

/-- A table entry spans a page. -/
theorem vaddrTable_toNat (v : Word) :
    (vaddrTable v).toNat = v.toNat / 2 ^ 12 % 2 ^ 10 := by
  unfold vaddrTable
  rw [BitVec.toNat_setWidth, BitVec.toNat_and, BitVec.toNat_ushiftRight,
    Nat.shiftRight_eq_div_pow]
  rw [show (BitVec.toNat (0x3FF : BitVec 32)) = 2 ^ 10 - 1 from rfl,
    Nat.and_two_pow_sub_one_eq_mod]
  omega

/-- Two addresses use the same entries exactly if they are in one page. -/
theorem samePage_iff (v w : Word) :
    vaddrDir v = vaddrDir w ∧ vaddrTable v = vaddrTable w ↔ pageOf v = pageOf w := by
  unfold pageOf
  rw [← BitVec.toNat_inj, ← BitVec.toNat_inj, vaddrDir_toNat, vaddrDir_toNat,
    vaddrTable_toNat, vaddrTable_toNat]
  omega

/-- The number of the frame at an address. -/
theorem frameOf_toNat (v : Word) : (frameOf v).toNat = v.toNat / 4096 := by
  unfold frameOf
  rw [BitVec.extractLsb'_toNat, Nat.shiftRight_eq_div_pow]
  have := v.isLt
  omega

/-- The address of a frame. -/
theorem addrOf_toNat (f : Frame) : (addrOf f).toNat = 4096 * f.toNat := by
  unfold addrOf
  rw [BitVec.toNat_shiftLeft, BitVec.toNat_setWidth, Nat.shiftLeft_eq]
  have := f.isLt
  omega

/-- Attribute bits do not reach the frame. -/
theorem frameOf_or {a b : Word} (hb : b.toNat < 4096) :
    frameOf (a ||| b) = frameOf a := by
  have h0 : frameOf b = 0 := by
    refine BitVec.eq_of_toNat_eq ?_
    rw [frameOf_toNat, Nat.div_eq_of_lt hb]
    rfl
  unfold frameOf at h0 ⊢
  rw [BitVec.extractLsb'_or, h0]
  simp

/-- The low 12 bits of an entry. -/
def attrOf (v : Word) : BitVec 12 := v.setWidth 12

/-- The rights put on a page address are read off as they are. -/
theorem attrOf_or {a b : Word} (ha : a.toNat % 4096 = 0) :
    attrOf (a ||| b) = attrOf b := by
  have h0 : attrOf a = 0 := by
    refine BitVec.eq_of_toNat_eq ?_
    unfold attrOf
    rw [BitVec.toNat_setWidth]
    exact ha
  unfold attrOf at h0 ⊢
  rw [BitVec.setWidth_or, h0]
  simp

/-- An entry made with the present bit is present. -/
theorem present_or_one (a : Word) : Present (a ||| pteP) := by
  show (a ||| pteP).getLsbD 0 = true
  simp [pteP]

end LittleOS.PageTable
