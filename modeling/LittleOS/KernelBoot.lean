import LittleOS.AddressSpaces

/-! # From `memory_init` to the kernel's table

    `kernel_init` calls `memory_init` and then `pagetable_init`, with no other
    allocation in between.  The pages behind 1 MB are handed out in order, so
    the table of entry `i` of `kernel_table` is page `i`.

    * `freshRegions_of_boot` — five free pages are enough for all tables of
      `create_kernel_table`;
    * `boot_sequential` — the pages in use afterwards;
    * `boot_page_one` — the second page translates to itself. -/

namespace LittleOS.KernelBoot

open TwoLevel Intervals PageBitmap Memory PageTable AddressSpaces

/-! ## Addresses of the managed range -/

/-- The range `memory_init` manages: pages from 1 MB on, within the address
    space. -/
structure ManagedRange (m : AddrAlloc) : Prop where
  kernelstart : m.kernelstart = memKernelfreeStart
  pageSize : m.pageSize = memPageSize
  count_le : m.bitmap.count + 256 ≤ 2 ^ 20

/-- The managed range stays where the region does. -/
theorem ManagedRange.of_sameRange {m m' : AddrAlloc} (h : ManagedRange m)
    (hs : SameRange m m') : ManagedRange m' where
  kernelstart := hs.2.2.trans h.kernelstart
  pageSize := hs.2.1.trans h.pageSize
  count_le := by rw [hs.1]; exact h.count_le

/-- Where a page is. -/
theorem pageAddr_toNat {m : AddrAlloc} (h : ManagedRange m) {p : Nat}
    (hp : p < m.bitmap.count) : (pageAddr m p).toNat = 4096 * (256 + p) := by
  have hle := h.count_le
  have hstart : memKernelfreeStart.toNat = 0x100000 := rfl
  unfold pageAddr
  rw [h.kernelstart, BitVec.toNat_add, BitVec.toNat_mul, BitVec.toNat_ofNat,
    memPageSize_toNat, hstart]
  omega

/-- Which frame a page is. -/
theorem frameOf_pageAddr {m : AddrAlloc} (h : ManagedRange m) {p : Nat}
    (hp : p < m.bitmap.count) : (frameOf (pageAddr m p)).toNat = 256 + p := by
  rw [frameOf_toNat, pageAddr_toNat h hp]
  omega

/-- `x & ~(4096 - 1)`. -/
theorem down2_toNat (x : Word) :
    (down2 x memPageSize).toNat = x.toNat / 4096 * 4096 := by
  have hmask : down2 x memPageSize = x >>> 12 <<< 12 := by
    have hbit : ∀ i < 32, (~~~(memPageSize - 1)).getLsbD i = decide (12 ≤ i) := by
      decide
    refine BitVec.eq_of_getLsbD_eq ?_
    intro i hi
    unfold down2
    rw [BitVec.getLsbD_and, hbit i hi, BitVec.getLsbD_shiftLeft,
      BitVec.getLsbD_ushiftRight]
    by_cases h12 : 12 ≤ i
    · simp [h12, hi, show 12 + (i - 12) = i by omega, show ¬ i < 12 by omega]
    · simp [h12, show i < 12 by omega]
  rw [hmask, BitVec.toNat_shiftLeft, BitVec.toNat_ushiftRight,
    Nat.shiftRight_eq_div_pow, Nat.shiftLeft_eq]
  have := x.isLt
  omega

/-- `memory_init` manages the pages from 1 MB to the end of memory. -/
theorem memoryInit_range (bits : Nat → BitVec 8) {total : Word}
    (ht : 0x100000 ≤ total.toNat) :
    ManagedRange (memoryInit bits total) ∧
    (memoryInit bits total).bitmap.count = (total.toNat - 0x100000) / 4096 := by
  have hsub : (total - memKernelfreeStart).toNat = total.toNat - 0x100000 := by
    rw [BitVec.toNat_sub_of_le]
    · rfl
    · exact ht
  have hcount : (memoryInit bits total).bitmap.count
      = (total.toNat - 0x100000) / 4096 := by
    show ((total - memKernelfreeStart) &&& ~~~(memPageSize - 1)).toNat
      / memPageSize.toNat = _
    have hdown := down2_toNat (total - memKernelfreeStart)
    unfold down2 at hdown
    rw [hdown, memPageSize_toNat, hsub]
    omega
  refine ⟨⟨rfl, rfl, ?_⟩, hcount⟩
  have := total.isLt
  omega

/-- All of them are free. -/
theorem not_marked_memoryInit (bits : Nat → BitVec 8) (total : Word) {p : Nat}
    (hp : p < (memoryInit bits total).bitmap.count) :
    ¬ Marked (memoryInit bits total) p :=
  not_isSet_init hp

/-! ## Tables in order -/

/-- The first `k` pages are allocated and are the tables of the first `k`
    entries of `kernel_table`. -/
structure Sequential (K : Frame) (k : Nat) (m : Mmu) : Prop where
  range : ManagedRange m.alloc
  enough : 5 ≤ m.alloc.bitmap.count
  marked : ∀ p < m.alloc.bitmap.count, Marked m.alloc p ↔ p < k
  present : ∀ i, Present (m.mem K i) ↔ i.toNat < k
  frames : ∀ i, Present (m.mem K i) → (frameOf (m.mem K i)).toNat = 256 + i.toNat

section Loop

variable {K : Frame} {k : Nat} {m : Mmu}

/-- Behind a few pages in use all user pages are free. -/
theorem uallocPages_behind {m : AddrAlloc} (hk : k ≤ 5)
    (hmarked : ∀ p < m.bitmap.count, Marked m p ↔ p < k)
    (hc : 256 < m.bitmap.count) {n : Nat} (hn : 1 ≤ n) :
    uallocPages m n = (pageAddr m 256, marking m 256 n) := by
  have hu : userIndex = 256 := by decide
  refine uallocPages_of_firstFit hn ⟨by omega, hc, ?_, ?_⟩
  · intro p hp hpb hm
    have h1 := hp.1
    have hlt := (hmarked p hpb).mp hm
    dsimp only at h1
    omega
  · intro s' hle hs'
    omega

/-- The first user page is free. -/
theorem Sequential.ualloc (h : Sequential K k m) (hk : k ≤ 5)
    (hc : 256 < m.alloc.bitmap.count) :
    uallocPages m.alloc 1 = (pageAddr m.alloc 256, marking m.alloc 256 1) :=
  uallocPages_behind hk h.marked hc (Nat.le_refl 1)

/-- `Sequential` of any number of pages: they may run out. -/
structure InOrder (K : Frame) (k : Nat) (m : Mmu) : Prop where
  range : FromOneMb m.alloc
  le_count : k ≤ m.alloc.bitmap.count
  marked : ∀ p < m.alloc.bitmap.count, Marked m.alloc p ↔ p < k
  present : ∀ i, Present (m.mem K i) ↔ i.toNat < k
  frames : ∀ i, Present (m.mem K i) → (frameOf (m.mem K i)).toNat = 256 + i.toNat
  writable : ∀ i, Present (m.mem K i) → (m.mem K i).getLsbD 1 = true

/-- The next page is the lowest one free. -/
theorem InOrder.kalloc (h : InOrder K k m) (hk : k < 5)
    (hc : k < m.alloc.bitmap.count) :
    kallocPages m.alloc 1 = (pageAddr m.alloc k, marking m.alloc k 1) := by
  refine kallocPages_of_firstFit (Nat.le_refl 1) ⟨Nat.zero_le k, hc, ?_, ?_⟩
    (by omega)
  · intro p hp hpb hm
    have h1 := hp.1
    have hlt := (h.marked p hpb).mp hm
    dsimp only at h1
    omega
  · intro s' _ hs' hfit
    refine hfit s' ⟨Nat.le_refl _, by dsimp only; omega⟩ (by omega) ?_
    exact (h.marked s' (by omega)).mpr hs'

/-- The frame of the next page. -/
theorem InOrder.frameOf_next (h : InOrder K k m) (hk : k < 5) :
    (frameOf (pageAddr m.alloc k)).toNat = 256 + k := by
  rw [frameOf_toNat, h.range.addr_toNat]
  omega

/-- That page is in no tree. -/
theorem InOrder.fresh (h : InOrder K k m) (hK : K.toNat < 256)
    (hk : k < 5) : Fresh K [] m.mem (pageAddr m.alloc k) := by
  have haddr := h.range.addr_toNat k
  have hframe := h.frameOf_next hk
  refine ⟨?_, by omega, ?_⟩
  · intro h0
    rw [h0] at haddr
    have hz : (0 : Word).toNat = 0 := rfl
    omega
  · rintro (hm | ⟨d, hd, i, hp, ht⟩)
    · rw [List.mem_singleton.mp hm] at hframe
      omega
    · rw [List.mem_singleton.mp hd] at hp ht
      have hi := (h.present i).mp hp
      have hf := h.frames i hp
      rw [show frameOf (m.mem K i) = frameOf (pageAddr m.alloc k) from ht] at hf
      omega

/-- The page is marked and is the table of the next entry. -/
theorem InOrder.addTable (h : InOrder K k m) (hK : K.toNat < 256) (hk : k < 5)
    (hc : k < m.alloc.bitmap.count) {d : Slot} (hd : d.toNat = k) :
    InOrder K (k + 1) ⟨(m.mem.set K d (newPde (pageAddr m.alloc k))).fill
      (frameOf (pageAddr m.alloc k)) 0, marking m.alloc k 1⟩ := by
  have hframe := h.frameOf_next hk
  have hKne : K ≠ frameOf (pageAddr m.alloc k) := by
    intro hc'
    rw [← hc'] at hframe
    omega
  have hsame := marking_sameRange m.alloc k 1
  have hlt := h.range.count_lt
  have hroot : ∀ i, (m.mem.set K d (newPde (pageAddr m.alloc k))).fill
      (frameOf (pageAddr m.alloc k)) 0 K i
      = if i = d then newPde (pageAddr m.alloc k) else m.mem K i := by
    intro i
    rw [fill_of_ne hKne]
    unfold Store.set
    by_cases hi : i = d
    · rw [if_pos ⟨rfl, hi⟩, if_pos hi]
    · rw [if_neg (fun hc => hi hc.2), if_neg hi]
  -- of the present entries `d` is the one that is new
  refine ⟨h.range.of_sameRange hsame, ?_, ?_, ?_, ?_, ?_⟩
  · rw [hsame.1]
    exact hc
  · intro p hpb
    rw [hsame.1] at hpb
    rw [marked_marking hc (by omega), h.marked p hpb]
    omega
  · intro i
    dsimp only
    rw [hroot]
    by_cases hi : i = d
    · rw [if_pos hi, hi]
      exact iff_of_true (present_newPde _) (by omega)
    · rw [if_neg hi, h.present i]
      have hne : i.toNat ≠ d.toNat := fun hc => hi (BitVec.eq_of_toNat_eq hc)
      omega
  · intro i
    dsimp only
    rw [hroot]
    by_cases hi : i = d
    · rw [if_pos hi, hi, frameOf_newPde, hframe]
      intro _
      omega
    · rw [if_neg hi]
      exact h.frames i
  · intro i
    dsimp only
    rw [hroot]
    by_cases hi : i = d
    · rw [if_pos hi]
      intro _
      simp [newPde, pdeW]
    · rw [if_neg hi]
      exact h.writable i

/-- **ONE PAGE** of `kernel_table`, with the table it may need, unless the pages
    have run out. -/
theorem InOrder.findPte (h : InOrder K k m) (hK : K.toNat < 256)
    {vaddr : Word} (hle : (vaddrDir vaddr).toNat ≤ k)
    (hlt : (vaddrDir vaddr).toNat < 5) :
    (k = m.alloc.bitmap.count ∧ k < 5 ∧
      PageTable.findPte K vaddr m = (none, m)) ∨
    ((¬ Present (m.mem K (vaddrDir vaddr)) →
        Fresh K [] m.mem (kallocPages m.alloc 1).1) ∧
      ∃ t m', PageTable.findPte K vaddr m = (some (t, vaddrTable vaddr), m') ∧
        K ≠ t ∧ InOrder K (max k ((vaddrDir vaddr).toNat + 1)) m') := by
  obtain ⟨d, hd⟩ : ∃ d, vaddrDir vaddr = d := ⟨_, rfl⟩
  rw [hd] at hle hlt ⊢
  have hframe_ne : ∀ {t : Frame}, t.toNat = 256 + d.toNat → K ≠ t := by
    rintro t ht rfl
    omega
  by_cases hp : Present (m.mem K d)
  · have hdk := (h.present d).mp hp
    refine Or.inr ⟨fun hn => absurd hp hn, frameOf (m.mem K d), m, ?_,
      hframe_ne (h.frames d hp), ?_⟩
    · unfold PageTable.findPte
      dsimp only
      rw [hd, if_pos hp]
    · rw [Nat.max_eq_left (by omega)]
      exact h
  -- entries come in order, so an absent one within reach is the next
  · have hdk : d.toNat = k := by
      have hn : ¬ d.toNat < k := fun hc => hp ((h.present d).mpr hc)
      omega
    have hk5 : k < 5 := by omega
    by_cases hc : k < m.alloc.bitmap.count
    · have hkal := h.kalloc hk5 hc
      have hfresh := h.fresh hK hk5
      have hframe := h.frameOf_next hk5
      refine Or.inr ⟨fun _ => by rw [hkal]; exact hfresh,
        frameOf (pageAddr m.alloc k),
        ⟨(m.mem.set K d (newPde (pageAddr m.alloc k))).fill
          (frameOf (pageAddr m.alloc k)) 0, marking m.alloc k 1⟩, ?_,
        hframe_ne (by omega), ?_⟩
      · unfold PageTable.findPte
        dsimp only
        rw [hd, if_neg hp, hkal, if_neg hfresh.ne_zero]
        rfl
      · rw [hdk, Nat.max_eq_right (by omega)]
        exact h.addTable hK hk5 hc hdk
    · have hfull : kallocPages m.alloc 1 = (0, m.alloc) := by
        refine kallocPages_full (Nat.le_refl 1) ?_
        intro p hpb
        exact (h.marked p hpb).mpr (by omega)
      refine Or.inl ⟨Nat.le_antisymm h.le_count (Nat.le_of_not_lt hc), hk5, ?_⟩
      unfold PageTable.findPte
      dsimp only
      rw [hd, if_neg hp, hfull]
      rfl

/-- A leaf is not in `kernel_table` itself. -/
theorem InOrder.setLeaf (h : InOrder K k m) {t : Frame} (ht : K ≠ t)
    (j : Slot) (v : Word) : InOrder K k { m with mem := m.mem.set t j v } where
  range := h.range
  le_count := h.le_count
  marked := h.marked
  present := by
    intro i
    dsimp only
    rw [set_of_ne ht]
    exact h.present i
  frames := by
    intro i
    dsimp only
    rw [set_of_ne ht]
    exact h.frames i
  writable := by
    intro i
    dsimp only
    rw [set_of_ne ht]
    exact h.writable i

/-- The pages have run out before the five tables were made. -/
def RanOut (k : Nat) (m : Mmu) : Prop := k = m.alloc.bitmap.count ∧ k < 5

/-- **A REGION** below 20 MB.  Induction over its pages: the index of the
    directory entry grows by at most one from page to page. -/
theorem InOrder.mapLoop (hK : K.toNat < 256) (perm : Word) :
    ∀ (n k : Nat) (vaddr paddr : Word) (m : Mmu), InOrder K k m → k ≤ 5 →
      (vaddrDir vaddr).toNat ≤ k → vaddr.toNat + 4096 * n ≤ 5 * 2 ^ 22 →
      ∃ k', k ≤ k' ∧ k' ≤ 5 ∧
        InOrder K k' (PageTable.mapLoop K perm n vaddr paddr m) ∧
        (FreshTables K [] K perm n vaddr paddr m ∨ RanOut k' m) := by
  intro n
  induction n with
  | zero =>
      intro k vaddr paddr m h hk _ _
      exact ⟨k, Nat.le_refl k, hk, h, Or.inl trivial⟩
  | succ n ih =>
      intro k vaddr paddr m h hk hle hend
      have hdir := vaddrDir_toNat vaddr
      have hnext : (vaddr + memPageSize).toNat = vaddr.toNat + 4096 := by
        rw [BitVec.toNat_add, memPageSize_toNat]
        omega
      have hdir' := vaddrDir_toNat (vaddr + memPageSize)
      -- either the pages run out here, and the loop stops, or the rest goes on
      rcases h.findPte hK hle (by omega) with
        ⟨hcount, hlt, hfind⟩ | ⟨hfresh, t, m₁, hfind, hKt, h₁⟩
      · refine ⟨k, Nat.le_refl k, hk, ?_, Or.inr ⟨hcount, hlt⟩⟩
        rw [PageTable.mapLoop, hfind]
        exact h
      · obtain ⟨k', hk1, hk2, h', hrest⟩ := ih _ (vaddr + memPageSize)
          (paddr + memPageSize) _ (h₁.setLeaf hKt (vaddrTable vaddr)
            (newPte paddr perm)) (by omega) (by omega) (by omega)
        have hgrows := findPte_grows K vaddr m
        rw [hfind] at hgrows
        refine ⟨k', by omega, hk2, ?_, ?_⟩
        · rw [PageTable.mapLoop, hfind]
          exact h'
        · rcases hrest with hrest | ⟨hcount, hlt⟩
          · refine Or.inl ⟨hfresh, ?_⟩
            rw [hfind]
            exact hrest
          · exact Or.inr ⟨hcount.trans hgrows.range.1, hlt⟩

end Loop

/-! ## The regions of `kernel.lds` -/

/-- The region ends below 20 MB and starts in the first 4 MB. -/
structure RegionLow (map : MmuManager) : Prop where
  start_lt : map.vstartPage.toNat < 2 ^ 22
  end_le : map.vstartPage.toNat + 4096 * map.npage ≤ 5 * 2 ^ 22

/-- Rounding up to a page. -/
theorem up2_toNat {x : Word} (hx : x.toNat < 2 ^ 31) :
    (up2 x memPageSize).toNat = (x.toNat + 4095) / 4096 * 4096 := by
  have h := down2_toNat (x + memPageSize - 1)
  have hsum : (x + memPageSize - 1).toNat = x.toNat + 4095 := by
    rw [BitVec.toNat_sub, BitVec.toNat_add, memPageSize_toNat]
    have h1 : (1 : Word).toNat = 1 := rfl
    omega
  rw [hsum] at h
  exact h

/-- Below `2 ^ 31` the sign does not matter. -/
theorem toInt_of_lt {x : Word} (hx : x.toNat < 2 ^ 31) : x.toInt = x.toNat := by
  rw [BitVec.toInt_eq_toNat_cond, if_pos (by omega)]

/-- The pages of a region with small bounds. -/
theorem npage_eq {map : MmuManager} (h1 : map.vstartPage.toNat < 2 ^ 30)
    (h2 : map.vend.toNat < 2 ^ 30) :
    map.npage = ((map.vend.toNat + 4095) / 4096 * 4096 - map.vstartPage.toNat)
      / 4096 := by
  have hup := up2_toNat (x := map.vend) (by omega)
  have hvend : (up2 map.vend memPageSize).toInt
      = ((map.vend.toNat + 4095) / 4096 * 4096 : Nat) := by
    rw [toInt_of_lt (by omega), hup]
  have hwrap : int32 ((up2 map.vend memPageSize).toInt - map.vstartPage.toInt)
      = (up2 map.vend memPageSize).toInt - map.vstartPage.toInt := by
    unfold int32
    rw [hvend, toInt_of_lt (by omega), Int.bmod_eq_of_le] <;> omega
  unfold MmuManager.npage
  rw [hwrap, hvend, toInt_of_lt (x := map.vstartPage) (by omega)]
  by_cases hle : map.vstartPage.toNat ≤ (map.vend.toNat + 4095) / 4096 * 4096
  · rw [Int.tdiv_eq_ediv_of_nonneg (by omega)]
    omega
  · obtain ⟨x, hx⟩ : ∃ x : Int, x = ((map.vend.toNat + 4095) / 4096 * 4096 : Nat)
        - (map.vstartPage.toNat : Int) := ⟨_, rfl⟩
    have hneg := Int.neg_tdiv (-x) 4096
    have hnonneg : 0 ≤ (-x).tdiv 4096 := Int.tdiv_nonneg (by omega) (by omega)
    rw [Int.neg_neg] at hneg
    rw [← hx]
    omega

/-- A region that ends by 20 MB lies low. -/
theorem RegionLow.of_bounds {map : MmuManager} (h1 : map.vstart.toNat < 2 ^ 22)
    (h2 : map.vend.toNat ≤ 5 * 2 ^ 22) : RegionLow map := by
  have hstart : map.vstartPage.toNat = map.vstart.toNat / 4096 * 4096 :=
    down2_toNat map.vstart
  have hn : map.npage = _ := npage_eq (by omega) (by omega)
  exact ⟨by omega, by omega⟩

/-- The kernel's regions lie low. -/
theorem kernelMap_low (l : Layout) : ∀ map ∈ kernelMap l, RegionLow map := by
  have h1 := l.etext_ge
  have h2 := l.sdata_ge
  have h3 := l.table_ge
  have h4 := l.table_lt
  intro map hmap
  simp only [kernelMap, List.mem_cons, List.not_mem_nil, or_false] at hmap
  rcases hmap with rfl | rfl | rfl | rfl
  · exact RegionLow.of_bounds (by decide) (by decide)
  · refine RegionLow.of_bounds ?_ (by dsimp only; omega)
    show stext.toNat < 2 ^ 22
    decide
  · refine RegionLow.of_bounds (by dsimp only; omega) ?_
    show (memEbdaStart - 1).toNat ≤ 5 * 2 ^ 22
    decide
  · exact RegionLow.of_bounds (by decide) (by decide)

/-- Mapping the regions takes at most five pages in order, each for a table that was
    missing, or stops for want of a page; the induction is on the regions. -/
theorem InOrder.mapRegions {K : Frame} (hK : K.toNat < 256) :
    ∀ (maps : List MmuManager) (k : Nat) (m : Mmu), InOrder K k m → k ≤ 5 →
      (∀ map ∈ maps, RegionLow map) →
      ∃ k', k ≤ k' ∧ k' ≤ 5 ∧ InOrder K k' (maps.foldl (mapRegion K) m) ∧
        (FreshRegions K maps m ∨ RanOut k' m) := by
  intro maps
  induction maps with
  | nil => intro k m h hk _; exact ⟨k, Nat.le_refl k, hk, h, Or.inl trivial⟩
  | cons map maps ih =>
      intro k m h hk hlow
      have hmap := hlow map (by simp)
      have hstart := hmap.start_lt
      have hdir := vaddrDir_toNat map.vstartPage
      obtain ⟨k₁, hle₁, hk₁, h₁, hfresh⟩ := InOrder.mapLoop hK map.perm map.npage
        k map.vstartPage map.pstart m h hk (by omega) hmap.end_le
      obtain ⟨k', hle', hk', h', hrest⟩ := ih k₁ (mapRegion K m map) h₁ hk₁
        (fun map' hm => hlow map' (List.mem_cons_of_mem _ hm))
      have hcount : (mapRegion K m map).alloc.bitmap.count
          = m.alloc.bitmap.count :=
        (mapLoop_grows K map.perm map.npage map.vstartPage map.pstart m).range.1
      refine ⟨k', by omega, hk', h', ?_⟩
      rcases hfresh with hfresh | ⟨hout, hlt⟩
      · rcases hrest with hrest | ⟨hout, hlt⟩
        · exact Or.inl ⟨hfresh, hrest⟩
        · exact Or.inr ⟨hout.trans hcount, hlt⟩
      · -- what has run out stays so
        have hlast := h'.le_count
        rw [(mapRegions_grows K maps (mapRegion K m map)).range.1, hcount] at hlast
        have hall : k' = k₁ := by omega
        exact Or.inr ⟨hall.trans hout, by omega⟩

/-! ## The boot -/

/-- Memory with any contents, the allocator as `memory_init` leaves it. -/
def memoryReady (mem : Frames) (bits : Nat → BitVec 8) (total : Word) : Mmu where
  mem := mem
  alloc := memoryInit bits total

section Boot

variable (l : Layout) (mem : Frames) (bits : Nat → BitVec 8) {total : Word}

/-- No page has been taken when the kernel's table is cleared. -/
theorem zeroed_inOrder (total : Word) :
    InOrder l.kernelTable 0 (zeroed l (memoryReady mem bits total)) := by
  have hzero : ∀ i, ¬ Present ((zeroed l (memoryReady mem bits total)).mem
      l.kernelTable i) := by
    intro i
    show ¬ Present ((mem.fill l.kernelTable 0) l.kernelTable i)
    rw [fill_self]
    exact not_present_zero
  refine ⟨memoryInit_fromOneMb bits total, Nat.zero_le _, ?_, ?_, ?_, ?_⟩
  · intro p hp
    exact iff_of_false (not_marked_memoryInit bits total hp) (by omega)
  · intro i
    exact iff_of_false (hzero i) (by omega)
  · intro i hi
    exact absurd hi (hzero i)
  · intro i hi
    exact absurd hi (hzero i)

/-- With any number of pages: the tables are made one after another, and there
    is a page for each of them or no page left. -/
theorem boot_inOrder (total : Word) :
    ∃ k ≤ 5, InOrder l.kernelTable k
        (createKernelTable l (memoryReady mem bits total)) ∧
      (FreshRegions l.kernelTable (kernelMap l)
          (zeroed l (memoryReady mem bits total)) ∨
        RanOut k (memoryReady mem bits total)) := by
  obtain ⟨k, -, hk, hin, hfresh⟩ := InOrder.mapRegions l.table_lt (kernelMap l) 0 _
    (zeroed_inOrder l mem bits total) (Nat.zero_le 5) (kernelMap_low l)
  exact ⟨k, hk, hin, hfresh⟩

/-- With five pages there is always one for the next table. -/
theorem not_ranOut (ht : 0x105000 ≤ total.toNat) {k : Nat} :
    ¬ RanOut k (memoryReady mem bits total) := by
  rintro ⟨hk, hlt⟩
  have hge : 0x100000 ≤ total.toNat := by omega
  have hcount := (memoryInit_range bits hge).2
  have hsame : (memoryReady mem bits total).alloc.bitmap.count
      = (memoryInit bits total).bitmap.count := rfl
  omega

/-- **FIVE FREE PAGES** are enough for the tables of the kernel. -/
theorem freshRegions_of_boot (ht : 0x105000 ≤ total.toNat) :
    FreshRegions l.kernelTable (kernelMap l)
      (zeroed l (memoryReady mem bits total)) := by
  obtain ⟨k, -, -, hfresh⟩ := boot_inOrder l mem bits total
  exact hfresh.resolve_right (not_ranOut mem bits ht)

/-- Boot takes its tables from the first five pages, in order. -/
theorem boot_sequential (ht : 0x105000 ≤ total.toNat) :
    ∃ k ≤ 5, Sequential l.kernelTable k
      (createKernelTable l (memoryReady mem bits total)) := by
  obtain ⟨k, hk, hin, -⟩ := boot_inOrder l mem bits total
  have hge : 0x100000 ≤ total.toNat := by omega
  obtain ⟨hrange, hcount⟩ := memoryInit_range bits hge
  have hsame : SameRange (memoryInit bits total) _ :=
    (createKernelTable_grows l (memoryReady mem bits total)).range
  refine ⟨k, hk, hrange.of_sameRange hsame, ?_, hin.marked, hin.present, hin.frames⟩
  rw [hsame.1, hcount]
  omega

/-- The number of pages that boot leaves to manage. -/
theorem boot_count (ht : 0x100000 ≤ total.toNat) :
    (createKernelTable l (memoryReady mem bits total)).alloc.bitmap.count
      = (total.toNat - 0x100000) / 4096 :=
  (createKernelTable_grows l _).range.1.trans (memoryInit_range bits ht).2

end Boot

/-- **THE SECOND PAGE** is mapped to itself by the first region, and the others
    leave it alone. -/
theorem boot_page_one (l : Layout) (m : Mmu)
    (hf : FreshRegions l.kernelTable (kernelMap l) (zeroed l m)) :
    walkAt (createKernelTable l m).mem l.kernelTable 0x1000
      = some (newPte 0x1000 (pteW ||| pteU)) := by
  obtain ⟨hf, hrest⟩ := hf
  obtain ⟨htrees, hmapped, -⟩ := mapRegion_spec _ (zeroed_trees l m) hf
  have hothers := (mapRegions_spec (kernelMap l).tail _ htrees hrest).2
  have hfold : createKernelTable l m = (kernelMap l).tail.foldl (mapRegion l.kernelTable)
      (mapRegion l.kernelTable (zeroed l m) ⟨kernelBase, kernelEnd, kernelBase,
        pteW ||| pteU⟩) := by
    unfold createKernelTable zeroed kernelMap
    rw [List.foldl_cons, List.tail_cons]
  have htext := l.etext_ge
  have hdata := l.sdata_ge
  -- page 1 lies before the other regions
  have hstart : ∀ map ∈ (kernelMap l).tail, 0x2000 ≤ map.vstartPage.toNat := by
    intro map hmap
    simp only [kernelMap, List.tail_cons, List.mem_cons, List.not_mem_nil, or_false] at hmap
    rcases hmap with rfl | rfl | rfl
    · show 0x2000 ≤ (down2 stext memPageSize).toNat
      decide
    · show 0x2000 ≤ (down2 l.sdata memPageSize).toNat
      rw [down2_toNat]
      omega
    · rw [freeRegion_vstartPage]
      decide
  have hout : ∀ map ∈ (kernelMap l).tail, ∀ i < map.npage,
      pageOf 0x1000 ≠ pageOf (pagesFrom map.vstartPage i) := by
    intro map hmap i hi
    have hend := (kernelMap_low l map (List.mem_of_mem_tail hmap)).end_le
    have hlow := hstart map hmap
    rw [pageOf_pagesFrom]
    have h1 : pageOf 0x1000 = 1 := rfl
    unfold pageOf at h1 ⊢
    omega
  have hfirst := hmapped 1 (by decide)
  have hv : pagesFrom (MmuManager.mk kernelBase kernelEnd kernelBase
      (pteW ||| pteU)).vstartPage 1 = 0x1000 := by decide
  have hp : pagesFrom kernelBase 1 = 0x1000 := by decide
  rw [hv] at hfirst
  dsimp only at hfirst
  rw [hp] at hfirst
  rw [hfold, hothers 0x1000 hout]
  exact hfirst

end LittleOS.KernelBoot
