import LittleOS.KernelBoot

/-! # The kernel's map

    `create_kernel_table` maps four regions one after another, each page to
    itself.  Their rounded ranges are apart, so every page is mapped once, and
    the `ASSERT` of `vaddr2paddr` that its entry is empty holds at every turn.

    * `mapLoop_empty` — pages that were not mapped find their entries empty;
    * `regions_spec` — regions that are apart are mapped side by side;
    * `kernel_mapped` — the table for every layout and every address, and the
      five pages it takes. -/

namespace LittleOS.KernelMap

open TwoLevel PageBitmap Memory PageTable AddressSpaces KernelBoot

/-! ## The assertion of the loop -/

/-- `find_pte` gives an entry at every turn, and `ASSERT(pte->present == 0)`
    holds of it. -/
def EmptyEntries (dir : Frame) (perm : Word) : Nat → Word → Word → Mmu → Prop
  | 0, _, _, _ => True
  | count + 1, vaddr, paddr, m =>
      match findPte dir vaddr m with
      | (none, _) => False
      | (some (table, slot), m) =>
          ¬ Present (m.mem table slot) ∧
          EmptyEntries dir perm count (vaddr + memPageSize) (paddr + memPageSize)
            { m with mem := m.mem.set table slot (paddr ||| perm ||| pteP) }

/-- The regions have no entries yet when they are mapped. -/
def EmptyRegions (K : Frame) : List MmuManager → Mmu → Prop
  | [], _ => True
  | map :: maps, m =>
      EmptyEntries K map.perm map.npage map.vstartPage map.pstart m ∧
      EmptyRegions K maps (mapRegion K m map)

section Loop

variable {K dir : Frame} {dirs : List Frame}

/-- Induction over the pages: the entry of this turn is that of another page. -/
theorem mapLoop_empty {perm : Word} (hd : dir ∈ K :: dirs) :
    ∀ (n : Nat) (vaddr paddr : Word) (m : Mmu), SpaceTrees K dirs m.mem →
      n ≤ 2 ^ 20 →
      (∀ i < n, vaddrDir (pagesFrom vaddr i) ≠ 0 ∨ dirs = []) →
      FreshTables K dirs dir perm n vaddr paddr m →
      (∀ i < n, walkAt m.mem dir (pagesFrom vaddr i) = none) →
      EmptyEntries dir perm n vaddr paddr m := by
  intro n
  induction n with
  | zero => intro vaddr paddr m _ _ _ _ _; exact trivial
  | succ n ih =>
      intro vaddr paddr m h hn hown hfresh hnone
      have hown0 := hown 0 (by omega)
      have hnone0 := hnone 0 (by omega)
      rw [pagesFrom_zero] at hown0 hnone0
      obtain ⟨hf, hrest⟩ := hfresh
      obtain ⟨m₁, hone⟩ := mapsOne (v := newPte paddr perm) h hd hown0 hf
        (present_or_one _)
      rw [hone.found] at hrest
      unfold EmptyEntries
      rw [hone.found]
      refine ⟨?_, ih _ _ (writeEntry dir vaddr (newPte paddr perm) m₁) hone.trees
        (by omega) (fun i hi => by rw [pagesFrom_succ]; exact hown (i + 1) (by omega))
        hrest ?_⟩
      -- the table is there and the walk fails, so it fails at the entry
      · intro hp
        have hwalk : walkAt m₁.mem dir vaddr = some _ :=
          (walk_present entryFormat hone.present _).trans (if_pos hp)
        exact nomatch hwalk.symm.trans ((hone.kept dir hd vaddr).trans hnone0)
      · intro i hi
        rw [hone.walks dir hd, if_neg, pagesFrom_succ]
        · exact hnone (i + 1) (by omega)
        · exact fun hc => pageOf_ne_next vaddr (by omega) hc.2.symm

/-- The entries of the directory give all rights. -/
def FullRights (dir : Frame) (mem : Frames) : Prop :=
  ∀ i, Present (mem dir i) → attrOf (mem dir i) = 7

/-- Mapping pages keeps the rights of every directory entry; the induction is on the pages. -/
theorem mapLoop_rights {perm : Word} (hd : dir ∈ K :: dirs) :
    ∀ (n : Nat) (vaddr paddr : Word) (m : Mmu), SpaceTrees K dirs m.mem →
      n ≤ 2 ^ 20 →
      (∀ i < n, vaddrDir (pagesFrom vaddr i) ≠ 0 ∨ dirs = []) →
      FreshTables K dirs dir perm n vaddr paddr m →
      FullRights dir m.mem → FullRights dir (mapLoop dir perm n vaddr paddr m).mem := by
  intro n
  induction n with
  | zero => intro vaddr paddr m _ _ _ _ h; exact h
  | succ n ih =>
      intro vaddr paddr m h hn hown hfresh hrights
      have hown0 := hown 0 (by omega)
      rw [pagesFrom_zero] at hown0
      obtain ⟨hf, hrest⟩ := hfresh
      obtain ⟨m₁, hone⟩ := mapsOne (v := newPte paddr perm) h hd hown0 hf
        (present_or_one _)
      rw [hone.found] at hrest
      rw [mapLoop, hone.found]
      refine ih _ _ (writeEntry dir vaddr (newPte paddr perm) m₁) hone.trees
        (by omega) (fun i hi => by rw [pagesFrom_succ]; exact hown (i + 1) (by omega))
        hrest ?_
      intro i hi
      by_cases hp : Present (m.mem dir i)
      · rw [hone.roots dir hd i hp]
        exact hrights i hp
      · exact hone.made i hp hi

end Loop

/-! ## Regions side by side -/

/-- The address is on a page of the region. -/
def InPages (map : MmuManager) (v : Word) : Prop :=
  ∃ i < map.npage, pageOf v = pageOf (pagesFrom map.vstartPage i)

/-- No page is in two of them. -/
abbrev Apart (maps : List MmuManager) : Prop :=
  maps.Pairwise (fun a b => ∀ v, InPages a v → ¬ InPages b v)

/-- What the regions do to the table. -/
structure RegionsMapped (K : Frame) (maps : List MmuManager) (m m' : Mmu) : Prop where
  trees : SpaceTrees K [] m'.mem
  mapped : ∀ map ∈ maps, ∀ i < map.npage,
    walkAt m'.mem K (pagesFrom map.vstartPage i)
      = some (newPte (pagesFrom map.pstart i) map.perm)
  others : ∀ v, (∀ map ∈ maps, ¬ InPages map v) → walkAt m'.mem K v = walkAt m.mem K v
  empty : EmptyRegions K maps m
  rights : FullRights K m'.mem

section Regions

variable {K : Frame}

/-- **REGIONS APART** are mapped side by side.  Induction over them: the first
    one finds its pages not mapped and leaves those of the others alone. -/
theorem regions_spec : ∀ (maps : List MmuManager) (m : Mmu), SpaceTrees K [] m.mem →
    Apart maps → FreshRegions K maps m → FullRights K m.mem →
    (∀ map ∈ maps, ∀ i < map.npage, walkAt m.mem K (pagesFrom map.vstartPage i) = none) →
    RegionsMapped K maps m (maps.foldl (mapRegion K) m) := by
  intro maps
  induction maps with
  | nil =>
      intro m h _ _ hr _
      exact ⟨h, fun map hm => (nomatch hm), fun _ _ => rfl, trivial, hr⟩
  | cons map maps ih =>
      intro m h hapart hfresh hr hnone
      obtain ⟨htrees, hothers⟩ := mapRegions_spec (map :: maps) m h hfresh
      obtain ⟨hhead, htail⟩ := List.pairwise_cons.mp hapart
      obtain ⟨hf, hfs⟩ := hfresh
      obtain ⟨h₁, hmapped, hother⟩ := mapRegion_spec map h hf
      have hK := List.mem_singleton_self K
      have hr₁ : FullRights K (mapRegion K m map).mem :=
        mapLoop_rights hK map.npage _ _ m h (npage_le map) (fun _ _ => Or.inr rfl) hf hr
      have hempty : EmptyEntries K map.perm map.npage map.vstartPage map.pstart m :=
        mapLoop_empty hK map.npage _ _ m h (npage_le map) (fun _ _ => Or.inr rfl) hf
          (hnone map (by simp))
      -- a page of a later region is no page of this one
      have hlater : ∀ v, (∃ map' ∈ maps, InPages map' v) →
          walkAt (mapRegion K m map).mem K v = walkAt m.mem K v := by
        rintro v ⟨map', hm', hv⟩
        refine hother v fun i hi hp => ?_
        exact hhead map' hm' v ⟨i, hi, hp⟩ hv
      have hrest := ih (mapRegion K m map) h₁ htail hfs hr₁ (fun map' hm' i hi => by
        rw [hlater _ ⟨map', hm', i, hi, rfl⟩]
        exact hnone map' (List.mem_cons_of_mem _ hm') i hi)
      refine ⟨htrees, ?_, ?_, ⟨hempty, hrest.empty⟩, hrest.rights⟩
      swap
      · intro v hv
        exact hothers v fun map' hm' i hi hp => hv map' hm' ⟨i, hi, hp⟩
      intro map' hm' i hi
      rcases List.mem_cons.mp hm' with rfl | hm'
      · refine (hrest.others _ fun map'' hm'' => ?_).trans (hmapped i hi)
        exact hhead map'' hm'' _ ⟨i, hi, rfl⟩
      · exact hrest.mapped map' hm' i hi

end Regions

/-! ## The four regions -/

/-- The range of a region with its bounds rounded to pages. -/
def InRange (map : MmuManager) (v : Word) : Prop :=
  map.vstartPage.toNat ≤ v.toNat ∧ v.toNat < (up2 map.vend memPageSize).toNat

/-- Its pages make up that range. -/
theorem inPages_iff {map : MmuManager} (h1 : map.vstart.toNat < 2 ^ 30)
    (h2 : map.vend.toNat < 2 ^ 30) (v : Word) : InPages map v ↔ InRange map v := by
  have hstart : map.vstartPage.toNat = map.vstart.toNat / 4096 * 4096 :=
    down2_toNat map.vstart
  have hend := up2_toNat (x := map.vend) (by omega)
  have hn : map.npage = _ := npage_eq (by omega) h2
  unfold InPages InRange
  rw [hend]
  constructor
  · rintro ⟨i, hi, hp⟩
    rw [pageOf_pagesFrom] at hp
    unfold pageOf at hp
    omega
  · rintro ⟨hlo, hhi⟩
    refine ⟨pageOf v - pageOf map.vstartPage, ?_, ?_⟩
    · unfold pageOf
      omega
    · rw [pageOf_pagesFrom]
      unfold pageOf
      omega

/-- `sdata` is the first page boundary behind the code, in front of the EBDA. -/
structure Linked (l : Layout) : Prop where
  sdata : l.sdata = up2 l.etext memPageSize
  below_ebda : l.sdata.toNat ≤ memEbdaStart.toNat

/-- The frame of the word and its low bits are the word. -/
theorem addrOf_frameOf_add (v : Word) : addrOf (frameOf v) + (v &&& 0xFFF) = v := by
  have hlow : (v &&& 0xFFF).toNat = v.toNat % 4096 := by
    rw [BitVec.toNat_and, show (0xFFF : Word).toNat = 2 ^ 12 - 1 from rfl,
      Nat.and_two_pow_sub_one_eq_mod]
  refine BitVec.eq_of_toNat_eq ?_
  rw [BitVec.toNat_add, addrOf_toNat, frameOf_toNat, hlow]
  have := v.isLt
  omega

section Layout

variable {l : Layout}

/-- The data section begins at a page. -/
theorem Linked.sdata_aligned (hl : Linked l) : l.sdata.toNat % 4096 = 0 := by
  have h := down2_toNat (l.etext + memPageSize - 1)
  have he : l.sdata = down2 (l.etext + memPageSize - 1) memPageSize := hl.sdata
  rw [he]
  omega

/-- A region starts on a page boundary, which is mapped to itself. -/
structure SelfMapped (map : MmuManager) : Prop where
  start_eq : map.pstart = map.vstart
  aligned : map.vstart.toNat % 4096 = 0
  perm_lt : map.perm.toNat < 4096
  start_lt : map.vstart.toNat < 2 ^ 30
  end_lt : map.vend.toNat < 2 ^ 30

/-- The regions are mapped to themselves. -/
theorem Linked.selfMapped (hl : Linked l) : ∀ map ∈ kernelMap l, SelfMapped map := by
  have haligned := hl.sdata_aligned
  have hebda : l.sdata.toNat ≤ 0x80000 := hl.below_ebda
  have hdata := l.sdata_ge
  intro map hmap
  simp only [kernelMap, List.mem_cons, List.not_mem_nil, or_false] at hmap
  rcases hmap with rfl | rfl | rfl | rfl
  · exact ⟨rfl, by decide, by decide, by decide, by decide⟩
  · exact ⟨rfl, by dsimp only; decide, by dsimp only; decide,
      by dsimp only; decide, by dsimp only; omega⟩
  · exact ⟨rfl, haligned, by dsimp only; decide, by dsimp only; omega,
      by dsimp only; decide⟩
  · exact ⟨rfl, by decide, by decide, by decide, by decide⟩

/-- The ranges follow one another. -/
theorem Linked.ordered (hl : Linked l) : (kernelMap l).Pairwise
    (fun a b => (up2 a.vend memPageSize).toNat ≤ b.vstartPage.toNat) := by
  have haligned := hl.sdata_aligned
  have hebda : l.sdata.toNat ≤ 0x80000 := hl.below_ebda
  have htext := l.etext_ge
  have hdata := l.sdata_ge
  have h1 : (up2 kernelEnd memPageSize).toNat = 0x10000 := by decide
  have h2 : (down2 stext memPageSize).toNat = 0x10000 := by decide
  have h3 : (down2 l.sdata memPageSize).toNat = l.sdata.toNat := by
    rw [down2_toNat]
    omega
  have h4 : (up2 (memEbdaStart - 1) memPageSize).toNat = 0x80000 := by decide
  have h5 : (down2 memKernelfreeStart memPageSize).toNat = 0x100000 := by decide
  simp only [kernelMap, MmuManager.vstartPage, List.pairwise_cons, List.mem_cons,
    List.not_mem_nil, or_false, forall_eq_or_imp, forall_eq, List.Pairwise.nil,
    and_true, h1, h2, h3, h4, h5, ← hl.sdata, false_implies, implies_true]
  omega

/-- The regions do not overlap. -/
theorem Linked.apart (hl : Linked l) : Apart (kernelMap l) := by
  refine hl.ordered.imp_of_mem ?_
  intro a b ha hb hle v hva hvb
  have h1 := ((inPages_iff (hl.selfMapped a ha).start_lt (hl.selfMapped a ha).end_lt
    v).mp hva).2
  have h2 := ((inPages_iff (hl.selfMapped b hb).start_lt (hl.selfMapped b hb).end_lt
    v).mp hvb).1
  omega

/-- The entry of page `i` of a region names the page itself. -/
theorem SelfMapped.entry {map : MmuManager} (h : SelfMapped map) {v : Word} {i : Nat}
    (hv : pageOf v = pageOf (pagesFrom map.vstartPage i)) :
    frameOf (newPte (pagesFrom map.pstart i) map.perm) = frameOf v ∧
    attrOf (newPte (pagesFrom map.pstart i) map.perm) = attrOf (map.perm ||| pteP) := by
  have hstart : map.vstartPage.toNat = map.vstart.toNat / 4096 * 4096 :=
    down2_toNat map.vstart
  have haligned := h.aligned
  have hpage := pagesFrom_toNat map.pstart i
  rw [h.start_eq] at hpage ⊢
  constructor
  · unfold newPte
    rw [frameOf_or (by decide), frameOf_or h.perm_lt]
    refine BitVec.eq_of_toNat_eq ?_
    rw [pageOf_pagesFrom] at hv
    unfold pageOf at hv
    rw [frameOf_toNat, frameOf_toNat, hpage]
    omega
  · unfold newPte
    rw [BitVec.or_assoc, attrOf_or (by omega)]

end Layout

/-! ## The whole table -/

/-- The ranges are mapped to themselves and nothing else is; every entry was
    empty before, and the first five pages are the tables. -/
structure KernelMapped (l : Layout) (m m' : Mmu) : Prop where
  inside : ∀ map ∈ kernelMap l, ∀ v, InRange map v →
    ∃ pte, walkAt m'.mem l.kernelTable v = some pte ∧
      addrOf (frameOf pte) + (v &&& 0xFFF) = v ∧
      attrOf pte = attrOf (map.perm ||| pteP)
  rights : FullRights l.kernelTable m'.mem
  outside : ∀ v, (∀ map ∈ kernelMap l, ¬ InRange map v) →
    walkAt m'.mem l.kernelTable v = none
  empty : EmptyRegions l.kernelTable (kernelMap l) (zeroed l m)
  tables : ∀ i, Present (m'.mem l.kernelTable i) ↔ i.toNat < 5
  frames : ∀ i, Present (m'.mem l.kernelTable i) →
    (frameOf (m'.mem l.kernelTable i)).toNat = 256 + i.toNat
  free : ∀ p < m.alloc.bitmap.count, ¬ Marked m.alloc p
  taken : ∀ p < m'.alloc.bitmap.count, Marked m'.alloc p ↔ p < 5

/-- A cleared table maps nothing. -/
theorem zeroed_walkAt (l : Layout) (m : Mmu) (v : Word) :
    walkAt (zeroed l m).mem l.kernelTable v = none := by
  refine walk_absent entryFormat ?_ _
  show ¬ Present ((m.mem.fill l.kernelTable 0) l.kernelTable (vaddrDir v))
  rw [fill_self]
  exact not_present_zero

/-- **THE KERNEL'S TABLE**, for every layout, any contents of memory and any
    allocator with five pages to give. -/
theorem kernel_mapped (l : Layout) (hl : Linked l) (mem : Frames)
    (bits : Nat → BitVec 8) (total : Word)
    (hfive : 5 ≤ (Memory.memoryInit bits total).bitmap.count) :
    KernelMapped l (memoryReady mem bits total)
      (createKernelTable l (memoryReady mem bits total)) := by
  obtain ⟨k, hk, hin, hfresh⟩ := boot_inOrder l mem bits total
  have hout : ¬ RanOut k (memoryReady mem bits total) := by
    rintro ⟨hcount, hlt⟩
    have hsame : (memoryReady mem bits total).alloc.bitmap.count
        = (Memory.memoryInit bits total).bitmap.count := rfl
    omega
  have hspec := regions_spec (kernelMap l) (zeroed l (memoryReady mem bits total))
    (zeroed_trees l _) hl.apart (hfresh.resolve_right hout)
    (fun i hi => absurd hi (by
      show ¬ Present ((mem.fill l.kernelTable 0) l.kernelTable i)
      rw [fill_self]
      exact not_present_zero))
    (fun _ _ _ _ => zeroed_walkAt l _ _)
  have hinside : ∀ map ∈ kernelMap l, ∀ v, InRange map v →
      ∃ pte, walkAt (createKernelTable l (memoryReady mem bits total)).mem
        l.kernelTable v = some pte ∧ frameOf pte = frameOf v ∧
        attrOf pte = attrOf (map.perm ||| pteP) := by
    intro map hmap v hv
    have hself := hl.selfMapped map hmap
    obtain ⟨i, hi, hp⟩ := (inPages_iff hself.start_lt hself.end_lt v).mpr hv
    obtain ⟨hframe, hattr⟩ := hself.entry hp
    refine ⟨_, ?_, hframe, hattr⟩
    rw [walkAt_congr hp]
    exact hspec.mapped map hmap i hi
  -- the last region reaches into the fifth entry
  obtain rfl : k = 5 := by
    obtain ⟨pte, hwalk, -, -⟩ := hinside _ (by simp [kernelMap]) 0x13FF000
      (show InRange (MmuManager.mk memKernelfreeStart (memKernelfreeEnd * 10)
        memKernelfreeStart (pteW ||| pteU)) 0x13FF000 from ⟨by decide, by decide⟩)
    have hp : Present ((createKernelTable l (memoryReady mem bits total)).mem
        l.kernelTable (vaddrDir 0x13FF000)) := by
      by_contra hp
      cases hwalk.symm.trans (walk_absent entryFormat hp _)
    have h4 := (hin.present _).mp hp
    rw [show (vaddrDir 0x13FF000).toNat = 4 by decide] at h4
    omega
  refine ⟨?_, hspec.rights, ?_, hspec.empty, hin.present, hin.frames,
    fun p hp => not_marked_memoryInit bits total hp, hin.marked⟩
  · intro map hmap v hv
    obtain ⟨pte, hwalk, hframe, hattr⟩ := hinside map hmap v hv
    exact ⟨pte, hwalk, by rw [hframe, addrOf_frameOf_add], hattr⟩
  · intro v hv
    refine (hspec.others v fun map hmap hp => hv map hmap ?_).trans (zeroed_walkAt l _ v)
    have hself := hl.selfMapped map hmap
    exact (inPages_iff hself.start_lt hself.end_lt v).mp hp

/-- Code up to 0x14321, `kernel_table` in frame 22. -/
def smallKernel : Layout where
  etext := 0x14321
  sdata := 0x15000
  kernelTable := 22
  etext_ge := by decide
  sdata_ge := by decide
  table_ge := by decide
  table_lt := by decide

/-- A small kernel in just enough memory. -/
theorem kernel_mapped_small :
    KernelMapped smallKernel (memoryReady (fun _ _ => 0xFFFFFFFF) (fun _ => 0) 0x105000)
      (createKernelTable smallKernel
        (memoryReady (fun _ _ => 0xFFFFFFFF) (fun _ => 0) 0x105000)) :=
  kernel_mapped smallKernel ⟨by decide, by decide⟩ _ _ _ (by decide)

end LittleOS.KernelMap
