import LittleOS.Lib.Runs
import LittleOS.PageTable

/-! # Address spaces

    Every directory made by `create_page_table` shares the page table behind
    entry 0 with `kernel_table`; `find_pte` makes the other tables as a mapping
    needs them.

    * `findPte_spec`, `mapLoop_spec` — with every allocation giving a page not
      in use, `vaddr2paddr` keeps the trees apart and changes the translations
      of its own pages only;
    * `createKernelTable_spec` — the kernel's own table;
    * `step_inv` — the invariant of every run, for any number of directories
      and any order of calls. -/

namespace LittleOS.AddressSpaces

open Runs TwoLevel Memory PageTable

/-- The page-table entry of an address. -/
abbrev walkAt (mem : Frames) (dir : Frame) (vaddr : Word) : Option Word :=
  walk entryFormat mem dir (vaddrDir vaddr) (vaddrTable vaddr)

/-- The frame and the attributes an address translates to. -/
def translate (mem : Frames) (dir : Frame) (vaddr : Word) :
    Option (Frame × BitVec 12) :=
  (walkAt mem dir vaddr).map (fun pte => (frameOf pte, attrOf pte))

/-- A page of the process: it lies behind an entry of the directory's own. -/
def ProcessPage (mem : Frames) (dir : Frame) (v pte : Word) : Prop :=
  vaddrDir v ≠ 0 ∧ walkAt mem dir v = some pte

/-- The kernel's tree with those of the directories, which share the kernel's first table. -/
abbrev SpaceTrees (K : Frame) (dirs : List Frame) (mem : Frames) : Prop :=
  Trees entryFormat K 0 dirs mem

/-- An allocation has given a page that is no directory and no page table. -/
structure Fresh (K : Frame) (dirs : List Frame) (mem : Frames) (addr : Word) :
    Prop where
  ne_zero : addr ≠ 0
  aligned : addr.toNat % 4096 = 0
  unused : ¬ InUse entryFormat (K :: dirs) mem (frameOf addr)

/-- Every page table that `vaddr2paddr` allocates comes from a fresh page. -/
def FreshTables (K : Frame) (dirs : List Frame) (dir : Frame) (perm : Word) :
    Nat → Word → Word → Mmu → Prop
  | 0, _, _, _ => True
  | count + 1, vaddr, paddr, m =>
      (¬ Present (m.mem dir (vaddrDir vaddr)) →
        Fresh K dirs m.mem (kallocPages m.alloc 1).1) ∧
      match findPte dir vaddr m with
      | (none, _) => True
      | (some (table, slot), m) =>
          FreshTables K dirs dir perm count (vaddr + memPageSize)
            (paddr + memPageSize)
            { m with mem := m.mem.set table slot (paddr ||| perm ||| pteP) }

section Map

variable {K : Frame} {dirs : List Frame} {dir : Frame}

/-- The walk only depends on the page of the address. -/
theorem walkAt_congr {mem : Frames} {d : Frame} {v w : Word}
    (h : pageOf v = pageOf w) : walkAt mem d v = walkAt mem d w := by
  obtain ⟨h1, h2⟩ := (samePage_iff v w).mpr h
  unfold walkAt
  rw [h1, h2]

/-- A cleared entry is not present. -/
theorem not_present_zero : ¬ Present 0 := by decide

/-- The entry `find_pte` writes for a new page table. -/
def newPde (addr : Word) : Word := addr ||| pdeP ||| pdeW ||| pdeU

/-- A directory entry made by `find_pte` is present. -/
theorem present_newPde (addr : Word) : Present (newPde addr) := by
  show (newPde addr).getLsbD 0 = true
  simp [newPde, pdeP]

/-- It names its table. -/
theorem frameOf_newPde (addr : Word) : frameOf (newPde addr) = frameOf addr := by
  unfold newPde
  rw [frameOf_or (by decide), frameOf_or (by decide), frameOf_or (by decide)]

/-- It allows everything to everybody. -/
theorem attrOf_newPde {addr : Word} (ha : addr.toNat % 4096 = 0) :
    attrOf (newPde addr) = 7 := by
  unfold newPde
  rw [BitVec.or_assoc, BitVec.or_assoc, attrOf_or ha]
  decide

/-- **`find_pte`** gives the entry in the table behind the directory entry; a
    table it makes on the way changes no walk. -/
theorem findPte_spec {m : Mmu} {vaddr : Word} (h : SpaceTrees K dirs m.mem)
    (hd : dir ∈ K :: dirs) (hown : vaddrDir vaddr ≠ 0 ∨ dirs = [])
    (hfresh : ¬ Present (m.mem dir (vaddrDir vaddr)) →
      Fresh K dirs m.mem (kallocPages m.alloc 1).1) :
    ∃ m', findPte dir vaddr m
        = (some (frameOf (m'.mem dir (vaddrDir vaddr)), vaddrTable vaddr), m') ∧
      SpaceTrees K dirs m'.mem ∧
      Present (m'.mem dir (vaddrDir vaddr)) ∧
      (∀ d ∈ K :: dirs, ∀ v, walkAt m'.mem d v = walkAt m.mem d v) ∧
      (∀ d ∈ K :: dirs, ∀ i, Present (m.mem d i) → m'.mem d i = m.mem d i) ∧
      ∀ i, ¬ Present (m.mem dir i) → Present (m'.mem dir i) →
        attrOf (m'.mem dir i) = 7 := by
  by_cases hp : Present (m.mem dir (vaddrDir vaddr))
  · refine ⟨m, ?_, h, hp, fun _ _ _ => rfl, fun _ _ _ _ => rfl,
      fun _ hn hi => absurd hi hn⟩
    unfold findPte
    dsimp only
    rw [if_pos hp]
  · have hf := hfresh hp
    obtain ⟨r, hr⟩ : ∃ r, kallocPages m.alloc 1 = r := ⟨_, rfl⟩
    rw [hr] at hf
    have htarget : entryFormat.target (newPde r.1) = frameOf r.1 :=
      frameOf_newPde r.1
    have hunused : ¬ InUse entryFormat (K :: dirs) m.mem
        (entryFormat.target (newPde r.1)) := by
      rw [htarget]
      exact hf.unused
    have hdir : dir ≠ entryFormat.target (newPde r.1) :=
      fun hc => hunused (hc ▸ Or.inl hd)
    -- the directory is not the page just taken, so zeroing it keeps the entry
    have hentry : (m.mem.set dir (vaddrDir vaddr) (newPde r.1)).fill
        (entryFormat.target (newPde r.1)) 0 dir (vaddrDir vaddr) = newPde r.1 := by
      rw [fill_of_ne hdir, set_self]
    refine ⟨⟨(m.mem.set dir (vaddrDir vaddr) (newPde r.1)).fill
      (entryFormat.target (newPde r.1)) 0, r.2⟩, ?_, ?_, ?_, ?_, ?_, ?_⟩
    · unfold findPte
      dsimp only
      rw [if_neg hp, hr, if_neg hf.ne_zero, hentry, htarget, frameOf_newPde]
      rfl
    · exact h.addTable hown hunused
    · dsimp only
      rw [hentry]
      exact present_newPde r.1
    · intro d hd' v
      exact h.walk_addTable hd (present_newPde r.1) not_present_zero hp hunused
        hd' _ _
    · intro d hd' i hi
      dsimp only
      rw [Trees.addTable_root (fun hc => hunused (hc ▸ Or.inl hd')), if_neg]
      rintro ⟨rfl, rfl⟩
      exact hp hi
    · intro i hn hi
      dsimp only at hi ⊢
      rw [Trees.addTable_root hdir] at hi ⊢
      by_cases he : dir = dir ∧ i = vaddrDir vaddr
      · rw [if_pos he]
        exact attrOf_newPde hf.aligned
      · rw [if_neg he] at hi
        exact absurd hi hn

/-- The entry `vaddr2paddr` writes. -/
def newPte (paddr perm : Word) : Word := paddr ||| perm ||| pteP

/-- The entry of the address, in the page table that is there. -/
def writeEntry (dir : Frame) (vaddr v : Word) (m : Mmu) : Mmu where
  mem := m.mem.set (frameOf (m.mem dir (vaddrDir vaddr))) (vaddrTable vaddr) v
  alloc := m.alloc

/-- One turn of `vaddr2paddr`: the entry is found and written. -/
structure MapsOne (K : Frame) (dirs : List Frame) (dir : Frame) (vaddr v : Word)
    (m m₁ : Mmu) : Prop where
  found : findPte dir vaddr m
    = (some (frameOf (m₁.mem dir (vaddrDir vaddr)), vaddrTable vaddr), m₁)
  present : Present (m₁.mem dir (vaddrDir vaddr))
  kept : ∀ d ∈ K :: dirs, ∀ w, walkAt m₁.mem d w = walkAt m.mem d w
  trees : SpaceTrees K dirs (writeEntry dir vaddr v m₁).mem
  walks : ∀ d ∈ K :: dirs, ∀ w, walkAt (writeEntry dir vaddr v m₁).mem d w
    = if d = dir ∧ pageOf w = pageOf vaddr then some v else walkAt m.mem d w
  roots : ∀ d ∈ K :: dirs, ∀ i, Present (m.mem d i) →
    (writeEntry dir vaddr v m₁).mem d i = m.mem d i
  made : ∀ i, ¬ Present (m.mem dir i) →
    Present ((writeEntry dir vaddr v m₁).mem dir i) →
    attrOf ((writeEntry dir vaddr v m₁).mem dir i) = 7

/-- **ONE TURN** maps its page and changes no other translation. -/
theorem mapsOne {m : Mmu} {vaddr v : Word} (h : SpaceTrees K dirs m.mem)
    (hd : dir ∈ K :: dirs) (hown : vaddrDir vaddr ≠ 0 ∨ dirs = [])
    (hfresh : ¬ Present (m.mem dir (vaddrDir vaddr)) →
      Fresh K dirs m.mem (kallocPages m.alloc 1).1) (hv : Present v) :
    ∃ m₁, MapsOne K dirs dir vaddr v m m₁ := by
  obtain ⟨m₁, hfind, h₁, hp₁, hwalk₁, hroot₁, hmade₁⟩ :=
    findPte_spec h hd hown hfresh
  have hkeep : ∀ d ∈ K :: dirs, ∀ i,
      (writeEntry dir vaddr v m₁).mem d i = m₁.mem d i :=
    fun d hd' i => set_of_ne (h₁.root_ne_table hd hd' hp₁)
  refine ⟨m₁, hfind, hp₁, hwalk₁, h₁.setLeaf hd hp₁ _ _, ?_, ?_, ?_⟩
  · intro d hd' w
    rw [← hwalk₁ d hd' w]
    refine (h₁.walk_setLeaf hd hown hp₁ hv _ hd' _ _).trans ?_
    exact if_congr (and_congr_right fun _ => samePage_iff w vaddr) rfl rfl
  · intro d hd' i hi
    exact (hkeep d hd' i).trans (hroot₁ d hd' i hi)
  · intro i hn hi
    rw [hkeep dir hd i] at hi ⊢
    exact hmade₁ i hn hi

/-- What `vaddr2paddr` of `n` pages does to the trees. -/
structure MapsPages (K : Frame) (dirs : List Frame) (dir : Frame) (perm : Word)
    (n : Nat) (vaddr paddr : Word) (m m' : Mmu) : Prop where
  trees : SpaceTrees K dirs m'.mem
  mapped : ∀ i < n, walkAt m'.mem dir (pagesFrom vaddr i)
    = some (newPte (pagesFrom paddr i) perm)
  others : ∀ d ∈ K :: dirs, ∀ v,
    (d = dir → ∀ i < n, pageOf v ≠ pageOf (pagesFrom vaddr i)) →
    walkAt m'.mem d v = walkAt m.mem d v
  roots : ∀ d ∈ K :: dirs, ∀ i, Present (m.mem d i) → m'.mem d i = m.mem d i

/-- The pages of a call that is no longer than the address space differ. -/
theorem pageOf_ne_next (vaddr : Word) {i : Nat} (hi : i + 1 < 2 ^ 20) :
    pageOf vaddr ≠ pageOf (pagesFrom (vaddr + memPageSize) i) := by
  rw [pagesFrom_succ, pageOf_pagesFrom]
  have hlt : pageOf vaddr < 2 ^ 20 := by
    have := vaddr.isLt
    unfold pageOf
    omega
  omega

/-- **`vaddr2paddr`** maps its pages one after another and changes no other
    translation.  Induction over the pages still to map. -/
theorem mapLoop_spec {perm : Word} (hd : dir ∈ K :: dirs) :
    ∀ (n : Nat) (vaddr paddr : Word) (m : Mmu), SpaceTrees K dirs m.mem →
      n ≤ 2 ^ 20 →
      (∀ i < n, vaddrDir (pagesFrom vaddr i) ≠ 0 ∨ dirs = []) →
      FreshTables K dirs dir perm n vaddr paddr m →
      MapsPages K dirs dir perm n vaddr paddr m
        (mapLoop dir perm n vaddr paddr m) := by
  intro n
  induction n with
  | zero =>
      intro vaddr paddr m h _ _ _
      exact ⟨h, fun i hi => (nomatch hi), fun _ _ _ _ => rfl, fun _ _ _ _ => rfl⟩
  | succ n ih =>
      intro vaddr paddr m h hn hown hfresh
      have hown0 := hown 0 (by omega)
      rw [pagesFrom_zero] at hown0
      obtain ⟨hf, hrest⟩ := hfresh
      obtain ⟨m₁, hone⟩ := mapsOne (v := newPte paddr perm) h hd hown0 hf
        (present_or_one _)
      rw [hone.found] at hrest
      -- the page of this turn is written, then the rest of the loop runs
      obtain ⟨ht, hmapped, hother, hroot⟩ := ih (vaddr + memPageSize)
        (paddr + memPageSize) (writeEntry dir vaddr (newPte paddr perm) m₁)
        hone.trees (by omega)
        (fun i hi => by rw [pagesFrom_succ]; exact hown (i + 1) (by omega))
        hrest
      have hloop : mapLoop dir perm (n + 1) vaddr paddr m
          = mapLoop dir perm n (vaddr + memPageSize) (paddr + memPageSize)
            (writeEntry dir vaddr (newPte paddr perm) m₁) := by
        rw [mapLoop, hone.found]
        rfl
      rw [hloop]
      refine ⟨ht, ?_, ?_, ?_⟩
      · intro i hi
        cases i with
        | zero =>
            have hdistinct : ∀ i < n,
                pageOf vaddr ≠ pageOf (pagesFrom (vaddr + memPageSize) i) :=
              fun i hi => pageOf_ne_next vaddr (by omega)
            rw [pagesFrom_zero, pagesFrom_zero,
              hother dir hd vaddr (fun _ => hdistinct), hone.walks dir hd vaddr,
              if_pos ⟨rfl, rfl⟩]
        | succ i =>
            rw [← pagesFrom_succ, ← pagesFrom_succ]
            exact hmapped i (by omega)
      · intro d hd' v hv
        rw [hother d hd' v, hone.walks d hd' v, if_neg]
        · rintro ⟨hc, hpage⟩
          refine hv hc 0 (by omega) ?_
          rw [pagesFrom_zero]
          exact hpage
        · intro hc i hi
          rw [pagesFrom_succ]
          exact hv hc (i + 1) (by omega)
      · intro d hd' i hi
        have h1 := hone.roots d hd' i hi
        refine (hroot d hd' i ?_).trans h1
        rw [h1]
        exact hi

end Map

/-! ## The kernel's table -/

/-- Every page table of `create_kernel_table` comes from a fresh page. -/
def FreshRegions (K : Frame) : List MmuManager → Mmu → Prop
  | [], _ => True
  | map :: maps, m =>
      FreshTables K [] K map.perm map.npage map.vstartPage map.pstart m ∧
      FreshRegions K maps (mapRegion K m map)

/-- No region has more pages than there are. -/
theorem npage_le (map : MmuManager) : map.npage ≤ 2 ^ 20 := by
  unfold MmuManager.npage
  obtain ⟨x, hx⟩ : ∃ x, x = PageBitmap.int32
      ((up2 map.vend memPageSize).toInt - map.vstartPage.toInt) := ⟨_, rfl⟩
  rw [← hx]
  by_cases h0 : 0 ≤ x
  · have hlt : x < 2 ^ 31 := by
      rw [hx]
      unfold PageBitmap.int32
      have := Int.bmod_lt (m := 2 ^ 32) (x := (up2 map.vend memPageSize).toInt
        - map.vstartPage.toInt) (by decide)
      omega
    rw [Int.tdiv_eq_ediv_of_nonneg h0]
    omega
  · have hneg := Int.neg_tdiv (-x) 4096
    have hnonneg : 0 ≤ (-x).tdiv 4096 := Int.tdiv_nonneg (by omega) (by omega)
    rw [Int.neg_neg] at hneg
    omega

/-- The pages from 2 MB to 4 MB, which share their table with the directories,
    are all mapped. -/
def HighMapped (K : Frame) (mem : Frames) : Prop :=
  ∀ v : Word, 0x200000 ≤ v.toNat → v.toNat < 0x400000 → walkAt mem K v ≠ none

/-- The last region maps them. -/
theorem freeRegion_npage (perm : Word) :
    (MmuManager.mk memKernelfreeStart (memKernelfreeEnd * 10)
      memKernelfreeStart perm).npage = 4864 := by
  show (MmuManager.mk memKernelfreeStart (memKernelfreeEnd * 10)
    memKernelfreeStart 0).npage = 4864
  decide

/-- The free region begins at 1 MB. -/
theorem freeRegion_vstartPage (perm : Word) :
    (MmuManager.mk memKernelfreeStart (memKernelfreeEnd * 10)
      memKernelfreeStart perm).vstartPage = 0x100000 := by
  show down2 memKernelfreeStart memPageSize = 0x100000
  decide

/-- Mapping a region with fresh tables keeps the kernel's tree, maps its pages and no others. -/
theorem mapRegion_spec {K : Frame} {m : Mmu} (map : MmuManager)
    (h : SpaceTrees K [] m.mem)
    (hf : FreshTables K [] K map.perm map.npage map.vstartPage map.pstart m) :
    SpaceTrees K [] (mapRegion K m map).mem ∧
    (∀ i < map.npage, walkAt (mapRegion K m map).mem K
      (pagesFrom map.vstartPage i)
        = some (newPte (pagesFrom map.pstart i) map.perm)) ∧
    (∀ v, (∀ i < map.npage, pageOf v ≠ pageOf (pagesFrom map.vstartPage i)) →
      walkAt (mapRegion K m map).mem K v = walkAt m.mem K v) := by
  have hmaps := mapLoop_spec (List.mem_singleton_self K) map.npage
    map.vstartPage map.pstart m h (npage_le map) (fun _ _ => Or.inr rfl) hf
  exact ⟨hmaps.trees, hmaps.mapped,
    fun v hv => hmaps.others K (by simp) v (fun _ => hv)⟩

/-- Regions leave the translations of other pages alone.  Induction over them. -/
theorem mapRegions_spec {K : Frame} :
    ∀ (maps : List MmuManager) (m : Mmu), SpaceTrees K [] m.mem → FreshRegions K maps m →
      SpaceTrees K [] (maps.foldl (mapRegion K) m).mem ∧
      ∀ v, (∀ map ∈ maps, ∀ i < map.npage,
          pageOf v ≠ pageOf (pagesFrom map.vstartPage i)) →
        walkAt (maps.foldl (mapRegion K) m).mem K v = walkAt m.mem K v := by
  intro maps
  induction maps with
  | nil => intro m h _; exact ⟨h, fun _ _ => rfl⟩
  | cons map maps ih =>
      rintro m h ⟨hf, hfs⟩
      obtain ⟨h₁, -, hother⟩ := mapRegion_spec map h hf
      obtain ⟨htrees, hothers⟩ := ih (mapRegion K m map) h₁ hfs
      refine ⟨htrees, fun v hv => ?_⟩
      refine (hothers v fun map' hm' => hv map' (List.mem_cons_of_mem _ hm')).trans ?_
      exact hother v (hv map (by simp))

/-- The zeroed table `create_kernel_table` starts from. -/
def zeroed (l : Layout) (m : Mmu) : Mmu :=
  { m with mem := m.mem.fill l.kernelTable 0 }

/-- The cleared table is a tree. -/
theorem zeroed_trees (l : Layout) (m : Mmu) :
    SpaceTrees l.kernelTable [] (zeroed l m).mem := by
  refine Trees.init ?_
  intro i
  show ¬ Present (m.mem.fill l.kernelTable 0 l.kernelTable i)
  rw [fill_self]
  exact not_present_zero

/-- **`create_kernel_table`** leaves the kernel's tree alone in memory, with the
    shared table full from 2 MB on. -/
theorem createKernelTable_spec (l : Layout) (m : Mmu)
    (hf : FreshRegions l.kernelTable (kernelMap l) (zeroed l m)) :
    SpaceTrees l.kernelTable [] (createKernelTable l m).mem ∧
    HighMapped l.kernelTable (createKernelTable l m).mem := by
  obtain ⟨f1, f2, f3, f4, -⟩ := hf
  have hthree := (mapRegions_spec ((kernelMap l).take 3) (zeroed l m) (zeroed_trees l m)
    ⟨f1, f2, f3, trivial⟩).1
  obtain ⟨htrees, hmapped, -⟩ := mapRegion_spec _ hthree f4
  refine ⟨htrees, ?_⟩
  intro v h1 h2 hnone
  rw [freeRegion_npage, freeRegion_vstartPage] at hmapped
  have hi : pageOf v - 256 < 4864 := by
    unfold pageOf
    omega
  have hpage : pageOf v = pageOf (pagesFrom 0x100000 (pageOf v - 256)) := by
    rw [pageOf_pagesFrom, show pageOf 0x100000 = 256 from rfl]
    unfold pageOf
    omega
  have hsome := hmapped (pageOf v - 256) hi
  rw [← walkAt_congr hpage] at hsome
  exact nomatch hsome.symm.trans hnone

/-! ## Directories and calls -/

/-- The directories made by `create_page_table` and the frames given to callers
    by `ualloc_pages(1)`. -/
structure Spaces where
  mmu : Mmu
  dirs : List Frame
  pages : List Frame

/-- The operations on address spaces. -/
inductive Op where
  | createPageTable
  | ualloc
  | map (dir : Frame) (vaddr paddr : Word) (count : Nat) (perm : Word)
  | other (mmu : Mmu)

/-- `other` is anything else the kernel or a process does to memory and to the
    allocator between two calls. -/
def step (K : Frame) : Op → Spaces → Option Spaces
  | .createPageTable, s =>
      let r := createPageTable K s.mmu
      some { s with mmu := r.2, dirs := frameOf r.1 :: s.dirs }
  | .ualloc, s =>
      let r := uallocPages s.mmu.alloc 1
      some { s with mmu := { s.mmu with alloc := r.2 },
                    pages := frameOf r.1 :: s.pages }
  | .map dir vaddr paddr count perm, s =>
      if dir ∈ s.dirs then
        some { s with mmu := vaddr2paddr dir vaddr paddr count perm s.mmu }
      else none
  | .other mmu, s => some { s with mmu := mmu }

/-- A mapping is made in a directory there is. -/
theorem step_map {K dir : Frame} {vaddr paddr perm : Word} {count : Nat}
    {s s' : Spaces} :
    step K (.map dir vaddr paddr count perm) s = some s' ↔
      dir ∈ s.dirs ∧
      s' = { s with mmu := vaddr2paddr dir vaddr paddr count perm s.mmu } := by
  simp only [step]
  by_cases hd : dir ∈ s.dirs
  · rw [if_pos hd, Option.some.injEq, eq_comm]
    exact (and_iff_right hd).symm
  · rw [if_neg hd]
    exact iff_of_false nofun (fun hc => hd hc.1)

/-- The address spaces after boot: the kernel's own. -/
def booted (l : Layout) (m : Mmu) : Spaces where
  mmu := createKernelTable l m
  dirs := []
  pages := []

/-- The arguments of a call on user addresses. -/
structure UserRange (vaddr paddr : Word) (count : Nat) (perm : Word) : Prop where
  start : memUserfreeStart.toNat ≤ vaddr.toNat
  vaddr_aligned : vaddr.toNat % 4096 = 0
  paddr_aligned : paddr.toNat % 4096 = 0
  fits : vaddr.toNat + 4096 * count ≤ 2 ^ 32
  perm_lt : perm.toNat < 4096

/-- Allocations succeed with a page not in use, mappings go to user pages that
    are not present, and whatever else runs leaves directories and page tables
    alone. -/
def Isolated (K : Frame) : Op → Spaces → Prop
  | .createPageTable, s => Fresh K s.dirs s.mmu.mem (uallocPages s.mmu.alloc 1).1
  | .ualloc, _ => True
  | .map dir vaddr paddr count perm, s =>
      UserRange vaddr paddr count perm ∧
      (∀ i < count, translate s.mmu.mem dir (pagesFrom vaddr i) = none) ∧
      FreshTables K s.dirs dir perm count vaddr paddr s.mmu
  | .other mmu, s =>
      ∀ f, InUse entryFormat (K :: s.dirs) s.mmu.mem f → mmu.mem f = s.mmu.mem f

/-- The invariant of every run. -/
structure Inv (K : Frame) (s : Spaces) : Prop where
  trees : SpaceTrees K s.dirs s.mmu.mem
  high : HighMapped K s.mmu.mem

/-- What is mapped high stays so while the lookups do. -/
theorem HighMapped.of_walk {K : Frame} {mem mem' : Frames} (h : HighMapped K mem)
    (hw : ∀ v, walkAt mem' K v = walkAt mem K v) : HighMapped K mem' := by
  intro v h1 h2
  rw [hw v]
  exact h v h1 h2

/-- A directory reads the shared table as the kernel does. -/
theorem walkAt_shared {K : Frame} {dirs : List Frame} {mem : Frames}
    (h : SpaceTrees K dirs mem) {d : Frame} (hd : d ∈ dirs) {v : Word}
    (hv : vaddrDir v = 0) : walkAt mem d v = walkAt mem K v := by
  unfold walkAt walk
  rw [hv, h.shared d hd]

/-- A user page that is not present lies behind an entry of the directory's
    own. -/
theorem vaddrDir_ne_zero {K : Frame} {s : Spaces} (h : Inv K s) {dir : Frame}
    (hd : dir ∈ s.dirs) {v : Word} (hv : memUserfreeStart.toNat ≤ v.toNat)
    (habs : walkAt s.mmu.mem dir v = none) : vaddrDir v ≠ 0 := by
  intro h0
  rw [walkAt_shared h.trees hd h0] at habs
  have hlt : v.toNat < 0x400000 := by
    have hdir := vaddrDir_toNat v
    rw [h0] at hdir
    have h00 : (0 : Slot).toNat = 0 := rfl
    omega
  exact h.high v hv hlt habs

/-- The call maps its pages and changes no other translation. -/
theorem map_spec {K : Frame} {s : Spaces} (h : Inv K s) {dir : Frame}
    {vaddr paddr perm : Word} {count : Nat} (hd : dir ∈ s.dirs)
    (hok : Isolated K (.map dir vaddr paddr count perm) s) :
    MapsPages K s.dirs dir perm count vaddr paddr s.mmu
      (vaddr2paddr dir vaddr paddr count perm s.mmu) := by
  obtain ⟨hrange, habs, hfresh⟩ := hok
  have hfits := hrange.fits
  refine mapLoop_spec (List.mem_cons_of_mem K hd) count vaddr paddr s.mmu
    h.trees (by omega) ?_ hfresh
  intro i hi
  refine Or.inl (vaddrDir_ne_zero h hd ?_ ?_)
  · have hstart := hrange.start
    rw [pagesFrom_toNat]
    omega
  · have hnone := habs i hi
    unfold AddressSpaces.translate at hnone
    exact Option.map_eq_none_iff.mp hnone

/-- A new directory changes no translation. -/
theorem create_spec {K : Frame} {s : Spaces} (h : Inv K s)
    (hok : Isolated K .createPageTable s) :
    SpaceTrees K (frameOf (createPageTable K s.mmu).1 :: s.dirs)
      (createPageTable K s.mmu).2.mem ∧
    (∀ d ∈ K :: s.dirs, ∀ v,
      walkAt (createPageTable K s.mmu).2.mem d v = walkAt s.mmu.mem d v) := by
  obtain ⟨dir, hdir⟩ : ∃ dir, frameOf (uallocPages s.mmu.alloc 1).1 = dir :=
    ⟨_, rfl⟩
  have hunused := hok.unused
  rw [hdir] at hunused
  have hK : K ≠ dir := fun hc => hunused (hc ▸ Or.inl (by simp))
  rw [createPageTable_fst, hdir, createPageTable_mem K s.mmu hdir,
    fill_of_ne hK]
  exact ⟨h.trees.addRoot not_present_zero hunused,
    fun d hd v => Trees.walk_addRoot hunused hd _ _⟩

/-- Nothing but a call of `vaddr2paddr` changes a translation. -/
theorem step_keeps {K : Frame} {o : Op} {s s' : Spaces} (h : Inv K s)
    (hok : Isolated K o s) (hs : step K o s = some s')
    (hmap : ∀ dir vaddr paddr count perm, o ≠ .map dir vaddr paddr count perm)
    {d : Frame} (hd : d ∈ K :: s.dirs) (v : Word) :
    walkAt s'.mmu.mem d v = walkAt s.mmu.mem d v := by
  cases o with
  | createPageTable =>
      obtain rfl := Option.some.inj hs
      exact (create_spec h hok).2 d hd v
  | ualloc =>
      obtain rfl := Option.some.inj hs
      rfl
  | map dir vaddr paddr count perm =>
      exact absurd rfl (hmap dir vaddr paddr count perm)
  | other mmu =>
      obtain rfl := Option.some.inj hs
      exact walk_congr hok hd _ _

/-- **EVERY STEP** keeps the invariant. -/
theorem step_inv {K : Frame} {o : Op} {s s' : Spaces} (h : Inv K s)
    (hok : Isolated K o s) (hs : step K o s = some s') : Inv K s' := by
  cases o with
  | createPageTable =>
      have hkeep := step_keeps h hok hs (by intros; exact nofun) (d := K) (by simp)
      obtain rfl := Option.some.inj hs
      exact ⟨(create_spec h hok).1, h.high.of_walk hkeep⟩
  | ualloc =>
      obtain rfl := Option.some.inj hs
      exact ⟨h.trees, h.high⟩
  | map dir vaddr paddr count perm =>
      obtain ⟨hd, rfl⟩ := step_map.mp hs
      have hmaps := map_spec h hd hok
      refine ⟨hmaps.trees, h.high.of_walk
        (fun v => hmaps.others K (by simp) v ?_)⟩
      rintro rfl
      exact absurd hd (List.nodup_cons.mp h.trees.nodup).1
  | other mmu =>
      have hkeep := step_keeps h hok hs (by intros; exact nofun) (d := K) (by simp)
      obtain rfl := Option.some.inj hs
      exact ⟨h.trees.congr hok, h.high.of_walk hkeep⟩

/-- Boot establishes the invariant. -/
theorem booted_inv (l : Layout) (m : Mmu)
    (hf : FreshRegions l.kernelTable (kernelMap l) (zeroed l m)) :
    Inv l.kernelTable (booted l m) :=
  ⟨(createKernelTable_spec l m hf).1, (createKernelTable_spec l m hf).2⟩

end LittleOS.AddressSpaces
