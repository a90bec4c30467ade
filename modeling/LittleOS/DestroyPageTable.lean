import LittleOS.CopyPageTable

/-! # `pagetable_destroy`

    `pagetable_destroy` frees from entry `VADDR_DIR(MEM_KERNELFREE_END)` on, and
    that is entry 0: with the pages of the address space it frees the kernel's
    first page table and what that maps.

    * `pagetableDestroy_marked` — the pages that stay allocated;
    * `DestroyCorrect` — which ones have to;
    * `destroy_never_correct` — no destruction is correct. -/

namespace LittleOS.DestroyPageTable

open Runs TwoLevel Intervals PageBitmap Memory PageTable AddressSpaces KernelBoot
  SharedTable Isolation

/-! ## The frames it frees -/

/-- The frames of one directory entry, in the order they are freed. -/
def freedBy (mem : Frames) (dir : Frame) (i : Nat) : List Frame :=
  let pde := mem dir (BitVec.ofNat 10 i)
  if Present pde then
    (List.range 1024).flatMap (fun j =>
      let pte := mem (frameOf pde) (BitVec.ofNat 10 j)
      if Present pte then [frameOf pte] else []) ++ [frameOf pde]
  else []

/-- All that is freed, in order. -/
def freedFrames (mem : Frames) (dir : Frame) : List Frame :=
  (List.range' userPdeStart (1024 - userPdeStart)).flatMap (freedBy mem dir)
    ++ [dir]

/-- Frames freed one after the other. -/
def kfreeFrames (alloc : AddrAlloc) (fs : List Frame) : AddrAlloc :=
  fs.foldl (fun alloc f => kfreePages alloc (addrOf f) 1) alloc

/-- Two lists of frames freed. -/
theorem kfreeFrames_append (alloc : AddrAlloc) (fs gs : List Frame) :
    kfreeFrames alloc (fs ++ gs) = kfreeFrames (kfreeFrames alloc fs) gs :=
  List.foldl_append

/-- The inner loop frees the pages of a table. -/
theorem destroyTable_eq (mem : Frames) (table : Frame) (alloc : AddrAlloc) :
    destroyTable mem table alloc
      = kfreeFrames alloc ((List.range 1024).flatMap (fun j =>
        let pte := mem table (BitVec.ofNat 10 j)
        if Present pte then [frameOf pte] else [])) := by
  unfold destroyTable kfreeFrames
  rw [List.foldl_flatMap]
  congr 1
  funext alloc j
  dsimp only
  split <;> rfl

/-- A turn of the outer loop frees those of an entry. -/
theorem kfreeFrames_freedBy (mem : Frames) (dir : Frame) (alloc : AddrAlloc)
    (i : Nat) :
    kfreeFrames alloc (freedBy mem dir i)
      = if Present (mem dir (BitVec.ofNat 10 i)) then
          kfreePages (destroyTable mem (frameOf (mem dir (BitVec.ofNat 10 i))) alloc)
            (addrOf (frameOf (mem dir (BitVec.ofNat 10 i)))) 1
        else alloc := by
  unfold freedBy
  dsimp only
  split
  · rw [kfreeFrames_append, ← destroyTable_eq]
    rfl
  · rfl

/-- The loops free these frames one after another. -/
theorem pagetableDestroy_eq (dir : Frame) (m : Mmu) :
    pagetableDestroy dir m
      = { m with alloc := kfreeFrames m.alloc (freedFrames m.mem dir) } := by
  unfold pagetableDestroy freedFrames
  rw [kfreeFrames_append]
  unfold kfreeFrames
  rw [List.foldl_flatMap]
  dsimp only
  congr 3
  funext alloc i
  exact (kfreeFrames_freedBy m.mem dir alloc i).symm

/-! ## The bits it clears -/

/-- A frame below 1 MB has an index past the bitmap. -/
theorem pageIndexOf_addrOf {m : AddrAlloc} (hr : ManagedRange m) (f : Frame) :
    pageIndexOf m (addrOf f) = (f.toNat + (2 ^ 20 - 256)) % 2 ^ 20 := by
  have hstart : memKernelfreeStart.toNat = 0x100000 := rfl
  have hf := f.isLt
  unfold pageIndexOf
  rw [hr.kernelstart, hr.pageSize, BitVec.toNat_udiv, BitVec.toNat_sub,
    addrOf_toNat, hstart, memPageSize_toNat]
  omega

/-- **`kfree_pages`** of one frame clears its bit, if it has one. -/
theorem marked_kfreePages {m : AddrAlloc} (hr : ManagedRange m) (f : Frame)
    {p : Nat} (hp : p < m.bitmap.count) :
    Marked (kfreePages m (addrOf f) 1) p ↔ Marked m p ∧ f.toNat ≠ 256 + p := by
  have hle := hr.count_le
  have hf := f.isLt
  have hidx := pageIndexOf_addrOf hr f
  by_cases hin : pageIndexOf m (addrOf f) < m.bitmap.count
  · refine (isSet_setBit hin (by omega) 0 p).trans ?_
    by_cases hcov : Covers (pageIndexOf m (addrOf f), 1) p
    · have heq : f.toNat = 256 + p := by
        have h1 := hcov.1
        have h2 := hcov.2
        dsimp only at h1 h2
        omega
      rw [if_pos hcov]
      exact iff_of_false (fun hc => hc rfl) (fun hc => hc.2 heq)
    · have hne : f.toNat ≠ 256 + p := by
        intro hc
        refine hcov ⟨?_, ?_⟩
        · dsimp only
          omega
        · dsimp only
          omega
      rw [if_neg hcov]
      exact (and_iff_left hne).symm
  · have hout : kfreePages m (addrOf f) 1 = m := by
      unfold kfreePages bitmapSetBit
      rw [if_pos (by omega)]
    rw [hout]
    exact (and_iff_left (by omega)).symm

/-- A page is marked after the frees if it was and none of them is its frame; the
    induction is on the frames. -/
theorem marked_kfreeFrames {p : Nat} :
    ∀ (fs : List Frame) (m : AddrAlloc), ManagedRange m → p < m.bitmap.count →
      (Marked (kfreeFrames m fs) p ↔ Marked m p ∧ ∀ f ∈ fs, f.toNat ≠ 256 + p) := by
  intro fs
  induction fs with
  | nil => intro m _ _; simp [kfreeFrames]
  | cons f fs ih =>
      intro m hr hp
      have hsame := kfreePages_sameRange m (addrOf f) 1
      have hrest := ih (kfreePages m (addrOf f) 1) (hr.of_sameRange hsame)
        (by rw [hsame.1]; exact hp)
      rw [marked_kfreePages hr f hp] at hrest
      refine hrest.trans ?_
      rw [List.forall_mem_cons, and_assoc]

/-- **THE PAGES** that stay allocated are those it does not free. -/
theorem pagetableDestroy_marked {m : Mmu} (hr : ManagedRange m.alloc)
    (dir : Frame) {p : Nat} (hp : p < m.alloc.bitmap.count) :
    Marked (pagetableDestroy dir m).alloc p
      ↔ Marked m.alloc p ∧ ∀ f ∈ freedFrames m.mem dir, f.toNat ≠ 256 + p := by
  rw [pagetableDestroy_eq]
  exact marked_kfreeFrames (freedFrames m.mem dir) m.alloc hr hp

/-! ## What it has to free -/

/-- The address space owns its directory, the tables behind its own entries and
    the frames these map. -/
def Owns (mem : Frames) (dir f : Frame) : Prop :=
  f = dir ∨
  (∃ i ≠ 0, Present (mem dir i) ∧ frameOf (mem dir i) = f) ∨
  ∃ v pte, ProcessPage mem dir v pte ∧ frameOf pte = f

/-- Of the allocated pages exactly those of the address space are freed, each
    once. -/
structure DestroyCorrect (dir : Frame) (m : Mmu) : Prop where
  frees : ∀ p < m.alloc.bitmap.count, Marked m.alloc p →
    (Marked (pagetableDestroy dir m).alloc p
      ↔ ¬ Owns m.mem dir (BitVec.ofNat 20 (256 + p)))
  once : (freedFrames m.mem dir).Nodup

/-- Mappings go to frames from `ualloc_pages(1)`. -/
def FromPages (K : Frame) (o : Op) (s : Spaces) : Prop :=
  Undisturbed K o s ∧
  match o with
  | .map _ _ paddr count _ => ∀ i < count, frameOf (pagesFrom paddr i) ∈ s.pages
  | _ => True

/-- The shared table is none of the pages given away, and the pages of a process
    are. -/
structure PagesApart (K : Frame) (s : Spaces) : Prop where
  kernel : KernelHeld K s
  shared : sharedTable K s.mmu.mem ∉ s.pages
  leaves : ∀ d ∈ s.dirs, ∀ v pte, ProcessPage s.mmu.mem d v pte →
    frameOf pte ∈ s.pages

section Step

variable {K : Frame} {s s' : Spaces}

/-- Steps that keep the translations of the old directories. -/
theorem PagesApart.of_walks (h : PagesApart K s) (hk : KernelHeld K s')
    (he : s'.mmu.mem K 0 = s.mmu.mem K 0) (hpages : s'.pages = s.pages)
    (hw : ∀ d ∈ s'.dirs, ∀ v pte, ProcessPage s'.mmu.mem d v pte →
      d ∈ s.dirs ∧ ProcessPage s.mmu.mem d v pte) : PagesApart K s' where
  kernel := hk
  shared := by
    unfold sharedTable
    rw [he, hpages]
    exact h.shared
  leaves := by
    intro d hd v pte hpage
    obtain ⟨hold, hpage'⟩ := hw d hd v pte hpage
    rw [hpages]
    exact h.leaves d hold v pte hpage'

/-- **EVERY STEP** keeps the shared table apart from the pages. -/
theorem step_pagesApart {o : Op} (h : PagesApart K s) (hok : FromPages K o s)
    (hs : step K o s = some s') : PagesApart K s' := by
  have hi := h.kernel.inv
  have hkernel := step_kernelHeld h.kernel hok.1 hs
  have hentry := step_entry hi h.kernel.present hok.1.1 hs
  cases o with
  | createPageTable =>
      have hkeep : ∀ d ∈ K :: s.dirs, ∀ v,
          walkAt s'.mmu.mem d v = walkAt s.mmu.mem d v :=
        fun d hd v => step_keeps hi hok.1.1 hs (by rintro dir vaddr paddr count perm ⟨⟩) hd v
      obtain ⟨D, hD⟩ : ∃ D, frameOf (uallocPages s.mmu.alloc 1).1 = D := ⟨_, rfl⟩
      have hmem := createPageTable_mem K s.mmu hD
      have hfst := createPageTable_fst K s.mmu
      simp only [step] at hs
      generalize createPageTable K s.mmu = r at hs hmem hfst
      obtain rfl := Option.some.inj hs
      refine h.of_walks hkernel hentry rfl ?_
      rintro d hd v pte ⟨hv, hwalk⟩
      rcases List.mem_cons.mp hd with rfl | hd
      · -- the new directory has nothing but entry 0
        exfalso
        rw [hfst, hD] at hwalk
        have habs : ¬ Present (r.2.mem D (vaddrDir v)) := by
          rw [hmem, set_of_slot_ne hv, fill_self]
          exact not_present_zero
        cases hwalk.symm.trans (walk_absent entryFormat habs _)
      · have hold := hkeep d (List.mem_cons_of_mem K hd) v
        exact ⟨hd, hv, hold.symm.trans hwalk⟩
  | ualloc =>
      have hne := h.kernel.held.ne_ualloc h.kernel.range
      simp only [step] at hs
      generalize uallocPages s.mmu.alloc 1 = r at hs hne
      obtain rfl := Option.some.inj hs
      refine ⟨hkernel, ?_, ?_⟩
      · intro hm
        rcases List.mem_cons.mp hm with hc | hm
        · exact hne hc.symm
        · exact h.shared hm
      · intro d hd v pte hpage
        exact List.mem_cons_of_mem _ (h.leaves d hd v pte hpage)
  | map dir vaddr paddr count perm =>
      obtain ⟨hd, rfl⟩ := step_map.mp hs
      have hmaps := map_spec hi hd hok.1.1
      refine ⟨hkernel, ?_, ?_⟩
      · unfold sharedTable
        rw [hentry]
        exact h.shared
      · rintro d hd' v pte ⟨hv, hwalk⟩
        by_cases hhit : d = dir ∧ ∃ i < count, pageOf v = pageOf (pagesFrom vaddr i)
        · obtain ⟨rfl, i, hi', hpage⟩ := hhit
          rw [walkAt_congr hpage, hmaps.mapped i hi'] at hwalk
          have hframe : frameOf pte = frameOf (pagesFrom paddr i) := by
            rw [← Option.some.inj hwalk]
            unfold newPte
            rw [frameOf_or (by decide), frameOf_or hok.1.1.1.perm_lt]
          rw [hframe]
          exact hok.2 i hi'
        -- a page of another walk has not moved
        · have hold := hmaps.others d (List.mem_cons_of_mem K hd') v
            (fun hc i hi' hpage => hhit ⟨hc, i, hi', hpage⟩)
          exact h.leaves d hd' v pte ⟨hv, hold.symm.trans hwalk⟩
  | other mmu =>
      have hkeep : ∀ d ∈ K :: s.dirs, ∀ v,
          walkAt s'.mmu.mem d v = walkAt s.mmu.mem d v :=
        fun d hd v => step_keeps hi hok.1.1 hs (by rintro dir vaddr paddr count perm ⟨⟩) hd v
      obtain rfl := Option.some.inj hs
      refine h.of_walks hkernel hentry rfl ?_
      rintro d hd v pte ⟨hv, hwalk⟩
      exact ⟨hd, hv, (hkeep d (List.mem_cons_of_mem K hd) v).symm.trans hwalk⟩

/-- The shared table does not belong to a directory. -/
theorem not_owns_shared (h : PagesApart K s) {dir : Frame} (hd : dir ∈ s.dirs) :
    ¬ Owns s.mmu.mem dir (sharedTable K s.mmu.mem) := by
  have htrees := h.kernel.inv.trees
  have hp := h.kernel.present
  rintro (hdir | ⟨i, hi, hpi, ht⟩ | ⟨v, pte, hpage, hf⟩)
  · refine htrees.apart K (by simp) 0 hp ?_
    rw [show entryFormat.target (s.mmu.mem K 0) = dir from hdir]
    exact List.mem_cons_of_mem K hd
  · have hway := htrees.one_way (List.mem_cons_of_mem K hd) (by simp) (Or.inl hi)
      hpi hp ht.symm
    exact hi hway.2.symm
  · exact h.shared (hf ▸ h.leaves dir hd v pte hpage)

/-- But it is freed. -/
theorem shared_mem_freedFrames (h : KernelHeld K s) {dir : Frame}
    (hd : dir ∈ s.dirs) :
    sharedTable K s.mmu.mem ∈ freedFrames s.mmu.mem dir := by
  have hentry : s.mmu.mem dir (BitVec.ofNat 10 0) = s.mmu.mem K 0 :=
    h.inv.trees.shared dir hd
  unfold freedFrames
  rw [userPdeStart_eq]
  refine List.mem_append_left _ (List.mem_flatMap.mpr ⟨0, by simp, ?_⟩)
  unfold freedBy
  dsimp only
  rw [hentry, if_pos h.present]
  exact List.mem_append_right _ (List.mem_singleton_self _)

/-- Destroying a directory frees a page of the kernel, so it is not correct. -/
theorem not_destroyCorrect (h : PagesApart K s) {dir : Frame} (hd : dir ∈ s.dirs) :
    ¬ DestroyCorrect dir s.mmu := by
  intro hcorrect
  obtain ⟨p, hp, hframe, hm⟩ := h.kernel.held
  have hT : BitVec.ofNat 20 (256 + p) = sharedTable K s.mmu.mem := by
    rw [← hframe, BitVec.ofNat_toNat, BitVec.setWidth_eq]
  have hnot := not_owns_shared h hd
  rw [← hT] at hnot
  have hkept := (hcorrect.frees p hp hm).mpr hnot
  rw [pagetableDestroy_marked h.kernel.range dir hp] at hkept
  exact hkept.2 _ (shared_mem_freedFrames h.kernel hd) hframe

end Step

/-- Boot leaves pages and tables apart. -/
theorem booted_pagesApart (l : Layout) (mem : Frames) (bits : Nat → BitVec 8)
    {total : Word} (ht : 0x105000 ≤ total.toNat) :
    PagesApart l.kernelTable (booted l (memoryReady mem bits total)) where
  kernel := booted_kernelHeld ht
  shared := by simp [booted]
  leaves := by simp [booted]

/-- They stay apart in any run. -/
theorem pagesApart_of_run {l : Layout} {mem : Frames} {bits : Nat → BitVec 8}
    {total : Word} (ht : 0x105000 ≤ total.toNat) {os : List Op} {s : Spaces}
    (h : Run (step l.kernelTable) (FromPages l.kernelTable)
      (booted l (memoryReady mem bits total)) os s) : PagesApart l.kernelTable s :=
  h.invariant (booted_pagesApart l mem bits ht)
    (fun _ _ _ hp hok hs => step_pagesApart hp hok hs)

/-- **NO DESTRUCTION IS CORRECT**, of no directory in no run. -/
theorem destroy_never_correct (l : Layout) (mem : Frames) (bits : Nat → BitVec 8)
    {total : Word} (ht : 0x105000 ≤ total.toNat) {os : List Op} {s : Spaces}
    (h : Run (step l.kernelTable) (FromPages l.kernelTable)
      (booted l (memoryReady mem bits total)) os s) {dir : Frame}
    (hd : dir ∈ s.dirs) : ¬ DestroyCorrect dir s.mmu :=
  not_destroyCorrect (pagesApart_of_run ht h) hd

/-- The first directory of a machine of 128 MB, with a page at 1 GB. -/
theorem destroy_never_correct_mapped :
    ∃ (s : Spaces) (dir : Frame) (paddr : Word),
      Run (step smallKernel.kernelTable) (FromPages smallKernel.kernelTable)
        (booted smallKernel (memoryReady (fun _ _ => 0) (fun _ => 0) 0x8000000))
        [.createPageTable, .ualloc, .map dir 0x40000000 paddr 1 6] s ∧
      translate s.mmu.mem dir 0x40000000 = some (frameOf paddr, 7) ∧
      ¬ DestroyCorrect dir s.mmu := by
  obtain ⟨dir, paddr, s₁, s₂, s, hpage⟩ := page_of_boot smallKernel
    (fun _ _ => 0) (fun _ => 0) (show _ ≤ (0x8000000 : Word).toNat by decide)
  have hfrom : ∀ i < 1, frameOf (pagesFrom paddr i) ∈ s₂.pages := by
    intro i hi
    obtain rfl : i = 0 := by omega
    rw [pagesFrom_zero]
    exact hpage.pages
  have hrun : Run (step smallKernel.kernelTable) (FromPages smallKernel.kernelTable) _
      [.createPageTable, .ualloc, .map dir 0x40000000 paddr 1 6] s :=
    ((Run.single ⟨hpage.makes.ok, trivial⟩ hpage.makes.step).snoc
      ⟨undisturbed_ualloc _ s₁, trivial⟩ hpage.ualloc).snoc ⟨⟨hpage.ok, trivial⟩, hfrom⟩ hpage.map
  exact ⟨s, dir, paddr, hrun, hpage.mapped, destroy_never_correct smallKernel _ _ (by decide)
    hrun (by rw [hpage.dirs]; simp)⟩

/-- Destroying one frees the kernel's first page table. -/
theorem destroy_frees_kernel_table :
    ¬ ∀ (l : Layout) (mem : Frames) (bits : Nat → BitVec 8) (total : Word)
        (os : List Op) (s : Spaces) (dir : Frame), 0x105000 ≤ total.toNat →
        Run (step l.kernelTable) (FromPages l.kernelTable)
          (booted l (memoryReady mem bits total)) os s →
        dir ∈ s.dirs → DestroyCorrect dir s.mmu := by
  intro hall
  obtain ⟨dir, s, hmakes, -⟩ := (supplied_of_boot smallKernel (fun _ _ => 0) (fun _ => 0)
    (show _ ≤ (0x8000000 : Word).toNat by decide)).create
  have hrun : Run _ (FromPages smallKernel.kernelTable) _ _ _ :=
    Run.single ⟨hmakes.ok, trivial⟩ hmakes.step
  have hd : dir ∈ s.dirs := by rw [hmakes.dirs]; simp
  exact not_destroyCorrect (pagesApart_of_run (by decide) hrun) hd
    (hall smallKernel _ _ 0x8000000 _ s dir (by decide) hrun hd)

end LittleOS.DestroyPageTable
