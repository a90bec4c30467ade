import LittleOS.FreePages

/-! # Isolation of address spaces

    * `map_isolated` — in every run from `create_kernel_table` on, with any
      number of directories, a call of `vaddr2paddr` on user pages maps them
      and changes no other translation;
    * `Supplied` — what is enough for such a run, and `supplied_of_boot`;
    * `page_of_boot` — a directory with a page at 1 GB. -/

namespace LittleOS.Isolation

open Runs TwoLevel Intervals PageBitmap Memory PageTable AddressSpaces KernelBoot
  SharedTable AllocatedTables FreePages

/-- The invariant in every state of a run. -/
theorem inv_of_run {l : Layout} {m : Mmu}
    (hf : FreshRegions l.kernelTable (kernelMap l) (zeroed l m)) {os : List Op}
    {s : Spaces}
    (h : Run (step l.kernelTable) (Isolated l.kernelTable) (booted l m) os s) :
    Inv l.kernelTable s :=
  h.invariant (booted_inv l m hf) (fun _ _ _ hi hok hs => step_inv hi hok hs)

/-- What a new entry translates to. -/
theorem translate_newPte {mem : Frames} {dir : Frame} {v paddr perm : Word}
    (hp : paddr.toNat % 4096 = 0) (hperm : perm.toNat < 4096)
    (h : walkAt mem dir v = some (newPte paddr perm)) :
    translate mem dir v = some (frameOf paddr, attrOf (perm ||| pteP)) := by
  unfold AddressSpaces.translate
  rw [h, Option.map_some]
  unfold newPte
  rw [frameOf_or (by decide), frameOf_or hperm, BitVec.or_assoc, attrOf_or hp]

/-- **ISOLATION**: in every run a call of `vaddr2paddr` on user pages makes each
    of them translate as asked and changes no other translation, of its
    directory, of any other one or of `kernel_table`. -/
theorem map_isolated (l : Layout) (m : Mmu)
    (hf : FreshRegions l.kernelTable (kernelMap l) (zeroed l m)) {os : List Op}
    {s s' : Spaces}
    (h : Run (step l.kernelTable) (Isolated l.kernelTable) (booted l m) os s)
    {dir : Frame} {vaddr paddr perm : Word} {count : Nat}
    (hok : Isolated l.kernelTable (.map dir vaddr paddr count perm) s)
    (hs : step l.kernelTable (.map dir vaddr paddr count perm) s = some s') :
    (∀ i < count, translate s'.mmu.mem dir (pagesFrom vaddr i)
      = some (frameOf (pagesFrom paddr i), attrOf (perm ||| pteP))) ∧
    (∀ d ∈ l.kernelTable :: s.dirs, ∀ v,
      (d = dir → ∀ i < count, pageOf v ≠ pageOf (pagesFrom vaddr i)) →
      translate s'.mmu.mem d v = translate s.mmu.mem d v) := by
  obtain ⟨hd, rfl⟩ := step_map.mp hs
  obtain ⟨-, hmapped, hother, -⟩ := map_spec (inv_of_run hf h) hd hok
  refine ⟨?_, ?_⟩
  · intro i hi
    refine translate_newPte ?_ hok.1.perm_lt (hmapped i hi)
    have halign := hok.1.paddr_aligned
    rw [pagesFrom_toNat]
    omega
  · intro d hd' v hv
    unfold AddressSpaces.translate
    rw [hother d hd' v hv]

/-- Sections of a few pages. -/
def smallKernel : Layout where
  etext := 0x14000
  sdata := 0x15000
  kernelTable := 0x18
  etext_ge := by decide
  sdata_ge := by decide
  table_ge := by decide
  table_lt := by decide

/-! ## Runs that have their pages -/

/-- So many pages of the kernel are free, and so many of the user. -/
structure Supplied (K : Frame) (kernel user : Nat) (s : Spaces) : Prop where
  allocated : Allocated K s.dirs s.mmu
  kernel_le : kernel ≤ kernelFree s.mmu.alloc
  user_le : user ≤ userFree s.mmu.alloc

/-- A directory is made, with no entry of its own. -/
structure Makes (K D : Frame) (s s' : Spaces) : Prop where
  ok : Undisturbed K .createPageTable s
  step : step K .createPageTable s = some s'
  dirs : s'.dirs = D :: s.dirs
  pages : s'.pages = s.pages
  ne : D ∉ s.dirs
  absent : ∀ i ≠ 0, ¬ Present (s'.mmu.mem D i)
  rows : ∀ d ∈ s.dirs, s'.mmu.mem d = s.mmu.mem d

section Supplied

variable {K : Frame} {kernel user : Nat} {s : Spaces}

/-- A page for it is enough. -/
theorem Supplied.create (h : Supplied K kernel (user + 1) s) :
    ∃ D s', Makes K D s s' ∧ Supplied K kernel user s' := by
  have hallocated := h.allocated
  obtain ⟨hgives, hkernel, -, huser⟩ := uallocPages_free hallocated.range
  have hle := h.user_le
  have hne : (uallocPages s.mmu.alloc 1).1 ≠ 0 := hgives.mpr (by omega)
  have hfresh := hallocated.fresh (uallocPages_gives hallocated.range hne)
  have hok : Undisturbed K .createPageTable s := ⟨hfresh, trivial⟩
  have hunused := hfresh.unused
  have hmem := createPageTable_mem K s.mmu rfl
  have halloc := createPageTable_alloc K s.mmu
  have hfst := createPageTable_fst K s.mmu
  have hnew := hallocated.createPageTable hne
  have hother : ∀ d ∈ K :: s.dirs, d ≠ frameOf (uallocPages s.mmu.alloc 1).1 :=
    fun d hd hc => hunused (hc ▸ Or.inl hd)
  refine ⟨frameOf (uallocPages s.mmu.alloc 1).1, _,
    ⟨hok, rfl, by rw [← hfst], rfl, ?_, ?_, ?_⟩, hnew, ?_, ?_⟩
  · exact fun hd => hother _ (List.mem_cons_of_mem K hd) rfl
  · intro i hi
    dsimp only
    rw [hmem, set_of_slot_ne hi, fill_self]
    exact not_present_zero
  · intro d hd
    have hd' := hother d (List.mem_cons_of_mem K hd)
    funext i
    dsimp only
    rw [hmem, set_of_ne hd', fill_of_ne hd']
  · dsimp only
    rw [halloc, hkernel]
    exact h.kernel_le
  · dsimp only
    rw [halloc, huser]
    omega

/-- A page of the user, for a process. -/
theorem Supplied.ualloc (h : Supplied K kernel (user + 1) s) :
    ∃ paddr s', step K .ualloc s = some s' ∧ s'.dirs = s.dirs ∧
      s'.pages = frameOf paddr :: s.pages ∧ s'.mmu.mem = s.mmu.mem ∧
      paddr.toNat % 4096 = 0 ∧ Supplied K kernel user s' := by
  obtain ⟨hgives, hkernel, -, huser⟩ := uallocPages_free h.allocated.range
  have hle := h.user_le
  have hne : (uallocPages s.mmu.alloc 1).1 ≠ 0 := hgives.mpr (by omega)
  have hpage := uallocPages_gives h.allocated.range hne
  have hg := uallocPages_grows s.mmu.alloc (Nat.le_refl 1)
  refine ⟨_, _, rfl, rfl, rfl, rfl, hpage.aligned, h.allocated.grows hg, ?_, ?_⟩
  · dsimp only
    rw [hkernel]
    exact h.kernel_le
  · dsimp only
    rw [huser]
    omega

/-- Pages behind entries that are not there can be mapped, with a page for each. -/
theorem Supplied.map {count : Nat} (h : Supplied K count user s) {dir : Frame} (hd : dir ∈ s.dirs)
    {vaddr paddr perm : Word} (hrange : UserRange vaddr paddr count perm)
    (habsent : ∀ i < count, ¬ Present (s.mmu.mem dir (vaddrDir (pagesFrom vaddr i)))) :
    Isolated K (.map dir vaddr paddr count perm) s := by
  refine ⟨hrange, fun i hi => ?_, ?_⟩
  · unfold AddressSpaces.translate
    rw [Option.map_eq_none_iff]
    exact walk_absent entryFormat (habsent i hi) _
  · exact freshTables_of_free (List.mem_cons_of_mem K hd) perm count vaddr paddr s.mmu
      h.allocated h.kernel_le

/-- After the boot. -/
theorem supplied_of_boot (l : Layout) (mem : Frames) (bits : Nat → BitVec 8) {total : Word}
    (ht : 0x203000 ≤ total.toNat) :
    Supplied l.kernelTable 251 3 (booted l (memoryReady mem bits total)) := by
  have hindex := userIndex_eq
  obtain ⟨k, hk, hseq⟩ := boot_sequential l mem bits (Nat.le_trans (by omega) ht)
  have hcount := boot_count l mem bits (Nat.le_trans (by omega) ht)
  have hfree : ∀ p, k ≤ p → p < (booted l (memoryReady mem bits total)).mmu.alloc.bitmap.count →
      ¬ Marked (booted l (memoryReady mem bits total)).mmu.alloc p := by
    intro p hp hlt hm
    have := (hseq.marked p hlt).mp hm
    omega
  have hle : userIndex ≤ (booted l (memoryReady mem bits total)).mmu.alloc.bitmap.count :=
    Nat.le_trans (by omega) (Nat.le_of_eq hcount.symm)
  refine ⟨booted_allocated (Nat.le_trans (by omega) ht), ?_, ?_⟩
  · refine Nat.le_trans ?_ (le_freePages (Nat.zero_le k) hle fun p hp hlt =>
      hfree p hp (Nat.lt_of_lt_of_le hlt hle))
    omega
  · refine Nat.le_trans ?_ (le_freePages (Nat.le_refl userIndex) (Nat.le_refl _) ?_)
    · exact Nat.le_trans (by omega) (Nat.le_of_eq (congrArg (· - userIndex) hcount.symm))
    · intro p hp hlt
      exact hfree p (by omega) hlt

end Supplied

/-- An allocation disturbs nothing. -/
theorem undisturbed_ualloc (K : Frame) (s : Spaces) : Undisturbed K .ualloc s :=
  ⟨trivial, trivial⟩

/-- A page at 1 GB is in the user's range. -/
theorem userRange_gigabyte {paddr : Word} (h : paddr.toNat % 4096 = 0) :
    UserRange 0x40000000 paddr 1 6 :=
  ⟨by decide, by decide, h, by decide, by decide⟩

/-- A page at 1 GB in a new directory, and pages of the user are left. -/
structure FirstPage (l : Layout) (m : Mmu) (dir : Frame) (paddr : Word) (s₁ s₂ s : Spaces) :
    Prop where
  makes : Makes l.kernelTable dir (booted l m) s₁
  ualloc : step l.kernelTable .ualloc s₁ = some s₂
  pages : frameOf paddr ∈ s₂.pages
  ok : Isolated l.kernelTable (.map dir 0x40000000 paddr 1 6) s₂
  map : step l.kernelTable (.map dir 0x40000000 paddr 1 6) s₂ = some s
  dirs : s.dirs = [dir]
  mapped : translate s.mmu.mem dir 0x40000000 = some (frameOf paddr, 7)
  left : 0 < userFree s.mmu.alloc

/-- From boot on, with memory for it, a page can be had, a directory made and the page
    mapped in it. -/
theorem page_of_boot (l : Layout) (mem : Frames) (bits : Nat → BitVec 8) {total : Word}
    (ht : 0x203000 ≤ total.toNat) :
    ∃ dir paddr s₁ s₂ s, FirstPage l (memoryReady mem bits total) dir paddr s₁ s₂ s := by
  obtain ⟨dir, s₁, hmakes, hs₁⟩ := (supplied_of_boot l mem bits ht).create
  obtain ⟨paddr, s₂, hualloc, hdirs, hpages, hmem, haligned, hs₂⟩ := hs₁.ualloc
  have hdirs' : s₂.dirs = [dir] := by
    rw [hdirs, hmakes.dirs]
    rfl
  have hin : dir ∈ s₂.dirs := by rw [hdirs']; simp
  have hrange := userRange_gigabyte haligned
  have hok : Isolated l.kernelTable (.map dir 0x40000000 paddr 1 6) s₂ := by
    refine Supplied.map ⟨hs₂.allocated, Nat.le_trans (by omega) hs₂.kernel_le, hs₂.user_le⟩
      hin hrange fun i hi => ?_
    obtain rfl : i = 0 := by omega
    rw [hmem]
    exact hmakes.absent _ (by decide)
  have hstep : step l.kernelTable (.map dir 0x40000000 paddr 1 6) s₂
      = some { s₂ with mmu := vaddr2paddr dir 0x40000000 paddr 1 6 s₂.mmu } :=
    step_map.mpr ⟨hin, rfl⟩
  have hfresh := freshRegions_of_boot l mem bits (Nat.le_trans (by omega) ht)
  have hrun : Run (step l.kernelTable) (Isolated l.kernelTable) _ [.createPageTable, .ualloc] s₂ :=
    (Run.single hmakes.ok.1 hmakes.step).snoc (undisturbed_ualloc _ s₁).1 hualloc
  obtain ⟨-, hmapped, -⟩ := map_spec (inv_of_run hfresh hrun) hin hok
  have hfirst := hmapped 0 (by decide)
  rw [pagesFrom_zero, pagesFrom_zero] at hfirst
  refine ⟨dir, paddr, s₁, s₂, _, hmakes, hualloc, ?_, hok, hstep, hdirs',
    (translate_newPte haligned (by decide) hfirst).trans (by rfl), ?_⟩
  · rw [hpages]
    exact List.mem_cons_self
  · have huser := mapLoop_userFree dir 6 1 0x40000000 paddr s₂.mmu hs₂.allocated.range
      (Nat.le_trans (by omega) hs₂.kernel_le)
    have hle := hs₂.user_le
    show 0 < userFree (mapLoop dir 6 1 0x40000000 paddr s₂.mmu).alloc
    omega

/-- Two pages on both sides of a 4 MB boundary, mapped in one of two directories. -/
theorem map_isolated_boundary :
    ∃ (s s' : Spaces) (dir other : Frame), dir ≠ other ∧ s.dirs = [other, dir] ∧
      Run (step smallKernel.kernelTable) (Isolated smallKernel.kernelTable)
        (booted smallKernel (memoryReady (fun _ _ => 0) (fun _ => 0) 0x8000000))
        [.createPageTable, .createPageTable] s ∧
      step smallKernel.kernelTable (.map dir 0x403FF000 0x500000 2 6) s = some s' ∧
      translate s'.mmu.mem dir 0x403FF000 = some (0x500, 7) ∧
      translate s'.mmu.mem dir 0x40400000 = some (0x501, 7) ∧
      translate s'.mmu.mem other 0x40400000 = translate s.mmu.mem other 0x40400000 := by
  have hboot := supplied_of_boot smallKernel (fun _ _ => 0) (fun _ => 0)
    (show _ ≤ (0x8000000 : Word).toNat by decide)
  obtain ⟨dir, s₁, hfirst, hs₁⟩ := hboot.create
  obtain ⟨other, s, hsecond, hs⟩ := hs₁.create
  have hrun : Run (step smallKernel.kernelTable) (Isolated smallKernel.kernelTable) _
      [.createPageTable, .createPageTable] s :=
    (Run.single hfirst.ok.1 hfirst.step).snoc hsecond.ok.1 hsecond.step
  have hdir : dir ∈ s₁.dirs := by rw [hfirst.dirs]; simp
  have hdirs : s.dirs = [other, dir] := by
    rw [hsecond.dirs, hfirst.dirs]
    rfl
  have hin : dir ∈ s.dirs := by rw [hdirs]; simp
  have hok : Isolated smallKernel.kernelTable (.map dir 0x403FF000 0x500000 2 6) s := by
    refine Supplied.map ⟨hs.allocated, Nat.le_trans (by omega) hs.kernel_le, hs.user_le⟩ hin
      ⟨by decide, by decide, by decide, by decide, by decide⟩ fun i hi => ?_
    rw [hsecond.rows dir hdir]
    refine hfirst.absent _ ?_
    obtain rfl | rfl : i = 0 ∨ i = 1 := by omega
    · decide
    · decide
  obtain ⟨s', hstep⟩ : ∃ s', step smallKernel.kernelTable (.map dir 0x403FF000 0x500000 2 6) s
      = some s' := ⟨_, step_map.mpr ⟨hin, rfl⟩⟩
  obtain ⟨hmapped, hother⟩ := map_isolated smallKernel _ (freshRegions_of_boot smallKernel
    (fun _ _ => 0) (fun _ => 0) (show _ ≤ (0x8000000 : Word).toNat by decide)) hrun hok hstep
  refine ⟨s, s', dir, other, ?_, hdirs, hrun, hstep, ?_, ?_, ?_⟩
  · exact fun he => hsecond.ne (he ▸ hdir)
  · exact (hmapped 0 (by decide)).trans (by decide)
  · exact (hmapped 1 (by decide)).trans (by decide)
  · refine hother other (by rw [hdirs]; simp) _ fun he => ?_
    exact absurd he fun he => hsecond.ne (he ▸ hdir)

end LittleOS.Isolation
