import LittleOS.KernelBoot

/-! # The table behind entry 0

    `create_page_table` copies entry 0 of `kernel_table`, so every directory
    has the kernel's first page table behind its entry 0.  That table is one of
    the pages `create_kernel_table` has allocated.

    * `Undisturbed` — the runs of `LittleOS.AddressSpaces` in which nothing
      frees a directory or a page table;
    * `kernelHeld_of_run` — in all of them the shared table stays allocated and
      the second page of the kernel stays where it is. -/

namespace LittleOS.SharedTable

open Runs TwoLevel Memory PageTable AddressSpaces KernelBoot

/-- The kernel's first page table. -/
def sharedTable (K : Frame) (mem : Frames) : Frame := frameOf (mem K 0)

/-- The frame is a page of the managed range and marked allocated. -/
def HeldFrame (m : AddrAlloc) (f : Frame) : Prop :=
  ∃ p < m.bitmap.count, f.toNat = 256 + p ∧ Marked m p

/-- A frame that is held stays so while no page is freed. -/
theorem HeldFrame.grows {m m' : AddrAlloc} {f : Frame} (h : HeldFrame m f)
    (hg : Grows m m') : HeldFrame m' f := by
  obtain ⟨p, hp, hf, hm⟩ := h
  exact ⟨p, by rw [hg.range.1]; exact hp, hf, hg.marked p hm⟩

/-- A page handed out is none of those held before. -/
theorem HeldFrame.ne_pageAddr {m : AddrAlloc} {f : Frame} (h : HeldFrame m f)
    (hr : ManagedRange m) {i : Nat} (hi : i < m.bitmap.count)
    (hfree : ¬ Marked m i) : frameOf (pageAddr m i) ≠ f := by
  obtain ⟨p, _, hf, hm⟩ := h
  intro hc
  have hframe := frameOf_pageAddr hr hi
  rw [hc] at hframe
  obtain rfl : p = i := by omega
  exact hfree hm

/-- Nor is what `ualloc_pages` gives, a page or 0. -/
theorem HeldFrame.ne_ualloc {m : AddrAlloc} {f : Frame} (h : HeldFrame m f)
    (hr : ManagedRange m) : frameOf (uallocPages m 1).1 ≠ f := by
  have hle := hr.count_le
  have hone := uallocPages_one (m := m) (by omega)
  generalize uallocPages m 1 = r at hone ⊢
  by_cases h0 : r.1 = 0
  · obtain ⟨p, -, hf, -⟩ := h
    have hz : (frameOf 0).toNat = 0 := by decide
    rw [h0]
    rintro rfl
    omega
  · obtain ⟨i, hi, -, haddr, hfree, -⟩ := hone h0
    rw [haddr]
    exact h.ne_pageAddr hr hi hfree

/-- What else runs keeps the range and frees no directory or page table. -/
def KeepsTables (K : Frame) (s : Spaces) (mmu : Mmu) : Prop :=
  SameRange s.mmu.alloc mmu.alloc ∧
  ∀ f, InUse entryFormat (K :: s.dirs) s.mmu.mem f →
    HeldFrame s.mmu.alloc f → HeldFrame mmu.alloc f

/-- An operation that leaves other spaces alone, and other code that leaves the tables alone. -/
def Undisturbed (K : Frame) (o : Op) (s : Spaces) : Prop :=
  Isolated K o s ∧
  match o with
  | .other mmu => KeepsTables K s mmu
  | _ => True

/-- The kernel's shared table is held, maps the page behind the first, and no directory
    is free. -/
structure KernelHeld (K : Frame) (s : Spaces) : Prop where
  inv : Inv K s
  range : ManagedRange s.mmu.alloc
  present : Present (s.mmu.mem K 0)
  held : HeldFrame s.mmu.alloc (sharedTable K s.mmu.mem)
  one : walkAt s.mmu.mem K 0x1000 = some (newPte 0x1000 (pteW ||| pteU))
  dirs : ∀ d ∈ s.dirs, HeldFrame s.mmu.alloc d

section Step

variable {K : Frame} {s s' : Spaces}

/-- The shared table is in use. -/
theorem KernelHeld.shared_inUse (h : KernelHeld K s) :
    InUse entryFormat (K :: s.dirs) s.mmu.mem (sharedTable K s.mmu.mem) :=
  Or.inr ⟨K, by simp, 0, h.present, rfl⟩

/-- The second page of the kernel is mapped by slot 1 of the shared table. -/
theorem KernelHeld.slot_present (h : KernelHeld K s) :
    Present (s.mmu.mem (sharedTable K s.mmu.mem) 1) := by
  have hd : vaddrDir 0x1000 = 0 := by decide
  have ht : vaddrTable 0x1000 = 1 := by decide
  have hone := h.one
  unfold walkAt at hone
  rw [hd, ht, walk_present entryFormat h.present] at hone
  by_contra hn
  exact nomatch hone.symm.trans (if_neg hn)

/-- A step that keeps entry 0, the translation of that page and what is held,
    and holds its new directories, keeps the rest. -/
theorem KernelHeld.of_entry (h : KernelHeld K s) (hi : Inv K s')
    (hr : SameRange s.mmu.alloc s'.mmu.alloc)
    (he : s'.mmu.mem K 0 = s.mmu.mem K 0)
    (hw : walkAt s'.mmu.mem K 0x1000 = walkAt s.mmu.mem K 0x1000)
    (hk : ∀ f, InUse entryFormat (K :: s.dirs) s.mmu.mem f →
      HeldFrame s.mmu.alloc f → HeldFrame s'.mmu.alloc f)
    (hd : ∀ d ∈ s'.dirs, d ∈ s.dirs ∨ HeldFrame s'.mmu.alloc d) :
    KernelHeld K s' where
  inv := hi
  range := h.range.of_sameRange hr
  present := by rw [he]; exact h.present
  held := by unfold sharedTable; rw [he]; exact hk _ h.shared_inUse h.held
  one := hw.trans h.one
  dirs := by
    intro d hd'
    rcases hd d hd' with hold | hnew
    · exact hk d (Or.inl (List.mem_cons_of_mem K hold)) (h.dirs d hold)
    · exact hnew

/-- A page for a new directory is held. -/
theorem heldFrame_ualloc {m : AddrAlloc} (hr : ManagedRange m)
    (h0 : (uallocPages m 1).1 ≠ 0) :
    HeldFrame (uallocPages m 1).2 (frameOf (uallocPages m 1).1) := by
  have hle := hr.count_le
  have hg := uallocPages_grows m (Nat.le_refl 1)
  obtain ⟨i, hi, -, haddr, -, hm⟩ := uallocPages_one (by omega) h0
  rw [haddr]
  exact ⟨i, by rw [hg.range.1]; exact hi, frameOf_pageAddr hr hi, hm⟩

/-- No step changes entry 0 of the kernel. -/
theorem step_entry {o : Op} (h : Inv K s) (hp : Present (s.mmu.mem K 0))
    (hok : Isolated K o s) (hs : step K o s = some s') :
    s'.mmu.mem K 0 = s.mmu.mem K 0 := by
  cases o with
  | createPageTable =>
      obtain ⟨D, hD⟩ : ∃ D, frameOf (uallocPages s.mmu.alloc 1).1 = D := ⟨_, rfl⟩
      have hunused := hok.unused
      rw [hD] at hunused
      have hK : K ≠ D := fun hc => hunused (hc ▸ Or.inl (by simp))
      have hmem := createPageTable_mem K s.mmu hD
      simp only [step] at hs
      generalize createPageTable K s.mmu = r at hs hmem
      obtain rfl := Option.some.inj hs
      dsimp only
      rw [hmem, set_of_ne hK, fill_of_ne hK]
  | ualloc =>
      obtain rfl := Option.some.inj hs
      rfl
  | map dir vaddr paddr count perm =>
      obtain ⟨hd, rfl⟩ := step_map.mp hs
      exact (map_spec h hd hok).roots K (by simp) 0 hp
  | other mmu =>
      obtain rfl := Option.some.inj hs
      exact congrFun (hok K (Or.inl (by simp))) 0

/-- **EVERY STEP** of an undisturbed run keeps the shared table. -/
theorem step_kernelHeld {o : Op} (h : KernelHeld K s) (hok : Undisturbed K o s)
    (hs : step K o s = some s') : KernelHeld K s' := by
  have hi := step_inv h.inv hok.1 hs
  have he := step_entry h.inv h.present hok.1 hs
  cases o with
  | createPageTable =>
      -- the directory gets entry 0 of the kernel's, which stays
      have hone := step_keeps h.inv hok.1 hs (by rintro dir vaddr paddr count perm ⟨⟩)
        (d := K) (by simp) 0x1000
      have hheld := heldFrame_ualloc h.range hok.1.ne_zero
      have hg := uallocPages_grows s.mmu.alloc (Nat.le_refl 1)
      have halloc := createPageTable_alloc K s.mmu
      have hfst := createPageTable_fst K s.mmu
      simp only [step] at hs
      generalize createPageTable K s.mmu = r at hs halloc hfst
      generalize uallocPages s.mmu.alloc 1 = u at hheld hg halloc hfst
      obtain rfl := Option.some.inj hs
      rw [← halloc] at hg hheld
      refine h.of_entry hi hg.range he hone (fun f _ hf => hf.grows hg) ?_
      intro d hd
      rcases List.mem_cons.mp hd with rfl | hd
      · exact Or.inr (by rw [hfst]; exact hheld)
      · exact Or.inl hd
  | ualloc =>
      have hg := uallocPages_grows s.mmu.alloc (Nat.le_refl 1)
      simp only [step] at hs
      generalize uallocPages s.mmu.alloc 1 = r at hs hg
      obtain rfl := Option.some.inj hs
      exact h.of_entry hi hg.range rfl rfl (fun f _ hf => hf.grows hg)
        (fun d hd => Or.inl hd)
  | map dir vaddr paddr count perm =>
      obtain ⟨hd, rfl⟩ := step_map.mp hs
      have hmaps := map_spec h.inv hd hok.1
      have hg := mapLoop_grows dir perm count vaddr paddr s.mmu
      refine h.of_entry hi hg.range he (hmaps.others K (by simp) 0x1000 ?_)
        (fun f _ hf => hf.grows hg) (fun d hd => Or.inl hd)
      rintro rfl
      exact absurd hd (List.nodup_cons.mp h.inv.trees.nodup).1
  | other mmu =>
      have hone := step_keeps h.inv hok.1 hs (by rintro dir vaddr paddr count perm ⟨⟩)
        (d := K) (by simp) 0x1000
      obtain rfl := Option.some.inj hs
      exact h.of_entry hi hok.2.1 he hone hok.2.2 (fun d hd => Or.inl hd)

end Step

section Run

variable {l : Layout} {mem : Frames} {bits : Nat → BitVec 8} {total : Word}

/-- After boot it is held: it is the first page that was taken. -/
theorem booted_kernelHeld (ht : 0x105000 ≤ total.toNat) :
    KernelHeld l.kernelTable (booted l (memoryReady mem bits total)) := by
  have hf := freshRegions_of_boot l mem bits ht
  have hone := boot_page_one l (memoryReady mem bits total) hf
  obtain ⟨k, hk, hseq⟩ := boot_sequential l mem bits ht
  have hp : Present ((createKernelTable l (memoryReady mem bits total)).mem
      l.kernelTable 0) := by
    by_contra hn
    have habs := walk_absent entryFormat (i := vaddrDir 0x1000) hn (vaddrTable 0x1000)
    exact nomatch hone.symm.trans habs
  have h0 := (hseq.present 0).mp hp
  have henough := hseq.enough
  refine ⟨booted_inv l _ hf, hseq.range, hp, ?_, hone, by simp [booted]⟩
  have hz : (0 : Slot).toNat = 0 := rfl
  refine ⟨0, ?_, ?_, ?_⟩
  · show 0 < (createKernelTable l (memoryReady mem bits total)).alloc.bitmap.count
    omega
  · exact hseq.frames 0 hp
  · exact (hseq.marked 0 (by omega)).mpr (by omega)

/-- The shared table is held in every undisturbed run from the boot on. -/
theorem kernelHeld_of_run (ht : 0x105000 ≤ total.toNat) {os : List Op}
    {s : Spaces}
    (h : Run (step l.kernelTable) (Undisturbed l.kernelTable)
      (booted l (memoryReady mem bits total)) os s) : KernelHeld l.kernelTable s :=
  h.invariant (booted_kernelHeld ht) (fun _ _ _ hk hok hs => step_kernelHeld hk hok hs)

end Run

end LittleOS.SharedTable
