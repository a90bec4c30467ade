import LittleOS.SharedTable

/-! # Directories and page tables are allocated pages

    `Allocated` says of a state that the directories and page tables in use are
    marked in the bitmap, all but `kernel_table`, which lies below the pages
    that are managed.  No allocation gives a frame in use then, and frame 0,
    which a failed one stands for, is not in use.

    * `Allocated.findPte` — `find_pte` finds a table or makes one, or it has
      asked in vain and changed no memory;
    * `Allocated.mapLoop`, `Allocated.createPageTable` — mappings and new
      directories keep the invariant;
    * `allocated_of_run` — it holds in every undisturbed run. -/

namespace LittleOS.AllocatedTables

open Runs TwoLevel Memory PageTable AddressSpaces KernelBoot SharedTable

/-- The frames in use, apart from `K`, are allocated. -/
structure Allocated (K : Frame) (dirs : List Frame) (m : Mmu) : Prop where
  trees : SpaceTrees K dirs m.mem
  range : ManagedRange m.alloc
  shared : Present (m.mem K 0)
  kernel_lt : K.toNat < 256
  kernel_ne : K ≠ 0
  held : ∀ f, InUse entryFormat (K :: dirs) m.mem f → f = K ∨ HeldFrame m.alloc f

section Pages

variable {a : AddrAlloc}

/-- A frame of managed memory is not at address 0. -/
theorem HeldFrame.ne_zero {f : Frame} (h : HeldFrame a f) : f ≠ 0 := by
  rintro rfl
  obtain ⟨p, -, hp, -⟩ := h
  have hz : (0 : Frame).toNat = 0 := rfl
  omega

/-- What an allocation of one page gives: its address is not 0, it was free and
    is allocated. -/
structure GivesPage (a a' : AddrAlloc) (addr : Word) : Prop where
  ne_zero : addr ≠ 0
  aligned : addr.toNat % 4096 = 0
  above : 256 ≤ (frameOf addr).toNat
  free : ¬ HeldFrame a (frameOf addr)
  held : HeldFrame a' (frameOf addr)

/-- A page that was free and is marked now was given. -/
theorem givesPage (hr : ManagedRange a) {a' : AddrAlloc} (hs : SameRange a a') {i : Nat}
    (hi : i < a.bitmap.count) (hfree : ¬ Marked a i) (hm : Marked a' i) :
    GivesPage a a' (pageAddr a i) := by
  have haddr := pageAddr_toNat hr hi
  have hframe := frameOf_pageAddr hr hi
  refine ⟨?_, by omega, by omega, ?_, ⟨i, by rw [hs.1]; exact hi, hframe, hm⟩⟩
  · intro h0
    have hz : (0 : Word).toNat = 0 := rfl
    rw [h0] at haddr
    omega
  · intro hheld
    exact hheld.ne_pageAddr hr hi hfree rfl

/-- `kalloc_pages` gives a page unless it answers 0. -/
theorem kallocPages_gives (hr : ManagedRange a) (h : (kallocPages a 1).1 ≠ 0) :
    GivesPage a (kallocPages a 1).2 (kallocPages a 1).1 := by
  have hle := hr.count_le
  have hg := kallocPages_grows a (Nat.le_refl 1)
  obtain ⟨i, hi, haddr, hfree, hm⟩ := kallocPages_one (by omega) h
  rw [haddr]
  exact givesPage hr hg.range hi hfree hm

/-- So does `ualloc_pages`. -/
theorem uallocPages_gives (hr : ManagedRange a) (h : (uallocPages a 1).1 ≠ 0) :
    GivesPage a (uallocPages a 1).2 (uallocPages a 1).1 := by
  have hle := hr.count_le
  have hg := uallocPages_grows a (Nat.le_refl 1)
  obtain ⟨i, hi, -, haddr, hfree, hm⟩ := uallocPages_one (by omega) h
  rw [haddr]
  exact givesPage hr hg.range hi hfree hm

end Pages

namespace Allocated

variable {K : Frame} {dirs : List Frame} {m m' : Mmu}

/-- Frame 0 is not in use. -/
theorem ne_zero (h : Allocated K dirs m) {f : Frame}
    (hf : InUse entryFormat (K :: dirs) m.mem f) : f ≠ 0 := by
  rcases h.held f hf with rfl | hheld
  · exact h.kernel_ne
  · exact HeldFrame.ne_zero hheld

/-- A page that an allocation gives is not in use. -/
theorem unused (h : Allocated K dirs m) {a : AddrAlloc} {addr : Word}
    (hp : GivesPage m.alloc a addr) :
    ¬ InUse entryFormat (K :: dirs) m.mem (frameOf addr) := by
  intro hu
  rcases h.held _ hu with hK | hheld
  · have habove := hp.above
    have hlt := h.kernel_lt
    rw [hK] at habove
    omega
  · exact hp.free hheld

/-- A page that was given is none of the directories and tables. -/
theorem fresh (h : Allocated K dirs m) {a : AddrAlloc} {addr : Word}
    (hp : GivesPage m.alloc a addr) : Fresh K dirs m.mem addr :=
  ⟨hp.ne_zero, hp.aligned, h.unused hp⟩

/-- The frames in use are what they were and still allocated. -/
theorem of_frames (h : Allocated K dirs m)
    (heq : ∀ f, InUse entryFormat (K :: dirs) m.mem f → m'.mem f = m.mem f)
    (hr : SameRange m.alloc m'.alloc)
    (hheld : ∀ f, InUse entryFormat (K :: dirs) m.mem f → HeldFrame m.alloc f →
      HeldFrame m'.alloc f) : Allocated K dirs m' := by
  have hroot : ∀ d ∈ K :: dirs, m'.mem d = m.mem d := fun d hd => heq d (Or.inl hd)
  refine ⟨h.trees.congr heq, h.range.of_sameRange hr, ?_, h.kernel_lt, h.kernel_ne, ?_⟩
  · rw [hroot K (by simp)]
    exact h.shared
  · intro f hf
    have hold := InUse.of_rows hroot hf
    exact (h.held f hold).imp_right (hheld f hold)

/-- Allocations free nothing. -/
theorem congr (h : Allocated K dirs m)
    (heq : ∀ f, InUse entryFormat (K :: dirs) m.mem f → m'.mem f = m.mem f)
    (hg : Grows m.alloc m'.alloc) : Allocated K dirs m' :=
  h.of_frames heq hg.range (fun _ _ hheld => hheld.grows hg)

/-- Directories and tables stay allocated while no page is freed. -/
theorem grows (h : Allocated K dirs m) {a : AddrAlloc} (hg : Grows m.alloc a) :
    Allocated K dirs ⟨m.mem, a⟩ :=
  h.congr (fun _ _ => rfl) hg

/-- Entry 0 of every directory is the kernel's. -/
theorem present_zero (h : Allocated K dirs m) {d : Frame} (hd : d ∈ K :: dirs) :
    Present (m.mem d 0) := by
  rcases List.mem_cons.mp hd with rfl | hd
  · exact h.shared
  · rw [h.trees.shared d hd]
    exact h.shared

end Allocated

/-! ## `find_pte` -/

/-- There is an entry for the address, in a table that was there or is new. -/
structure Finds (K : Frame) (dirs : List Frame) (dir : Frame) (vaddr : Word)
    (m m₁ : Mmu) : Prop where
  found : findPte dir vaddr m
    = (some (frameOf (m₁.mem dir (vaddrDir vaddr)), vaddrTable vaddr), m₁)
  allocated : Allocated K dirs m₁
  present : Present (m₁.mem dir (vaddrDir vaddr))
  same : Present (m.mem dir (vaddrDir vaddr)) → m₁ = m
  walks : ∀ d ∈ K :: dirs, ∀ v, walkAt m₁.mem d v = walkAt m.mem d v
  roots : ∀ d ∈ K :: dirs, ∀ i, Present (m.mem d i) → m₁.mem d i = m.mem d i
  inUse : ∀ f, InUse entryFormat (K :: dirs) m₁.mem f →
    InUse entryFormat (K :: dirs) m.mem f ∨ ¬ HeldFrame m.alloc f

/-- No table was there and no page for one. -/
structure Misses (dir : Frame) (vaddr : Word) (m : Mmu) : Prop where
  missing : ¬ Present (m.mem dir (vaddrDir vaddr))
  failed : (kallocPages m.alloc 1).1 = 0
  answer : findPte dir vaddr m = (none, { m with alloc := (kallocPages m.alloc 1).2 })

section Find

variable {K dir : Frame} {dirs : List Frame} {m : Mmu}

/-- Without a page for a missing table nothing is found. -/
theorem misses_of_failed {vaddr : Word} (hp : ¬ Present (m.mem dir (vaddrDir vaddr)))
    (hz : (kallocPages m.alloc 1).1 = 0) : Misses dir vaddr m := by
  refine ⟨hp, hz, ?_⟩
  unfold PageTable.findPte
  dsimp only
  rw [if_neg hp, if_pos hz]

/-- **`find_pte`** finds an entry or misses one. -/
theorem Allocated.findPte (h : Allocated K dirs m) (hd : dir ∈ K :: dirs) (vaddr : Word) :
    Misses dir vaddr m ∨ ∃ m₁, Finds K dirs dir vaddr m m₁ := by
  by_cases hp : Present (m.mem dir (vaddrDir vaddr))
  · refine Or.inr ⟨m, ?_, h, hp, fun _ => rfl, fun _ _ _ => rfl, fun _ _ _ _ => rfl,
      fun _ hf => Or.inl hf⟩
    unfold PageTable.findPte
    dsimp only
    rw [if_pos hp]
  by_cases hz : (kallocPages m.alloc 1).1 = 0
  · exact Or.inl (misses_of_failed hp hz)
  · have hpage := kallocPages_gives h.range hz
    have hgrows := kallocPages_grows m.alloc (Nat.le_refl 1)
    have hfresh := h.fresh hpage
    -- entry 0 is present, so the new table is not the shared one
    have hown : vaddrDir vaddr ≠ 0 ∨ dirs = [] := by
      refine Or.inl fun hc => ?_
      rw [hc] at hp
      exact hp (h.present_zero hd)
    obtain ⟨m₁, hfind, htrees, hpresent, hwalks, hroots, -⟩ :=
      findPte_spec h.trees hd hown (fun _ => hfresh)
    have hm₁ : m₁ = ⟨(m.mem.set dir (vaddrDir vaddr) (newPde (kallocPages m.alloc 1).1)).fill
        (frameOf (kallocPages m.alloc 1).1) 0, (kallocPages m.alloc 1).2⟩ := by
      have hsnd := congrArg Prod.snd hfind
      unfold PageTable.findPte at hsnd
      dsimp only at hsnd
      rw [if_neg hp, if_neg hz] at hsnd
      exact hsnd.symm
    have halloc : m₁.alloc = (kallocPages m.alloc 1).2 := by rw [hm₁]
    have hnew : entryFormat.target (newPde (kallocPages m.alloc 1).1)
        = frameOf (kallocPages m.alloc 1).1 := frameOf_newPde _
    have huse : ∀ f, InUse entryFormat (K :: dirs) m₁.mem f →
        InUse entryFormat (K :: dirs) m.mem f ∨ f = frameOf (kallocPages m.alloc 1).1 := by
      intro f hf
      rw [hm₁] at hf
      dsimp only at hf
      rw [← hnew] at hf ⊢
      refine Trees.inUse_addTable (fun d hd' hc => hfresh.unused (Or.inl ?_)) hf
      rw [← hnew, ← hc]
      exact hd'
    refine Or.inr ⟨m₁, hfind, ⟨htrees, ?_, ?_, h.kernel_lt, h.kernel_ne, ?_⟩, hpresent,
      fun hc => absurd hc hp, hwalks, hroots, ?_⟩
    · rw [halloc]
      exact h.range.of_sameRange hgrows.range
    · rw [hroots K (by simp) 0 h.shared]
      exact h.shared
    · intro f hf
      rw [halloc]
      rcases huse f hf with hold | rfl
      · exact (h.held f hold).imp_right (fun hheld => hheld.grows hgrows)
      · exact Or.inr hpage.held
    · intro f hf
      rcases huse f hf with hold | rfl
      · exact Or.inl hold
      · exact Or.inr hpage.free

/-- One turn of `vaddr2paddr` with its entry found. -/
structure Writes (K : Frame) (dirs : List Frame) (dir : Frame) (vaddr v : Word)
    (m m₂ : Mmu) : Prop where
  allocated : Allocated K dirs m₂
  present : Present (m₂.mem dir (vaddrDir vaddr))
  walks : ∀ w, walkAt m₂.mem dir w
    = if pageOf w = pageOf vaddr then some v else walkAt m.mem dir w
  roots : ∀ i, Present (m.mem dir i) → m₂.mem dir i = m.mem dir i
  inUse : ∀ f, InUse entryFormat (K :: dirs) m₂.mem f →
    InUse entryFormat (K :: dirs) m.mem f ∨ ¬ HeldFrame m.alloc f

/-- **ONE TURN** maps its page, in the shared table as in any other. -/
theorem Finds.write {vaddr v : Word} {m₁ : Mmu} (h : Finds K dirs dir vaddr m m₁)
    (hd : dir ∈ K :: dirs) (hv : Present v) :
    Writes K dirs dir vaddr v m (writeEntry dir vaddr v m₁) := by
  have htrees := h.allocated.trees
  have hrow : ∀ d ∈ K :: dirs, (writeEntry dir vaddr v m₁).mem d = m₁.mem d :=
    fun d hd' => funext fun i => set_of_ne (htrees.root_ne_table hd hd' h.present)
  have huse : ∀ f, InUse entryFormat (K :: dirs) (writeEntry dir vaddr v m₁).mem f →
      InUse entryFormat (K :: dirs) m₁.mem f := by
    intro f hf
    exact InUse.of_rows hrow hf
  refine ⟨⟨htrees.setLeaf hd h.present _ _, h.allocated.range, ?_, h.allocated.kernel_lt,
    h.allocated.kernel_ne, fun f hf => h.allocated.held f (huse f hf)⟩, ?_, ?_, ?_,
    fun f hf => h.inUse f (huse f hf)⟩
  · rw [hrow K (by simp)]
    exact h.allocated.shared
  · rw [hrow dir hd]
    exact h.present
  · intro w
    rw [← h.walks dir hd w]
    refine (htrees.walk_setLeaf_self hd h.present hv _ _ _).trans ?_
    exact if_congr (samePage_iff w vaddr) rfl rfl
  · intro i hp
    rw [hrow dir hd]
    exact h.roots dir hd i hp

/-- **`vaddr2paddr`** keeps the invariant, wherever it stops.  Induction over the
    pages still to map. -/
theorem Allocated.mapLoop (hd : dir ∈ K :: dirs) (perm : Word) :
    ∀ (n : Nat) (vaddr paddr : Word) (m : Mmu), Allocated K dirs m →
      Allocated K dirs (PageTable.mapLoop dir perm n vaddr paddr m) := by
  intro n
  induction n with
  | zero => intro vaddr paddr m h; exact h
  | succ n ih =>
      intro vaddr paddr m h
      rcases h.findPte hd vaddr with hmiss | ⟨m₁, hfind⟩
      · rw [PageTable.mapLoop, hmiss.answer]
        exact h.congr (fun _ _ => rfl) (kallocPages_grows m.alloc (Nat.le_refl 1))
      · rw [PageTable.mapLoop, hfind.found]
        exact ih _ _ _ (hfind.write hd (v := newPte paddr perm) (present_or_one _)).allocated

/-- **A NEW DIRECTORY** in a page that was given. -/
theorem Allocated.createPageTable (h : Allocated K dirs m)
    (hz : (uallocPages m.alloc 1).1 ≠ 0) :
    Allocated K (frameOf (PageTable.createPageTable K m).1 :: dirs)
      (PageTable.createPageTable K m).2 := by
  have hpage := uallocPages_gives h.range hz
  have hg := uallocPages_grows m.alloc (Nat.le_refl 1)
  have hunused := h.unused hpage
  rw [createPageTable_fst]
  have hmem := createPageTable_mem K m rfl
  have halloc := createPageTable_alloc K m
  generalize PageTable.createPageTable K m = r at hmem halloc ⊢
  generalize uallocPages m.alloc 1 = u at hpage hg hunused hmem halloc ⊢
  have hK : K ≠ frameOf u.1 := fun hc => hunused (hc ▸ Or.inl (by simp))
  rw [fill_of_ne hK] at hmem
  have hold : ∀ d ∈ K :: dirs, r.2.mem d = m.mem d := by
    intro d hd
    rw [hmem]
    exact Trees.addRoot_frame hunused (Or.inl hd)
  refine ⟨?_, ?_, ?_, h.kernel_lt, h.kernel_ne, ?_⟩
  · rw [hmem]
    exact h.trees.addRoot not_present_zero hunused
  · rw [halloc]
    exact h.range.of_sameRange hg.range
  · rw [hold K (by simp)]
    exact h.shared
  · intro f hf
    rw [halloc]
    rw [hmem] at hf
    rcases Trees.inUse_addRoot not_present_zero hunused hf with rfl | hin
    · exact Or.inr hpage.held
    · exact (h.held f hin).imp_right (fun hheld => hheld.grows hg)

end Find

/-! ## Every run -/

section Run

variable {l : Layout} {mem : Frames} {bits : Nat → BitVec 8} {total : Word}

/-- After boot the kernel's directory and its tables are allocated. -/
theorem booted_allocated (ht : 0x105000 ≤ total.toNat) :
    Allocated l.kernelTable [] (booted l (memoryReady mem bits total)).mmu := by
  have h : KernelHeld l.kernelTable (booted l (memoryReady mem bits total)) :=
    booted_kernelHeld ht
  obtain ⟨k, hk, hseq⟩ := boot_sequential l mem bits ht
  have henough := hseq.enough
  have hne : l.kernelTable ≠ 0 := by
    intro hc
    have h1 := l.etext_ge
    have h2 := l.sdata_ge
    have h3 := l.table_ge
    have hz : (0 : Frame).toNat = 0 := rfl
    rw [hc] at h3
    omega
  refine ⟨h.inv.trees, h.range, h.present, l.table_lt, hne, ?_⟩
  rintro f (hf | ⟨d, hd, i, hp, ht'⟩)
  · exact Or.inl (List.mem_singleton.mp hf)
  · -- the tables are the first pages
    rw [List.mem_singleton.mp hd] at hp ht'
    have hi := (hseq.present i).mp hp
    have hframe := hseq.frames i hp
    have htable : frameOf ((createKernelTable l (memoryReady mem bits total)).mem
        l.kernelTable i) = f := ht'
    rw [htable] at hframe
    exact Or.inr ⟨i.toNat, Nat.lt_of_lt_of_le (show i.toNat < 5 by omega) henough, hframe,
      (hseq.marked _ (by omega)).mpr hi⟩

/-- Every operation keeps directories and tables allocated; one case for each. -/
theorem step_allocated {K : Frame} {o : Op} {s s' : Spaces} (h : Allocated K s.dirs s.mmu)
    (hok : Undisturbed K o s) (hs : step K o s = some s') :
    Allocated K s'.dirs s'.mmu := by
  cases o with
  | createPageTable =>
      have hfresh : Fresh K s.dirs s.mmu.mem (uallocPages s.mmu.alloc 1).1 := hok.1
      have hcreate := h.createPageTable hfresh.ne_zero
      simp only [step] at hs
      generalize PageTable.createPageTable K s.mmu = r at hs hcreate
      obtain rfl := Option.some.inj hs
      exact hcreate
  | ualloc =>
      have hg := uallocPages_grows s.mmu.alloc (Nat.le_refl 1)
      simp only [step] at hs
      generalize uallocPages s.mmu.alloc 1 = r at hs hg
      obtain rfl := Option.some.inj hs
      exact h.congr (fun _ _ => rfl) hg
  | map dir vaddr paddr count perm =>
      obtain ⟨hd, rfl⟩ := step_map.mp hs
      exact h.mapLoop (List.mem_cons_of_mem K hd) perm count vaddr paddr s.mmu
  | other mmu =>
      simp only [step] at hs
      obtain rfl := Option.some.inj hs
      obtain ⟨hsame, hrange, hheld⟩ := hok
      exact h.of_frames hsame hrange hheld

/-- **EVERY RUN** from the boot on keeps the tables allocated. -/
theorem allocated_of_run (ht : 0x105000 ≤ total.toNat) {os : List Op} {s : Spaces}
    (h : Run (step l.kernelTable) (Undisturbed l.kernelTable)
      (booted l (memoryReady mem bits total)) os s) : Allocated l.kernelTable s.dirs s.mmu :=
  h.invariant (P := fun s => Allocated l.kernelTable s.dirs s.mmu) (booted_allocated ht)
    (fun _ _ _ hk hok hs => step_allocated hk hok hs)

end Run

end LittleOS.AllocatedTables
