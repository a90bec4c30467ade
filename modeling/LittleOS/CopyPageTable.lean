import LittleOS.Isolation

/-! # `copy_pagetable`

    `copy_pagetable` copies from entry `VADDR_DIR(MEM_KERNELFREE_END)` on, and
    that is entry 0: the pages of the kernel behind it are copied as well, and
    as the new directory has the kernel's own table there, `vaddr2paddr` writes
    the copies into that table.

    * `CopyCorrect` — what a copy has to be;
    * `copyPagetable_moves_one` — after any copy the second page of the kernel
      is another frame;
    * `copy_never_correct` — so no copy is correct. -/

namespace LittleOS.CopyPageTable

open Runs TwoLevel Intervals Memory PageTable AddressSpaces KernelBoot SharedTable
  FreePages Isolation

/-! ## The addresses of the loops -/

/-- The address of two indices. -/
theorem vaddr_toNat {i j : Nat} (hi : i < 1024) (hj : j < 1024) :
    ((BitVec.ofNat 32 i <<< 22) ||| (BitVec.ofNat 32 j <<< 12)).toNat
      = i * 2 ^ 22 + j * 2 ^ 12 := by
  have hor := Nat.shiftLeft_add_eq_or_of_lt (show j * 2 ^ 12 < 2 ^ 22 by omega) i
  rw [BitVec.toNat_or, BitVec.toNat_shiftLeft, BitVec.toNat_shiftLeft,
    BitVec.toNat_ofNat, BitVec.toNat_ofNat, Nat.mod_eq_of_lt (a := i) (by omega),
    Nat.mod_eq_of_lt (a := j) (by omega), Nat.shiftLeft_eq, Nat.shiftLeft_eq,
    Nat.mod_eq_of_lt (a := i * 2 ^ 22) (by omega),
    Nat.mod_eq_of_lt (a := j * 2 ^ 12) (by omega)]
  rw [Nat.shiftLeft_eq] at hor
  exact hor.symm

/-- Only one turn has the address of the second page. -/
theorem vaddr_slots {i j : Nat} (hi : i < 1024) (hj : j < 1024) :
    (vaddrDir ((BitVec.ofNat 32 i <<< 22) ||| (BitVec.ofNat 32 j <<< 12)) = 0 ∧
      (1 : Slot) = vaddrTable
        ((BitVec.ofNat 32 i <<< 22) ||| (BitVec.ofNat 32 j <<< 12))) ↔
    i = 0 ∧ j = 1 := by
  have hv := vaddr_toNat hi hj
  rw [← BitVec.toNat_inj, ← BitVec.toNat_inj, vaddrDir_toNat, vaddrTable_toNat, hv]
  have h0 : (0 : Slot).toNat = 0 := rfl
  have h1 : (1 : Slot).toNat = 1 := rfl
  simp only [Nat.reducePow, h0, h1]
  omega

/-- No allocation gives the second page of memory. -/
theorem ualloc_ne_one {m : AddrAlloc} (hr : ManagedRange m) :
    frameOf (uallocPages m 1).1 ≠ 1 := by
  have hle := hr.count_le
  have hone := uallocPages_one (m := m) (by omega)
  generalize uallocPages m 1 = r at hone ⊢
  by_cases h0 : r.1 = 0
  · rw [h0]
    decide
  · obtain ⟨i, hi, -, haddr, -⟩ := hone h0
    have hframe := frameOf_pageAddr hr hi
    rw [haddr]
    intro hc
    rw [hc] at hframe
    have h1 : (1 : Frame).toNat = 1 := rfl
    omega

/-! ## The shared table during the copy -/

/-- The frame is neither the kernel's directory, nor the table behind `e`, nor
    the new directory. -/
structure Apart (K D : Frame) (e : Word) (f : Frame) : Prop where
  kernel : f ≠ K
  table : f ≠ frameOf e
  dir : f ≠ D

/-- Kernel and new directory have the entry `e` at 0, the table behind it and
    the new directory are allocated, and the other tables of the new directory
    are apart. -/
structure Sharing (K D : Frame) (e : Word) (m : Mmu) : Prop where
  range : ManagedRange m.alloc
  kernel_lt : K.toNat < 256
  kernel_ne : K ≠ 0
  present : Present e
  table : HeldFrame m.alloc (frameOf e)
  dir : HeldFrame m.alloc D
  ne : frameOf e ≠ D
  kernel_entry : m.mem K 0 = e
  dir_entry : m.mem D 0 = e
  others : ∀ i ≠ 0, Present (m.mem D i) → Apart K D e (frameOf (m.mem D i))

namespace Sharing

variable {K D : Frame} {e : Word} {m : Mmu}

/-- A free page is apart. -/
theorem apart_page (h : Sharing K D e m) {i : Nat} (hi : i < m.alloc.bitmap.count)
    (hfree : ¬ Marked m.alloc i) : Apart K D e (frameOf (pageAddr m.alloc i)) where
  kernel := by
    intro hc
    have hf := frameOf_pageAddr h.range hi
    have hlt := h.kernel_lt
    rw [hc] at hf
    omega
  table := h.table.ne_pageAddr h.range hi hfree
  dir := h.dir.ne_pageAddr h.range hi hfree

/-- So is frame 0, which a failed allocation stands for. -/
theorem apart_zero (h : Sharing K D e m) : Apart K D e (frameOf 0) := by
  have hz : (frameOf 0).toNat = 0 := by decide
  refine ⟨?_, ?_, ?_⟩
  · intro hc
    refine h.kernel_ne (BitVec.eq_of_toNat_eq ?_)
    rw [← hc, hz]
    rfl
  · intro hc
    obtain ⟨p, -, hp, -⟩ := h.table
    rw [← hc] at hp
    omega
  · intro hc
    obtain ⟨p, -, hp, -⟩ := h.dir
    rw [← hc] at hp
    omega

/-- The kernel's table is not the new directory. -/
theorem kernel_ne_dir (h : Sharing K D e m) : K ≠ D := by
  rintro rfl
  obtain ⟨p, -, hp, -⟩ := h.dir
  have hlt := h.kernel_lt
  omega

/-- Nor is it the table that is shared. -/
theorem kernel_ne_table (h : Sharing K D e m) : K ≠ frameOf e := by
  intro hc
  obtain ⟨p, -, hp, -⟩ := h.table
  have hlt := h.kernel_lt
  rw [← hc] at hp
  omega

/-- Slot 1 of the shared table is what the second page of the kernel leads to. -/
theorem walk_one (h : Sharing K D e m) :
    walkAt m.mem K 0x1000 = if Present (m.mem (frameOf e) 1)
      then some (m.mem (frameOf e) 1) else none := by
  have hd : vaddrDir 0x1000 = 0 := by decide
  have ht : vaddrTable 0x1000 = 1 := by decide
  unfold walkAt
  rw [hd, ht, walk_present entryFormat (by rw [h.kernel_entry]; exact h.present),
    h.kernel_entry]
  rfl

/-- Entries and allocator decide. -/
theorem congr (h : Sharing K D e m) {m' : Mmu} (hg : Grows m.alloc m'.alloc)
    (hK : m'.mem K = m.mem K)
    (hD : ∀ i, m'.mem D i = m.mem D i ∨
      (i ≠ 0 ∧ Apart K D e (frameOf (m'.mem D i)))) : Sharing K D e m' where
  range := h.range.of_sameRange hg.range
  kernel_lt := h.kernel_lt
  kernel_ne := h.kernel_ne
  present := h.present
  table := h.table.grows hg
  dir := h.dir.grows hg
  ne := h.ne
  kernel_entry := by rw [hK]; exact h.kernel_entry
  dir_entry := by
    rcases hD 0 with he | ⟨hc, -⟩
    · rw [he]; exact h.dir_entry
    · exact absurd rfl hc
  others := by
    intro i hi hp
    rcases hD i with he | ⟨-, hapart⟩
    · rw [he] at hp ⊢; exact h.others i hi hp
    · exact hapart

/-- The page a `ualloc_pages(1)` gives, or the 0 of its failure, is apart. -/
theorem ualloc (h : Sharing K D e m) :
    Apart K D e (frameOf (uallocPages m.alloc 1).1) ∧
    Sharing K D e { m with alloc := (uallocPages m.alloc 1).2 } := by
  have hg := uallocPages_grows m.alloc (Nat.le_refl 1)
  have hle := h.range.count_le
  have hone := uallocPages_one (m := m.alloc) (by omega)
  generalize uallocPages m.alloc 1 = r at hg hone ⊢
  refine ⟨?_, h.congr hg rfl (fun i => Or.inl rfl)⟩
  by_cases h0 : r.1 = 0
  · rw [h0]
    exact h.apart_zero
  · obtain ⟨i, hi, -, haddr, hfree, -⟩ := hone h0
    rw [haddr]
    exact h.apart_page hi hfree

/-- **`find_pte`** in the new directory: for the first 4 MB the shared table,
    elsewhere a table that is apart. -/
theorem findPte (h : Sharing K D e m) (v : Word) :
    ∃ m', m'.mem (frameOf e) = m.mem (frameOf e) ∧ Sharing K D e m' ∧
      ((vaddrDir v ≠ 0 ∧ PageTable.findPte D v m = (none, m')) ∨
       (vaddrDir v = 0 ∧
        PageTable.findPte D v m = (some (frameOf e, vaddrTable v), m')) ∨
       (vaddrDir v ≠ 0 ∧ ∃ t, Apart K D e t ∧
        PageTable.findPte D v m = (some (t, vaddrTable v), m'))) := by
  -- entry 0 is present from the start; the others come from fresh pages
  by_cases hp : Present (m.mem D (vaddrDir v))
  · have hfind : PageTable.findPte D v m
        = (some (frameOf (m.mem D (vaddrDir v)), vaddrTable v), m) := by
      unfold PageTable.findPte
      dsimp only
      rw [if_pos hp]
    refine ⟨m, rfl, h, Or.inr ?_⟩
    by_cases h0 : vaddrDir v = 0
    · rw [h0, h.dir_entry] at hfind
      exact Or.inl ⟨h0, hfind⟩
    · exact Or.inr ⟨h0, _, h.others _ h0 hp, hfind⟩
  · have h0 : vaddrDir v ≠ 0 := by
      intro hc
      rw [hc, h.dir_entry] at hp
      exact hp h.present
    have hg := kallocPages_grows m.alloc (Nat.le_refl 1)
    have hle := h.range.count_le
    by_cases hz : (kallocPages m.alloc 1).1 = 0
    · refine ⟨⟨m.mem, (kallocPages m.alloc 1).2⟩, rfl,
        h.congr hg rfl (fun i => Or.inl rfl), Or.inl ⟨h0, ?_⟩⟩
      unfold PageTable.findPte
      dsimp only
      rw [if_neg hp, if_pos hz]
    · obtain ⟨i, hi, haddr, hfree, -⟩ := kallocPages_one (by omega) hz
      have hapart := h.apart_page hi hfree
      rw [← haddr] at hapart
      obtain ⟨r, hr⟩ : ∃ r, kallocPages m.alloc 1 = r := ⟨_, rfl⟩
      rw [hr] at hg hz hapart
      refine ⟨⟨(m.mem.set D (vaddrDir v) (newPde r.1)).fill (frameOf r.1) 0, r.2⟩,
        ?_, h.congr hg ?_ ?_,
        Or.inr (Or.inr ⟨h0, frameOf r.1, hapart, ?_⟩)⟩
      · funext j
        dsimp only
        rw [fill_of_ne hapart.table.symm, set_of_ne h.ne]
      · funext j
        dsimp only
        rw [fill_of_ne hapart.kernel.symm, set_of_ne h.kernel_ne_dir]
      · intro j
        dsimp only
        rw [fill_of_ne hapart.dir.symm]
        by_cases hj : j = vaddrDir v
        · rw [hj, set_self]
          exact Or.inr ⟨h0, by rw [frameOf_newPde]; exact hapart⟩
        · exact Or.inl (set_of_slot_ne hj)
      · unfold PageTable.findPte
        dsimp only
        rw [if_neg hp, hr, if_neg hz]
        rfl

/-- **ONE PAGE** mapped in the new directory: below 4 MB it is written into the
    shared table. -/
theorem vaddr2paddr (h : Sharing K D e m) (v p perm : Word) :
    Sharing K D e (PageTable.vaddr2paddr D v p 1 perm m) ∧
    ∀ j, (PageTable.vaddr2paddr D v p 1 perm m).mem (frameOf e) j
      = if vaddrDir v = 0 ∧ j = vaddrTable v then newPte p perm
        else m.mem (frameOf e) j := by
  obtain ⟨m', hrow, h', hcase⟩ := h.findPte v
  -- no table; the shared one; one of the new directory
  rcases hcase with ⟨h0, hf⟩ | ⟨h0, hf⟩ | ⟨h0, t, ht, hf⟩
  · have hm : PageTable.vaddr2paddr D v p 1 perm m = m' := by
      simp only [PageTable.vaddr2paddr, mapLoop, hf]
    rw [hm]
    refine ⟨h', fun j => ?_⟩
    rw [hrow, if_neg (fun hc => h0 hc.1)]
  · have hm : PageTable.vaddr2paddr D v p 1 perm m
        = ⟨m'.mem.set (frameOf e) (vaddrTable v) (newPte p perm), m'.alloc⟩ := by
      simp only [PageTable.vaddr2paddr, mapLoop, hf]
      rfl
    rw [hm]
    refine ⟨h'.congr (Grows.refl _) ?_ ?_, ?_⟩
    · funext j
      exact set_of_ne h.kernel_ne_table
    · intro i
      exact Or.inl (set_of_ne h.ne.symm)
    · intro j
      dsimp only
      by_cases hj : j = vaddrTable v
      · rw [hj, set_self, if_pos ⟨h0, rfl⟩]
      · rw [set_of_slot_ne hj, if_neg (fun hc => hj hc.2), hrow]
  · have hm : PageTable.vaddr2paddr D v p 1 perm m
        = ⟨m'.mem.set t (vaddrTable v) (newPte p perm), m'.alloc⟩ := by
      simp only [PageTable.vaddr2paddr, mapLoop, hf]
      rfl
    rw [hm]
    refine ⟨h'.congr (Grows.refl _) ?_ ?_, ?_⟩
    · funext j
      exact set_of_ne ht.kernel.symm
    · intro i
      exact Or.inl (set_of_ne ht.dir.symm)
    · intro j
      dsimp only
      rw [set_of_ne ht.table.symm, hrow, if_neg (fun hc => h0 hc.1)]

/-- The contents go to a page that is apart. -/
theorem copyPage (h : Sharing K D e m) {page : Frame} (hp : Apart K D e page)
    (cr3 : Frame) (v : Word) :
    Sharing K D e { m with mem := PageTable.copyPage cr3 page v m.mem } ∧
    PageTable.copyPage cr3 page v m.mem (frameOf e) = m.mem (frameOf e) := by
  have hrow : ∀ f ≠ page, PageTable.copyPage cr3 page v m.mem f = m.mem f := by
    intro f hf
    unfold PageTable.copyPage
    cases walk entryFormat m.mem cr3 (vaddrDir v) (vaddrTable v) with
    | some pte => exact funext fun i => if_neg hf
    | none => rfl
  refine ⟨h.congr (Grows.refl _) (hrow K hp.kernel.symm) ?_,
    hrow _ hp.table.symm⟩
  intro i
  dsimp only
  rw [hrow D hp.dir.symm]
  exact Or.inl rfl

/-- **ONE TURN** of the inner loop writes slot 1 of the shared table if it is
    the one of the second page and copies anything. -/
theorem copyEntry (h : Sharing K D e m) (cr3 table : Frame) {i j : Nat}
    (hi : i < 1024) (hj : j < 1024) :
    Sharing K D e (PageTable.copyEntry cr3 D table i m j) ∧
    (PageTable.copyEntry cr3 D table i m j).mem (frameOf e) 1
      = if Present (m.mem table (BitVec.ofNat 10 j)) ∧ i = 0 ∧ j = 1
        then newPte (uallocPages m.alloc 1).1
          (m.mem table (BitVec.ofNat 10 j) &&& 0x1FF)
        else m.mem (frameOf e) 1 := by
  obtain ⟨hpage, hu⟩ := h.ualloc
  unfold PageTable.copyEntry
  dsimp only
  generalize uallocPages m.alloc 1 = r at hpage hu ⊢
  by_cases hp : Present (m.mem table (BitVec.ofNat 10 j))
  · obtain ⟨hmap, hrow⟩ := hu.vaddr2paddr
      ((BitVec.ofNat 32 i <<< 22) ||| (BitVec.ofNat 32 j <<< 12)) r.1
      (m.mem table (BitVec.ofNat 10 j) &&& 0x1FF)
    obtain ⟨hcopy, hkeep⟩ := hmap.copyPage hpage cr3
      ((BitVec.ofNat 32 i <<< 22) ||| (BitVec.ofNat 32 j <<< 12))
    rw [if_pos hp]
    refine ⟨hcopy, ?_⟩
    dsimp only
    rw [hkeep, hrow]
    exact if_congr ((vaddr_slots hi hj).trans (and_iff_right hp).symm) rfl rfl
  · rw [if_neg hp, if_neg (fun hc => hp hc.1)]
    exact ⟨h, rfl⟩

/-- The other turns keep the slot. -/
theorem copyEntries (h : Sharing K D e m) (cr3 table : Frame) (js : List Nat)
    {i : Nat} (hi : i < 1024) (hjs : ∀ j ∈ js, j < 1024 ∧ ¬ (i = 0 ∧ j = 1)) :
    Sharing K D e (js.foldl (PageTable.copyEntry cr3 D table i) m) ∧
    (js.foldl (PageTable.copyEntry cr3 D table i) m).mem (frameOf e) 1
      = m.mem (frameOf e) 1 := by
  refine List.foldlRecOn (motive := fun m' => Sharing K D e m' ∧
    m'.mem (frameOf e) 1 = m.mem (frameOf e) 1) js _ ⟨h, rfl⟩ ?_
  rintro m' ⟨h', hslot⟩ j hj
  obtain ⟨hturn, hkeep⟩ := h'.copyEntry cr3 table hi (hjs j hj).1
  rw [if_neg (fun hc => (hjs j hj).2 hc.2)] at hkeep
  exact ⟨hturn, hkeep.trans hslot⟩

/-- So do the other directory entries. -/
theorem copyTables (h : Sharing K D e m) (cr3 dir : Frame) (is : List Nat)
    (his : ∀ i ∈ is, i < 1024 ∧ i ≠ 0) :
    Sharing K D e (is.foldl (PageTable.copyTable cr3 D dir) m) ∧
    (is.foldl (PageTable.copyTable cr3 D dir) m).mem (frameOf e) 1
      = m.mem (frameOf e) 1 := by
  refine List.foldlRecOn (motive := fun m' => Sharing K D e m' ∧
    m'.mem (frameOf e) 1 = m.mem (frameOf e) 1) is _ ⟨h, rfl⟩ ?_
  rintro m' ⟨h', hslot⟩ i hi
  unfold PageTable.copyTable
  dsimp only
  split
  · obtain ⟨hturns, hkeep⟩ := h'.copyEntries cr3
      (frameOf (m'.mem dir (BitVec.ofNat 10 i))) (List.range 1024) (his i hi).1
      (fun j hj => ⟨List.mem_range.mp hj, fun hc => (his i hi).2 hc.1⟩)
    exact ⟨hturns, hkeep.trans hslot⟩
  · exact ⟨h', hslot⟩

/-- **BOTH LOOPS**: one turn puts another page, or 0, into slot 1, and the
    others leave it there. -/
theorem copyLoops (h : Sharing K D e m) (cr3 : Frame) {dir : Frame}
    (hdir : m.mem dir 0 = e) (hp : Present (m.mem (frameOf e) 1)) :
    ∃ p perm : Word, frameOf p ≠ 1 ∧ perm.toNat < 4096 ∧
      walkAt ((List.range' userPdeStart (1024 - userPdeStart)).foldl
        (PageTable.copyTable cr3 D dir) m).mem K 0x1000 = some (newPte p perm) := by
  obtain ⟨h₀, hkeep₀⟩ := h.copyEntry cr3 (frameOf e) (i := 0) (j := 0) (by omega)
    (by omega)
  rw [if_neg (by omega)] at hkeep₀
  obtain ⟨h₁, hturn⟩ := h₀.copyEntry cr3 (frameOf e) (i := 0) (j := 1) (by omega)
    (by omega)
  rw [show BitVec.ofNat 10 1 = 1 from rfl, hkeep₀, if_pos ⟨hp, rfl, rfl⟩] at hturn
  obtain ⟨h₂, hkeep₂⟩ := h₁.copyEntries cr3 (frameOf e)
    (List.range' 2 1022) (i := 0) (by omega) (fun j hj => by
      rw [List.mem_range'_1] at hj
      omega)
  obtain ⟨h₃, hkeep₃⟩ := h₂.copyTables cr3 dir (List.range' 1 1023)
    (fun i hi => by
      rw [List.mem_range'_1] at hi
      omega)
  -- entry 0 is the shared table, which the turns 0 and 1 of the inner loop already
  -- rewrite: page 1 is then no longer mapped to itself
  have hentry : PageTable.copyTable cr3 D dir m 0
      = (List.range' 2 1022).foldl (PageTable.copyEntry cr3 D (frameOf e) 0)
        (PageTable.copyEntry cr3 D (frameOf e) 0
          (PageTable.copyEntry cr3 D (frameOf e) 0 m 0) 1) := by
    unfold PageTable.copyTable
    dsimp only
    rw [show BitVec.ofNat 10 0 = 0 from rfl, hdir, if_pos h.present,
      List.range_eq_range', show 1024 = 1022 + 1 + 1 from rfl, List.range'_succ,
      List.range'_succ, List.foldl_cons, List.foldl_cons]
  rw [userPdeStart_eq, show 1024 - 0 = 1023 + 1 from rfl, List.range'_succ,
    List.foldl_cons, hentry]
  have hslot := hkeep₃.trans (hkeep₂.trans hturn)
  refine ⟨_, m.mem (frameOf e) 1 &&& 0x1FF, ualloc_ne_one h₀.range, ?_, ?_⟩
  · rw [BitVec.toNat_and]
    exact Nat.lt_of_le_of_lt Nat.and_le_right (by decide)
  · rw [h₃.walk_one, hslot]
    exact if_pos (present_or_one _)

end Sharing

/-! ## A copy in any state -/

/-- There is a page for the new directory. -/
def UserPage (m : AddrAlloc) : Prop :=
  ∃ p < m.bitmap.count, userIndex ≤ p ∧ ¬ Marked m p

/-- The new directory shares the kernel's table and nothing else has changed. -/
theorem created_sharing {K : Frame} {s : Spaces} (h : KernelHeld K s)
    (hlt : K.toNat < 256) (hne : K ≠ 0) (hfree : UserPage s.mmu.alloc) :
    ∃ D, frameOf (createPageTable K s.mmu).1 = D ∧
      Sharing K D (s.mmu.mem K 0) (createPageTable K s.mmu).2 ∧
      (∀ f, HeldFrame s.mmu.alloc f →
        (createPageTable K s.mmu).2.mem f = s.mmu.mem f) := by
  obtain ⟨p, hp, hu, hnot⟩ := hfree
  obtain ⟨i, hfit, halloc⟩ := uallocPages_of_free hu hp hnot
  have hi := hfit.lt_bound
  have hle := h.range.count_le
  obtain ⟨D, hD⟩ : ∃ D, frameOf (pageAddr s.mmu.alloc i) = D := ⟨_, rfl⟩
  have hframe := frameOf_pageAddr h.range hi
  rw [hD] at hframe
  -- a held frame is marked, the new directory was not
  have hapart : ∀ f, HeldFrame s.mmu.alloc f → f ≠ D := by
    intro f hf hc
    refine hf.ne_pageAddr h.range hi (hfit.fits i ⟨Nat.le_refl _, ?_⟩ hi) ?_
    · exact Nat.lt_succ_self i
    · rw [hD, hc]
  have hdir : frameOf (uallocPages s.mmu.alloc 1).1 = D := by rw [halloc, hD]
  have hfst := createPageTable_fst K s.mmu
  have hmem := createPageTable_mem K s.mmu hdir
  have hafter := createPageTable_alloc K s.mmu
  have hg := uallocPages_grows s.mmu.alloc (Nat.le_refl 1)
  rw [halloc] at hfst hafter hg
  dsimp only at hfst hafter hg
  have hmark := (marked_marking hi (by omega) i).mpr (Or.inl rfl)
  generalize createPageTable K s.mmu = r at hfst hmem hafter ⊢
  rw [← hafter] at hg hmark
  have hK : K ≠ D := by
    rintro rfl
    omega
  have hrow : ∀ f ≠ D, r.2.mem f = s.mmu.mem f := by
    intro f hf
    funext j
    rw [hmem, set_of_ne hf, fill_of_ne hf]
  refine ⟨D, by rw [hfst, hD], ?_, fun f hf => hrow f (hapart f hf)⟩
  refine ⟨h.range.of_sameRange hg.range, hlt, hne, h.present, h.held.grows hg,
    ⟨i, by rw [hg.range.1]; exact hi, hframe, hmark⟩, hapart _ h.held,
    by rw [hrow K hK], ?_, ?_⟩
  · rw [hmem, set_self, fill_of_ne hK]
  · intro j hj hpres
    rw [hmem, set_of_slot_ne hj, fill_self] at hpres
    exact absurd hpres not_present_zero

/-- **A COPY** gives the second page of the kernel another frame. -/
theorem copyPagetable_moves_one {K : Frame} {s : Spaces} (h : KernelHeld K s)
    (hlt : K.toNat < 256) (hne : K ≠ 0) (hfree : UserPage s.mmu.alloc)
    {dir : Frame} (hd : dir ∈ s.dirs) (cr3 : Frame) :
    walkAt (copyPagetable K cr3 dir s.mmu).2.mem K 0x1000
      ≠ walkAt s.mmu.mem K 0x1000 := by
  obtain ⟨D, hD, hshare, hrow⟩ := created_sharing h hlt hne hfree
  have hdir : (createPageTable K s.mmu).2.mem dir 0 = s.mmu.mem K 0 := by
    rw [hrow dir (h.dirs dir hd)]
    exact h.inv.trees.shared dir hd
  have hpage : Present ((createPageTable K s.mmu).2.mem
      (frameOf (s.mmu.mem K 0)) 1) := by
    rw [hrow (frameOf (s.mmu.mem K 0)) h.held]
    exact h.slot_present
  obtain ⟨p, perm, hp, hperm, hwalk⟩ := hshare.copyLoops cr3 hdir hpage
  have hcopy : (copyPagetable K cr3 dir s.mmu).2
      = (List.range' userPdeStart (1024 - userPdeStart)).foldl
        (copyTable cr3 D dir) (createPageTable K s.mmu).2 := by
    unfold copyPagetable
    dsimp only
    rw [hD]
  rw [hcopy, hwalk, h.one]
  intro hc
  have hframe := congrArg frameOf (Option.some.inj hc)
  unfold newPte at hframe
  rw [frameOf_or (by decide), frameOf_or hperm, frameOf_or (by decide),
    frameOf_or (by decide)] at hframe
  exact hp (hframe.trans (by decide))

/-! ## What a copy has to be -/

/-- Each page of the process is copied to a fresh frame of its own, with the
    low 9 bits and the contents; nothing else is copied and nothing is changed
    for `dir` and the kernel. -/
structure CopyCorrect (K dir : Frame) (m : Mmu) (r : Word × Mmu) : Prop where
  copied : ∀ v pte, ProcessPage m.mem dir v pte →
    ∃ pte', walkAt r.2.mem (frameOf r.1) v = some pte' ∧
      pte'.setWidth 9 = pte.setWidth 9 ∧
      HeldFrame r.2.alloc (frameOf pte') ∧ ¬ HeldFrame m.alloc (frameOf pte') ∧
      r.2.mem (frameOf pte') = m.mem (frameOf pte)
  distinct : ∀ v w pte pte', ProcessPage r.2.mem (frameOf r.1) v pte →
    ProcessPage r.2.mem (frameOf r.1) w pte' → frameOf pte = frameOf pte' →
    pageOf v = pageOf w
  not_duplicated : ∀ v, vaddrDir v ≠ 0 → walkAt m.mem dir v = none →
    walkAt r.2.mem (frameOf r.1) v = none
  kernel_shared : ∀ v, vaddrDir v = 0 →
    walkAt r.2.mem (frameOf r.1) v = walkAt m.mem K v
  kept : ∀ d ∈ [K, dir], ∀ v, walkAt r.2.mem d v = walkAt m.mem d v
  contents : ∀ v pte, ProcessPage m.mem dir v pte →
    r.2.mem (frameOf pte) = m.mem (frameOf pte)

/-- Nor is it at address 0. -/
theorem kernelTable_ne_zero (l : Layout) : l.kernelTable ≠ 0 := by
  intro hc
  have h1 := l.etext_ge
  have h2 := l.sdata_ge
  have h3 := l.table_ge
  have hz : (0 : Frame).toNat = 0 := rfl
  rw [hc] at h3
  omega

/-- A copy with its page for the directory overwrites the shared table, so it is not correct. -/
theorem not_copyCorrect {l : Layout} {s : Spaces}
    (h : KernelHeld l.kernelTable s) (hfree : UserPage s.mmu.alloc) {dir : Frame}
    (hd : dir ∈ s.dirs) (cr3 : Frame) :
    ¬ CopyCorrect l.kernelTable dir s.mmu
      (copyPagetable l.kernelTable cr3 dir s.mmu) := by
  intro hcorrect
  exact copyPagetable_moves_one h l.table_lt (kernelTable_ne_zero l) hfree hd cr3
    (hcorrect.kept l.kernelTable (by simp) 0x1000)

/-- **NO COPY IS CORRECT**, of no directory in no run. -/
theorem copy_never_correct (l : Layout) (mem : Frames) (bits : Nat → BitVec 8)
    {total : Word} (ht : 0x105000 ≤ total.toNat) {os : List Op} {s : Spaces}
    (h : Run (step l.kernelTable) (Undisturbed l.kernelTable)
      (booted l (memoryReady mem bits total)) os s) {dir : Frame}
    (hd : dir ∈ s.dirs) (hfree : UserPage s.mmu.alloc) (cr3 : Frame) :
    ¬ CopyCorrect l.kernelTable dir s.mmu
      (copyPagetable l.kernelTable cr3 dir s.mmu) :=
  not_copyCorrect (kernelHeld_of_run ht h) hfree hd cr3

/-- A free page of the user's part can be had. -/
theorem userPage_of_free {a : AddrAlloc} (h : 0 < userFree a) : UserPage a := by
  obtain ⟨p, hp, -, hlt, hfree⟩ := freePages_pos.mp h
  exact ⟨p, hlt, hp, hfree⟩

/-- The first directory of a machine of 128 MB, with a page at 1 GB. -/
theorem copy_never_correct_mapped :
    ∃ (s : Spaces) (dir : Frame) (paddr : Word),
      Run (step smallKernel.kernelTable) (Undisturbed smallKernel.kernelTable)
        (booted smallKernel (memoryReady (fun _ _ => 0) (fun _ => 0) 0x8000000))
        [.createPageTable, .ualloc, .map dir 0x40000000 paddr 1 6] s ∧
      translate s.mmu.mem dir 0x40000000 = some (frameOf paddr, 7) ∧
      ¬ CopyCorrect smallKernel.kernelTable dir s.mmu
        (copyPagetable smallKernel.kernelTable dir dir s.mmu) := by
  obtain ⟨dir, paddr, s₁, s₂, s, hpage⟩ := page_of_boot smallKernel
    (fun _ _ => 0) (fun _ => 0) (show _ ≤ (0x8000000 : Word).toNat by decide)
  have hrun : Run (step smallKernel.kernelTable) (Undisturbed smallKernel.kernelTable) _
      [.createPageTable, .ualloc, .map dir 0x40000000 paddr 1 6] s :=
    ((Run.single hpage.makes.ok hpage.makes.step).snoc (undisturbed_ualloc _ s₁) hpage.ualloc).snoc
      ⟨hpage.ok, trivial⟩ hpage.map
  exact ⟨s, dir, paddr, hrun, hpage.mapped, copy_never_correct smallKernel _ _ (by decide) hrun
    (by rw [hpage.dirs]; simp) (userPage_of_free hpage.left) dir⟩

/-- That a copy moves the second page of the kernel refutes that every copy is
    correct. -/
theorem copy_moves_kernel_page :
    ¬ ∀ (l : Layout) (mem : Frames) (bits : Nat → BitVec 8) (total : Word)
        (os : List Op) (s : Spaces) (dir : Frame), 0x105000 ≤ total.toNat →
        Run (step l.kernelTable) (Undisturbed l.kernelTable)
          (booted l (memoryReady mem bits total)) os s →
        dir ∈ s.dirs → UserPage s.mmu.alloc →
        CopyCorrect l.kernelTable dir s.mmu
          (copyPagetable l.kernelTable dir dir s.mmu) := by
  intro hall
  obtain ⟨dir, s, hmakes, hs⟩ := (supplied_of_boot smallKernel (fun _ _ => 0) (fun _ => 0)
    (show _ ≤ (0x8000000 : Word).toNat by decide)).create
  have hrun := Run.single hmakes.ok hmakes.step
  have hd : dir ∈ s.dirs := by rw [hmakes.dirs]; simp
  have hfree := userPage_of_free (Nat.lt_of_lt_of_le (Nat.succ_pos 1) hs.user_le)
  exact not_copyCorrect (kernelHeld_of_run (by decide) hrun) hfree hd dir
    (hall smallKernel _ _ 0x8000000 _ s dir (by decide) hrun hd hfree)

end LittleOS.CopyPageTable
