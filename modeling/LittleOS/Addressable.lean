import LittleOS.Isolation
import LittleOS.Regions

/-! # Allocated frames and the identity map

    With paging on, the kernel clears and fills a fresh page through its
    physical address.  `create_kernel_table` maps the frames from 1 MB to 20 MB
    to themselves, and a directory of `create_page_table` has only entry 0 of
    it, 4 MB; the allocators hand out what memory there is.

    * `AllMapped` — every page handed out is mapped to itself, writable, in
      `kernel_table` and in every directory;
    * `WithinReach` — a request finds room below 20 MB, below 4 MB once there is
      a directory, or gets nothing;
    * `mapped_iff` — the one after every step of a run, exactly if the
      other at every step. -/

namespace LittleOS.Addressable

open Runs Intervals TwoLevel Memory PageTable MemoryBlocks Regions
open AddressSpaces KernelBoot
open Isolation (smallKernel)

/-- What the allocators and `create_page_table` have given out. -/
structure System where
  mmu : Mmu
  live : List AddrBlock
  dirs : List Frame

/-- The operations on pages and directories. -/
inductive Op where
  | kalloc (n : Nat)
  | ualloc (n : Nat)
  | kfree (b : AddrBlock)
  | createPageTable

/-- The system after a block was handed out, if it was. -/
def handOut (r : Word × AddrAlloc) (n : Nat) (s : System) : System where
  mmu := { s.mmu with alloc := r.2 }
  live := if r.1 = 0 then s.live else (r.1, n) :: s.live
  dirs := s.dirs

/-- The requests of `LittleOS.MemoryBlocks`, and `create_page_table`, which gives
    no directory when there is no page: `ASSERT` is empty without
    `KERNEL_DEBUG`, and what it then fills is frame 0. -/
def step (K : Frame) : Op → System → Option System
  | .kalloc n, s =>
      if 1 ≤ n ∧ n < 2 ^ 31 then some (handOut (kallocPages s.mmu.alloc n) n s)
      else none
  | .ualloc n, s =>
      if 1 ≤ n ∧ n < 2 ^ 31 then some (handOut (uallocPages s.mmu.alloc n) n s)
      else none
  | .kfree b, s =>
      if b ∈ s.live then
        some { s with
          mmu := { s.mmu with alloc := kfreePages s.mmu.alloc b.1 b.2 }
          live := s.live.erase b }
      else none
  | .createPageTable, s =>
      let r := createPageTable K s.mmu
      some { s with
        mmu := r.2
        dirs := if r.1 = 0 then s.dirs else frameOf r.1 :: s.dirs }

/-- After `memory_init` and `create_kernel_table`. -/
def booted (l : Layout) (mem : Frames) (bits : Nat → BitVec 8) (total : Word) :
    System where
  mmu := createKernelTable l (memoryReady mem bits total)
  live := []
  dirs := []

/-! ## Pages that are mapped to themselves -/

/-- The address translates to its own frame, and both entries on the way have
    the write bit. -/
def MappedSelf (mem : Frames) (dir : Frame) (a : Word) : Prop :=
  ∃ pte, walkAt mem dir a = some pte ∧ frameOf pte = frameOf a ∧
    pte.getLsbD 1 = true ∧ (mem dir (vaddrDir a)).getLsbD 1 = true

/-- A page of a block, or of a directory, that has been handed out. -/
def Handed (s : System) (a : Word) : Prop :=
  (∃ b ∈ s.live, ∃ j < b.2, a = blockPage b.1 j) ∨ ∃ d ∈ s.dirs, a = addrOf d

/-- Every page that was handed out is mapped to itself in every directory. -/
def AllMapped (K : Frame) (s : System) : Prop :=
  ∀ a, Handed s a → ∀ d ∈ K :: s.dirs, MappedSelf s.mmu.mem d a

/-- So it is after the operation. -/
def MappedAfter (K : Frame) (o : Op) (s : System) : Prop :=
  ∀ s', step K o s = some s' → AllMapped K s'

/-- The page number, from 1 MB on, at which the identity map ends: 20 MB in
    `kernel_table`, 4 MB in a directory. -/
def limit : List Frame → Nat
  | [] => 4864
  | _ :: _ => 768

/-- There is room below the limit, or nothing is handed out; a new directory
    also lowers the limit for the blocks there are. -/
def WithinReach : Op → System → Prop
  | .kalloc n, s => Room s.mmu.alloc 0 (limit s.dirs) n ∨
      ∀ i < 1023, i < s.mmu.alloc.bitmap.count →
        ¬ Fits (Marked s.mmu.alloc) s.mmu.alloc.bitmap.count (i, n)
  | .ualloc n, s => Room s.mmu.alloc userIndex (limit s.dirs) n ∨
      ∀ i, ¬ FirstFit (Marked s.mmu.alloc) s.mmu.alloc.bitmap.count userIndex n i
  | .kfree _, _ => True
  | .createPageTable, s =>
      (Room s.mmu.alloc userIndex 768 1 ∧
        ∀ b ∈ s.live, ∀ j < b.2, (blockPage b.1 j).toNat < 0x400000) ∨
      ∀ i, ¬ FirstFit (Marked s.mmu.alloc) s.mmu.alloc.bitmap.count userIndex 1 i

/-! ## The map of `create_kernel_table` -/

/-- The first directory entry covers 4 MB. -/
theorem vaddrDir_eq_zero_iff (a : Word) : vaddrDir a = 0 ↔ a.toNat < 0x400000 := by
  have hz : (0 : Slot).toNat = 0 := rfl
  rw [← BitVec.toNat_inj, vaddrDir_toNat, hz]
  omega

/-- An address is mapped only where its directory entry is present. -/
theorem present_of_mappedSelf {mem : Frames} {dir : Frame} {a : Word}
    (h : MappedSelf mem dir a) : Present (mem dir (vaddrDir a)) := by
  obtain ⟨pte, hwalk, -⟩ := h
  by_contra hn
  have habs := walk_absent entryFormat hn (vaddrTable a)
  exact nomatch hwalk.symm.trans habs

/-- The last region maps the frames from 1 MB to 20 MB to themselves. -/
theorem boot_identity {l : Layout} {m : Mmu} {k : Nat}
    (hf : FreshRegions l.kernelTable (kernelMap l) (zeroed l m))
    (hin : InOrder l.kernelTable k (createKernelTable l m)) {a : Word}
    (h1 : 0x100000 ≤ a.toNat) (h2 : a.toNat < 0x1400000) :
    MappedSelf (createKernelTable l m).mem l.kernelTable a := by
  obtain ⟨f1, f2, f3, f4, -⟩ := hf
  obtain ⟨t1, -⟩ := mapRegion_spec _ (zeroed_trees l m) f1
  obtain ⟨t2, -⟩ := mapRegion_spec _ t1 f2
  obtain ⟨t3, -⟩ := mapRegion_spec _ t2 f3
  obtain ⟨-, hmapped, -⟩ := mapRegion_spec _ t3 f4
  rw [freeRegion_npage, freeRegion_vstartPage] at hmapped
  have hpage : pageOf a = pageOf (pagesFrom 0x100000 (pageOf a - 256)) := by
    rw [pageOf_pagesFrom, show pageOf 0x100000 = 256 from rfl]
    unfold pageOf
    omega
  have hwalk := hmapped (pageOf a - 256) (by unfold pageOf; omega)
  rw [← walkAt_congr hpage] at hwalk
  have hframe : frameOf (newPte (pagesFrom memKernelfreeStart (pageOf a - 256))
      (pteW ||| pteU)) = frameOf a := by
    unfold newPte
    rw [frameOf_or (by decide), frameOf_or (by decide)]
    apply BitVec.eq_of_toNat_eq
    rw [frameOf_toNat, frameOf_toNat]
    exact hpage.symm
  have hwrite : (newPte (pagesFrom memKernelfreeStart (pageOf a - 256))
      (pteW ||| pteU)).getLsbD 1 = true := by
    simp [newPte, pteW]
  refine ⟨_, hwalk, hframe, hwrite, hin.writable _ ?_⟩
  by_contra hn
  have habs := walk_absent entryFormat hn (vaddrTable a)
  exact nomatch hwalk.symm.trans habs

/-! ## The invariant -/

/-- The frame is a page of the manager that no request frees. -/
def Kept (m : AddrAlloc) (kept : List AddrBlock) (f : Frame) : Prop :=
  ∃ p < m.bitmap.count, f.toNat = 256 + p ∧ (pageAddr m p, 1) ∈ kept

/-- What holds between the operations. -/
structure Inv (K : Frame) (s : System) : Prop where
  low : 0 < K.toNat ∧ K.toNat < 256
  range : FromOneMb s.mmu.alloc
  trees : SpaceTrees K s.dirs s.mmu.mem
  identity : ∀ a : Word, 0x100000 ≤ a.toNat → a.toNat < 0x1400000 →
    MappedSelf s.mmu.mem K a
  entries : ∀ i, Present (s.mmu.mem K i) → i.toNat < 5
  own : ∀ d ∈ s.dirs, ∀ i ≠ 0, ¬ Present (s.mmu.mem d i)
  -- directories and tables are blocks that stay
  owned : ∃ kept, Sound ⟨s.mmu.alloc, s.live ++ kept⟩ ∧
    ∀ f, InUse entryFormat (K :: s.dirs) s.mmu.mem f → f = K ∨ Kept s.mmu.alloc kept f
  reach : ∀ a, Handed s a → ∃ p < limit s.dirs, a.toNat = 4096 * (256 + p)

section State

variable {K : Frame} {s s' : System}

/-- The limit lies within the identity map. -/
theorem limit_le (dirs : List Frame) : limit dirs ≤ 4864 := by
  cases dirs with
  | nil => exact Nat.le_refl 4864
  | cons d dirs => exact Nat.le_of_lt (by simp [limit])

/-- With a directory the limit is that of its one entry. -/
theorem limit_of_mem {dirs : List Frame} {d : Frame} (hd : d ∈ dirs) :
    limit dirs = 768 := by
  cases dirs with
  | nil => exact nomatch hd
  | cons d dirs => rfl

/-- In a directory the map is that of the kernel below 4 MB. -/
theorem Inv.mappedSelf_dir (h : Inv K s) {d : Frame} (hd : d ∈ s.dirs) {a : Word}
    (h1 : 0x100000 ≤ a.toNat) (h2 : a.toNat < 0x400000) :
    MappedSelf s.mmu.mem d a := by
  have hz := (vaddrDir_eq_zero_iff a).mpr h2
  obtain ⟨pte, hwalk, hframe, hpte, hpde⟩ := h.identity a h1 (by omega)
  refine ⟨pte, ?_, hframe, hpte, ?_⟩
  · rw [walkAt_shared h.trees hd hz]
    exact hwalk
  · rw [hz] at hpde ⊢
    rw [h.trees.shared d hd]
    exact hpde

/-- **ALL MAPPED**: what has been handed out lies below the limit. -/
theorem Inv.allMapped (h : Inv K s) : AllMapped K s := by
  intro a ha d hd
  obtain ⟨p, hp, haddr⟩ := h.reach a ha
  have hle := limit_le s.dirs
  rcases List.mem_cons.mp hd with rfl | hd
  · exact h.identity a (by omega) (by omega)
  · rw [limit_of_mem hd] at hp
    exact h.mappedSelf_dir hd (by omega) (by omega)

/-- Nothing above the limit is mapped everywhere. -/
theorem Inv.lt_limit (h : Inv K s) {a : Word}
    (hmapped : ∀ d ∈ K :: s.dirs, MappedSelf s.mmu.mem d a) :
    a.toNat < 4096 * (256 + limit s.dirs) := by
  have hK := h.entries _ (present_of_mappedSelf (hmapped K (by simp)))
  rw [vaddrDir_toNat] at hK
  cases hdirs : s.dirs with
  | nil =>
      simp only [limit]
      omega
  | cons d dirs =>
      have hd : d ∈ s.dirs := by simp [hdirs]
      have hp := present_of_mappedSelf (hmapped d (List.mem_cons_of_mem K hd))
      have hz : vaddrDir a = 0 := by
        by_contra hne
        exact h.own d hd _ hne hp
      have hlt := (vaddrDir_eq_zero_iff a).mp hz
      simp only [limit]
      omega

/-! ## A block that is handed out -/

/-- The pages of a block below the limit, by number. -/
theorem page_eq {m : AddrAlloc} (h : FromOneMb m) {i j : Nat}
    (hij : i + j < 2 ^ 20 - 256) :
    (blockPage (pageAddr m i) j).toNat = 4096 * (256 + (i + j)) := by
  rw [h.page_toNat]
  omega

/-- A block of addresses below a limit ends below it. -/
theorem end_le_of_pages {m : AddrAlloc} (h : FromOneMb m) {i n lim : Nat}
    (hi : i < 2 ^ 20 - 256) (hlim : lim < 2 ^ 20 - 256)
    (hall : ∀ j < n, (blockPage (pageAddr m i) j).toNat < 4096 * (256 + lim)) :
    i + n ≤ lim ∨ n = 0 := by
  by_contra hout
  -- the first page of the block that is not below
  have hpage := hall (max lim i - i) (by omega)
  rw [page_eq h (by omega)] at hpage
  omega

/-- The kept pages stay where only bits change. -/
theorem Kept.of_sameRange {m m' : AddrAlloc} {kept : List AddrBlock} {f : Frame}
    (h : Kept m kept f) (hs : SameRange m m') : Kept m' kept f := by
  obtain ⟨p, hp, hf, hmem⟩ := h
  refine ⟨p, by rw [hs.1]; exact hp, hf, ?_⟩
  unfold pageAddr at hmem ⊢
  rw [hs.2.2]
  exact hmem

/-- Other blocks and other bits, the rest as it was. -/
theorem Inv.of_blocks (h : Inv K s) {m : AddrAlloc} {live : List AddrBlock}
    (hs : SameRange s.mmu.alloc m)
    (hsound : ∀ kept, Sound ⟨s.mmu.alloc, s.live ++ kept⟩ → Sound ⟨m, live ++ kept⟩)
    (hreach : ∀ b ∈ live, b ∈ s.live ∨ ∀ j < b.2,
      ∃ p < limit s.dirs, (blockPage b.1 j).toNat = 4096 * (256 + p)) :
    Inv K ⟨⟨s.mmu.mem, m⟩, live, s.dirs⟩ where
  low := h.low
  range := h.range.of_sameRange hs
  trees := h.trees
  identity := h.identity
  entries := h.entries
  own := h.own
  owned := by
    obtain ⟨kept, hold, hkept⟩ := h.owned
    refine ⟨kept, hsound kept hold, ?_⟩
    intro f hf
    rcases hkept f hf with hK | hp
    · exact Or.inl hK
    · exact Or.inr (hp.of_sameRange hs)
  reach := by
    rintro a (⟨b, hb, j, hj, rfl⟩ | hd)
    · rcases hreach b hb with hold | hnew
      · exact h.reach _ (Or.inl ⟨b, hold, j, hj, rfl⟩)
      · exact hnew j hj
    · exact h.reach a (Or.inr hd)

/-- **A BLOCK** that ends below the limit, or that is not handed out. -/
theorem Inv.alloc (h : Inv K s) {start n i : Nat}
    (hfit : FirstFit (Marked s.mmu.alloc) s.mmu.alloc.bitmap.count start n i)
    {a : Word}
    (ha : a = pageAddr s.mmu.alloc i ∧ i + n ≤ limit s.dirs ∨ a = 0) :
    Inv K (handOut (a, marking s.mmu.alloc i n) n s) := by
  have hle := limit_le s.dirs
  refine h.of_blocks (marking_sameRange _ _ _) ?_ ?_
  · intro kept hsound
    have hnew := hsound.alloc hfit (a := a) (ha.imp_left fun hc => ⟨hc.1, by omega⟩)
    unfold MemoryBlocks.handOut at hnew
    dsimp only at hnew ⊢
    by_cases h0 : a = 0
    · rw [if_pos h0] at hnew ⊢
      exact hnew
    · rw [if_neg h0] at hnew ⊢
      exact hnew
  · dsimp only
    by_cases h0 : a = 0
    · rw [if_pos h0]
      exact fun b hb => Or.inl hb
    · obtain ⟨rfl, hend⟩ := ha.resolve_right h0
      rw [if_neg h0]
      intro b hb
      rcases List.mem_cons.mp hb with rfl | hb
      · refine Or.inr fun j hj => ⟨i + j, by dsimp only at hj; omega, ?_⟩
        exact page_eq h.range (by dsimp only at hj; omega)
      · exact Or.inl hb

/-- **A RELEASE** of a live block. -/
theorem Inv.kfree (h : Inv K s) {b : AddrBlock} (hb : b ∈ s.live) :
    Inv K { s with
      mmu := { s.mmu with alloc := kfreePages s.mmu.alloc b.1 b.2 }
      live := s.live.erase b } := by
  refine h.of_blocks (kfreePages_sameRange _ _ _) ?_
    (fun c hc => Or.inl (List.mem_of_mem_erase hc))
  intro kept hsound
  have hrel := hsound.release (b := b) (List.mem_append_left kept hb)
  dsimp only at hrel
  rw [List.erase_append_left _ hb] at hrel
  exact hrel

/-- A frame that is handed out is in no tree. -/
theorem Inv.not_inUse (h : Inv K s) {i : Nat} (hi : i < s.mmu.alloc.bitmap.count)
    (hfree : ¬ Marked s.mmu.alloc i) (hlt : i < 2 ^ 20 - 256) :
    ¬ InUse entryFormat (K :: s.dirs) s.mmu.mem
      (frameOf (pageAddr s.mmu.alloc i)) := by
  intro hin
  have hlow := h.low
  have haddr := h.range.addr_toNat i
  have hframe := frameOf_toNat (pageAddr s.mmu.alloc i)
  obtain ⟨kept, hsound, hkept⟩ := h.owned
  rcases hkept _ hin with hK | ⟨p, hp, hf, hmem⟩
  · rw [hK] at hframe
    omega
  · obtain rfl : p = i := by omega
    have hcov : Covers (toBlock s.mmu.alloc.kernelstart
        (pageAddr s.mmu.alloc p, 1)) p := by
      rw [toBlock_pageAddr _ (by omega)]
      exact ⟨Nat.le_refl p, Nat.lt_succ_self p⟩
    refine hfree (hsound.owned.busy _ ?_ p hcov hp)
    exact List.mem_map_of_mem (List.mem_append_right s.live hmem)

/-- What `create_page_table` with page `i` leaves. -/
structure Created (K : Frame) (s : System) (i : Nat) (D : Frame) (r : Mmu) :
    Prop where
  frame : D.toNat = 256 + i
  unused : ¬ InUse entryFormat (K :: s.dirs) s.mmu.mem D
  mem : r.mem = (s.mmu.mem.fill D 0).set D 0 (s.mmu.mem K 0)
  alloc : r.alloc = marking s.mmu.alloc i 1

/-- A directory that could be made is as `create_page_table` leaves it. -/
theorem Inv.created (h : Inv K s) {i : Nat}
    (hfit : FirstFit (Marked s.mmu.alloc) s.mmu.alloc.bitmap.count userIndex 1 i)
    (hi : i < 2 ^ 20 - 256) :
    Created K s i (frameOf (createPageTable K s.mmu).1)
      (createPageTable K s.mmu).2 := by
  have hlt := hfit.lt_bound
  have hfree : ¬ Marked s.mmu.alloc i :=
    hfit.fits i ⟨Nat.le_refl i, Nat.lt_succ_self i⟩ hlt
  have hunused := h.not_inUse hlt hfree hi
  have halloc := uallocPages_of_firstFit (Nat.le_refl 1) hfit
  have hdir : frameOf (uallocPages s.mmu.alloc 1).1
      = frameOf (pageAddr s.mmu.alloc i) := by rw [halloc]
  have hK : K ≠ frameOf (pageAddr s.mmu.alloc i) :=
    fun hc => hunused (hc ▸ Or.inl (by simp))
  have hmem := createPageTable_mem K s.mmu hdir
  rw [fill_of_ne hK] at hmem
  rw [createPageTable_fst, hdir]
  refine ⟨?_, hunused, hmem, ?_⟩
  · rw [frameOf_toNat, h.range.addr_toNat]
    omega
  · rw [createPageTable_alloc, halloc]

namespace Created

variable {i : Nat} {D : Frame} {r : Mmu}

/-- The region is the same. -/
theorem same (c : Created K s i D r) : SameRange s.mmu.alloc r.alloc :=
  c.alloc ▸ marking_sameRange _ i 1

/-- The frames in use before keep their contents. -/
theorem old (c : Created K s i D r) {f : Frame}
    (hf : InUse entryFormat (K :: s.dirs) s.mmu.mem f) :
    r.mem f = s.mmu.mem f := by
  rw [c.mem]
  exact Trees.addRoot_frame c.unused hf

/-- The old directories are the same. -/
theorem old_dir (c : Created K s i D r) {d : Frame} (hd : d ∈ K :: s.dirs) :
    r.mem d = s.mmu.mem d := c.old (Or.inl hd)

/-- The new directory has the kernel's first entry and no other. -/
theorem entry (c : Created K s i D r) (j : Slot) :
    r.mem D j = if j = 0 then s.mmu.mem K 0 else 0 := by
  rw [c.mem]
  exact Trees.addRoot_entry j

/-- The new directory is the one frame more in use: the table behind its entry 0
    is that of the kernel. -/
theorem inUse (c : Created K s i D r) {f : Frame}
    (hf : InUse entryFormat (K :: D :: s.dirs) r.mem f) :
    f = D ∨ InUse entryFormat (K :: s.dirs) s.mmu.mem f := by
  rw [c.mem] at hf
  exact Trees.inUse_addRoot not_present_zero c.unused hf

/-- The new page is kept from now on. -/
theorem kept (c : Created K s i D r) (hi : i < s.mmu.alloc.bitmap.count)
    {kept : List AddrBlock} {f : Frame} (hf : f = D ∨ Kept s.mmu.alloc kept f) :
    Kept r.alloc ((pageAddr s.mmu.alloc i, 1) :: kept) f := by
  rcases hf with rfl | hf
  · refine ⟨i, by rw [c.same.1]; exact hi, c.frame, ?_⟩
    unfold pageAddr
    rw [c.same.2.2]
    exact List.mem_cons_self
  · obtain ⟨p, hp, hfp, hmem⟩ := hf.of_sameRange c.same
    exact ⟨p, hp, hfp, List.mem_cons_of_mem _ hmem⟩

/-- The new page is one of the blocks. -/
theorem sound (c : Created K s i D r) (hr : FromOneMb s.mmu.alloc)
    (hfit : FirstFit (Marked s.mmu.alloc) s.mmu.alloc.bitmap.count userIndex 1 i)
    (hi : i < 2 ^ 20 - 256) {kept : List AddrBlock}
    (hsound : Sound ⟨s.mmu.alloc, s.live ++ kept⟩) :
    Sound ⟨r.alloc, s.live ++ (pageAddr s.mmu.alloc i, 1) :: kept⟩ := by
  have h0 : pageAddr s.mmu.alloc i ≠ 0 := by
    rw [Ne, hr.addr_eq_zero (by omega)]
    omega
  have hnew := hsound.alloc hfit (a := pageAddr s.mmu.alloc i)
    (Or.inl ⟨rfl, by omega⟩)
  unfold MemoryBlocks.handOut at hnew
  dsimp only at hnew
  rw [if_neg h0, ← c.alloc] at hnew
  exact hnew.perm List.perm_middle.symm

/-- Everything handed out lies below 4 MB. -/
theorem reach (c : Created K s i D r) (h : Inv K s) (hi : i < 768)
    (hlive : ∀ b ∈ s.live, ∀ j < b.2, (blockPage b.1 j).toNat < 0x400000) :
    ∀ a, Handed ⟨r, s.live, D :: s.dirs⟩ a →
      ∃ p < limit (D :: s.dirs), a.toNat = 4096 * (256 + p) := by
  have hlim : limit (D :: s.dirs) = 768 := rfl
  rw [hlim]
  rintro a (⟨b, hb, j, hj, rfl⟩ | ⟨d, hd, rfl⟩)
  · obtain ⟨p, -, haddr⟩ := h.reach _ (Or.inl ⟨b, hb, j, hj, rfl⟩)
    have hpage := hlive b hb j hj
    exact ⟨p, by omega, haddr⟩
  · rcases List.mem_cons.mp hd with rfl | hd
    · exact ⟨i, hi, by rw [addrOf_toNat, c.frame]⟩
    · obtain ⟨p, hp, haddr⟩ := h.reach _ (Or.inr ⟨d, hd, rfl⟩)
      rw [limit_of_mem hd] at hp
      exact ⟨p, hp, haddr⟩

end Created

/-- **A NEW DIRECTORY** below 4 MB, with all that is handed out below 4 MB. -/
theorem Inv.create (h : Inv K s) {i : Nat}
    (hfit : FirstFit (Marked s.mmu.alloc) s.mmu.alloc.bitmap.count userIndex 1 i)
    (hi : i < 768)
    (hlive : ∀ b ∈ s.live, ∀ j < b.2, (blockPage b.1 j).toNat < 0x400000) :
    Inv K ⟨(createPageTable K s.mmu).2, s.live,
      frameOf (createPageTable K s.mmu).1 :: s.dirs⟩ := by
  have c := h.created hfit (by omega)
  generalize frameOf (createPageTable K s.mmu).1 = D at c ⊢
  generalize (createPageTable K s.mmu).2 = r at c ⊢
  have hK : r.mem K = s.mmu.mem K := c.old_dir List.mem_cons_self
  refine ⟨h.low, h.range.of_sameRange c.same, ?_, ?_, ?_, ?_, ?_,
    c.reach h hi hlive⟩
  · dsimp only
    rw [c.mem]
    exact h.trees.addRoot not_present_zero c.unused
  · intro a h1 h2
    obtain ⟨pte, hwalk, hrest⟩ := h.identity a h1 h2
    refine ⟨pte, ?_, ?_⟩
    · rw [← hwalk]
      dsimp only
      rw [c.mem]
      exact Trees.walk_addRoot c.unused List.mem_cons_self _ _
    · dsimp only
      rw [hK]
      exact hrest
  · intro j hp
    dsimp only at hp
    rw [hK] at hp
    exact h.entries j hp
  -- the new directory has entry 0 only, which is the shared one
  · intro d hd j hj hp
    dsimp only at hp
    rcases List.mem_cons.mp hd with rfl | hd
    · rw [c.entry, if_neg hj] at hp
      exact not_present_zero hp
    · rw [c.old_dir (List.mem_cons_of_mem K hd)] at hp
      exact h.own d hd j hj hp
  · obtain ⟨kept, hsound, hkept⟩ := h.owned
    refine ⟨(pageAddr s.mmu.alloc i, 1) :: kept,
      c.sound h.range hfit (by omega) hsound, ?_⟩
    intro f hf
    rcases c.inUse hf with hD | hwas
    · exact Or.inr (c.kept hfit.lt_bound (Or.inl hD))
    · exact (hkept f hwas).imp_right (fun hk => c.kept hfit.lt_bound (Or.inr hk))

/-- Without a page frame 0 is filled, which is in no tree. -/
theorem Inv.create_none (h : Inv K s)
    (hnone : uallocPages s.mmu.alloc 1 = (0, s.mmu.alloc)) :
    Inv K ⟨(createPageTable K s.mmu).2, s.live, s.dirs⟩ := by
  have hlow := h.low
  have hz : (0 : Frame).toNat = 0 := rfl
  have hdir : frameOf (uallocPages s.mmu.alloc 1).1 = 0 := by
    rw [hnone]
    show frameOf 0 = 0
    decide
  have hmem := createPageTable_mem K s.mmu hdir
  have halloc := createPageTable_alloc K s.mmu
  rw [hnone] at halloc
  generalize (createPageTable K s.mmu).2 = r at hmem halloc ⊢
  obtain ⟨mem, alloc⟩ := r
  dsimp only at hmem halloc
  subst halloc
  obtain ⟨kept, hsound, hkept⟩ := h.owned
  -- frame 0 is below the shared table and no kept page, so nothing in use is filled
  have hold : ∀ f, InUse entryFormat (K :: s.dirs) s.mmu.mem f →
      mem f = s.mmu.mem f := by
    intro f hf
    have hne : f ≠ 0 := by
      rintro rfl
      rcases hkept 0 hf with hK | ⟨p, -, hp, -⟩
      · rw [← hK] at hlow
        omega
      · omega
    funext j
    rw [hmem, set_of_ne hne, fill_of_ne hne]
  have hroot : ∀ d ∈ K :: s.dirs, mem d = s.mmu.mem d := fun d hd => hold d (Or.inl hd)
  have hK := hroot K List.mem_cons_self
  refine ⟨h.low, h.range, h.trees.congr hold, ?_, ?_, ?_, ⟨kept, hsound, ?_⟩, h.reach⟩
  · intro a h1 h2
    obtain ⟨pte, hwalk, hrest⟩ := h.identity a h1 h2
    refine ⟨pte, ?_, ?_⟩
    · rw [← hwalk]
      exact walk_congr hold List.mem_cons_self _ _
    · dsimp only
      rw [hK]
      exact hrest
  · intro i hp
    dsimp only at hp
    rw [hK] at hp
    exact h.entries i hp
  · intro d hd i hi hp
    dsimp only at hp
    rw [hroot d (List.mem_cons_of_mem K hd)] at hp
    exact h.own d hd i hi hp
  · dsimp only
    exact fun f hf => hkept f (InUse.of_rows hroot hf)

/-! ## The steps -/

/-- Nothing was handed out. -/
theorem handOut_zero (n : Nat) : handOut (0, s.mmu.alloc) n s = s := by
  unfold handOut
  rw [if_pos rfl]

/-- What `kalloc_pages` can do. -/
theorem step_kalloc {n : Nat} (hs : step K (.kalloc n) s = some s') :
    1 ≤ n ∧ s' = handOut (kallocPages s.mmu.alloc n) n s := by
  simp only [step] at hs
  by_cases hn : 1 ≤ n ∧ n < 2 ^ 31
  · rw [if_pos hn] at hs
    exact ⟨hn.1, (Option.some.inj hs).symm⟩
  · rw [if_neg hn] at hs
    exact nomatch hs

/-- What `ualloc_pages` can do. -/
theorem step_ualloc {n : Nat} (hs : step K (.ualloc n) s = some s') :
    1 ≤ n ∧ s' = handOut (uallocPages s.mmu.alloc n) n s := by
  simp only [step] at hs
  by_cases hn : 1 ≤ n ∧ n < 2 ^ 31
  · rw [if_pos hn] at hs
    exact ⟨hn.1, (Option.some.inj hs).symm⟩
  · rw [if_neg hn] at hs
    exact nomatch hs

/-- What `kfree_pages` can do. -/
theorem step_kfree {b : AddrBlock} (hs : step K (.kfree b) s = some s') :
    b ∈ s.live ∧ s' = { s with
      mmu := { s.mmu with alloc := kfreePages s.mmu.alloc b.1 b.2 }
      live := s.live.erase b } := by
  simp only [step] at hs
  by_cases hb : b ∈ s.live
  · rw [if_pos hb] at hs
    exact ⟨hb, (Option.some.inj hs).symm⟩
  · rw [if_neg hb] at hs
    exact nomatch hs

/-- A directory is made of the lowest free user page, if it has an address. -/
theorem step_create (hs : step K .createPageTable s = some s') :
    (∃ i, FirstFit (Marked s.mmu.alloc) s.mmu.alloc.bitmap.count userIndex 1 i ∧
      s' = ⟨(createPageTable K s.mmu).2, s.live,
        frameOf (createPageTable K s.mmu).1 :: s.dirs⟩) ∨
    ((uallocPages s.mmu.alloc 1).1 = 0 ∧
      s' = ⟨(createPageTable K s.mmu).2, s.live, s.dirs⟩) := by
  simp only [step] at hs
  have hs' := (Option.some.inj hs).symm
  rw [createPageTable_fst] at hs' ⊢
  by_cases h0 : (uallocPages s.mmu.alloc 1).1 = 0
  · rw [if_pos h0] at hs'
    exact Or.inr ⟨h0, hs'⟩
  · rw [if_neg h0] at hs'
    rcases uallocPages_spec s.mmu.alloc (Nat.le_refl 1) with he | ⟨i, hfit, -⟩
    · rw [he] at h0
      exact absurd rfl h0
    · exact Or.inl ⟨i, hfit, hs'⟩

/-- Nothing is handed out where nothing fits, or from the one page whose address
    is 0. -/
theorem ualloc_zero (h : FromOneMb s.mmu.alloc)
    (h0 : (uallocPages s.mmu.alloc 1).1 = 0) :
    uallocPages s.mmu.alloc 1 = (0, s.mmu.alloc) ∨
    FirstFit (Marked s.mmu.alloc) s.mmu.alloc.bitmap.count userIndex 1
      (2 ^ 20 - 256) := by
  rcases uallocPages_spec s.mmu.alloc (Nat.le_refl 1) with he | ⟨i, hfit, he⟩
  · exact Or.inl he
  · rw [he] at h0
    have hi := (h.addr_eq_zero (Nat.lt_trans hfit.lt_bound h.count_lt)).mp h0
    rw [hi] at hfit
    exact Or.inr hfit

/-- **EVERY STEP** within reach keeps the invariant. -/
theorem step_inv {o : Op} (h : Inv K s) (hok : WithinReach o s)
    (hs : step K o s = some s') : Inv K s' := by
  cases o with
  | kalloc n =>
      obtain ⟨hn, rfl⟩ := step_kalloc hs
      rcases kallocPages_spec s.mmu.alloc hn with he | ⟨i, hfit, he⟩
      · rw [he, handOut_zero]
        exact h
      · rw [he]
        refine h.alloc hfit ?_
        -- from page 1023 on the block is marked and not handed out
        by_cases hi : 1023 ≤ i
        · exact Or.inr (if_pos hi)
        · rw [if_neg hi]
          rcases hok with hroom | hno
          · exact Or.inl ⟨rfl, (room_iff hfit).mp hroom⟩
          · exact absurd hfit.fits (hno i (by omega) hfit.lt_bound)
  | ualloc n =>
      obtain ⟨hn, rfl⟩ := step_ualloc hs
      rcases uallocPages_spec s.mmu.alloc hn with he | ⟨i, hfit, he⟩
      · rw [he, handOut_zero]
        exact h
      · rw [he]
        refine h.alloc hfit ?_
        rcases hok with hroom | hno
        · exact Or.inl ⟨rfl, (room_iff hfit).mp hroom⟩
        · exact absurd hfit (hno i)
  | kfree b =>
      obtain ⟨hb, rfl⟩ := step_kfree hs
      exact h.kfree hb
  | createPageTable =>
      rcases step_create hs with ⟨i, hfit, rfl⟩ | ⟨h0, rfl⟩
      · obtain ⟨hroom, hlive⟩ := hok.resolve_right (fun hno => hno i hfit)
        have hi := (room_iff hfit).mp hroom
        exact h.create hfit (by omega) hlive
      · rcases ualloc_zero h.range h0 with hnone | hfit
        · exact h.create_none hnone
        · have hroom := (hok.resolve_right (fun hno => hno _ hfit)).1
          have hi := (room_iff hfit).mp hroom
          omega

/-- A block that is mapped everywhere ends below the limit. -/
theorem Inv.end_le (h : Inv K s) {i n : Nat} (hi : i < 2 ^ 20 - 256) (hn : 1 ≤ n)
    (hm : AllMapped K (handOut (pageAddr s.mmu.alloc i, marking s.mmu.alloc i n) n s)) :
    i + n ≤ limit s.dirs := by
  have hlim := limit_le s.dirs
  have h0 : pageAddr s.mmu.alloc i ≠ 0 := by
    rw [Ne, h.range.addr_eq_zero (by omega)]
    omega
  have hlive : (pageAddr s.mmu.alloc i, n)
      ∈ (handOut (pageAddr s.mmu.alloc i, marking s.mmu.alloc i n) n s).live := by
    unfold handOut
    dsimp only
    rw [if_neg h0]
    exact List.mem_cons_self
  refine (end_le_of_pages h.range hi (by omega) ?_).resolve_right (by omega)
  intro j hj
  exact h.lt_limit (hm _ (Or.inl ⟨_, hlive, j, hj, rfl⟩))

/-- What is mapped in a new directory lies below 4 MB. -/
theorem Created.lt_of_mappedSelf {i : Nat} {D : Frame} {r : Mmu}
    (c : Created K s i D r) {a : Word} (hm : MappedSelf r.mem D a) :
    a.toNat < 0x400000 := by
  have hp := present_of_mappedSelf hm
  rw [c.entry] at hp
  by_cases hz : vaddrDir a = 0
  · exact (vaddrDir_eq_zero_iff a).mp hz
  · rw [if_neg hz] at hp
    exact absurd hp not_present_zero

/-- **NO OTHER STEP** leaves everything mapped: the range is within the address
    space. -/
theorem within_of_allMapped {o : Op} (h : Inv K s)
    (hc : s.mmu.alloc.bitmap.count ≤ 2 ^ 20 - 256) (hs : step K o s = some s')
    (hm : AllMapped K s') : WithinReach o s := by
  cases o with
  | kalloc n =>
      obtain ⟨hn, rfl⟩ := step_kalloc hs
      by_cases hex : ∃ i < 1023,
          FirstFit (Marked s.mmu.alloc) s.mmu.alloc.bitmap.count 0 n i
      · obtain ⟨i, hi, hfit⟩ := hex
        rw [kallocPages_of_firstFit hn hfit hi] at hm
        exact Or.inl ((room_iff hfit).mpr (h.end_le (by omega) hn hm))
      -- a place below page 1023 would give a first one there
      · refine Or.inr fun i hi hlt hfits => ?_
        obtain ⟨i', hfit⟩ := FirstFit.exists (Nat.zero_le i) hlt hfits
        exact hex ⟨i', Nat.lt_of_le_of_lt (hfit.le (Nat.zero_le i) hfits) hi, hfit⟩
  | ualloc n =>
      obtain ⟨hn, rfl⟩ := step_ualloc hs
      by_cases hex : ∃ i,
          FirstFit (Marked s.mmu.alloc) s.mmu.alloc.bitmap.count userIndex n i
      · obtain ⟨i, hfit⟩ := hex
        have hi := hfit.lt_bound
        rw [uallocPages_of_firstFit hn hfit] at hm
        exact Or.inl ((room_iff hfit).mpr (h.end_le (by omega) hn hm))
      · exact Or.inr fun i hfit => hex ⟨i, hfit⟩
  | kfree b => exact trivial
  | createPageTable =>
      rcases step_create hs with ⟨i, hfit, rfl⟩ | ⟨h0, rfl⟩
      · have hi := hfit.lt_bound
        have c := h.created hfit (by omega)
        have hlow := fun a ha => c.lt_of_mappedSelf
          (hm a ha _ (List.mem_cons_of_mem K List.mem_cons_self))
        refine Or.inl ⟨?_, ?_⟩
        · have hD := hlow _ (Or.inr ⟨_, List.mem_cons_self, rfl⟩)
          rw [addrOf_toNat, c.frame] at hD
          exact (room_iff hfit).mpr (by omega)
        · intro b hb j hj
          exact hlow _ (Or.inl ⟨b, hb, j, hj, rfl⟩)
      -- address 0 would be the page 256 below the end of the address space
      · refine Or.inr fun i hfit => ?_
        have hi := hfit.lt_bound
        rw [uallocPages_of_firstFit (Nat.le_refl 1) hfit] at h0
        have hwrap := (h.range.addr_eq_zero (by omega)).mp h0
        omega

/-- No operation changes the region. -/
theorem step_sameRange {o : Op} (hs : step K o s = some s') :
    SameRange s.mmu.alloc s'.mmu.alloc := by
  cases o with
  | kalloc n =>
      obtain ⟨hn, rfl⟩ := step_kalloc hs
      exact (kallocPages_grows s.mmu.alloc hn).range
  | ualloc n =>
      obtain ⟨hn, rfl⟩ := step_ualloc hs
      have hg := (uallocPages_grows s.mmu.alloc hn).range
      generalize uallocPages s.mmu.alloc n = r at hg ⊢
      exact hg
  | kfree b =>
      obtain ⟨-, rfl⟩ := step_kfree hs
      exact kfreePages_sameRange s.mmu.alloc b.1 b.2
  | createPageTable =>
      have hg := (uallocPages_grows s.mmu.alloc (Nat.le_refl 1)).range
      rw [← createPageTable_alloc K] at hg
      rcases step_create hs with ⟨i, -, rfl⟩ | ⟨-, rfl⟩
      · exact hg
      · exact hg

end State

/-! ## The boot -/

/-- The pages of the tables, as blocks. -/
def tableBlocks (m : AddrAlloc) (k : Nat) : List AddrBlock :=
  (List.range k).map (fun p => (pageAddr m p, 1))

/-- The tables that boot takes are a sound set of blocks. -/
theorem tableBlocks_sound {m : AddrAlloc} {k : Nat} (hps : m.pageSize = memPageSize)
    (hc : m.bitmap.count < 2 ^ 20) (hk : k ≤ m.bitmap.count)
    (hm : ∀ p < k, Marked m p) : Sound ⟨m, tableBlocks m k⟩ := by
  have hblocks : (tableBlocks m k).map (toBlock m.kernelstart)
      = (List.range k).map (fun p => (p, 1)) := by
    unfold tableBlocks
    rw [List.map_map]
    refine List.map_congr_left ?_
    intro p hp
    exact toBlock_pageAddr m (by have := List.mem_range.mp hp; omega) 1
  refine ⟨hps, hc, ?_, ?_⟩
  · intro b hb
    obtain ⟨p, hp, rfl⟩ := List.mem_map.mp hb
    have hlt := List.mem_range.mp hp
    exact ⟨p, by dsimp only; omega, rfl, by dsimp only; omega⟩
  · dsimp only
    rw [hblocks]
    constructor
    · intro b hb q hq _
      obtain ⟨p, hp, rfl⟩ := List.mem_map.mp hb
      obtain ⟨h1, h2⟩ := hq
      obtain rfl : q = p := by
        dsimp only at h1 h2
        omega
      exact hm q (List.mem_range.mp hp)
    · refine List.pairwise_map.mpr (List.Pairwise.imp ?_ List.pairwise_lt_range)
      rintro p q hlt x - ⟨⟨h1, h2⟩, ⟨h3, h4⟩⟩
      dsimp only at h1 h2 h3 h4
      omega

/-- No page is left, and nothing has been handed out. -/
structure Exhausted (s : System) : Prop where
  full : ∀ p < s.mmu.alloc.bitmap.count, Marked s.mmu.alloc p
  live : s.live = []
  dirs : s.dirs = []

section Boot

/-- The kernel's own table lies below 1 MB and is not at 0. -/
theorem kernelTable_low (l : Layout) :
    0 < l.kernelTable.toNat ∧ l.kernelTable.toNat < 256 := by
  have h1 := l.etext_ge
  have h2 := l.sdata_ge
  have h3 := l.table_ge
  have h4 := l.table_lt
  omega

variable (l : Layout) (mem : Frames) (bits : Nat → BitVec 8)

/-- **THE BOOT** maps the frames up to 20 MB, or leaves no page to hand out. -/
theorem booted_inv (total : Word) :
    Inv l.kernelTable (booted l mem bits total) ∨
      Exhausted (booted l mem bits total) := by
  obtain ⟨k, hk, hin, hf⟩ := boot_inOrder l mem bits total
  have hsame := (createKernelTable_grows l (memoryReady mem bits total)).range
  rcases hf with hf | ⟨hcount, -⟩
  · refine Or.inl ⟨kernelTable_low l, hin.range, (createKernelTable_spec l _ hf).1,
      fun a h1 h2 => boot_identity hf hin h1 h2, ?_, ?_, ?_, ?_⟩
    · intro i hp
      have hlt := (hin.present i).mp hp
      omega
    · intro d hd
      exact nomatch hd
    · have hm : ∀ p < k, Marked (booted l mem bits total).mmu.alloc p :=
        fun p hp => (hin.marked p (Nat.lt_of_lt_of_le hp hin.le_count)).mpr hp
      refine ⟨tableBlocks (booted l mem bits total).mmu.alloc k,
        tableBlocks_sound hsame.2.1 hin.range.count_lt hin.le_count hm, ?_⟩
      rintro f (hf | ⟨d, hd, i, hp, ht⟩)
      · exact Or.inl (List.mem_singleton.mp hf)
      · have hdK : d = l.kernelTable := List.mem_singleton.mp hd
        rw [hdK] at hp ht
        have hlt := (hin.present i).mp hp
        refine Or.inr ⟨i.toNat, Nat.lt_of_lt_of_le hlt hin.le_count, ?_, ?_⟩
        · rw [← ht]
          exact hin.frames i hp
        · exact List.mem_map.mpr ⟨i.toNat, List.mem_range.mpr hlt, rfl⟩
    · rintro a (⟨b, hb, -⟩ | ⟨d, hd, -⟩)
      · exact nomatch hb
      · exact nomatch hd
  -- with fewer than five pages the tables of `kernel_table` take them all
  · refine Or.inr ⟨?_, rfl, rfl⟩
    intro p hp
    refine (hin.marked p hp).mpr ?_
    have hcount' : (booted l mem bits total).mmu.alloc.bitmap.count
        = (memoryReady mem bits total).alloc.bitmap.count := hsame.1
    omega

end Boot

section Run

variable {K : Frame} {s s' : System}

/-- Where nothing is handed out everything handed out is mapped. -/
theorem Exhausted.allMapped (h : Exhausted s) : AllMapped K s := by
  rintro a (⟨b, hb, -⟩ | ⟨d, hd, -⟩)
  · rw [h.live] at hb
    exact nomatch hb
  · rw [h.dirs] at hd
    exact nomatch hd

/-- Without a page every request is turned down. -/
theorem Exhausted.not_firstFit (h : Exhausted s) {start n i : Nat} (hn : 1 ≤ n) :
    ¬ FirstFit (Marked s.mmu.alloc) s.mmu.alloc.bitmap.count start n i := by
  intro hfit
  have hi := hfit.lt_bound
  exact hfit.fits i ⟨Nat.le_refl i, by dsimp only; omega⟩ hi (h.full i hi)

/-- A system without free pages stays so and hands nothing out. -/
theorem Exhausted.step_within {o : Op} (h : Exhausted s)
    (hs : step K o s = some s') : Exhausted s' ∧ WithinReach o s := by
  cases o with
  | kalloc n =>
      obtain ⟨hn, rfl⟩ := step_kalloc hs
      rw [kallocPages_full hn h.full, handOut_zero n]
      refine ⟨h, Or.inr fun i _ hlt hfits => ?_⟩
      obtain ⟨i', hfit⟩ := FirstFit.exists (Nat.zero_le i) hlt hfits
      exact h.not_firstFit hn hfit
  | ualloc n =>
      obtain ⟨hn, rfl⟩ := step_ualloc hs
      rw [uallocPages_full hn h.full, handOut_zero n]
      exact ⟨h, Or.inr fun i hfit => h.not_firstFit hn hfit⟩
  | kfree b =>
      obtain ⟨hb, -⟩ := step_kfree hs
      rw [h.live] at hb
      exact nomatch hb
  | createPageTable =>
      refine ⟨?_, Or.inr fun i hfit => h.not_firstFit (Nat.le_refl 1) hfit⟩
      rcases step_create hs with ⟨i, hfit, -⟩ | ⟨-, rfl⟩
      · exact absurd hfit (h.not_firstFit (Nat.le_refl 1))
      · have halloc := createPageTable_alloc K s.mmu
        rw [uallocPages_full (Nat.le_refl 1) h.full] at halloc
        refine ⟨?_, h.live, h.dirs⟩
        dsimp only
        rw [halloc]
        exact h.full

/-- What a run keeps: the map, or that there is nothing to map. -/
def Ready (K : Frame) (s : System) : Prop := Inv K s ∨ Exhausted s

/-- A step within reach leaves a system that is ready. -/
theorem Ready.next {o : Op} (h : Ready K s) (hok : WithinReach o s)
    (hs : step K o s = some s') : Ready K s' := by
  rcases h with h | h
  · exact Or.inl (step_inv h hok hs)
  · exact Or.inr (h.step_within hs).1

/-- A step after which all is mapped was within reach. -/
theorem Ready.within {o : Op} (h : Ready K s)
    (hc : s.mmu.alloc.bitmap.count ≤ 2 ^ 20 - 256) (hs : step K o s = some s')
    (hm : AllMapped K s') : WithinReach o s := by
  rcases h with h | h
  · exact within_of_allMapped h hc hs hm
  · exact (h.step_within hs).2

/-- In a system that is ready all is mapped. -/
theorem Ready.allMapped (h : Ready K s) : AllMapped K s :=
  h.elim Inv.allMapped Exhausted.allMapped

end Run

/-- **ALL MAPPED** after every step of a run within reach; and as long as the
    managed range does not wrap, no other run leaves everything mapped. -/
theorem mapped_iff (l : Layout) (mem : Frames) (bits : Nat → BitVec 8)
    (total : Word) (os : List Op) (s : System) :
    (Run (step l.kernelTable) WithinReach (booted l mem bits total) os s →
      Run (step l.kernelTable) (MappedAfter l.kernelTable)
        (booted l mem bits total) os s) ∧
    (0x100000 ≤ total.toNat →
      Run (step l.kernelTable) (MappedAfter l.kernelTable)
        (booted l mem bits total) os s →
      Run (step l.kernelTable) WithinReach (booted l mem bits total) os s) := by
  have h0 : Ready l.kernelTable (booted l mem bits total) :=
    booted_inv l mem bits total
  constructor
  · intro h
    refine h.mono_invariant h0 (fun _ _ _ hp hok hs => hp.next hok hs) ?_
    intro o s s' hp hs hok s'' hs''
    exact (hp.next hok hs'').allMapped
  · intro ht h
    have hcount : (booted l mem bits total).mmu.alloc.bitmap.count ≤ 2 ^ 20 - 256 := by
      have hlt := total.isLt
      show (createKernelTable l (memoryReady mem bits total)).alloc.bitmap.count ≤ _
      rw [boot_count l mem bits ht]
      omega
    refine h.mono_invariant
      (P := fun s => Ready l.kernelTable s ∧ s.mmu.alloc.bitmap.count ≤ 2 ^ 20 - 256)
      ⟨h0, hcount⟩ ?_ ?_
    · rintro o s s' ⟨hp, hc⟩ hok hs
      refine ⟨hp.next (hp.within hc hs (hok s' hs)) hs, ?_⟩
      rw [(step_sameRange hs).1]
      exact hc
    · rintro o s s' ⟨hp, hc⟩ hs hok
      exact hp.within hc hs (hok s' hs)

section Large

variable (l : Layout) (mem : Frames) (bits : Nat → BitVec 8) {total : Word}

/-- With memory above 2 MB the user pages start free. -/
theorem booted_ualloc (ht : 0x201000 ≤ total.toNat) {n : Nat} (hn : 1 ≤ n) :
    uallocPages (booted l mem bits total).mmu.alloc n
      = (pageAddr (booted l mem bits total).mmu.alloc 256,
          marking (booted l mem bits total).mmu.alloc 256 n) := by
  obtain ⟨k, hk, hin, -⟩ := boot_inOrder l mem bits total
  refine uallocPages_behind hk hin.marked ?_ hn
  rw [boot_count l mem bits (by omega)]
  omega

/-- Boot establishes the invariant where memory reaches beyond the tables. -/
theorem booted_inv_large (ht : 0x201000 ≤ total.toNat) :
    Inv l.kernelTable (booted l mem bits total) := by
  refine (booted_inv l mem bits total).resolve_right fun hfull => ?_
  have hrange : FromOneMb (booted l mem bits total).mmu.alloc := by
    obtain ⟨k, -, hin, -⟩ := boot_inOrder l mem bits total
    exact hin.range
  have hsome := booted_ualloc l mem bits ht (Nat.le_refl 1)
  rw [uallocPages_full (Nat.le_refl 1) hfull.full] at hsome
  have haddr := (hrange.addr_eq_zero (by omega)).mp (congrArg Prod.fst hsome).symm
  omega

end Large

/-- With 128 MB, a block of 4609 pages from 2 MB on reaches the page at 20 MB,
    which is not mapped. -/
theorem past_twenty_mb : ¬ ∀ (l : Layout) (mem : Frames) (bits : Nat → BitVec 8)
    (total : Word) (os : List Op) (s : System),
    Run (step l.kernelTable) (fun _ _ => True) (booted l mem bits total) os s →
    AllMapped l.kernelTable s := by
  intro hall
  have ht : 0x201000 ≤ (0x8000000 : Word).toNat := by decide
  have h := booted_inv_large smallKernel (fun _ _ => 0) (fun _ => 0) ht
  have halloc := booted_ualloc smallKernel (fun _ _ => 0) (fun _ => 0) ht
    (n := 4609) (by omega)
  have hstep : step smallKernel.kernelTable (.ualloc 4609)
      (booted smallKernel (fun _ _ => 0) (fun _ => 0) 0x8000000)
      = some (handOut (uallocPages (booted smallKernel (fun _ _ => 0) (fun _ => 0)
          0x8000000).mmu.alloc 4609) 4609
          (booted smallKernel (fun _ _ => 0) (fun _ => 0) 0x8000000)) := by
    simp only [step]
    exact if_pos (by omega)
  have hrun : Run _ (fun _ _ => True) _ _ _ := Run.single trivial hstep
  have hm := hall _ _ _ _ _ _ hrun
  rw [halloc] at hm
  have hend := h.end_le (by omega) (by omega) hm
  have hle := limit_le (booted smallKernel (fun _ _ => 0) (fun _ => 0) 0x8000000).dirs
  omega

end LittleOS.Addressable
