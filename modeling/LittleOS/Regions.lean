import LittleOS.MemoryBlocks

/-! # The kernel's megabyte and the user's memory

    `memory_init` and the linker script set 1 MB to 2 MB apart for
    `kalloc_pages` and what lies above for `ualloc_pages`.  Both search one
    bitmap: the kernel side from page 0, and its check on the page found is
    against 1023, not against page 256 of the boundary.

    * `Separated` — the block a request gets lies in its region;
    * `RoomLeft` — there is room in the region for the request, or it is turned
      down;
    * `separated_iff` — the one at every step of a run, exactly if the other. -/

namespace LittleOS.Regions

open Runs Intervals PageBitmap Memory MemoryBlocks

/-- After `memory_init`. -/
def boot (bits : Nat → BitVec 8) (totalMemSize : BitVec 32) : Blocks where
  alloc := memoryInit bits totalMemSize
  live := []

/-! ## Where a block lies -/

/-- The page lies in `[MEM_KERNELFREE_START, MEM_KERNELFREE_END)`. -/
def KernelPage (a : BitVec 32) : Prop :=
  memKernelfreeStart.toNat ≤ a.toNat ∧
  a.toNat + memPageSize.toNat ≤ memKernelfreeEnd.toNat

/-- The page lies at or above `MEM_USERFREE_START`. -/
def UserPage (a : BitVec 32) : Prop := memUserfreeStart.toNat ≤ a.toNat

/-- Every page of the block that the request returns is in its region. -/
def Separated : Op → Blocks → Prop
  | .kalloc n, s => (kallocPages s.alloc n).1 ≠ 0 →
      ∀ j < n, KernelPage (blockPage (kallocPages s.alloc n).1 j)
  | .ualloc n, s => (uallocPages s.alloc n).1 ≠ 0 →
      ∀ j < n, UserPage (blockPage (uallocPages s.alloc n).1 j)
  | .kfree _, _ => True

/-- `n` adjoining free pages between the indices. -/
def Room (m : AddrAlloc) (start limit n : Nat) : Prop :=
  ∃ i, start ≤ i ∧ i + n ≤ limit ∧ i < m.bitmap.count ∧
    Fits (Marked m) m.bitmap.count (i, n)

/-- The kernel's megabyte is the pages below 256, the address space ends with
    page `2 ^ 20 - 256`; a request that does not fit there gets nothing. -/
def RoomLeft : Op → Blocks → Prop
  | .kalloc n, s => Room s.alloc 0 256 n ∨
      ∀ i < 1023, i < s.alloc.bitmap.count →
        ¬ Fits (Marked s.alloc) s.alloc.bitmap.count (i, n)
  | .ualloc n, s => Room s.alloc userIndex (2 ^ 20 - 256) n ∨
      -- the one place whose address wraps to 0
      ∀ i, FirstFit (Marked s.alloc) s.alloc.bitmap.count userIndex n i →
        i = 2 ^ 20 - 256
  | .kfree _, _ => True

/-! ## Where the pages of a block lie -/

section Range

variable {m : AddrAlloc} {i n : Nat}

/-- A block from below page 1023 on. -/
theorem kernelPages_iff (h : FromOneMb m) (hi : i < 1023)
    (hn : 1 ≤ n) :
    (∀ j < n, KernelPage (blockPage (pageAddr m i) j)) ↔ i + n ≤ 256 := by
  have hstart : memKernelfreeStart.toNat = 0x100000 := rfl
  have hend : memKernelfreeEnd.toNat = 0x200000 := rfl
  constructor
  · intro hall
    by_contra hlt
    -- its first page outside
    have hpage := hall (256 - i) (by omega)
    unfold KernelPage at hpage
    rw [h.page_toNat, memPageSize_toNat] at hpage
    omega
  · intro hle j hj
    unfold KernelPage
    rw [h.page_toNat, memPageSize_toNat]
    omega

/-- A block from the user's pages. -/
theorem userPages_iff (h : FromOneMb m) (hu : 256 ≤ i)
    (hi : i < 2 ^ 20) (hn : 1 ≤ n) :
    (∀ j < n, UserPage (blockPage (pageAddr m i) j)) ↔ i + n ≤ 2 ^ 20 - 256 := by
  have hstart : memUserfreeStart.toNat = 0x200000 := rfl
  constructor
  · intro hall
    by_contra hlt
    -- the first page past the address space
    have hpage := hall (2 ^ 20 - 256 - i) (by omega)
    unfold UserPage at hpage
    rw [h.page_toNat] at hpage
    omega
  · intro hle j hj
    unfold UserPage
    rw [h.page_toNat]
    omega

/-- There is room exactly when the lowest place that fits has it. -/
theorem room_iff {start limit : Nat}
    (hfit : FirstFit (Marked m) m.bitmap.count start n i) :
    Room m start limit n ↔ i + n ≤ limit := by
  constructor
  · rintro ⟨i', hle, hlim, -, hfits⟩
    have hfirst := hfit.le hle hfits
    omega
  · intro hle
    exact ⟨i, hfit.start_le, hle, hfit.lt_bound, hfit.fits⟩

end Range

/-! ## The two requests -/

section Request

variable {s : Blocks} {n : Nat}

/-- A kernel's request stays in the kernel's part exactly where there is room for it. -/
theorem kalloc_separated_iff (h : FromOneMb s.alloc) (hn : 1 ≤ n) :
    Separated (.kalloc n) s ↔ RoomLeft (.kalloc n) s := by
  by_cases hex : ∃ i < 1023, FirstFit (Marked s.alloc) s.alloc.bitmap.count 0 n i
  · obtain ⟨i, hi, hfit⟩ := hex
    have hcount := h.count_lt
    have h0 : pageAddr s.alloc i ≠ 0 := by
      rw [Ne, h.addr_eq_zero (by omega)]
      omega
    have hserved : ¬ ∀ i < 1023, i < s.alloc.bitmap.count →
        ¬ Fits (Marked s.alloc) s.alloc.bitmap.count (i, n) :=
      fun hno => hno i hi hfit.lt_bound hfit.fits
    simp only [Separated, RoomLeft]
    rw [kallocPages_of_firstFit hn hfit hi, or_iff_left hserved, room_iff hfit,
      ← kernelPages_iff h hi hn]
    exact imp_iff_right h0
  · have hnone : (kallocPages s.alloc n).1 = 0 := by
      rcases kallocPages_spec s.alloc hn with he | ⟨i, hfit, he⟩
      · rw [he]
      · rw [he]
        exact if_pos (Nat.le_of_not_lt fun hlt => hex ⟨i, hlt, hfit⟩)
    refine iff_of_true (fun hne => absurd hnone hne) (Or.inr ?_)
    intro i hi hlt hfits
    obtain ⟨i', hfit⟩ := FirstFit.exists (Nat.zero_le i) hlt hfits
    exact hex ⟨i', Nat.lt_of_le_of_lt (hfit.le (Nat.zero_le i) hfits) hi, hfit⟩

/-- A user's request stays in the user's part exactly where there is room for it. -/
theorem ualloc_separated_iff (h : FromOneMb s.alloc) (hn : 1 ≤ n) :
    Separated (.ualloc n) s ↔ RoomLeft (.ualloc n) s := by
  have hu : userIndex = 256 := by decide
  by_cases hex : ∃ i, FirstFit (Marked s.alloc) s.alloc.bitmap.count userIndex n i
  · obtain ⟨i, hfit⟩ := hex
    have hlt : i < 2 ^ 20 := Nat.lt_trans hfit.lt_bound h.count_lt
    have hle := hfit.start_le
    simp only [Separated, RoomLeft]
    rw [uallocPages_of_firstFit hn hfit, room_iff hfit, Ne,
      h.addr_eq_zero hlt]
    by_cases hwrap : i = 2 ^ 20 - 256
    · refine iff_of_true (fun hne => absurd hwrap hne) (Or.inr ?_)
      intro i' hfit'
      rw [hfit'.unique hfit, hwrap]
    · have hserved : ¬ ∀ i, FirstFit (Marked s.alloc) s.alloc.bitmap.count
          userIndex n i → i = 2 ^ 20 - 256 := fun hall => hwrap (hall i hfit)
      rw [or_iff_left hserved, ← userPages_iff h (by omega) hlt hn]
      exact imp_iff_right hwrap
  · have hnone : (uallocPages s.alloc n).1 = 0 := by
      rcases uallocPages_spec s.alloc hn with he | ⟨i, hfit, -⟩
      · rw [he]
      · exact absurd ⟨i, hfit⟩ hex
    refine iff_of_true (fun hne => absurd hnone hne) (Or.inr ?_)
    intro i hfit
    exact absurd ⟨i, hfit⟩ hex

end Request

/-! ## Runs -/

/-- A request that is taken asks for a page at least. -/
theorem step_separated_iff {o : Op} {s s' : Blocks} (h : FromOneMb s.alloc)
    (hs : step o s = some s') : Separated o s ↔ RoomLeft o s := by
  cases o with
  | kalloc n =>
      by_cases hn : 1 ≤ n ∧ n < 2 ^ 31
      · exact kalloc_separated_iff h hn.1
      · simp only [step, if_neg hn] at hs
        cases hs
  | ualloc n =>
      by_cases hn : 1 ≤ n ∧ n < 2 ^ 31
      · exact ualloc_separated_iff h hn.1
      · simp only [step, if_neg hn] at hs
        cases hs
  | kfree b => exact iff_of_true trivial trivial

/-- A block handed out is no part of the allocator. -/
theorem handOut_alloc (r : BitVec 32 × AddrAlloc) (n : Nat) (s : Blocks) :
    (handOut r n s).alloc = r.2 := rfl

/-- No request changes the range. -/
theorem step_sameRange {o : Op} {s s' : Blocks} (hs : step o s = some s') :
    SameRange s.alloc s'.alloc := by
  cases o with
  | kalloc n =>
      by_cases hn : 1 ≤ n ∧ n < 2 ^ 31
      · simp only [step, if_pos hn] at hs
        obtain rfl := Option.some.inj hs
        rw [handOut_alloc]
        exact (kallocPages_grows s.alloc hn.1).range
      · simp only [step, if_neg hn] at hs
        cases hs
  | ualloc n =>
      by_cases hn : 1 ≤ n ∧ n < 2 ^ 31
      · simp only [step, if_pos hn] at hs
        obtain rfl := Option.some.inj hs
        rw [handOut_alloc]
        exact (uallocPages_grows s.alloc hn.1).range
      · simp only [step, if_neg hn] at hs
        cases hs
  | kfree b =>
      by_cases hb : b ∈ s.live
      · simp only [step, if_pos hb] at hs
        obtain rfl := Option.some.inj hs
        exact kfreePages_sameRange s.alloc b.1 b.2
      · simp only [step, if_neg hb] at hs
        cases hs

/-- **SEPARATE REGIONS** in a run, exactly if every request of the run finds
    room in its region or is turned down. -/
theorem separated_iff (bits : Nat → BitVec 8) (totalMemSize : BitVec 32)
    (os : List Op) (s : Blocks) :
    Run step Separated (boot bits totalMemSize) os s ↔
      Run step RoomLeft (boot bits totalMemSize) os s := by
  have h0 : FromOneMb (boot bits totalMemSize).alloc := memoryInit_fromOneMb _ _
  constructor
  · intro h
    exact h.mono_invariant (P := fun s => FromOneMb s.alloc) h0
      (fun _ _ _ hp _ hs => hp.of_sameRange (step_sameRange hs))
      (fun _ _ _ hp hs => (step_separated_iff hp hs).mp)
  · intro h
    exact h.mono_invariant (P := fun s => FromOneMb s.alloc) h0
      (fun _ _ _ hp _ hs => hp.of_sameRange (step_sameRange hs))
      (fun _ _ _ hp hs => (step_separated_iff hp hs).mpr)

/-- After `memory_init` of 128 MB. -/
def boot128 : Blocks := boot (fun _ => 0) 0x8000000

/-- The number of pages of 128 MB. -/
theorem boot128_count : boot128.alloc.bitmap.count = 0x7F00 := by decide

/-- The first request gets the pages from 1 MB on. -/
theorem boot128_kalloc {n : Nat} (hn : 1 ≤ n) :
    kallocPages boot128.alloc n
      = (pageAddr boot128.alloc 0, marking boot128.alloc 0 n) := by
  have hcount := boot128_count
  refine kallocPages_of_firstFit hn ⟨Nat.le_refl 0, by omega, ?_, ?_⟩ (by omega)
  · intro p _ hp
    exact not_isSet_init hp
  · intro s' _ hlt
    exact absurd hlt (Nat.not_lt_zero s')

/-- With 128 MB, a first request of 257 pages reaches past 2 MB. -/
theorem straddling_request : ¬ ∀ (bits : Nat → BitVec 8) (totalMemSize : BitVec 32)
    (os : List Op) (s : Blocks),
    Run step (fun _ _ => True) (boot bits totalMemSize) os s →
    Run step Separated (boot bits totalMemSize) os s := by
  intro hall
  have hrange : FromOneMb boot128.alloc :=
    memoryInit_fromOneMb (fun _ => 0) 0x8000000
  have hstep : step (.kalloc 257) boot128
      = some (handOut (kallocPages boot128.alloc 257) 257 boot128) := by
    simp only [step]
    exact if_pos (by omega)
  have hrun : Run step Separated boot128 ([] ++ [.kalloc 257]) _ :=
    hall (fun _ => 0) 0x8000000 _ _ (Run.single trivial hstep)
  obtain ⟨s, hnil, hsep, -⟩ := Run.last hrun
  obtain rfl := Run.nil_iff.mp hnil
  have hr := boot128_kalloc (n := 257) (by omega)
  have h0 : pageAddr boot128.alloc 0 ≠ 0 := by decide
  have hpages : ∀ j < 257, KernelPage (blockPage (pageAddr boot128.alloc 0) j) := by
    have hsep' : (kallocPages boot128.alloc 257).1 ≠ 0 → ∀ j < 257,
        KernelPage (blockPage (kallocPages boot128.alloc 257).1 j) := hsep
    rw [hr] at hsep'
    exact hsep' h0
  have hle := (kernelPages_iff hrange (by omega) (by omega)).mp hpages
  omega

end LittleOS.Regions
