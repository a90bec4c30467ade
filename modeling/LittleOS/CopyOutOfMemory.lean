import LittleOS.FreePages
import LittleOS.KernelMap
import LittleOS.CopyTurns

/-! # `copy_pagetable` out of memory

    Whether the copy stands a failed allocation is settled before it begins.  With
    the pages that `dir` maps and the free pages counted, `OnlyTables` says that the
    first request in vain is one for a page table, that there is a page for every
    copy before it, and that each copy from then on has a page or nothing to copy
    from.

    * `Served` — as long as every request is served;
    * `RunOut` — from the first page table that is not there;
    * `onlyTables_iff` — the two together;
    * `contained_iff` — which calls stand a failed allocation. -/

namespace LittleOS.OutOfMemory

open TwoLevel Turns Memory PageTable AddressSpaces KernelBoot SharedTable AddressLookup
  AllocatedTables FreePages

/-! ## Requests -/

section Requests

variable (mem : Frames) (dir : Frame)

/-- The pages that `dir` maps behind entry `i`, before entry `j` of the table. -/
def mapsIn (i j : Nat) : Nat := Nat.count (Maps mem dir i) j

/-- And behind the entries before `i`. -/
def mapsBefore : Nat → Nat
  | 0 => 0
  | i + 1 => mapsBefore i + mapsIn mem dir i 1024

/-- The new directory has no page table at `i`, and a page is mapped there. -/
def NeedsTable (i : Nat) : Prop := userPdeStart < i ∧ 0 < mapsIn mem dir i 1024

instance (i : Nat) : Decidable (NeedsTable mem dir i) := inferInstanceAs (Decidable (_ ∧ _))

/-- The tables that the entries below this one need. -/
def tablesBefore (i : Nat) : Nat := Nat.count (NeedsTable mem dir) i

end Requests

/-- The pages of the user that are taken before entry `i` if every request gets one:
    the directory, the copies, and the page tables that are more than the kernel has
    pages for. -/
def takenBefore (dir : Frame) (m : Mmu) (i : Nat) : Nat :=
  1 + mapsBefore m.mem dir i + (tablesBefore m.mem dir i - kernelFree m.alloc)

/-- There is a page for the table at `i`, behind the first copy. -/
def TableServed (dir : Frame) (m : Mmu) (i : Nat) : Prop :=
  tablesBefore m.mem dir i < kernelFree m.alloc ∨ takenBefore dir m i + 1 < lowFree m.alloc

/-- Only page tables are missing: the one at `i` is the first, there are pages for
    all that comes before, and from then on a page that is not there, each copy and
    its table taking one, is not mapped in CR3 either. -/
structure OnlyTables (cr3 dir : Frame) (m : Mmu) (i : Nat) : Prop where
  lt : i < 1024
  needs : NeedsTable m.mem dir i
  missing : ¬ TableServed dir m i
  first : ∀ k < i, NeedsTable m.mem dir k → TableServed dir m k
  pages : takenBefore dir m i ≤ userFree m.alloc
  rest : ∀ k j, i ≤ k → k < 1024 → j < 1024 → Maps m.mem dir k j →
    takenBefore dir m i
        + 2 * (mapsBefore m.mem dir k + mapsIn m.mem dir k j - mapsBefore m.mem dir i)
      < userFree m.alloc ∨ ¬ Maps m.mem cr3 k j

/-- The calls that stand a failed allocation. -/
def Harmless (K : Frame) : Call → Mmu → Prop
  | .findPte _ _, _ => True
  | .vaddr2paddr dir vaddr paddr count perm, m => MapsNothing K dir vaddr paddr count perm m
  | .createPageTable, _ => False
  | .copyPagetable cr3 dir, m => ∃ i, OnlyTables cr3 dir m i

/-! ## As long as every request is served -/

section Served

variable {K D cr3 dir : Frame} {ds : List Frame} {m₀ m₁ m : Mmu} {i j : Nat}

/-- A page more where the entry maps one. -/
theorem mapsIn_succ (mem : Frames) (dir : Frame) (i j : Nat) :
    mapsIn mem dir i (j + 1) = mapsIn mem dir i j + if Maps mem dir i j then 1 else 0 :=
  Nat.count_succ ..

/-- The pages of a table add up. -/
theorem mapsIn_mono {mem : Frames} {k : Nat} (h : j ≤ k) :
    mapsIn mem dir i j ≤ mapsIn mem dir i k := Nat.count_monotone _ h

/-- The pages of the tables add up. -/
theorem mapsBefore_mono {mem : Frames} {k : Nat} (h : i ≤ k) :
    mapsBefore mem dir i ≤ mapsBefore mem dir k := by
  induction h with
  | refl => exact Nat.le_refl _
  | step _ ih => exact Nat.le_trans ih (Nat.le_add_right _ _)

/-- The tables that are made before entry `j` of the table at `i`. -/
def tablesAt (mem : Frames) (dir : Frame) (i j : Nat) : Nat :=
  tablesBefore mem dir i + if userPdeStart < i ∧ 0 < mapsIn mem dir i j then 1 else 0

/-- The pages that the copy has taken from the user's part when it comes to an entry. -/
def takenAt (dir : Frame) (m : Mmu) (i j : Nat) : Nat :=
  1 + mapsBefore m.mem dir i + mapsIn m.mem dir i j
    + (tablesAt m.mem dir i j - kernelFree m.alloc)

/-- The first entry of a table counts for nothing. -/
theorem tablesAt_zero (mem : Frames) (dir : Frame) (i : Nat) :
    tablesAt mem dir i 0 = tablesBefore mem dir i := by
  unfold tablesAt
  rw [if_neg (fun hc => absurd hc.2 (by simp [mapsIn]))]
  rfl

/-- Behind its last entry a table counts as a whole. -/
theorem tablesAt_next (mem : Frames) (dir : Frame) (i : Nat) :
    tablesAt mem dir i 1024 = tablesAt mem dir (i + 1) 0 := by
  rw [tablesAt_zero]
  exact (Nat.count_succ ..).symm

/-- Likewise for the pages taken, before the first entry. -/
theorem takenAt_zero (dir : Frame) (m : Mmu) (i : Nat) :
    takenAt dir m i 0 = takenBefore dir m i := by
  unfold takenAt takenBefore
  rw [tablesAt_zero]
  simp [mapsIn]

/-- And behind the last one. -/
theorem takenAt_next (dir : Frame) (m : Mmu) (i : Nat) :
    takenAt dir m i 1024 = takenAt dir m (i + 1) 0 := by
  unfold takenAt
  rw [tablesAt_next, mapsBefore]
  simp [mapsIn]
  omega

/-- What is free before entry `j` of the table at `i`, and which entries the new
    directory has. -/
structure Served (D dir : Frame) (m₀ : Mmu) (i j : Nat) (m : Mmu) : Prop where
  kernel : kernelFree m.alloc = kernelFree m₀.alloc - tablesAt m₀.mem dir i j
  low : lowFree m.alloc = lowFree m₀.alloc - takenAt dir m₀ i j
  user : userFree m.alloc = userFree m₀.alloc - takenAt dir m₀ i j
  enough : takenAt dir m₀ i j ≤ userFree m₀.alloc
  entries : ∀ x < 1024, Present (m.mem D (BitVec.ofNat 10 x)) ↔
    x ≤ userPdeStart ∨ x < i ∧ 0 < mapsIn m₀.mem dir x 1024 ∨
      x = i ∧ 0 < mapsIn m₀.mem dir i j

/-- An entry that is not copied changes nothing. -/
theorem Served.skip (h : Served D dir m₀ i j m) (hno : ¬ Maps m₀.mem dir i j) :
    Served D dir m₀ i (j + 1) m := by
  have hin : mapsIn m₀.mem dir i (j + 1) = mapsIn m₀.mem dir i j := by
    rw [mapsIn_succ, if_neg hno, Nat.add_zero]
  have htables : tablesAt m₀.mem dir i (j + 1) = tablesAt m₀.mem dir i j := by
    unfold tablesAt
    rw [hin]
  have htaken : takenAt dir m₀ i (j + 1) = takenAt dir m₀ i j := by
    unfold takenAt
    rw [hin, htables]
  refine ⟨?_, ?_, ?_, ?_, ?_⟩
  · rw [htables]; exact h.kernel
  · rw [htaken]; exact h.low
  · rw [htaken]; exact h.user
  · rw [htaken]; exact h.enough
  · rw [hin]; exact h.entries

/-- The copy goes on to the next table. -/
theorem Served.next (h : Served D dir m₀ i 1024 m) : Served D dir m₀ (i + 1) 0 m := by
  refine ⟨?_, ?_, ?_, ?_, fun x hx => (h.entries x hx).trans ?_⟩
  · rw [← tablesAt_next]; exact h.kernel
  · rw [← takenAt_next]; exact h.low
  · rw [← takenAt_next]; exact h.user
  · rw [← takenAt_next]; exact h.enough
  · have hnone : ¬ 0 < mapsIn m₀.mem dir (i + 1) 0 := by simp [mapsIn]
    constructor
    · rintro (hx | ⟨hx, hin⟩ | ⟨rfl, hin⟩)
      · exact Or.inl hx
      · exact Or.inr (Or.inl ⟨by omega, hin⟩)
      · exact Or.inr (Or.inl ⟨Nat.lt_succ_self x, hin⟩)
    · rintro (hx | ⟨hx, hin⟩ | ⟨-, hin⟩)
      · exact Or.inl hx
      · rcases Nat.lt_succ_iff_lt_or_eq.mp hx with hlt | rfl
        · exact Or.inr (Or.inl ⟨hlt, hin⟩)
        · exact Or.inr (Or.inr ⟨rfl, hin⟩)
      · exact absurd hin hnone

/-- The table at `i` is there, from the start or with the first page. -/
theorem Served.present_iff (h : Served D dir m₀ i j m) (hi : i < 1024) :
    Present (m.mem D (BitVec.ofNat 10 i)) ↔
      i ≤ userPdeStart ∨ 0 < mapsIn m₀.mem dir i j := by
  rw [h.entries i hi]
  constructor
  · rintro (hc | ⟨hc, -⟩ | ⟨-, hc⟩)
    · exact Or.inl hc
    · exact absurd hc (Nat.lt_irrefl i)
    · exact Or.inr hc
  · rintro (hc | hc)
    · exact Or.inl hc
    · exact Or.inr (Or.inr ⟨rfl, hc⟩)

/-- Before a table is made: nothing has been copied behind its entry. -/
theorem takenAt_first (h : mapsIn m₀.mem dir i j = 0) :
    tablesAt m₀.mem dir i j = tablesBefore m₀.mem dir i ∧
      takenAt dir m₀ i j = takenBefore dir m₀ i := by
  have htables : tablesAt m₀.mem dir i j = tablesBefore m₀.mem dir i := by
    unfold tablesAt
    rw [h, if_neg (fun hc => absurd hc.2 (Nat.lt_irrefl 0)), Nat.add_zero]
  refine ⟨htables, ?_⟩
  unfold takenAt takenBefore
  rw [htables, h, Nat.add_zero]

/-- A table that is served gets its page behind the copy. -/
theorem Served.table_given (h : Served D dir m₀ i j m) (hr : ManagedRange m.alloc)
    (hin : mapsIn m₀.mem dir i j = 0) (htable : TableServed dir m₀ i) :
    (kallocPages (uallocPages m.alloc 1).2 1).1 ≠ 0 := by
  obtain ⟨-, hkernel, hlow, -⟩ := uallocPages_free hr
  have hr' := hr.of_sameRange (uallocPages_grows m.alloc (Nat.le_refl 1)).range
  refine (kallocPages_free hr').1.mpr ?_
  obtain ⟨htables, htaken⟩ := takenAt_first hin
  rw [hkernel, hlow, h.kernel, h.low, htables, htaken]
  unfold TableServed at htable
  omega

/-- **ONE TURN** with a page for the copy and, where it has to be made, one for the
    table. -/
theorem Served.turn (h : Served D dir m₀ i j m) (hc : Copying K D ds m₀ m)
    (hdir : dir ∈ K :: ds) (hi : i < 1024) (hj : j < 1024) (hmaps : Maps m₀.mem dir i j)
    (hpage : takenAt dir m₀ i j < userFree m₀.alloc)
    (htable : userPdeStart < i → mapsIn m₀.mem dir i j = 0 → TableServed dir m₀ i) :
    Copying K D ds m₀ (copyEntry cr3 D (frameOf (m₀.mem dir (BitVec.ofNat 10 i))) i m j) ∧
    Served D dir m₀ i (j + 1)
      (copyEntry cr3 D (frameOf (m₀.mem dir (BitVec.ofNat 10 i))) i m j) := by
  have hr := hc.allocated.range
  obtain ⟨hgives, hkernel, hlow, huser⟩ := uallocPages_free hr
  have hr' := hr.of_sameRange (uallocPages_grows m.alloc (Nat.le_refl 1)).range
  obtain ⟨-, hkernel', hlow', huser'⟩ := kallocPages_free hr'
  have hgiven : PageGiven cr3 D i j m :=
    Or.inl (hgives.mpr (by rw [h.user]; omega))
  obtain ⟨hcopy, hentries, halloc⟩ := hc.turn hdir hi hj hmaps hgiven
  have hin : mapsIn m₀.mem dir i (j + 1) = mapsIn m₀.mem dir i j + 1 := by
    rw [mapsIn_succ, if_pos hmaps]
  have hlowle := lowFree_le (a := m₀.alloc)
  have hk := h.kernel
  have hl := h.low
  have hu := h.user
  refine ⟨hcopy, ?_⟩
  unfold turnAlloc at halloc
  by_cases hp : Present (m.mem D (BitVec.ofNat 10 i))
  · -- the table is there
    rw [if_pos hp] at halloc
    have hthere := (h.present_iff hi).mp hp
    have htables : tablesAt m₀.mem dir i (j + 1) = tablesAt m₀.mem dir i j := by
      unfold tablesAt
      rw [hin]
      refine congrArg (_ + ·) (if_congr ?_ rfl rfl)
      constructor
      · rintro ⟨hlt, -⟩
        exact ⟨hlt, hthere.resolve_left (by omega)⟩
      · rintro ⟨hlt, -⟩
        exact ⟨hlt, Nat.succ_pos _⟩
    have htaken : takenAt dir m₀ i (j + 1) = takenAt dir m₀ i j + 1 := by
      unfold takenAt
      rw [htables, hin]
      omega
    refine ⟨?_, ?_, ?_, ?_, fun x hx => ?_⟩
    · rw [halloc, hkernel, hk, htables]
    · rw [halloc, hlow, hl, htaken]
      omega
    · rw [halloc, huser, hu, htaken]
      omega
    · rw [htaken]
      exact hpage
    · rw [hentries, h.entries x hx, hin]
      constructor
      · rintro ((hx | hx | ⟨rfl, -⟩) | ⟨hxi, -⟩)
        · exact Or.inl hx
        · exact Or.inr (Or.inl hx)
        · exact Or.inr (Or.inr ⟨rfl, Nat.succ_pos _⟩)
        · exact Or.inr (Or.inr ⟨slot_inj hx hi hxi, Nat.succ_pos _⟩)
      · rintro (hx | hx | ⟨rfl, -⟩)
        · exact Or.inl (Or.inl hx)
        · exact Or.inl (Or.inr (Or.inl hx))
        · exact Or.inl ((h.entries x hx).mp hp)
  · -- it is made
    rw [if_neg hp] at halloc
    have hnot := mt (h.present_iff hi).mpr hp
    have hlt : userPdeStart < i := by omega
    have hzero : mapsIn m₀.mem dir i j = 0 := by omega
    have hserved := htable hlt hzero
    have hgiven' := h.table_given hr hzero hserved
    obtain ⟨htables, htaken⟩ := takenAt_first hzero
    have htables' : tablesAt m₀.mem dir i (j + 1) = tablesBefore m₀.mem dir i + 1 := by
      unfold tablesAt
      rw [if_pos ⟨hlt, by omega⟩]
    have htaken' : takenAt dir m₀ i (j + 1) = 1 + mapsBefore m₀.mem dir i + 1
        + (tablesBefore m₀.mem dir i + 1 - kernelFree m₀.alloc) := by
      unfold takenAt
      rw [htables', hin, hzero]
    unfold TableServed at hserved
    unfold takenBefore at htaken hserved
    refine ⟨?_, ?_, ?_, ?_, fun x hx => ?_⟩
    · rw [halloc, hkernel', hkernel, hk, htables, htables']
      omega
    · rw [halloc, hlow', hlow, hkernel, hl, hk, htaken, htables, htaken']
      omega
    · rw [halloc, huser', huser, hkernel, hu, hk, htaken, htables, htaken']
      omega
    · omega
    · rw [hentries, h.entries x hx, hin]
      constructor
      · rintro ((hx | hx | ⟨rfl, -⟩) | ⟨hxi, -⟩)
        · exact Or.inl hx
        · exact Or.inr (Or.inl hx)
        · exact Or.inr (Or.inr ⟨rfl, Nat.succ_pos _⟩)
        · exact Or.inr (Or.inr ⟨slot_inj hx hi hxi, Nat.succ_pos _⟩)
      · rintro (hx | hx | ⟨rfl, -⟩)
        · exact Or.inl (Or.inl hx)
        · exact Or.inl (Or.inr (Or.inl hx))
        · exact Or.inr ⟨rfl, hgiven'⟩

end Served
/-! ## When page tables have run out -/

section RunOut

variable {K D cr3 dir : Frame} {ds : List Frame} {m₀ m₁ m : Mmu} {i₀ i j : Nat}

/-- The pages taken since the table at `i₀` failed, two for each copy. -/
def takenSince (dir : Frame) (m : Mmu) (i₀ i j : Nat) : Nat :=
  takenBefore dir m i₀
    + 2 * (mapsBefore m.mem dir i + mapsIn m.mem dir i j - mapsBefore m.mem dir i₀)

/-- Behind the failure: no table can be had any more, and none is there. -/
structure RunOut (D dir : Frame) (m₀ : Mmu) (i₀ i j : Nat) (m : Mmu) : Prop where
  le : i₀ ≤ i
  own : userPdeStart < i₀
  kernel : kernelFree m.alloc = 0
  low : lowFree m.alloc ≤ 1
  user : userFree m.alloc = userFree m₀.alloc - takenSince dir m₀ i₀ i j
  entries : ∀ x < 1024, i₀ ≤ x → ¬ Present (m.mem D (BitVec.ofNat 10 x))

/-- An entry that is not copied changes nothing. -/
theorem RunOut.skip (h : RunOut D dir m₀ i₀ i j m) (hno : ¬ Maps m₀.mem dir i j) :
    RunOut D dir m₀ i₀ i (j + 1) m := by
  have hin : mapsIn m₀.mem dir i (j + 1) = mapsIn m₀.mem dir i j := by
    rw [mapsIn_succ, if_neg hno, Nat.add_zero]
  refine ⟨h.le, h.own, h.kernel, h.low, ?_, h.entries⟩
  unfold takenSince
  rw [hin]
  exact h.user

/-- The copy goes on to the next table. -/
theorem RunOut.next (h : RunOut D dir m₀ i₀ i 1024 m) :
    RunOut D dir m₀ i₀ (i + 1) 0 m := by
  refine ⟨Nat.le_succ_of_le h.le, h.own, h.kernel, h.low, ?_, h.entries⟩
  have huser := h.user
  unfold takenSince at huser ⊢
  rw [mapsBefore]
  simp only [mapsIn, Nat.count_zero, Nat.add_zero] at huser ⊢
  exact huser

/-- A request for a table fails, behind any request for a page. -/
theorem RunOut.table_missing (h : RunOut D dir m₀ i₀ i j m) (hr : ManagedRange m.alloc) :
    (kallocPages (uallocPages m.alloc 1).2 1).1 = 0 := by
  obtain ⟨-, hkernel, hlow, -⟩ := uallocPages_free hr
  have hr' := hr.of_sameRange (uallocPages_grows m.alloc (Nat.le_refl 1)).range
  have hk := h.kernel
  have hl := h.low
  by_contra hne
  have hsome := (kallocPages_free hr').1.mp hne
  rw [hkernel, hlow] at hsome
  omega

/-- **A TURN** spares page 0 then if there is a page for the copy, or CR3 does not
    map the one to copy from. -/
theorem RunOut.pageGiven_iff (h : RunOut D dir m₀ i₀ i j m) (hc : Copying K D ds m₀ m)
    (hcr3 : cr3 ∈ K :: ds) (hi : i < 1024) (hj : j < 1024) :
    PageGiven cr3 D i j m ↔
      takenSince dir m₀ i₀ i j < userFree m₀.alloc ∨ ¬ Maps m₀.mem cr3 i j := by
  have hr := hc.allocated.range
  have hgives := (uallocPages_free hr).1
  rw [h.user] at hgives
  have hwalk : walkAt m.mem cr3 (entryVaddr i j) = none ↔ ¬ Maps m₀.mem cr3 i j := by
    rw [← hc.maps_iff hcr3]
    unfold Maps
    cases walkAt m.mem cr3 (entryVaddr i j) with
    | none => simp
    | some pte => simp
  unfold PageGiven
  rw [vaddrDir_entry hi hj, hgives, hwalk]
  constructor
  · rintro (hpage | ⟨-, -, hno⟩)
    · exact Or.inl (by omega)
    · exact Or.inr hno
  · rintro (hpage | hno)
    · exact Or.inl (by omega)
    · exact Or.inr ⟨h.entries i hi h.le, h.table_missing hr, hno⟩

/-- **ONE TURN** takes two pages, as far as there are any. -/
theorem RunOut.turn (h : RunOut D dir m₀ i₀ i j m) (hc : Copying K D ds m₀ m)
    (hdir : dir ∈ K :: ds) (hi : i < 1024) (hj : j < 1024) (hmaps : Maps m₀.mem dir i j)
    (hgiven : PageGiven cr3 D i j m) :
    Copying K D ds m₀ (copyEntry cr3 D (frameOf (m₀.mem dir (BitVec.ofNat 10 i))) i m j) ∧
    RunOut D dir m₀ i₀ i (j + 1)
      (copyEntry cr3 D (frameOf (m₀.mem dir (BitVec.ofNat 10 i))) i m j) := by
  have hr := hc.allocated.range
  obtain ⟨-, hkernel, hlow, huser⟩ := uallocPages_free hr
  have hr' := hr.of_sameRange (uallocPages_grows m.alloc (Nat.le_refl 1)).range
  obtain ⟨-, hkernel', hlow', huser'⟩ := kallocPages_free hr'
  have hmissing := h.table_missing hr
  obtain ⟨hcopy, hentries, halloc⟩ := hc.turn hdir hi hj hmaps hgiven
  have hk := h.kernel
  have hl := h.low
  have hu := h.user
  have hbefore : mapsBefore m₀.mem dir i₀ ≤ mapsBefore m₀.mem dir i := mapsBefore_mono h.le
  have hsince : takenSince dir m₀ i₀ i (j + 1) = takenSince dir m₀ i₀ i j + 2 := by
    unfold takenSince
    rw [mapsIn_succ, if_pos hmaps]
    omega
  unfold turnAlloc at halloc
  rw [if_neg (h.entries i hi h.le)] at halloc
  refine ⟨hcopy, h.le, h.own, ?_, ?_, ?_, fun x hx hle hp => ?_⟩
  · rw [halloc, hkernel', hkernel, hk]
  · rw [halloc, hlow', hlow]
    omega
  · rw [halloc, huser', huser, hkernel, hk, hu, hsince]
    omega
  · rcases (hentries _).mp hp with hold | ⟨-, hne⟩
    · exact h.entries x hx hle hold
    · exact hne hmissing

/-- The first table that is not served is where it begins. -/
theorem Served.runOut (h : Served D dir m₀ i 0 m) (hneeds : NeedsTable m₀.mem dir i)
    (hmissing : ¬ TableServed dir m₀ i) : RunOut D dir m₀ i i 0 m := by
  have hk := h.kernel
  have hl := h.low
  have hu := h.user
  rw [tablesAt_zero] at hk
  rw [takenAt_zero] at hl hu
  unfold TableServed at hmissing
  refine ⟨Nat.le_refl i, hneeds.1, by omega, by omega, ?_, fun x hx hle hp => ?_⟩
  · rw [hu]
    unfold takenSince
    simp [mapsIn]
  · have hown := hneeds.1
    rcases (h.entries x hx).mp hp with hc | ⟨hc, -⟩ | ⟨-, hc⟩
    · omega
    · omega
    · simp [mapsIn] at hc

end RunOut
/-! ## The whole copy -/

section Copy

variable {K cr3 dir : Frame} {ds : List Frame} {m₀ m₁ m : Mmu} {i j : Nat}

/-- The tables needed add up. -/
theorem tables_mono {mem : Frames} {k : Nat} (h : i ≤ k) :
    tablesBefore mem dir i ≤ tablesBefore mem dir k := Nat.count_monotone _ h

/-- So do the pages taken before a table. -/
theorem takenBefore_mono {k : Nat} (h : i ≤ k) :
    takenBefore dir m i ≤ takenBefore dir m k := by
  have hpages : mapsBefore m.mem dir i ≤ mapsBefore m.mem dir k := mapsBefore_mono h
  have htables : tablesBefore m.mem dir i ≤ tablesBefore m.mem dir k := tables_mono h
  unfold takenBefore
  omega

/-- And those taken before an entry. -/
theorem takenAt_mono {k : Nat} (h : j ≤ k) : takenAt dir m i j ≤ takenAt dir m i k := by
  have hin : mapsIn m.mem dir i j ≤ mapsIn m.mem dir i k := mapsIn_mono h
  have htables : tablesAt m.mem dir i j ≤ tablesAt m.mem dir i k := by
    unfold tablesAt
    refine Nat.add_le_add_left ?_ _
    split
    · next hc => rw [if_pos ⟨hc.1, Nat.lt_of_lt_of_le hc.2 hin⟩]
    · exact Nat.zero_le _
  unfold takenAt
  omega

/-- A copy before entry `k` is one of the pages taken before it. -/
theorem takenAt_lt {k : Nat} (hi : i < k) (hj : j < 1024) (hmaps : Maps m.mem dir i j) :
    takenAt dir m i j < takenBefore dir m k := by
  have hstep : takenAt dir m i j < takenAt dir m i (j + 1) := by
    have hin : mapsIn m.mem dir i (j + 1) = mapsIn m.mem dir i j + 1 := by
      rw [mapsIn_succ, if_pos hmaps]
    have htables : tablesAt m.mem dir i j ≤ tablesAt m.mem dir i (j + 1) := by
      unfold tablesAt
      rw [hin]
      refine Nat.add_le_add_left ?_ _
      split
      · next hc => rw [if_pos ⟨hc.1, Nat.succ_pos _⟩]
      · exact Nat.zero_le _
    unfold takenAt
    omega
  calc takenAt dir m i j < takenAt dir m i (j + 1) := hstep
    _ ≤ takenAt dir m i 1024 := takenAt_mono (by omega)
    _ = takenBefore dir m (i + 1) := by rw [takenAt_next, takenAt_zero]
    _ ≤ takenBefore dir m k := takenBefore_mono hi

/-- The new directory has entry 0 of the kernel's and no other. -/
theorem created (h : Allocated K ds m₀) (hz : (uallocPages m₀.alloc 1).1 ≠ 0) (dir : Frame) :
    Copying K (frameOf (createPageTable K m₀).1) ds m₀ (createPageTable K m₀).2 ∧
    Served (frameOf (createPageTable K m₀).1) dir m₀ 0 0 (createPageTable K m₀).2 := by
  have hallocated := h.createPageTable hz
  have hunused := h.unused (uallocPages_gives h.range hz)
  obtain ⟨hgives, hkernel, hlow, huser⟩ := uallocPages_free h.range
  have hmem := createPageTable_mem K m₀ rfl
  have halloc := createPageTable_alloc K m₀
  rw [createPageTable_fst] at hallocated ⊢
  generalize createPageTable K m₀ = r at hallocated hmem halloc ⊢
  have hK : K ≠ frameOf (uallocPages m₀.alloc 1).1 :=
    fun hc => hunused (hc ▸ Or.inl (by simp))
  rw [fill_of_ne hK] at hmem
  have hframe : ∀ f, InUse entryFormat (K :: ds) m₀.mem f → r.2.mem f = m₀.mem f := by
    intro f hf
    rw [hmem]
    exact Trees.addRoot_frame hunused hf
  have htables : tablesAt m₀.mem dir 0 0 = 0 := by
    rw [tablesAt_zero]
    exact Nat.count_zero _
  have htaken : takenAt dir m₀ 0 0 = 1 := by
    unfold takenAt
    rw [htables]
    simp [mapsBefore, mapsIn]
  refine ⟨⟨hallocated, fun d hd => hframe d (Or.inl hd), fun d hd w => ?_⟩, ?_, ?_, ?_, ?_,
    fun x hx => ?_⟩
  · exact congrArg Option.isSome (walk_congr hframe hd _ _)
  · rw [halloc, hkernel, htables, Nat.sub_zero]
  · rw [halloc, hlow, htaken]
  · rw [halloc, huser, htaken]
  · rw [htaken]
    exact hgives.mp hz
  · rw [hmem, Trees.addRoot_entry, userPdeStart_eq]
    by_cases h0 : x = 0
    · subst h0
      rw [if_pos (show BitVec.ofNat 10 0 = 0 from rfl)]
      exact iff_of_true h.shared (Or.inl (Nat.le_refl 0))
    · have hslot : BitVec.ofNat 10 x ≠ 0 := fun hc => h0 (slot_inj hx (by omega) hc)
      rw [if_neg hslot]
      refine iff_of_false not_present_zero ?_
      rintro (hle | ⟨hlt, -⟩ | ⟨hx0, -⟩)
      · exact h0 (Nat.le_zero.mp hle)
      · exact absurd hlt (Nat.not_lt_zero x)
      · exact h0 hx0

/-- Where every table so far is served, only a page can be missing. -/
theorem Served.page_of_given {D : Frame} (h : Served D dir m₀ i j m)
    (hr : ManagedRange m.alloc) (hi : i < 1024) (hj : j < 1024)
    (htable : userPdeStart < i → mapsIn m₀.mem dir i j = 0 → TableServed dir m₀ i)
    (hgiven : PageGiven cr3 D i j m) : takenAt dir m₀ i j < userFree m₀.alloc := by
  have henough := h.enough
  have hgives := (uallocPages_free hr).1
  rw [h.user] at hgives
  unfold PageGiven at hgiven
  rcases hgiven with hz | ⟨hmissing, hfailed, -⟩
  · have := hgives.mp hz
    omega
  · rw [vaddrDir_entry hi hj] at hmissing
    have hnot := mt (h.present_iff hi).mpr hmissing
    have hzero : mapsIn m₀.mem dir i j = 0 := by omega
    exact absurd hfailed (h.table_given hr hzero (htable (by omega) hzero))

/-- The outer loop goes through every table, the kernel's included. -/
theorem copy_range : List.range' userPdeStart (1024 - userPdeStart) = List.range 1024 := by
  rw [userPdeStart_eq, List.range_eq_range']

/-- The turns are those of `stateAt`. -/
theorem PagesGiven.at (hg : PagesGiven K cr3 dir m₀) {D : Frame}
    (hD : frameOf (createPageTable K m₀).1 = D) (hdir : dir ∈ K :: ds) (hi : i < 1024)
    (hj : j < 1024)
    (hc : Copying K D ds m₀ (stateAt cr3 D dir m₀ (createPageTable K m₀).2 i 0))
    (hc' : Copying K D ds m₀ (stateAt cr3 D dir m₀ (createPageTable K m₀).2 i j))
    (hmaps : Maps m₀.mem dir i j) :
    PageGiven cr3 D i j (stateAt cr3 D dir m₀ (createPageTable K m₀).2 i j) := by
  subst hD
  obtain ⟨hpresent, -⟩ := (maps_iff hi hj).mp hmaps
  have hrow := congrFun (hc.rows dir hdir) (BitVec.ofNat 10 i)
  refine hg.2 (stateAt cr3 (frameOf (createPageTable K m₀).1) dir m₀ (createPageTable K m₀).2
      i 0) i ?_ ?_
    (stateAt cr3 (frameOf (createPageTable K m₀).1) dir m₀ (createPageTable K m₀).2 i j) j
    ?_ ?_
  · rw [copy_range]
    exact turn_range.mpr ⟨hi, rfl⟩
  · rw [hrow]
    exact hpresent
  · refine turn_range.mpr ⟨hj, ?_⟩
    rw [hrow]
    rfl
  · rw [hrow]
    exact (hc'.entry_iff hdir hi hj hpresent).mpr hmaps

/-- And they are all. -/
theorem pagesGiven_of_at {D : Frame} (hz : (uallocPages m₀.alloc 1).1 ≠ 0)
    (hD : frameOf (createPageTable K m₀).1 = D) (hdir : dir ∈ K :: ds)
    (hall : ∀ k < 1024,
      Copying K D ds m₀ (stateAt cr3 D dir m₀ (createPageTable K m₀).2 k 0) ∧
      (Present (m₀.mem dir (BitVec.ofNat 10 k)) → ∀ j < 1024,
        Copying K D ds m₀ (stateAt cr3 D dir m₀ (createPageTable K m₀).2 k j) ∧
        (Maps m₀.mem dir k j →
          PageGiven cr3 D k j (stateAt cr3 D dir m₀ (createPageTable K m₀).2 k j)))) :
    PagesGiven K cr3 dir m₀ := by
  subst hD
  refine ⟨hz, fun m₂ k hturn hpde m₃ j hturn' hpte => ?_⟩
  rw [copy_range] at hturn
  obtain ⟨hk, rfl⟩ := turn_range.mp hturn
  obtain ⟨hc, hrest⟩ := hall k hk
  have hrow : ((List.range k).foldl (copyTable cr3 (frameOf (createPageTable K m₀).1) dir)
      (createPageTable K m₀).2).mem dir (BitVec.ofNat 10 k) = m₀.mem dir (BitVec.ofNat 10 k) :=
    congrFun (hc.rows dir hdir) (BitVec.ofNat 10 k)
  rw [hrow] at hpde hturn' hpte
  obtain ⟨hj, rfl⟩ := turn_range.mp hturn'
  obtain ⟨hc', hgiven⟩ := hrest hpde j hj
  exact hgiven ((hc'.entry_iff hdir hk hj hpde).mp hpte)

/-- A table with an entry to be copied counts. -/
theorem mapsIn_pos {mem : Frames} (hj : j < 1024) (h : Maps mem dir i j) :
    0 < mapsIn mem dir i 1024 :=
  Nat.pos_of_ne_zero (Nat.count_ne_iff_exists.mpr ⟨j, hj, h⟩)

/-- The tables before entry `n` are served, and so is every turn that has its page. -/
theorem served_until {D : Frame} {n : Nat} (cr3 : Frame) (hdir : dir ∈ K :: ds) (hn : n ≤ 1024)
    (hserved : ∀ k < n, NeedsTable m₀.mem dir k → TableServed dir m₀ k)
    (hpage : ∀ k j, k < n → j < 1024 → Maps m₀.mem dir k j →
      Copying K D ds m₀ (stateAt cr3 D dir m₀ m₁ k 0) →
      Copying K D ds m₀ (stateAt cr3 D dir m₀ m₁ k j) →
      Served D dir m₀ k j (stateAt cr3 D dir m₀ m₁ k j) →
      takenAt dir m₀ k j < userFree m₀.alloc)
    (hc : Copying K D ds m₀ m₁) (hs : Served D dir m₀ 0 0 m₁) :
    ∀ k ≤ n,
      Copying K D ds m₀ (stateAt cr3 D dir m₀ m₁ k 0) ∧
      Served D dir m₀ k 0 (stateAt cr3 D dir m₀ m₁ k 0) ∧
      (k < n → Present (m₀.mem dir (BitVec.ofNat 10 k)) → ∀ j ≤ 1024,
        Copying K D ds m₀ (stateAt cr3 D dir m₀ m₁ k j) ∧
        Served D dir m₀ k j (stateAt cr3 D dir m₀ m₁ k j)) := by
  intro k hk
  refine loops_keep (P := Served D dir m₀) hdir hn ?_ (fun _ _ _ hno hp => hp.skip hno)
    (fun _ _ hp => hp.next) hc hs k (Nat.zero_le k) hk
  intro k j _ hk hj hmaps hc₀ hcj hsj
  rw [stateAt_succ]
  exact hsj.turn hcj hdir (by omega) hj hmaps (hpage k j hk hj hmaps hc₀ hcj hsj)
    fun hlt _ => hserved k hk ⟨hlt, mapsIn_pos hj hmaps⟩

/-- From the first that is not served on every turn whose page is given takes two. -/
theorem runOut_from {D : Frame} {i₀ : Nat} (hdir : dir ∈ K :: ds)
    (hgiven : ∀ k j, i₀ ≤ k → k < 1024 → j < 1024 → Maps m₀.mem dir k j →
      Copying K D ds m₀ (stateAt cr3 D dir m₀ m₁ k 0) →
      Copying K D ds m₀ (stateAt cr3 D dir m₀ m₁ k j) →
      RunOut D dir m₀ i₀ k j (stateAt cr3 D dir m₀ m₁ k j) →
      PageGiven cr3 D k j (stateAt cr3 D dir m₀ m₁ k j))
    (hc : Copying K D ds m₀ (stateAt cr3 D dir m₀ m₁ i₀ 0))
    (hr : RunOut D dir m₀ i₀ i₀ 0 (stateAt cr3 D dir m₀ m₁ i₀ 0)) :
    ∀ k, i₀ ≤ k → k ≤ 1024 →
      Copying K D ds m₀ (stateAt cr3 D dir m₀ m₁ k 0) ∧
      RunOut D dir m₀ i₀ k 0 (stateAt cr3 D dir m₀ m₁ k 0) ∧
      (k < 1024 → Present (m₀.mem dir (BitVec.ofNat 10 k)) → ∀ j ≤ 1024,
        Copying K D ds m₀ (stateAt cr3 D dir m₀ m₁ k j) ∧
        RunOut D dir m₀ i₀ k j (stateAt cr3 D dir m₀ m₁ k j)) := by
  refine loops_keep (P := RunOut D dir m₀ i₀) hdir (Nat.le_refl _) ?_
    (fun _ _ _ hno hp => hp.skip hno) (fun _ _ hp => hp.next) hc hr
  intro k j hik hk hj hmaps hc₀ hcj hrj
  rw [stateAt_succ]
  exact hrj.turn hcj hdir hk hj hmaps (hgiven k j hik hk hj hmaps hc₀ hcj hrj)

/-- Where every table is served and every page given, no request has failed. -/
theorem copy_not_failed {D : Frame} {r : Word × Mmu} (hz : (uallocPages m₀.alloc 1).1 ≠ 0)
    (hr : createPageTable K m₀ = r) (hD : frameOf r.1 = D) (hdir : dir ∈ K :: ds)
    (hserved : ∀ k < 1024, NeedsTable m₀.mem dir k → TableServed dir m₀ k)
    (hpage : ∀ k < 1024, ∀ j < 1024, Maps m₀.mem dir k j →
      takenAt dir m₀ k j < userFree m₀.alloc)
    (hall : ∀ k < 1024,
      Copying K D ds m₀ (stateAt cr3 D dir m₀ r.2 k 0) ∧
      (Present (m₀.mem dir (BitVec.ofNat 10 k)) → ∀ j < 1024,
        Copying K D ds m₀ (stateAt cr3 D dir m₀ r.2 k j) ∧
        Served D dir m₀ k j (stateAt cr3 D dir m₀ r.2 k j))) :
    .failed ∉ copyEvents K cr3 dir m₀ := by
  unfold copyEvents
  dsimp only
  rw [hr, hD, copy_range]
  intro hf
  rcases List.mem_append.mp hf with hf | hf
  · exact hz (create_failed_iff.mp hf)
  obtain ⟨m, k, hturn, hf⟩ := mem_eventsAlong.mp hf
  obtain ⟨hk, rfl⟩ := turn_range.mp hturn
  obtain ⟨hc, hrest⟩ := hall k hk
  have hrow : ((List.range k).foldl (copyTable cr3 D dir) r.2).mem dir (BitVec.ofNat 10 k)
      = m₀.mem dir (BitVec.ofNat 10 k) := congrFun (hc.rows dir hdir) (BitVec.ofNat 10 k)
  unfold copyTableEvents at hf
  dsimp only at hf
  rw [hrow] at hf
  split at hf
  swap
  · exact nomatch hf
  next hpresent =>
  obtain ⟨m', j, hturn', hf⟩ := mem_eventsAlong.mp hf
  obtain ⟨hj, rfl⟩ := turn_range.mp hturn'
  obtain ⟨hcj, hsj⟩ := hrest hpresent j hj
  have hmaps : Maps m₀.mem dir k j := by
    by_contra hno
    have habsent := mt (hcj.entry_iff hdir hk hj hpresent).mp hno
    unfold stateAt at habsent
    rw [(copyEntry_absent cr3 D k habsent).2] at hf
    exact nomatch hf
  have hrange := hcj.allocated.range
  rcases failed_of_entry hcj.allocated hk hj hf with hno | ⟨hmissing, hno⟩
  · refine (uallocPages_free hrange).1.mpr ?_ hno
    rw [show userFree _ = _ from hsj.user]
    have := hpage k hk j hj hmaps
    omega
  · have hnot := mt (hsj.present_iff hk).mpr hmissing
    have hzero : mapsIn m₀.mem dir k j = 0 := by omega
    exact hsj.table_given hrange hzero
      (hserved k hk ⟨by omega, mapsIn_pos hj hmaps⟩) hno

/-- **THE CONDITION IS MET** where the pages are given and a request has failed. -/
theorem onlyTables_of_pagesGiven (h : Allocated K ds m₀) (hdir : dir ∈ K :: ds)
    (hcr3 : cr3 ∈ K :: ds) (hf : .failed ∈ copyEvents K cr3 dir m₀)
    (hg : PagesGiven K cr3 dir m₀) : ∃ i, OnlyTables cr3 dir m₀ i := by
  classical
  obtain ⟨hc, hs⟩ := created h hg.1 dir
  obtain ⟨r, hr⟩ : ∃ r, createPageTable K m₀ = r := ⟨_, rfl⟩
  obtain ⟨D, hD⟩ : ∃ D, frameOf r.1 = D := ⟨_, rfl⟩
  rw [hr, hD] at hc hs
  have hat : ∀ k j, k < 1024 → j < 1024 → Maps m₀.mem dir k j →
      Copying K D ds m₀ (stateAt cr3 D dir m₀ r.2 k 0) →
      Copying K D ds m₀ (stateAt cr3 D dir m₀ r.2 k j) →
      PageGiven cr3 D k j (stateAt cr3 D dir m₀ r.2 k j) := by
    intro k j hk hj hmaps hc₀ hcj
    subst hr
    exact hg.at hD hdir hk hj hc₀ hcj hmaps
  have hpage : ∀ n ≤ 1024, (∀ k < n, NeedsTable m₀.mem dir k → TableServed dir m₀ k) →
      ∀ k j, k < n → j < 1024 → Maps m₀.mem dir k j →
        Copying K D ds m₀ (stateAt cr3 D dir m₀ r.2 k 0) →
        Copying K D ds m₀ (stateAt cr3 D dir m₀ r.2 k j) →
        Served D dir m₀ k j (stateAt cr3 D dir m₀ r.2 k j) →
        takenAt dir m₀ k j < userFree m₀.alloc := by
    intro n hn hserved k j hk hj hmaps hc₀ hcj hsj
    exact hsj.page_of_given hcj.allocated.range (by omega) hj
      (fun hlt _ => hserved k hk ⟨hlt, mapsIn_pos hj hmaps⟩)
      (hat k j (by omega) hj hmaps hc₀ hcj)
  by_cases hex : ∃ i, i < 1024 ∧ NeedsTable m₀.mem dir i ∧ ¬ TableServed dir m₀ i
  · -- the first that is not served
    obtain ⟨hi, hneeds, hmissing⟩ := Nat.find_spec hex
    have hfirst : ∀ k < Nat.find hex, NeedsTable m₀.mem dir k → TableServed dir m₀ k := by
      intro k hk hneedsk
      by_contra hno
      exact Nat.find_min hex hk ⟨by omega, hneedsk, hno⟩
    generalize Nat.find hex = i at hi hneeds hmissing hfirst
    have huntil := served_until (n := i) cr3 hdir (by omega) hfirst
      (hpage i (by omega) hfirst) hc hs
    obtain ⟨hci, hsi, -⟩ := huntil i (Nat.le_refl i)
    have hrun := runOut_from hdir (fun k j _ hk hj hmaps hc₀ hcj _ =>
      hat k j hk hj hmaps hc₀ hcj) hci (hsi.runOut hneeds hmissing)
    refine ⟨i, hi, hneeds, hmissing, hfirst, ?_, fun k j hik hk hj hmaps => ?_⟩
    · have henough := hsi.enough
      rwa [takenAt_zero] at henough
    · obtain ⟨hck, -, hrest⟩ := hrun k hik (by omega)
      obtain ⟨hcj, hrj⟩ := hrest hk ((maps_iff hk hj).mp hmaps).1 j (by omega)
      exact (hrj.pageGiven_iff hcj hcr3 hk hj).mp (hat k j hk hj hmaps hck hcj)
  · -- every table is served, and so is every request
    have hserved : ∀ k < 1024, NeedsTable m₀.mem dir k → TableServed dir m₀ k := by
      intro k hk hneeds
      by_contra hno
      exact hex ⟨k, hk, hneeds, hno⟩
    have hall := served_until (n := 1024) cr3 hdir (Nat.le_refl _) hserved
      (hpage 1024 (Nat.le_refl _) hserved) hc hs
    refine absurd hf (copy_not_failed hg.1 hr hD hdir hserved ?_ ?_)
    · intro k hk j hj hmaps
      obtain ⟨hck, -, hrest⟩ := hall k (by omega)
      obtain ⟨hcj, hsj⟩ := hrest hk ((maps_iff hk hj).mp hmaps).1 j (by omega)
      exact hpage 1024 (Nat.le_refl _) hserved k j hk hj hmaps hck hcj hsj
    · intro k hk
      obtain ⟨hck, -, hrest⟩ := hall k (by omega)
      exact ⟨hck, fun hp j hj => hrest hk hp j (by omega)⟩

/-- **AND IT IS ENOUGH**. -/
theorem pagesGiven_of_onlyTables (h : Allocated K ds m₀) (hdir : dir ∈ K :: ds)
    (hcr3 : cr3 ∈ K :: ds) (hi : OnlyTables cr3 dir m₀ i) : PagesGiven K cr3 dir m₀ := by
  have hz : (uallocPages m₀.alloc 1).1 ≠ 0 := by
    refine (uallocPages_free h.range).1.mpr ?_
    have hpages := hi.pages
    unfold takenBefore at hpages
    omega
  obtain ⟨hc, hs⟩ := created h hz dir
  have hlt := hi.lt
  -- before entry `i` a page is one of those taken before it
  have huntil := served_until cr3 hdir (Nat.le_of_lt hlt) hi.first
    (fun k j hk hj hmaps _ _ _ =>
      Nat.lt_of_lt_of_le (takenAt_lt hk hj hmaps) hi.pages) hc hs
  obtain ⟨hci, hsi, -⟩ := huntil i (Nat.le_refl i)
  have hrun := runOut_from hdir (fun k j hik hk hj hmaps _ hcj hrj =>
    (hrj.pageGiven_iff hcj hcr3 hk hj).mpr (hi.rest k j hik hk hj hmaps)) hci
    (hsi.runOut hi.needs hi.missing)
  refine pagesGiven_of_at hz rfl hdir fun k hk => ?_
  rcases Nat.lt_or_ge k i with hki | hik
  · obtain ⟨hck, -, hrest⟩ := huntil k (Nat.le_of_lt hki)
    refine ⟨hck, fun hp j hj => ?_⟩
    obtain ⟨hcj, hsj⟩ := hrest hki hp j (by omega)
    refine ⟨hcj, fun hmaps => Or.inl ?_⟩
    refine (uallocPages_free hcj.allocated.range).1.mpr ?_
    have hpage := Nat.lt_of_lt_of_le (takenAt_lt hki hj hmaps) hi.pages
    rw [hsj.user]
    omega
  · obtain ⟨hck, -, hrest⟩ := hrun k hik (by omega)
    refine ⟨hck, fun hp j hj => ?_⟩
    obtain ⟨hcj, hrj⟩ := hrest hk hp j (by omega)
    exact ⟨hcj, fun hmaps => (hrj.pageGiven_iff hcj hcr3 hk hj).mpr
      (hi.rest k j hik hk hj hmaps)⟩

/-- **THE COPY** goes on when an allocation has failed, and spares page 0, only
    where page tables are missing from one entry on and every page before it is
    there. -/
theorem onlyTables_iff (h : Allocated K ds m₀) (hdir : dir ∈ K :: ds) (hcr3 : cr3 ∈ K :: ds)
    (hf : .failed ∈ copyEvents K cr3 dir m₀) :
    PagesGiven K cr3 dir m₀ ↔ ∃ i, OnlyTables cr3 dir m₀ i := by
  constructor
  · intro hg
    exact onlyTables_of_pagesGiven h hdir hcr3 hf hg
  · rintro ⟨i, hi⟩
    exact pagesGiven_of_onlyTables h hdir hcr3 hi

end Copy

/-- **OUT OF MEMORY**: a call in which an allocation fails is contained exactly if
    it is harmless. -/
theorem contained_iff {K : Frame} {dirs : List Frame} {c : Call} {m : Mmu}
    (h : Allocated K dirs m) (hc : c.Valid K dirs) (hf : .failed ∈ c.events K m) :
    Contained K c m ↔ Harmless K c m := by
  cases c with
  | findPte dir vaddr =>
      refine iff_of_true ⟨findPte_spares h hc, ?_⟩ trivial
      intro dir' vaddr' paddr' count' perm' hcall
      exact nomatch hcall
  | vaddr2paddr dir vaddr paddr count perm => exact map_contained_iff h hc hf
  | createPageTable =>
      refine iff_of_false (fun hcontained => ?_) id
      exact create_failed (create_failed_iff.mp hf) hcontained.spares
  | copyPagetable cr3 dir =>
      obtain ⟨hcr3, hdir⟩ := hc
      have hspares := (copy_spares_iff h cr3 dir).trans (onlyTables_iff h hdir hcr3 hf)
      refine Iff.trans ⟨fun hcontained => hcontained.spares, fun hs => ⟨hs, ?_⟩⟩ hspares
      intro dir' vaddr' paddr' count' perm' hcall
      exact nomatch hcall

/-- A machine whose five pages are the page tables of the kernel. -/
def fivePages : Mmu :=
  (booted KernelMap.smallKernel (memoryReady (fun _ _ => 0) (fun _ => 0) 0x105000)).mmu

/-- Its directories and tables are allocated. -/
theorem fivePages_allocated : Allocated 22 [] fivePages :=
  booted_allocated (l := KernelMap.smallKernel) (by decide)

/-- The last page of the kernel's map. -/
theorem fivePages_mapped : walkAt fivePages.mem 22 0x13FF000
    = some (newPte 0x13FF000 (pteW ||| pteU)) := by
  have hlinked : KernelMap.Linked KernelMap.smallKernel := ⟨by decide, by decide⟩
  have hspec := KernelMap.regions_spec (kernelMap KernelMap.smallKernel)
    (zeroed KernelMap.smallKernel (memoryReady (fun _ _ => 0) (fun _ => 0) 0x105000))
    (zeroed_trees KernelMap.smallKernel _) hlinked.apart
    (freshRegions_of_boot KernelMap.smallKernel (fun _ _ => 0) (fun _ => 0)
      (show _ ≤ (0x105000 : Word).toNat by decide))
    (fun i hi => by
      unfold zeroed at hi
      dsimp only at hi
      rw [fill_self] at hi
      exact absurd hi not_present_zero)
    (fun _ _ _ _ => KernelMap.zeroed_walkAt KernelMap.smallKernel _ _)
  have hlast := hspec.mapped _ (List.mem_cons_of_mem _ (List.mem_cons_of_mem _
    (List.mem_cons_of_mem _ (List.mem_singleton_self _)))) 4863 (by decide)
  have hv : pagesFrom (MmuManager.mk memKernelfreeStart (memKernelfreeEnd * 10)
      memKernelfreeStart (pteW ||| pteU)).vstartPage 4863 = 0x13FF000 := by decide
  have hp : pagesFrom memKernelfreeStart 4863 = 0x13FF000 := by decide
  rw [hv] at hlast
  dsimp only at hlast
  rw [hp] at hlast
  exact hlast

section Full

variable {K : Frame} {k : Nat} {m : Mmu} {perm : Word}

/-- Behind the tables of the kernel no page is left of five. -/
theorem five_full (h : Sequential K k m) (hcount : m.alloc.bitmap.count = 5)
    (hp : Present (m.mem K 4)) : (kallocPages m.alloc 1).1 = 0 := by
  have h4 := (h.present 4).mp hp
  rw [show (4 : Slot).toNat = 4 from rfl] at h4
  rw [kallocPages_full (Nat.le_refl 1) fun p hlt => (h.marked p hlt).mpr (by omega)]

/-- Of two pages the first is mapped as it is to be, and the second has no page
    table. -/
theorem one_too_many (h : Allocated K [] m)
    (hmapped : walkAt m.mem K 0x13FF000 = some (newPte 0x13FF000 perm))
    (hmissing : ¬ Present (m.mem K 5)) (hfull : (kallocPages m.alloc 1).1 = 0) :
    MapsNothing K K 0x13FF000 0x13FF000 2 perm m ∧
      .failed ∈ mapEvents K perm 2 0x13FF000 0x13FF000 m := by
  constructor
  · refine ⟨1, by decide, fun i hi => ?_, hmissing, hfull⟩
    obtain rfl : i = 0 := by omega
    rw [pagesFrom_zero]
    exact ⟨hmapped, Or.inl rfl⟩
  · rcases h.findPte (List.mem_singleton_self K) 0x13FF000 with hmiss | ⟨m₁, hfind⟩
    · exact absurd (walkAt_some hmapped).1 hmiss.missing
    obtain rfl := hfind.same (walkAt_some hmapped).1
    have hmiss : Misses K (0x13FF000 + memPageSize) m₁ := misses_of_failed hmissing hfull
    rw [(mapLoop_finds hfind 1 _ perm).2, writeEntry_same hmapped,
      (mapLoop_misses hmiss 0 _ perm).2]
    simp

end Full

/-- There are five pages. -/
theorem fivePages_count : fivePages.alloc.bitmap.count = 5 := by
  have hcount := boot_count KernelMap.smallKernel (fun _ _ => 0) (fun _ => 0)
    (show 0x100000 ≤ (0x105000 : Word).toNat by decide)
  unfold fivePages booted
  dsimp only
  rw [hcount]
  decide

/-- None of them is free, and the page behind the boundary has no table. -/
theorem fivePages_full :
    (kallocPages fivePages.alloc 1).1 = 0 ∧ ¬ Present (fivePages.mem 22 5) := by
  obtain ⟨k, hk, hseq⟩ : ∃ k ≤ 5, Sequential 22 k fivePages := by
    unfold fivePages booted
    dsimp only
    exact boot_sequential KernelMap.smallKernel (fun _ _ => 0) (fun _ => 0)
      (show _ ≤ (0x105000 : Word).toNat by decide)
  have hfour := (walkAt_some fivePages_mapped).1
  rw [show vaddrDir 0x13FF000 = 4 by decide] at hfour
  refine ⟨five_full hseq fivePages_count hfour, fun hp => ?_⟩
  have hlt := (hseq.present 5).mp hp
  rw [show (5 : Slot).toNat = 5 from rfl] at hlt
  omega

/-- The kernel's map one page too long: nothing is mapped and page 0 stays apart. -/
theorem contained_iff_fivePages :
    .failed ∈ (Call.vaddr2paddr 22 0x13FF000 0x13FF000 2 (pteW ||| pteU)).events 22
      fivePages ∧
    Contained 22 (.vaddr2paddr 22 0x13FF000 0x13FF000 2 (pteW ||| pteU)) fivePages := by
  obtain ⟨hfull, hmissing⟩ := fivePages_full
  obtain ⟨hharmless, hfailed⟩ :=
    one_too_many fivePages_allocated fivePages_mapped hmissing hfull
  exact ⟨hfailed, (contained_iff
    (c := .vaddr2paddr 22 0x13FF000 0x13FF000 2 (pteW ||| pteU)) fivePages_allocated
    (List.mem_singleton_self 22) hfailed).mpr hharmless⟩

/-- A machine of 2 MB behind `create_kernel_table`: it has no user page. -/
def twoMegabytes : Mmu :=
  (booted Isolation.smallKernel (memoryReady (fun _ _ => 0) (fun _ => 0) 0x200000)).mmu

/-- Up to 2 MB there is no page for a user. -/
theorem uallocPages_below {a : AddrAlloc} (hc : a.bitmap.count ≤ 256) :
    (uallocPages a 1).1 = 0 := by
  have hindex : userIndex = 256 := by decide
  by_contra hz
  obtain ⟨i, hi, hge, -⟩ := uallocPages_one (by omega) hz
  omega

/-- Two megabytes have no page for the user. -/
theorem twoMegabytes_failed : (uallocPages twoMegabytes.alloc 1).1 = 0 := by
  have hcount := boot_count Isolation.smallKernel (fun _ _ => 0) (fun _ => 0)
    (show 0x100000 ≤ (0x200000 : Word).toNat by decide)
  unfold twoMegabytes booted
  dsimp only
  refine uallocPages_below ?_
  rw [hcount]
  decide

/-- So the call fails. -/
theorem twoMegabytes_events : .failed ∈ Call.createPageTable.events 0x18 twoMegabytes :=
  create_failed_iff.mpr twoMegabytes_failed

/-- Its first directory is page 0. -/
theorem directory_in_page_zero :
    .failed ∈ Call.createPageTable.events 0x18 twoMegabytes ∧
      ¬ Contained 0x18 .createPageTable twoMegabytes :=
  ⟨twoMegabytes_events, fun h => create_failed twoMegabytes_failed h.spares⟩

end LittleOS.OutOfMemory
