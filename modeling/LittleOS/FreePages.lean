import Mathlib.Data.Nat.Count
import LittleOS.AllocatedTables

/-! # The free pages

    A page that is asked for alone is the lowest free one, of all pages or of the
    user's.  So the numbers of free pages below `userIndex`, from there on and
    below 1023, and from there on say what the next requests get.

    * `uallocPages_free` — `ualloc_pages(1)` takes one from behind `userIndex`;
    * `kallocPages_free` — `kalloc_pages(1)` takes one from before it as long as
      there is one, and from behind it then, and gives none from 1023 on;
    * `freshTables_of_free`, `mapLoop_userFree` — what that is enough for. -/

namespace LittleOS.FreePages

open TwoLevel Intervals Memory PageTable AddressSpaces KernelBoot AllocatedTables

/-- The free pages from `lo` on and below `hi`. -/
def freePages (a : AddrAlloc) (lo hi : Nat) : Nat :=
  Nat.count (fun p => lo ≤ p ∧ ¬ Marked a p) (min hi a.bitmap.count)

/-- The free pages of the kernel's part. -/
def kernelFree (a : AddrAlloc) : Nat := freePages a 0 userIndex

/-- Those of the user's part that `kalloc_pages` gives too. -/
def lowFree (a : AddrAlloc) : Nat := freePages a userIndex 1023

/-- All of the user's part. -/
def userFree (a : AddrAlloc) : Nat := freePages a userIndex a.bitmap.count

/-- One place less is counted if it was one of them. -/
theorem count_except {r q : Nat → Prop} [DecidablePred r] [DecidablePred q] {i : Nat}
    (hq : ∀ p, q p ↔ r p ∧ p ≠ i) (n : Nat) :
    Nat.count r n = Nat.count q n + if r i ∧ i < n then 1 else 0 := by
  induction n with
  | zero => simp
  | succ n ih =>
      rw [Nat.count_succ, Nat.count_succ, ih]
      have hn := hq n
      by_cases hni : n = i
      · subst hni
        by_cases hr : r n <;> simp [hn, hr]
      · have hlt : i < n + 1 ↔ i < n := by omega
        by_cases hr : r n
        · simp [hn, hr, hni, hlt]
          omega
        · simp [hn, hr, hlt]

section Pages

variable {a : AddrAlloc} {lo hi i : Nat}

/-- A count that is not 0 has a free page. -/
theorem freePages_pos : 0 < freePages a lo hi ↔
    ∃ p, lo ≤ p ∧ p < hi ∧ p < a.bitmap.count ∧ ¬ Marked a p := by
  unfold freePages
  rw [Nat.pos_iff_ne_zero, Nat.count_ne_iff_exists]
  constructor
  · rintro ⟨p, hp, hlo, hfree⟩
    exact ⟨p, hlo, by omega, by omega, hfree⟩
  · rintro ⟨p, hlo, hhi, hp, hfree⟩
    exact ⟨p, by omega, hlo, hfree⟩

/-- They are among the user's. -/
theorem lowFree_le : lowFree a ≤ userFree a :=
  Nat.count_monotone _ (by omega)

/-- **ONE PAGE MARKED** is one less, where it is counted. -/
theorem freePages_marking (hr : ManagedRange a) (hi' : i < a.bitmap.count)
    (hfree : ¬ Marked a i) :
    freePages (marking a i 1) lo hi
      = freePages a lo hi - if lo ≤ i ∧ i < hi then 1 else 0 := by
  have hle := hr.count_le
  have hcount : (marking a i 1).bitmap.count = a.bitmap.count := (marking_sameRange a i 1).1
  unfold freePages
  rw [hcount]
  have hone := count_except (r := fun p => lo ≤ p ∧ ¬ Marked a p)
    (q := fun p => lo ≤ p ∧ ¬ Marked (marking a i 1) p) (i := i) (fun p => by
      rw [marked_marking hi' (by omega)]
      tauto) (min hi a.bitmap.count)
  have hiff : ((lo ≤ i ∧ ¬ Marked a i) ∧ i < min hi a.bitmap.count) ↔ lo ≤ i ∧ i < hi := by
    constructor
    · rintro ⟨⟨hlo, -⟩, hlt⟩
      exact ⟨hlo, by omega⟩
    · rintro ⟨hlo, hlt⟩
      exact ⟨⟨hlo, hfree⟩, by omega⟩
  rw [if_congr hiff rfl rfl] at hone
  omega

/-- Pages in a row that are free. -/
theorem le_freePages {start : Nat} (hlo : lo ≤ start) (hhi : hi ≤ a.bitmap.count)
    (hfree : ∀ p, start ≤ p → p < hi → ¬ Marked a p) : hi - start ≤ freePages a lo hi := by
  rcases Nat.le_total hi start with hle | hle
  · omega
  obtain ⟨n, rfl⟩ := Nat.exists_eq_add_of_le hle
  have hall : Nat.count (fun k => lo ≤ start + k ∧ ¬ Marked a (start + k)) n = n :=
    Nat.count_of_forall fun k hk => ⟨by omega, hfree _ (by omega) (by omega)⟩
  unfold freePages
  rw [Nat.min_eq_left hhi, Nat.count_add, hall]
  omega

/-- No managed page is at address 0. -/
theorem pageAddr_ne_zero (hr : ManagedRange a) (hi' : i < a.bitmap.count) :
    pageAddr a i ≠ 0 := by
  intro h0
  have haddr := pageAddr_toNat hr hi'
  rw [h0] at haddr
  have hz : (0 : BitVec 32).toNat = 0 := rfl
  omega

/-- The user's part begins behind 256 pages. -/
theorem userIndex_eq : userIndex = 256 := by decide

/-- The lowest place for one page: it is free, and no page before it is. -/
theorem firstFit_page {start : Nat} (h : FirstFit (Marked a) a.bitmap.count start 1 i) :
    ¬ Marked a i ∧ ∀ {lo hi : Nat}, start ≤ lo → hi ≤ i → freePages a lo hi = 0 := by
  refine ⟨h.fits i ⟨Nat.le_refl _, Nat.lt_succ_self _⟩ h.lt_bound, ?_⟩
  intro lo hi hlo hhi
  by_contra hne
  obtain ⟨q, hq, hqi, -, hfree⟩ := freePages_pos.mp (Nat.pos_of_ne_zero hne)
  refine h.first q (by omega) (by omega) fun r hcov _ => ?_
  have h1 := hcov.1
  have h2 := hcov.2
  obtain rfl : r = q := by
    dsimp only at h1 h2
    omega
  exact hfree

/-- Where there is a free page there is a lowest one. -/
theorem firstFit_of_pos {start hi : Nat} (h : 0 < freePages a start hi) :
    ∃ i, FirstFit (Marked a) a.bitmap.count start 1 i := by
  obtain ⟨p, hlo, -, hp, hfree⟩ := freePages_pos.mp h
  refine FirstFit.exists hlo hp fun q hcov _ => ?_
  have h1 := hcov.1
  have h2 := hcov.2
  obtain rfl : q = p := by
    dsimp only at h1 h2
    omega
  exact hfree

/-- Where nothing fits no page is free. -/
theorem freePages_of_none {start lo hi : Nat} (hlo : start ≤ lo)
    (h : ∀ i, ¬ FirstFit (Marked a) a.bitmap.count start 1 i) : freePages a lo hi = 0 := by
  by_contra hne
  obtain ⟨p, hp, hphi, hpc, hfree⟩ := freePages_pos.mp (Nat.pos_of_ne_zero hne)
  obtain ⟨i, hi⟩ := firstFit_of_pos
    (freePages_pos.mpr ⟨p, Nat.le_trans hlo hp, hphi, hpc, hfree⟩)
  exact h i hi

/-- **`ualloc_pages(1)`** takes the lowest page of the user. -/
theorem uallocPages_free (hr : ManagedRange a) :
    ((uallocPages a 1).1 ≠ 0 ↔ 0 < userFree a) ∧
    kernelFree (uallocPages a 1).2 = kernelFree a ∧
    lowFree (uallocPages a 1).2 = lowFree a - 1 ∧
    userFree (uallocPages a 1).2 = userFree a - 1 := by
  unfold kernelFree lowFree userFree
  by_cases hsome : ∃ i, FirstFit (Marked a) a.bitmap.count userIndex 1 i
  · obtain ⟨i, hfit⟩ := hsome
    have hi := hfit.lt_bound
    have hge := hfit.start_le
    obtain ⟨hfree, hnone⟩ := firstFit_page hfit
    rw [uallocPages_of_firstFit (Nat.le_refl 1) hfit]
    refine ⟨iff_of_true (pageAddr_ne_zero hr hi) ?_, ?_, ?_, ?_⟩
    · exact freePages_pos.mpr ⟨i, hge, hi, hi, hfree⟩
    · rw [freePages_marking hr hi hfree, if_neg (by omega)]
      rfl
    · rw [freePages_marking hr hi hfree]
      by_cases hlt : i < 1023
      · rw [if_pos ⟨hge, hlt⟩]
      · rw [hnone (Nat.le_refl _) (by omega)]
        omega
    · rw [freePages_marking hr hi hfree, (marking_sameRange a i 1).1, if_pos ⟨hge, hi⟩]
  · have hnone := not_exists.mp hsome
    have heq : uallocPages a 1 = (0, a) :=
      (uallocPages_spec a (Nat.le_refl 1)).resolve_right fun ⟨i, hfit, _⟩ => hnone i hfit
    rw [heq]
    dsimp only
    rw [freePages_of_none (Nat.le_refl _) hnone, freePages_of_none (Nat.le_refl _) hnone]
    exact ⟨iff_of_false (fun hc => hc rfl) (Nat.lt_irrefl 0), rfl, rfl, rfl⟩

/-- What `kalloc_pages` answers for the first fit. -/
theorem kallocPages_eq (h : FirstFit (Marked a) a.bitmap.count 0 1 i) :
    kallocPages a 1 = (if 1023 ≤ i then 0 else pageAddr a i, marking a i 1) := by
  unfold kallocPages
  rw [PageBitmap.bitmapAllocNbits_of_firstFit (Nat.le_refl 1) h]
  dsimp only
  split <;> rfl

/-- **`kalloc_pages(1)`** takes the lowest page of all. -/
theorem kallocPages_free (hr : ManagedRange a) :
    ((kallocPages a 1).1 ≠ 0 ↔ 0 < kernelFree a ∨ 0 < lowFree a) ∧
    kernelFree (kallocPages a 1).2 = kernelFree a - 1 ∧
    lowFree (kallocPages a 1).2 = lowFree a - (1 - kernelFree a) ∧
    userFree (kallocPages a 1).2 = userFree a - (1 - kernelFree a) := by
  have hindex := userIndex_eq
  unfold kernelFree lowFree userFree
  by_cases hsome : ∃ i, FirstFit (Marked a) a.bitmap.count 0 1 i
  · obtain ⟨i, hfit⟩ := hsome
    have hi := hfit.lt_bound
    obtain ⟨hfree, hnone⟩ := firstFit_page hfit
    rw [kallocPages_eq hfit]
    dsimp only
    rw [freePages_marking hr hi hfree, freePages_marking hr hi hfree,
      freePages_marking hr hi hfree, (marking_sameRange a i 1).1]
    by_cases hkernel : i < userIndex
    · -- it is one of the kernel's
      have hpos : 0 < freePages a 0 userIndex :=
        freePages_pos.mpr ⟨i, Nat.zero_le i, hkernel, hi, hfree⟩
      rw [if_neg (show ¬ 1023 ≤ i by omega), if_pos ⟨Nat.zero_le i, hkernel⟩,
        if_neg (show ¬ (userIndex ≤ i ∧ i < 1023) by omega),
        if_neg (show ¬ (userIndex ≤ i ∧ i < a.bitmap.count) by omega)]
      exact ⟨iff_of_true (pageAddr_ne_zero hr hi) (Or.inl hpos), rfl, by omega, by omega⟩
    · have hzero := hnone (Nat.zero_le 0) (show userIndex ≤ i by omega)
      rw [hzero, if_neg (show ¬ (0 ≤ i ∧ i < userIndex) by omega),
        if_pos (show userIndex ≤ i ∧ i < a.bitmap.count by omega)]
      by_cases hlow : i < 1023
      · have hpos : 0 < freePages a userIndex 1023 :=
          freePages_pos.mpr ⟨i, by omega, hlow, hi, hfree⟩
        rw [if_neg (show ¬ 1023 ≤ i by omega), if_pos (show userIndex ≤ i ∧ i < 1023 by omega)]
        exact ⟨iff_of_true (pageAddr_ne_zero hr hi) (Or.inr hpos), rfl, rfl, rfl⟩
      · rw [hnone (Nat.zero_le userIndex) (show 1023 ≤ i by omega),
          if_pos (show 1023 ≤ i by omega)]
        exact ⟨iff_of_false (fun hc => hc rfl) (by omega), rfl, by omega, rfl⟩
  · have hnone := not_exists.mp hsome
    have heq : kallocPages a 1 = (0, a) :=
      (kallocPages_spec a (Nat.le_refl 1)).resolve_right fun ⟨i, hfit, _⟩ => hnone i hfit
    rw [heq]
    dsimp only
    rw [freePages_of_none (Nat.le_refl 0) hnone, freePages_of_none (Nat.zero_le _) hnone,
      freePages_of_none (Nat.zero_le _) hnone]
    exact ⟨iff_of_false (fun hc => hc rfl) (by omega), rfl, rfl, rfl⟩

end Pages

/-- **WITH A FREE PAGE** of the kernel for each page that is mapped, every page
    table comes from a fresh one.  Induction over the pages to map. -/
theorem freshTables_of_free {K dir : Frame} {dirs : List Frame} (hd : dir ∈ K :: dirs)
    (perm : Word) : ∀ (n : Nat) (vaddr paddr : Word) (m : Mmu), Allocated K dirs m →
      n ≤ kernelFree m.alloc → FreshTables K dirs dir perm n vaddr paddr m := by
  intro n
  induction n with
  | zero => intro vaddr paddr m _ _; exact trivial
  | succ n ih =>
      intro vaddr paddr m h hn
      obtain ⟨hgives, hkernel, -⟩ := kallocPages_free h.range
      have hne : (kallocPages m.alloc 1).1 ≠ 0 := hgives.mpr (Or.inl (by omega))
      refine ⟨fun _ => h.fresh (kallocPages_gives h.range hne), ?_⟩
      rcases h.findPte hd vaddr with hmiss | ⟨m₁, hfind⟩
      · exact absurd hmiss.failed hne
      have halloc := findPte_alloc dir vaddr m
      rw [hfind.found] at halloc ⊢
      refine ih _ _ _ (hfind.write hd (v := newPte paddr perm) (present_or_one _)).allocated ?_
      dsimp only at halloc ⊢
      rw [halloc]
      split <;> omega

/-- And no page of the user is taken. -/
theorem mapLoop_userFree (dir : Frame) (perm : Word) : ∀ (n : Nat) (vaddr paddr : Word) (m : Mmu),
    ManagedRange m.alloc → n ≤ kernelFree m.alloc →
      userFree (mapLoop dir perm n vaddr paddr m).alloc = userFree m.alloc := by
  intro n
  induction n with
  | zero => intro vaddr paddr m _ _; rfl
  | succ n ih =>
      intro vaddr paddr m hr hn
      obtain ⟨-, hkernel, -, huser⟩ := kallocPages_free hr
      have hg := findPte_grows dir vaddr m
      have halloc := findPte_alloc dir vaddr m
      have hsame : n ≤ kernelFree (findPte dir vaddr m).2.alloc ∧
          userFree (findPte dir vaddr m).2.alloc = userFree m.alloc := by
        rw [halloc]
        split
        · exact ⟨by omega, rfl⟩
        · exact ⟨by omega, by omega⟩
      rw [mapLoop]
      have hrange := hr.of_sameRange hg.range
      cases hfind : findPte dir vaddr m with
      | mk answer m₁ =>
          rw [hfind] at hrange hsame
          cases answer with
          | none => exact hsame.2
          | some entry =>
              dsimp only at hrange hsame ⊢
              rw [ih _ _ _ (by exact hrange) (by exact hsame.1)]
              exact hsame.2

end LittleOS.FreePages
