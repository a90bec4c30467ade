import LittleOS.PageSearch
import LittleOS.AddressSpaces

/-! # `get_v2p`

    The lookup goes through `find_pte`, which makes a page table where none is
    present: it asks for a page, links the table and zeroes it.

    * `getV2p_present` — behind a present directory entry nothing happens but
      the two reads;
    * `pure_lookup_iff` — the lookup is pure exactly there, and where no page is
      left to take. -/

namespace LittleOS.AddressLookup

open Intervals TwoLevel Memory PageTable AddressSpaces PageSearch

/-- `get_v2p`; for a table that cannot be made `find_pte` answers `NULL`, and
    the word at address 0 is read for the entry. -/
def getV2p (dir : Frame) (vaddr : Word) (m : Mmu) : Word × Mmu :=
  let r := findPte dir vaddr m
  let pte := match r.1 with
    | some (table, slot) => r.2.mem table slot
    | none => r.2.mem 0 0
  (addrOf (frameOf pte) + (vaddr &&& 0xFFF), r.2)

/-- Tables and bitmap stay, and a mapped address is answered. -/
structure PureLookup (dir : Frame) (vaddr : Word) (m : Mmu) : Prop where
  tables : (getV2p dir vaddr m).2.mem = m.mem
  bitmap : (getV2p dir vaddr m).2.alloc.bitmap = m.alloc.bitmap
  answer : ∀ pte, walkAt m.mem dir vaddr = some pte →
    (getV2p dir vaddr m).1 = addrOf (frameOf pte) + (vaddr &&& 0xFFF)

section Lookup

variable {dir : Frame} {vaddr : Word} {m : Mmu}

theorem getV2p_present (hp : Present (m.mem dir (vaddrDir vaddr))) :
    getV2p dir vaddr m =
      (addrOf (frameOf (m.mem (frameOf (m.mem dir (vaddrDir vaddr)))
        (vaddrTable vaddr))) + (vaddr &&& 0xFFF), m) := by
  unfold getV2p findPte
  dsimp only
  rw [if_pos hp]

/-- A mapped address is behind a present directory entry, and its own entry is
    the one that is read. -/
theorem walkAt_some {pte : Word} (h : walkAt m.mem dir vaddr = some pte) :
    Present (m.mem dir (vaddrDir vaddr)) ∧
    m.mem (frameOf (m.mem dir (vaddrDir vaddr))) (vaddrTable vaddr) = pte := by
  unfold walkAt walk at h
  split at h
  · next hp =>
      dsimp only at h
      split at h
      · exact ⟨hp, Option.some.inj h⟩
      · exact nomatch h
  · exact nomatch h

/-- Where a table is missing a page is asked for. -/
theorem getV2p_alloc (hp : ¬ Present (m.mem dir (vaddrDir vaddr))) :
    (getV2p dir vaddr m).2.alloc = (kallocPages m.alloc 1).2 := by
  unfold getV2p findPte
  dsimp only
  rw [if_neg hp]
  split <;> rfl

/-- A free page is taken by a request for one. -/
theorem kallocPages_bitmap_ne {a : AddrAlloc} (hc : a.bitmap.count < 2 ^ 31) {p : Nat}
    (hp : p < a.bitmap.count) (hfree : ¬ Marked a p) :
    (kallocPages a 1).2.bitmap ≠ a.bitmap := by
  have hfit : Fits (Marked a) a.bitmap.count (p, 1) := by
    rintro q ⟨h1, h2⟩ -
    dsimp only at h1 h2
    obtain rfl : q = p := by omega
    exact hfree
  obtain ⟨i, hi⟩ := FirstFit.exists (Nat.zero_le p) hp hfit
  have hlt := hi.lt_bound
  have hne : marking a i 1 ≠ a := by
    refine marking_ne hlt (Nat.le_refl 1) (by omega) (hi.fits i ?_ hlt)
    exact ⟨Nat.le_refl i, Nat.lt_succ_self i⟩
  -- the page is marked whichever answer the call gives
  have hcall : (kallocPages a 1).2 = marking a i 1 := by
    by_cases hbehind : 1023 ≤ i
    · rw [kallocPages_behind (Nat.le_refl 1) hbehind hi]
    · rw [kallocPages_of_firstFit (Nat.le_refl 1) hi (by omega)]
  rw [hcall]
  intro hb
  refine hne ?_
  unfold marking at hb ⊢
  dsimp only at hb
  rw [hb]

/-- **A LOOKUP IS PURE** exactly if the page table of the address is there, or
    every page is taken. -/
theorem pure_lookup_iff (hc : m.alloc.bitmap.count < 2 ^ 31) :
    PureLookup dir vaddr m ↔
      Present (m.mem dir (vaddrDir vaddr)) ∨
      ∀ p < m.alloc.bitmap.count, Marked m.alloc p := by
  constructor
  · intro h
    by_cases hp : Present (m.mem dir (vaddrDir vaddr))
    · exact Or.inl hp
    · refine Or.inr fun p hlt => ?_
      by_contra hfree
      have hsame := h.bitmap
      rw [getV2p_alloc hp] at hsame
      exact kallocPages_bitmap_ne hc hlt hfree hsame
  · intro h
    by_cases hp : Present (m.mem dir (vaddrDir vaddr))
    · have hlookup := getV2p_present hp
      refine ⟨by rw [hlookup], by rw [hlookup], fun pte hw => ?_⟩
      rw [hlookup, (walkAt_some hw).2]
    · have hfull := kallocPages_full (Nat.le_refl 1) (h.resolve_left hp)
      -- the request fails and `find_pte` returns at once
      have hstate : (getV2p dir vaddr m).2 = m := by
        unfold getV2p findPte
        dsimp only
        rw [if_neg hp, hfull, if_pos rfl]
      exact ⟨by rw [hstate], by rw [hstate],
        fun pte hw => absurd (walkAt_some hw).1 hp⟩

end Lookup

/-- One page to give, an empty directory in frame 512. -/
def onePage : Mmu where
  mem := fun _ _ => 0
  alloc := memoryInit (fun _ => 0) 0x101000

/-- A lookup there takes the page. -/
theorem lookup_takes_page : ¬ ∀ (dir : Frame) (vaddr : Word) (m : Mmu),
    m.alloc.bitmap.count < 2 ^ 31 → PureLookup dir vaddr m := by
  intro hall
  have hc : onePage.alloc.bitmap.count = 1 := by decide
  have h := (hall 512 0x800000 onePage (by rw [hc]; decide)).bitmap
  rw [getV2p_alloc (by decide)] at h
  exact kallocPages_bitmap_ne (p := 0) (by rw [hc]; decide) (by rw [hc]; decide)
    (by decide) h

/-- A directory in frame 512 with its first entry present. -/
def oneTable : Mmu where
  mem := fun f _ => if f = 512 then 0x201007 else 0
  alloc := memoryInit (fun _ => 0) 0x101000

theorem pure_lookup_oneTable : PureLookup 512 0x123 oneTable :=
  (pure_lookup_iff (by decide)).mpr (Or.inl (by decide))

end LittleOS.AddressLookup
