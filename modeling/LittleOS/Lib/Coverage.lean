import Mathlib.Data.List.Pairwise
import Mathlib.Order.Interval.Finset.Nat
import LittleOS.Lib.Intervals

/-! # How much of a line disjoint blocks cover

    * `total_eq_card`, `total_le`, `total_eq_iff` — disjoint blocks below a
      bound have at most that many units, and exactly as many only where they
      leave no unit out;
    * `pagesInside_iff` — pages of equal size from a covered unit on: each lies
      in one block exactly when no block ends between them without the next
      one starting at a page boundary. -/

namespace Intervals

/-- No unit is in both blocks. -/
def Apart (b c : Block) : Prop := ∀ p, ¬ (Covers b p ∧ Covers c p)

instance : Std.Symm Apart where
  symm _ _ h p hp := h p ⟨hp.2, hp.1⟩

/-- Two blocks with a common unit are one. -/
theorem eq_of_covers {l : List Block} (hdis : l.Pairwise Apart) {b c : Block}
    (hb : b ∈ l) (hc : c ∈ l) {p : Nat} (hbp : Covers b p) (hcp : Covers c p) :
    b = c := by
  by_contra hne
  exact hdis.forall hb hc hne p ⟨hbp, hcp⟩

/-- Number of units of the blocks. -/
def total (l : List Block) : Nat := (l.map Prod.snd).sum

/-- Lengths add up. -/
@[simp] theorem total_cons (b : Block) (l : List Block) :
    total (b :: l) = b.2 + total l := by
  simp [total]

/-! ## Counting -/

section Count

variable {bound : Nat} {l : List Block}

/-- The units below the bound that some block covers. -/
def covered (bound : Nat) (l : List Block) : Finset Nat :=
  (Finset.range bound).filter (fun p => ∃ b ∈ l, Covers b p)

/-- What the blocks cover. -/
theorem mem_covered {p : Nat} :
    p ∈ covered bound l ↔ p < bound ∧ ∃ b ∈ l, Covers b p := by
  unfold covered
  rw [Finset.mem_filter, Finset.mem_range]

/-- A block's units, and those of the blocks after it. -/
theorem covered_cons {b : Block} (hb : b.1 + b.2 ≤ bound) :
    covered bound (b :: l) = Finset.Ico b.1 (b.1 + b.2) ∪ covered bound l := by
  ext p
  rw [Finset.mem_union, Finset.mem_Ico, mem_covered, mem_covered]
  constructor
  · rintro ⟨hp, c, hc, hcov⟩
    rcases List.mem_cons.mp hc with rfl | hc
    · exact Or.inl hcov
    · exact Or.inr ⟨hp, c, hc, hcov⟩
  · rintro (hcov | ⟨hp, c, hc, hcov⟩)
    · exact ⟨Nat.lt_of_lt_of_le hcov.2 hb, b, List.mem_cons_self, hcov⟩
    · exact ⟨hp, c, List.mem_cons_of_mem _ hc, hcov⟩

/-- Blocks that are apart cover as much as they are long together; the induction is on
    the blocks. -/
theorem total_eq_card (hdis : l.Pairwise Apart)
    (hb : ∀ b ∈ l, b.1 + b.2 ≤ bound) : total l = (covered bound l).card := by
  induction l with
  | nil => simp [total, covered]
  | cons b l ih =>
      obtain ⟨hhead, hrest⟩ := List.pairwise_cons.mp hdis
      have hdisj : Disjoint (Finset.Ico b.1 (b.1 + b.2)) (covered bound l) := by
        refine Finset.disjoint_left.mpr ?_
        intro p hp hpl
        obtain ⟨-, c, hc, hcov⟩ := mem_covered.mp hpl
        exact hhead c hc p ⟨Finset.mem_Ico.mp hp, hcov⟩
      rw [total_cons, covered_cons (hb b List.mem_cons_self),
        Finset.card_union_of_disjoint hdisj, Nat.card_Ico, Nat.add_sub_cancel_left,
        ih hrest (fun c hc => hb c (List.mem_cons_of_mem _ hc))]

/-- So they fit in the bound. -/
theorem total_le (hdis : l.Pairwise Apart) (hb : ∀ b ∈ l, b.1 + b.2 ≤ bound) :
    total l ≤ bound := by
  rw [total_eq_card hdis hb]
  refine (Finset.card_filter_le _ _).trans ?_
  rw [Finset.card_range]

/-- The bound is reached only where no unit is left out. -/
theorem total_eq_iff (hdis : l.Pairwise Apart)
    (hb : ∀ b ∈ l, b.1 + b.2 ≤ bound) :
    total l = bound ↔ ∀ p < bound, ∃ b ∈ l, Covers b p := by
  rw [total_eq_card hdis hb]
  constructor
  · intro hcard p hp
    have hall : covered bound l = Finset.range bound := by
      refine Finset.eq_of_subset_of_card_le (Finset.filter_subset _ _) ?_
      rw [Finset.card_range, hcard]
    exact (mem_covered.mp (hall ▸ Finset.mem_range.mpr hp)).2
  · intro hall
    have heq : covered bound l = Finset.range bound := by
      ext p
      rw [mem_covered, Finset.mem_range]
      exact ⟨fun h => h.1, fun hp => ⟨hp, hall p hp⟩⟩
    rw [heq, Finset.card_range]

end Count

/-! ## Pages in blocks -/

section Pages

variable {l : List Block} {k first last : Nat}

/-- Page `i` of `k` units lies in one of the blocks. -/
def PageInside (l : List Block) (k i : Nat) : Prop :=
  ∃ b ∈ l, b.1 ≤ k * i ∧ k * (i + 1) ≤ b.1 + b.2

/-- A block that ends between the pages ends with one of them, and the next
    block starts there. -/
def Continued (l : List Block) (k first last : Nat) : Prop :=
  ∀ b ∈ l, 0 < b.2 → k * first < b.1 + b.2 → b.1 + b.2 < k * last →
    k ∣ b.1 + b.2 ∧ ∃ c ∈ l, 0 < c.2 ∧ c.1 = b.1 + b.2

/-- Going up page by page from a covered unit. -/
theorem covers_of_continued (hk : 0 < k) (hcont : Continued l k first last)
    (hfirst : ∃ b ∈ l, Covers b (k * first)) {i : Nat} (hi : first ≤ i)
    (hlast : i < last) : PageInside l k i ∧
      (i + 1 < last → ∃ b ∈ l, Covers b (k * (i + 1))) := by
  -- from a block that covers the page's first unit
  have hone : ∀ j, first ≤ j → j < last → (∃ b ∈ l, Covers b (k * j)) →
      PageInside l k j ∧ (j + 1 < last → ∃ b ∈ l, Covers b (k * (j + 1))) := by
    rintro j hj hjl ⟨b, hb, hlow, hhigh⟩
    have hmono : k * first ≤ k * j := Nat.mul_le_mul_left k hj
    have hsucc : k * (j + 1) ≤ k * last := Nat.mul_le_mul_left k hjl
    have hend : k * (j + 1) ≤ b.1 + b.2 := by
      by_contra hshort
      obtain ⟨⟨q, hq⟩, -⟩ := hcont b hb (by omega) (by omega) (by omega)
      have h1 : j < q := Nat.lt_of_mul_lt_mul_left (a := k) (by omega)
      have h2 : q < j + 1 := Nat.lt_of_mul_lt_mul_left (a := k) (by omega)
      omega
    refine ⟨⟨b, hb, hlow, hend⟩, fun hnext => ?_⟩
    have hlt : k * (j + 1) < k * last := Nat.mul_lt_mul_of_pos_left hnext hk
    rcases Nat.lt_or_eq_of_le hend with hin | hends
    · have hstep : k * j ≤ k * (j + 1) := Nat.mul_le_mul_left k (Nat.le_succ j)
      exact ⟨b, hb, hlow.trans hstep, hin⟩
    · obtain ⟨-, c, hc, hpos, hstart⟩ := hcont b hb (by omega) (by omega) (by omega)
      exact ⟨c, hc, by omega, by omega⟩
  induction i, hi using Nat.le_induction with
  | base => exact hone first (Nat.le_refl _) hlast hfirst
  | succ i hi ih => exact hone (i + 1) (by omega) hlast ((ih (by omega)).2 hlast)

/-- **EVERY PAGE** in one block, told from the places where blocks end. -/
theorem pagesInside_iff (hk : 0 < k) (hdis : l.Pairwise Apart)
    (hfirst : ∃ b ∈ l, Covers b (k * first)) :
    (∀ i, first ≤ i → i < last → PageInside l k i) ↔ Continued l k first last := by
  constructor
  · intro hall b hb hpos hlow hhigh
    -- the page with the block's last unit
    have hdiv := Nat.div_add_mod (b.1 + b.2 - 1) k
    have hmod := Nat.mod_lt (b.1 + b.2 - 1) hk
    generalize (b.1 + b.2 - 1) / k = i at hdiv
    have hmul : k * (i + 1) = k * i + k := Nat.mul_succ k i
    have hi : first ≤ i := by
      refine Nat.le_of_lt_add_one (Nat.lt_of_mul_lt_mul_left (a := k) ?_)
      omega
    have hil : i < last := Nat.lt_of_mul_lt_mul_left (a := k) (by omega)
    obtain ⟨c, hc, hclow, hchigh⟩ := hall i hi hil
    have hlastU : Covers b (b.1 + b.2 - 1) := ⟨by omega, by omega⟩
    obtain rfl := eq_of_covers hdis hb hc hlastU ⟨by omega, by omega⟩
    have hends : b.1 + b.2 = k * (i + 1) := by omega
    refine ⟨⟨i + 1, hends⟩, ?_⟩
    have hil' : i + 1 < last := Nat.lt_of_mul_lt_mul_left (a := k) (by omega)
    obtain ⟨d, hd, hdlow, hdhigh⟩ := hall (i + 1) (by omega) hil'
    have hmul' : k * (i + 1 + 1) = k * (i + 1) + k := Nat.mul_succ k (i + 1)
    refine ⟨d, hd, by omega, ?_⟩
    by_contra hne
    have hsame := eq_of_covers hdis hb hd hlastU ⟨by omega, by omega⟩
    rw [hsame] at hends
    omega
  · intro hcont i hi hil
    exact (covers_of_continued hk hcont hfirst hi hil).1

end Pages

end Intervals
