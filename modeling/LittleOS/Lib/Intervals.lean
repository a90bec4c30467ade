import Mathlib.Algebra.Order.Ring.Int
import Mathlib.Data.List.Basic

/-! # Allocating disjoint intervals below a bound

    A store of units `0, 1, …` with a bound, some of them busy, hands out
    blocks of consecutive units; a block may stick out past the bound, where
    nothing is kept.

    * `Fits`, `FirstFit` — where a request fits, and the lowest such place,
      which there is when it fits at all;
    * `Owned` — the blocks handed out cover busy units only, and no unit below
      the bound twice;
    * `Owned.alloc`, `Owned.release` — what keeps that. -/

namespace Intervals

/-- First unit and number of units. -/
abbrev Block := Nat × Nat

/-- The position is in the block. -/
def Covers (b : Block) (p : Nat) : Prop := b.1 ≤ p ∧ p < b.1 + b.2

instance (b : Block) (p : Nat) : Decidable (Covers b p) :=
  inferInstanceAs (Decidable (_ ∧ _))

section Fit

variable (busy : Nat → Prop) (bound : Nat)

/-- No unit of the block that lies below the bound is busy. -/
def Fits (b : Block) : Prop := ∀ p, Covers b p → p < bound → ¬ busy p

/-- The lowest place from `start` on where `n` units fit. -/
structure FirstFit (start n s : Nat) : Prop where
  start_le : start ≤ s
  lt_bound : s < bound
  fits : Fits busy bound (s, n)
  first : ∀ s', start ≤ s' → s' < s → ¬ Fits busy bound (s', n)

variable {busy bound}

/-- A busy unit rules out every place from which the block would reach it. -/
theorem not_fits_of_busy {n i j s : Nat} (hj : busy j) (hjb : j < bound)
    (hreach : j < i + n) (his : i ≤ s) (hsj : s ≤ j) :
    ¬ Fits busy bound (s, n) := by
  intro hfit
  exact hfit j ⟨hsj, by dsimp only; omega⟩ hjb hj

/-- Places that do not fit may be skipped. -/
theorem FirstFit.skip {start next n s : Nat}
    (hno : ∀ s', start ≤ s' → s' < next → ¬ Fits busy bound (s', n))
    (hle : start ≤ next) (h : FirstFit busy bound next n s) :
    FirstFit busy bound start n s where
  start_le := Nat.le_trans hle h.start_le
  lt_bound := h.lt_bound
  fits := h.fits
  first := by
    intro s' h1 h2
    by_cases hs : s' < next
    · exact hno s' h1 hs
    · exact h.first s' (by omega) h2

/-- Where some place fits there is a lowest one. -/
theorem FirstFit.exists {start n s : Nat} (hs : start ≤ s) (hb : s < bound)
    (h : Fits busy bound (s, n)) : ∃ s, FirstFit busy bound start n s := by
  induction s using Nat.strongRecOn with
  | _ s ih =>
      by_cases hlow : ∃ s', start ≤ s' ∧ s' < s ∧ Fits busy bound (s', n)
      · obtain ⟨s', h1, h2, h3⟩ := hlow
        exact ih s' h2 h1 (by omega) h3
      · exact ⟨s, hs, hb, h, fun s' h1 h2 h3 => hlow ⟨s', h1, h2, h3⟩⟩

/-- Nothing that fits comes before the first fit. -/
theorem FirstFit.le {start n s t : Nat} (hs : FirstFit busy bound start n s)
    (ht : start ≤ t) (hfit : Fits busy bound (t, n)) : s ≤ t :=
  Nat.le_of_not_lt fun hlt => hs.first t ht hlt hfit

/-- There is one first fit. -/
theorem FirstFit.unique {start n s t : Nat} (hs : FirstFit busy bound start n s)
    (ht : FirstFit busy bound start n t) : s = t := by
  by_contra hne
  rcases Nat.lt_or_gt_of_ne hne with h | h
  · exact ht.first s hs.start_le h hs.fits
  · exact hs.first t ht.start_le h ht.fits

end Fit

/-! ## Ownership -/

/-- The blocks cover busy units, none below the bound twice. -/
structure Owned (bound : Nat) (busy : Nat → Prop) (live : List Block) : Prop where
  busy : ∀ b ∈ live, ∀ p, Covers b p → p < bound → busy p
  disjoint : live.Pairwise (fun b c => ∀ p < bound, ¬ (Covers b p ∧ Covers c p))

namespace Owned

variable {bound : Nat} {busy busy' : Nat → Prop} {live : List Block}

/-- Without owners nothing is busy. -/
theorem nil : Owned bound busy [] where
  busy := by simp
  disjoint := List.Pairwise.nil

/-- More busy units do no harm. -/
theorem mono (h : Owned bound busy live) (hb : ∀ p, busy p → busy' p) :
    Owned bound busy' live where
  busy := fun b hm p hc hp => hb p (h.busy b hm p hc hp)
  disjoint := h.disjoint

/-- **HANDING OUT** a block that fits. -/
theorem alloc (h : Owned bound busy live) {b : Block} (hfit : Fits busy bound b)
    (hkeep : ∀ p, busy p → busy' p)
    (hset : ∀ p, Covers b p → p < bound → busy' p) :
    Owned bound busy' (b :: live) where
  busy := by
    intro c hc p hcov hp
    rcases List.mem_cons.mp hc with rfl | hc
    · exact hset p hcov hp
    · exact hkeep p (h.busy c hc p hcov hp)
  disjoint := by
    refine List.pairwise_cons.mpr ⟨?_, h.disjoint⟩
    rintro c hc p hp ⟨hb, hcov⟩
    exact hfit p hb hp (h.busy c hc p hcov hp)

/-- The order of the blocks does not matter. -/
theorem perm (h : Owned bound busy live) {live' : List Block}
    (hperm : live.Perm live') : Owned bound busy live' where
  busy := fun b hb => h.busy b (hperm.mem_iff.mpr hb)
  disjoint := by
    have hsymm : ∀ {c d : Block},
        (∀ p < bound, ¬ (Covers c p ∧ Covers d p)) →
        ∀ p < bound, ¬ (Covers d p ∧ Covers c p) :=
      fun hcd p hp hdc => hcd p hp ⟨hdc.2, hdc.1⟩
    exact hperm.pairwise h.disjoint hsymm

/-- **TAKING BACK** a block: only its own units become free. -/
theorem release (h : Owned bound busy live) {b : Block} {rest : List Block}
    (hperm : live.Perm (b :: rest))
    (hkeep : ∀ p < bound, busy p → ¬ Covers b p → busy' p) :
    Owned bound busy' rest := by
  have hpair := List.pairwise_cons.mp (h.perm hperm).disjoint
  refine ⟨?_, hpair.2⟩
  intro c hc p hcov hp
  have hin : c ∈ live := hperm.mem_iff.mpr (List.mem_cons_of_mem _ hc)
  exact hkeep p hp (h.busy c hin p hcov hp)
    (fun hcb => hpair.1 c hc p hp ⟨hcb, hcov⟩)

/-- **AT MOST ONE** block covers a unit below the bound. -/
theorem countP_le_one (h : Owned bound busy live) {p : Nat} (hp : p < bound) :
    live.countP (fun b => Covers b p) ≤ 1 := by
  have hpair := h.disjoint
  clear h
  induction live with
  | nil => simp
  | cons b live ih =>
      obtain ⟨hb, hrest⟩ := List.pairwise_cons.mp hpair
      by_cases hcov : Covers b p
      · have hzero : live.countP (fun c => Covers c p) = 0 := by
          refine List.countP_eq_zero.mpr ?_
          intro c hc
          simpa using fun hcc => hb c hc p hp ⟨hcov, hcc⟩
        have hcount : (b :: live).countP (fun c => Covers c p) = 0 + 1 := by
          rw [List.countP_cons_of_pos (by simpa using hcov), hzero]
        omega
      · rw [List.countP_cons_of_neg (by simpa using hcov)]
        exact ih hrest

end Owned

end Intervals
