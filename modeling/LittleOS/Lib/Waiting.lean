import Mathlib.Algebra.BigOperators.Group.List.Basic
import Mathlib.Algebra.Order.Ring.Int
import Mathlib.Data.List.TakeWhile
import Mathlib.Tactic.TypeStar
import LittleOS.Lib.Runs

/-! # Waiting in a queue

    Members join a queue at its end and leave it anywhere.  What one of them
    waits for is in front of it: so many members, or the sum of what each of
    them may still take.

    * `load_append`, `load_erase`, `load_spend` — who joins behind costs
      nothing, who leaves or spends from in front makes the wait shorter;
    * `load_le` — a bound by the place in the queue;
    * `Run.spent` — a run spends at most what it found, if every step pays from
      it. -/

namespace Waiting

open Runs

variable {α : Type*} [DecidableEq α] {l : List α} {t u : α} {w v : α → Nat}

/-- The members in front of `t`. -/
def ahead (l : List α) (t : α) : List α := l.takeWhile (· ≠ t)

/-- The sum of their weights. -/
def load (w : α → Nat) (l : List α) (t : α) : Nat := ((ahead l t).map w).sum

/-- Nobody is ahead of the head. -/
@[simp] theorem ahead_cons_self (l : List α) (t : α) : ahead (t :: l) t = [] := by
  simp [ahead]

/-- The head is ahead of all others. -/
theorem ahead_cons_of_ne (h : u ≠ t) (l : List α) : ahead (u :: l) t = u :: ahead l t := by
  simp [ahead, h]

/-- Who is ahead is in the queue. -/
theorem mem_of_mem_ahead (h : u ∈ ahead l t) : u ∈ l :=
  (List.takeWhile_sublist _).subset h

/-- Nobody is ahead of himself. -/
theorem ne_of_mem_ahead (h : u ∈ ahead l t) : u ≠ t := by
  simpa using List.mem_takeWhile_imp h

/-- Who comes later is not ahead. -/
theorem ahead_append (h : t ∈ l) (l' : List α) : ahead (l ++ l') t = ahead l t := by
  induction l with
  | nil => exact nomatch h
  | cons a l ih =>
      by_cases ha : a = t
      · rw [ha, List.cons_append, ahead_cons_self, ahead_cons_self]
      · rw [List.cons_append, ahead_cons_of_ne ha, ahead_cons_of_ne ha,
          ih ((List.mem_cons.mp h).resolve_left (Ne.symm ha))]

/-- Who leaves is no longer ahead. -/
theorem ahead_erase (h : u ≠ t) (l : List α) : ahead (l.erase u) t = (ahead l t).erase u := by
  induction l with
  | nil => rfl
  | cons a l ih =>
      by_cases ha : a = t
      · rw [ha, ahead_cons_self, List.erase_cons_tail (by simpa using h.symm), ahead_cons_self]
        rfl
      · rw [ahead_cons_of_ne ha]
        by_cases hu : a = u
        · rw [hu, List.erase_cons_head, List.erase_cons_head]
        · rw [List.erase_cons_tail (by simpa using hu), List.erase_cons_tail (by simpa using hu),
            ahead_cons_of_ne ha, ih]

/-- There are as many as the place of `t` says. -/
theorem length_ahead (h : t ∈ l) : (ahead l t).length = l.idxOf t := by
  induction l with
  | nil => exact nomatch h
  | cons a l ih =>
      by_cases ha : a = t
      · rw [ha, ahead_cons_self, List.idxOf_cons_self]
        rfl
      · rw [ahead_cons_of_ne ha, List.idxOf_cons_ne _ ha, List.length_cons,
          ih ((List.mem_cons.mp h).resolve_left (Ne.symm ha))]

/-- Who leaves moves nobody back. -/
theorem idxOf_erase_le (ht : t ∈ l) (h : u ≠ t) : (l.erase u).idxOf t ≤ l.idxOf t := by
  rw [← length_ahead ht, ← length_ahead ((List.mem_erase_of_ne h.symm).mpr ht), ahead_erase h]
  exact List.length_erase_le

/-- Who comes later adds nothing. -/
theorem load_append (h : t ∈ l) (l' : List α) : load w (l ++ l') t = load w l t := by
  unfold load
  rw [ahead_append h]

/-- **LEAVING**: the load falls by what the member weighed. -/
theorem load_erase (h : u ∈ ahead l t) : load w (l.erase u) t + w u = load w l t := by
  unfold load
  rw [ahead_erase (ne_of_mem_ahead h), Nat.add_comm]
  exact List.sum_map_erase w h

/-- The load depends on those ahead only. -/
theorem load_congr (h : ∀ a ∈ ahead l t, v a = w a) : load v l t = load w l t := by
  unfold load
  rw [List.map_congr_left h]

/-- **SPENDING**: one unit of one member in front. -/
theorem load_spend (hnd : l.Nodup) (h : u ∈ ahead l t) (hu : v u + 1 = w u)
    (hother : ∀ a, a ≠ u → v a = w a) : load v l t + 1 = load w l t := by
  have hne : ∀ a ∈ ahead (l.erase u) t, v a = w a := by
    intro a ha
    exact hother a fun he => hnd.not_mem_erase (he ▸ mem_of_mem_ahead ha)
  rw [← load_erase h, ← load_erase h, load_congr hne]
  omega

/-- **THE WAIT IS BOUNDED** by the place in the queue. -/
theorem load_le {b : Nat} (ht : t ∈ l) (h : ∀ a ∈ l, w a ≤ b) :
    load w l t ≤ b * l.idxOf t := by
  induction l with
  | nil => exact nomatch ht
  | cons a l ih =>
      by_cases ha : a = t
      · rw [load, ha, ahead_cons_self]
        exact Nat.zero_le _
      · have hrest := ih ((List.mem_cons.mp ht).resolve_left (Ne.symm ha))
          fun c hc => h c (List.mem_cons_of_mem a hc)
        have hhead := h a List.mem_cons_self
        unfold load at hrest ⊢
        rw [ahead_cons_of_ne ha, List.map_cons, List.sum_cons, List.idxOf_cons_ne _ ha,
          Nat.mul_succ]
        omega

end Waiting

namespace Runs

variable {σ ℓ : Type*} {step : ℓ → σ → Option σ} {ok : ℓ → σ → Prop}

/-- **A RUN SPENDS** at most what it found: `cost` is paid from `budget` at every
    step.  Induction over the run, with an invariant of the states. -/
theorem Run.spent (cost : ℓ → Nat) (budget : σ → Nat) {P : σ → Prop} {s s' : σ}
    {ls : List ℓ} (h : Run step ok s ls s') (h0 : P s)
    (hstep : ∀ l s s', P s → ok l s → step l s = some s' →
      P s' ∧ cost l + budget s' ≤ budget s) :
    P s' ∧ (ls.map cost).sum + budget s' ≤ budget s := by
  induction h with
  | nil => exact ⟨h0, by simp⟩
  | snoc _ hok hs ih =>
      obtain ⟨hp, hle⟩ := ih
      obtain ⟨hp', hle'⟩ := hstep _ _ _ hp hok hs
      refine ⟨hp', ?_⟩
      rw [List.map_append, List.sum_append, List.map_singleton, List.sum_singleton]
      omega

end Runs
