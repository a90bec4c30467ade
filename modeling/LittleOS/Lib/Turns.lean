import Mathlib.Tactic.TypeStar

/-! # The turns of a loop

    `xs.foldl step s` is a loop with one turn for each element of `xs`.
    `Turn step s xs s' x` says that the turn of `x` begins in `s'`.

    * `Turn.invariant` — what every turn keeps holds when a turn begins;
    * `turn_range` — the turns of a counting loop;
    * `mem_eventsAlong` — what happens in the loop happens in a turn. -/

namespace Turns

variable {σ ι ε : Type*} {step : σ → ι → σ} {s s' : σ} {x y : ι} {xs : List ι}

/-- The loop over `xs` from `s` on comes to the turn of `x` in `s'`. -/
inductive Turn (step : σ → ι → σ) : σ → List ι → σ → ι → Prop where
  | first (s : σ) (x : ι) (xs : List ι) : Turn step s (x :: xs) s x
  | later {s s' : σ} {x y : ι} {xs : List ι} :
      Turn step (step s x) xs s' y → Turn step s (x :: xs) s' y

theorem Turn.mem (h : Turn step s xs s' x) : x ∈ xs := by
  induction h with
  | first s x xs => exact List.mem_cons_self ..
  | later _ ih => exact List.mem_cons_of_mem _ ih

/-- **INVARIANTS** of the turns hold in the state a turn begins in. -/
theorem Turn.invariant {P : σ → Prop} (h : Turn step s xs s' x) (h0 : P s)
    (hstep : ∀ s' x, Turn step s xs s' x → P s' → P (step s' x)) : P s' := by
  induction h with
  | first s x xs => exact h0
  | later _ ih =>
      exact ih (hstep _ _ (.first ..) h0) (fun s' y hy => hstep s' y (.later hy))

/-- And behind the last turn. -/
theorem foldl_invariant {P : σ → Prop} (h0 : P s)
    (hstep : ∀ s' x, Turn step s xs s' x → P s' → P (step s' x)) :
    P (xs.foldl step s) := by
  induction xs generalizing s with
  | nil => exact h0
  | cons x xs ih =>
      exact ih (hstep s x (.first ..) h0) (fun s' y hy => hstep s' y (.later hy))

/-- The last turn begins behind all the others. -/
theorem turn_concat : Turn step s (xs ++ [x]) s' y ↔
    Turn step s xs s' y ∨ s' = xs.foldl step s ∧ y = x := by
  induction xs generalizing s with
  | nil =>
      constructor
      · intro h
        cases h with
        | first => exact Or.inr ⟨rfl, rfl⟩
        | later h => exact nomatch h
      · rintro (h | ⟨rfl, rfl⟩)
        · exact nomatch h
        · exact .first ..
  | cons z zs ih =>
      constructor
      · intro h
        cases h with
        | first => exact Or.inl (.first ..)
        | later h => exact (ih.mp h).imp_left .later
      · rintro (h | h)
        · cases h with
          | first => exact .first ..
          | later h => exact .later (ih.mpr (Or.inl h))
        · exact .later (ih.mpr (Or.inr h))

/-- **A COUNTING LOOP** comes to turn `i` behind the turns before it. -/
theorem turn_range {step : σ → Nat → σ} {n i : Nat} :
    Turn step s (List.range n) s' i ↔ i < n ∧ s' = (List.range i).foldl step s := by
  induction n with
  | zero =>
      refine iff_of_false (fun h => ?_) fun h => absurd h.1 (Nat.not_lt_zero i)
      exact nomatch h
  | succ n ih =>
      rw [List.range_succ, turn_concat, ih]
      constructor
      · rintro (⟨hi, hs⟩ | ⟨hs, rfl⟩)
        · exact ⟨Nat.lt_succ_of_lt hi, hs⟩
        · exact ⟨Nat.lt_succ_self i, hs⟩
      · rintro ⟨hi, hs⟩
        rcases Nat.lt_succ_iff_lt_or_eq.mp hi with hlt | rfl
        · exact Or.inl ⟨hlt, hs⟩
        · exact Or.inr ⟨hs, rfl⟩

/-- What happens in the turns, one after another. -/
def eventsAlong (step : σ → ι → σ) (events : σ → ι → List ε) : σ → List ι → List ε
  | _, [] => []
  | s, x :: xs => events s x ++ eventsAlong step events (step s x) xs

/-- **EVERY EVENT** of the loop is one of a turn. -/
theorem mem_eventsAlong {events : σ → ι → List ε} {e : ε} :
    e ∈ eventsAlong step events s xs ↔ ∃ s' x, Turn step s xs s' x ∧ e ∈ events s' x := by
  induction xs generalizing s with
  | nil =>
      refine iff_of_false (List.not_mem_nil) ?_
      rintro ⟨s', x, ht, -⟩
      exact nomatch ht
  | cons y ys ih =>
      rw [eventsAlong, List.mem_append, ih]
      constructor
      · rintro (he | ⟨s', x, ht, he⟩)
        · exact ⟨s, y, .first .., he⟩
        · exact ⟨s', x, .later ht, he⟩
      · rintro ⟨s', x, ht, he⟩
        cases ht with
        | first => exact Or.inl he
        | later ht => exact Or.inr ⟨s', x, ht, he⟩

end Turns
