import Mathlib.Data.List.Induction

/-! # The last write wins

    Writes each cover some places of a store and give all of them one value.

    * `last_eq_some_iff`, `last_eq_none_iff` — the last write that covers a place;
    * `view_foldl` — after a run a place has the value of that one, if what one
      write does is known. -/

namespace LastWrite

variable {κ ι β σ : Type*}

section Last

variable (covers : κ → ι → Prop) [∀ c, DecidablePred (covers c)]

/-- The last write that covers a place. -/
def last (writes : List κ) (j : ι) : Option κ :=
  writes.reverse.find? fun c => decide (covers c j)

variable {covers}

theorem last_append_singleton (writes : List κ) (c : κ) (j : ι) :
    last covers (writes ++ [c]) j = if covers c j then some c else last covers writes j := by
  unfold last
  rw [List.reverse_append, List.reverse_singleton, List.singleton_append, List.find?_cons]
  by_cases hc : covers c j
  · rw [if_pos hc, decide_eq_true hc]
  · rw [if_neg hc, decide_eq_false hc]

theorem last_eq_none_iff {writes : List κ} {j : ι} :
    last covers writes j = none ↔ ∀ c ∈ writes, ¬ covers c j := by
  unfold last
  rw [List.find?_eq_none]
  simp

/-- It covers the place, and none behind it does. -/
theorem last_eq_some_iff {writes : List κ} {j : ι} {c : κ} :
    last covers writes j = some c ↔
      covers c j ∧ ∃ before behind, writes = before ++ c :: behind ∧
        ∀ d ∈ behind, ¬ covers d j := by
  unfold last
  rw [List.find?_eq_some_iff_append, decide_eq_true_iff]
  refine and_congr_right fun _ => ?_
  constructor
  · rintro ⟨before, behind, heq, hnot⟩
    refine ⟨behind.reverse, before.reverse, ?_, fun d hd hcov => ?_⟩
    · rw [← List.reverse_reverse writes, heq, List.reverse_append, List.reverse_cons,
        List.append_assoc, List.singleton_append]
    · simpa [hcov] using hnot d (List.mem_reverse.mp hd)
  · rintro ⟨before, behind, rfl, hnot⟩
    refine ⟨behind.reverse, before.reverse, ?_, fun d hd => ?_⟩
    · rw [List.reverse_append, List.reverse_cons, List.append_assoc, List.singleton_append]
    · simpa using hnot d (List.mem_reverse.mp hd)

end Last

/-- **THE LAST WRITE WINS** at every place of `P`, if a write changes exactly what
    it covers.  Induction over the writes from the last on. -/
theorem view_foldl {covers : κ → ι → Prop} [∀ c, DecidablePred (covers c)] {value : κ → β}
    {act : σ → κ → σ} (view : σ → ι → β) {P : ι → Prop}
    (hact : ∀ s c j, P j → view (act s c) j = if covers c j then value c else view s j)
    (writes : List κ) (s : σ) {j : ι} (hj : P j) :
    view (writes.foldl act s) j = (last covers writes j).elim (view s j) value := by
  induction writes using List.reverseRecOn with
  | nil => rfl
  | append_singleton writes c ih =>
      rw [List.foldl_append, List.foldl_cons, List.foldl_nil, hact _ c j hj,
        last_append_singleton]
      by_cases hc : covers c j
      · rw [if_pos hc, if_pos hc]
        rfl
      · rw [if_neg hc, if_neg hc]
        exact ih

end LastWrite
