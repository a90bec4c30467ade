import Mathlib.Tactic.TypeStar

/-! # Runs of a labelled step function

    A system is a step function `step : ℓ → σ → Option σ`: the label says which
    step is taken, `none` that it cannot be taken there.  `Run step ok s ls s'`
    is a run from `s` to `s'` with labels `ls` in which every step is taken in
    a state that meets `ok` for its label.

    * `Run.invariant_labels`, `Run.invariant` — what the start has and every
      step keeps, the end has;
    * `Run.of_exec` — a run found by evaluation;
    * `Run.mono`, `Run.append` — weaker conditions, longer runs. -/

namespace Runs

variable {σ ℓ : Type*} {step : ℓ → σ → Option σ} {ok : ℓ → σ → Prop}

/-- A run all of whose steps meet `ok`. -/
inductive Run (step : ℓ → σ → Option σ) (ok : ℓ → σ → Prop) :
    σ → List ℓ → σ → Prop where
  | nil (s : σ) : Run step ok s [] s
  | snoc {s s' s'' : σ} {ls : List ℓ} {l : ℓ} :
      Run step ok s ls s' → ok l s' → step l s' = some s'' →
      Run step ok s (ls ++ [l]) s''

/-- A run of one step. -/
theorem Run.single {s s' : σ} {l : ℓ} (hok : ok l s) (hs : step l s = some s') :
    Run step ok s [l] s' :=
  Run.snoc (Run.nil s) hok hs

/-- **INVARIANTS** of the state and the labels taken so far hold at the end of
    every run. -/
theorem Run.invariant_labels {P : List ℓ → σ → Prop} {s s' : σ} {ls : List ℓ}
    (h : Run step ok s ls s') (h0 : P [] s)
    (hstep : ∀ ls l s s', P ls s → ok l s → step l s = some s' →
      P (ls ++ [l]) s') : P ls s' := by
  induction h with
  | nil => exact h0
  | snoc _ hok hs ih => exact hstep _ _ _ _ ih hok hs

/-- Invariants of the state alone. -/
theorem Run.invariant {P : σ → Prop} {s s' : σ} {ls : List ℓ}
    (h : Run step ok s ls s') (h0 : P s)
    (hstep : ∀ l s s', P s → ok l s → step l s = some s' → P s') : P s' :=
  h.invariant_labels (P := fun _ => P) h0 (fun _ => hstep)

/-- A run that meets a condition meets a weaker one. -/
theorem Run.mono {ok' : ℓ → σ → Prop} (himp : ∀ l s, ok l s → ok' l s)
    {s s' : σ} {ls : List ℓ} (h : Run step ok s ls s') :
    Run step ok' s ls s' := by
  induction h with
  | nil => exact Run.nil _
  | snoc _ hok hs ih => exact Run.snoc ih (himp _ _ hok) hs

/-- The same where the condition follows from an invariant of the run. -/
theorem Run.mono_invariant {ok' : ℓ → σ → Prop} {P : σ → Prop} {s s' : σ}
    {ls : List ℓ} (h : Run step ok s ls s') (h0 : P s)
    (hstep : ∀ l s s', P s → ok l s → step l s = some s' → P s')
    (himp : ∀ l s s', P s → step l s = some s' → ok l s → ok' l s) :
    Run step ok' s ls s' := by
  induction h with
  | nil => exact Run.nil _
  | snoc hrun hok hs ih =>
      have hp := hrun.invariant h0 hstep
      exact Run.snoc ih (himp _ _ _ hp hs hok) hs

/-- Runs one after the other. -/
theorem Run.append {s s' s'' : σ} {ls ls' : List ℓ} (h : Run step ok s ls s')
    (h' : Run step ok s' ls' s'') : Run step ok s (ls ++ ls') s'' := by
  induction h' with
  | nil => simpa using h
  | snoc _ hok hs ih =>
      rw [← List.append_assoc]
      exact Run.snoc ih hok hs

/-- A run without steps stays where it is. -/
theorem Run.nil_iff {s s' : σ} : Run step ok s [] s' ↔ s' = s := by
  constructor
  · intro h
    generalize he : ([] : List ℓ) = ls at h
    cases h with
    | nil => rfl
    | snoc _ _ _ => exact absurd he (by simp)
  · rintro rfl
    exact Run.nil _

/-- The last step of a run. -/
theorem Run.last {s s'' : σ} {ls : List ℓ} {l : ℓ}
    (h : Run step ok s (ls ++ [l]) s'') :
    ∃ s', Run step ok s ls s' ∧ ok l s' ∧ step l s' = some s'' := by
  generalize he : ls ++ [l] = ls' at h
  cases h with
  | nil => exact absurd he (by simp)
  | snoc hrun hok hs =>
      obtain ⟨rfl, hl⟩ := List.append_inj' he rfl
      obtain rfl := List.singleton_inj.mp hl
      exact ⟨_, hrun, hok, hs⟩

/-- Take the steps one after another, checking `ok` before each. -/
def exec (step : ℓ → σ → Option σ) (ok : ℓ → σ → Prop)
    [∀ l s, Decidable (ok l s)] : List ℓ → σ → Option σ
  | [], s => some s
  | l :: ls, s => if ok l s then (step l s).bind (exec step ok ls) else none

/-- An evaluated run is a run. -/
theorem Run.of_exec [∀ l s, Decidable (ok l s)] :
    ∀ {ls : List ℓ} {s s' : σ}, exec step ok ls s = some s' →
      Run step ok s ls s' := by
  intro ls
  induction ls with
  | nil =>
      intro s s' h
      obtain rfl : s = s' := Option.some.inj h
      exact Run.nil s
  | cons l ls ih =>
      intro s s' h
      by_cases hok : ok l s
      · rw [exec, if_pos hok] at h
        obtain ⟨s₁, hs, hrest⟩ := Option.bind_eq_some_iff.mp h
        exact (Run.single hok hs).append (ih hrest)
      · rw [exec, if_neg hok] at h
        exact nomatch h

/-- A run that evaluates to some state is a run to it. -/
theorem Run.of_isSome [∀ l s, Decidable (ok l s)] {ls : List ℓ} {s : σ}
    (h : (exec step ok ls s).isSome = true) :
    Run step ok s ls ((exec step ok ls s).get h) :=
  Run.of_exec (Option.some_get h).symm

end Runs
