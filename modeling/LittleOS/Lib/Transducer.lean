import Mathlib.Data.List.Basic

/-! # Transducers

    A machine that reads symbols, changes its state and emits a list at every
    symbol, or gets stuck.

    * `run_append` — a word in two parts is read one part after the other, and
      what is emitted is appended;
    * `run_flatMap` — a code word for each symbol that leads back to the state;
    * `run_track` — what the states say if every step says it of its own;
    * `run_flatMap_out` — a machine that emits the texts of what another emits;
    * `foldlM_eq_run` — a machine that puts away what another emits. -/

namespace Transducer

variable {σ α β γ : Type*}

/-- What is emitted, and the state at the end. -/
def run (step : σ → α → Option (List β × σ)) : σ → List α → Option (List β × σ)
  | s, [] => some ([], s)
  | s, a :: l => (step s a).bind fun r => (run step r.2 l).map fun r' => (r.1 ++ r'.1, r'.2)

variable {step : σ → α → Option (List β × σ)}

/-- **COMPOSITION**. -/
theorem run_append (s : σ) (l l' : List α) :
    run step s (l ++ l')
      = (run step s l).bind fun r =>
          (run step r.2 l').map fun r' => (r.1 ++ r'.1, r'.2) := by
  induction l generalizing s with
  | nil => simp [run]
  | cons a l ih =>
      rw [List.cons_append, run, run]
      cases step s a with
      | none => rfl
      | some r =>
          rw [Option.bind_some, Option.bind_some, ih]
          cases run step r.2 l with
          | none => rfl
          | some r' =>
              rw [Option.bind_some, Option.map_some, Option.bind_some, Option.map_map]
              simp only [Function.comp_def, List.append_assoc]

theorem run_flatMap {γ : Type*} {s : σ} {code : γ → List α} {out : γ → List β} (l : List γ)
    (h : ∀ c ∈ l, run step s (code c) = some (out c, s)) :
    run step s (l.flatMap code) = some (l.flatMap out, s) := by
  induction l with
  | nil => rfl
  | cons c l ih =>
      rw [List.flatMap_cons, run_append, h c List.mem_cons_self, Option.bind_some,
        ih fun d hd => h d (List.mem_cons_of_mem c hd)]
      rfl

/-- A view of the state that every step changes in its own way. -/
theorem run_track (view : σ → γ) {next : γ → α → γ}
    (h : ∀ s a r, step s a = some r → view r.2 = next (view s) a) {s : σ} {l : List α}
    {r : List β × σ} (hr : run step s l = some r) : view r.2 = l.foldl next (view s) := by
  induction l generalizing s r with
  | nil =>
      obtain rfl := Option.some.inj hr
      rfl
  | cons a l ih =>
      obtain ⟨r₁, h₁, hrest⟩ := Option.bind_eq_some_iff.mp hr
      obtain ⟨r₂, h₂, rfl⟩ := Option.map_eq_some_iff.mp hrest
      rw [List.foldl_cons, ← h s a r₁ h₁]
      exact ih (r := r₂) h₂

/-! ## Two machines -/

/-- A text for everything that is emitted. -/
theorem run_flatMap_out {step' : σ → α → Option (List γ × σ)} {text : β → List γ}
    (h : ∀ s a, step' s a = (step s a).map fun r => (r.1.flatMap text, r.2)) (s : σ)
    (l : List α) :
    run step' s l = (run step s l).map fun r => (r.1.flatMap text, r.2) := by
  induction l generalizing s with
  | nil => rfl
  | cons a l ih =>
      rw [run, run, h]
      cases step s a with
      | none => rfl
      | some r =>
          rw [Option.map_some, Option.bind_some, Option.bind_some, ih]
          simp only [Option.map_map, Function.comp_def, List.flatMap_append]

/-- **PUTTING AWAY**: `view` is what a machine `τ` has of the state, and `emit`
    puts what is emitted to the rest, one list after the other. -/
theorem foldlM_eq_run {τ : Type*} {act : τ → α → Option τ} (view : τ → σ)
    (emit : τ → List β → σ → τ) (hview : ∀ w o s, view (emit w o s) = s)
    (hnil : ∀ w, emit w [] (view w) = w)
    (happend : ∀ w o s o' s', emit (emit w o s) o' s' = emit w (o ++ o') s')
    (hact : ∀ w a, act w a = (step (view w) a).map fun r => emit w r.1 r.2) (w : τ)
    (l : List α) :
    l.foldlM act w = (run step (view w) l).map fun r => emit w r.1 r.2 := by
  induction l generalizing w with
  | nil => exact congrArg some (hnil w).symm
  | cons a l ih =>
      rw [List.foldlM_cons, run, hact]
      cases step (view w) a with
      | none => rfl
      | some r =>
          rw [Option.map_some, Option.bind_some]
          refine (ih (emit w r.1 r.2)).trans ?_
          simp only [hview, Option.map_map, Function.comp_def, happend]

end Transducer
