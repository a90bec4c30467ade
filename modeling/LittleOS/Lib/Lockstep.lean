import LittleOS.Lib.Runs

/-! # Two systems in lockstep

    A relation between the states of two systems, and a label of the second for
    every label of the first.  In related states the steps of matching labels
    both can be taken, to related states, or neither can.

    * `Lockstep.run` — a run of the one is a run of the other;
    * `Lockstep.enabled` — and at its end the same steps can be taken. -/

namespace Runs

variable {σ τ ℓ κ : Type*} {step : ℓ → σ → Option σ} {ok : ℓ → σ → Prop}
  {step' : κ → τ → Option τ} {ok' : κ → τ → Prop} {label : ℓ → κ} {R : σ → τ → Prop}

/-- Under the condition `ok` of the first system, which becomes `ok'` of the
    second. -/
structure Lockstep (step : ℓ → σ → Option σ) (ok : ℓ → σ → Prop) (step' : κ → τ → Option τ)
    (ok' : κ → τ → Prop) (label : ℓ → κ) (R : σ → τ → Prop) : Prop where
  cond : ∀ l s t, R s t → ok l s → ok' (label l) t
  steps : ∀ l s t, R s t → ok l s → Option.Rel R (step l s) (step' (label l) t)

/-- The same under a stronger condition. -/
theorem Lockstep.mono (h : Lockstep step ok step' ok' label R) (ok₂ : ℓ → σ → Prop)
    (ok₂' : κ → τ → Prop) (himp : ∀ l s, ok₂ l s → ok l s)
    (hcond : ∀ l s t, R s t → ok₂ l s → ok₂' (label l) t) :
    Lockstep step ok₂ step' ok₂' label R :=
  ⟨hcond, fun l s t hr hok => h.steps l s t hr (himp l s hok)⟩

/-- A step that one machine makes the other makes too, and they stay related. -/
theorem Lockstep.some (h : Lockstep step ok step' ok' label R) {l : ℓ} {s s' : σ} {t : τ}
    (hr : R s t) (hok : ok l s) (hs : step l s = some s') :
    ∃ t', step' (label l) t = Option.some t' ∧ R s' t' := by
  have hrel := h.steps l s t hr hok
  rw [hs] at hrel
  cases ht : step' (label l) t with
  | none =>
      rw [ht] at hrel
      exact nomatch hrel
  | some t' =>
      rw [ht] at hrel
      cases hrel with
      | some hr' => exact ⟨t', rfl, hr'⟩

/-- **A RUN** of the first system is one of the second.  Induction over the
    run. -/
theorem Lockstep.run (h : Lockstep step ok step' ok' label R) {s s' : σ} {t : τ} {ls : List ℓ}
    (hrun : Run step ok s ls s') (hr : R s t) :
    ∃ t', Run step' ok' t (ls.map label) t' ∧ R s' t' := by
  induction hrun with
  | nil => exact ⟨t, Run.nil t, hr⟩
  | snoc _ hok hs ih =>
      obtain ⟨t₁, hrun', hr₁⟩ := ih
      obtain ⟨t', hs', hr'⟩ := h.some hr₁ hok hs
      rw [List.map_append]
      exact ⟨t', Run.snoc hrun' (h.cond _ _ _ hr₁ hok) hs', hr'⟩

/-- Neither makes a step that the other does not. -/
theorem Lockstep.enabled (h : Lockstep step ok step' ok' label R) {l : ℓ} {s : σ} {t : τ}
    (hr : R s t) (hok : ok l s) : (step l s).isSome = (step' (label l) t).isSome := by
  have hrel := h.steps l s t hr hok
  cases hs : step l s with
  | none =>
      rw [hs] at hrel
      cases ht : step' (label l) t with
      | none => rfl
      | some t' => rw [ht] at hrel; exact nomatch hrel
  | some s' =>
      obtain ⟨t', ht, -⟩ := h.some hr hok hs
      rw [ht]
      rfl

end Runs
