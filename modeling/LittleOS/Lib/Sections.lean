import LittleOS.Lib.Runs
import Mathlib.Logic.Function.Basic

/-! # Sections that clear a flag and put it back

    A processor has one flag.  A thread that enters a section remembers the
    flag and clears it, and puts it back when it leaves; sections nest.  Inside
    a section the processor may go over to another thread: it stores the flag
    for the old one and takes up the one stored for the new one.

    * `Inv` — a thread with a section open has the flag clear, and all its
      sections but the outermost found it so;
    * `step_inv`, `run_inv` — for any number of threads and any order of
      steps. -/

namespace Sections

open Runs

variable {τ : Type*} [DecidableEq τ]

/-- The flags that the open sections of each thread found, innermost first. -/
structure Machine (τ : Type*) where
  flag : Bool
  curr : τ
  stored : τ → Bool
  stack : τ → List Bool

/-- The operations on a flag with sections, switches and resets. -/
inductive Op (τ : Type*) where
  | enter
  | leave
  | switch (t : τ)
  | reset (t : τ) (flag : Bool)
  | set (flag : Bool)

/-- `set` is a change outside all sections, `reset` starts another thread
    anew. -/
def step : Op τ → Machine τ → Option (Machine τ)
  | .enter, m =>
      some { m with
        flag := false
        stack := Function.update m.stack m.curr (m.flag :: m.stack m.curr) }
  | .leave, m =>
      match m.stack m.curr with
      | [] => none
      | flag :: rest =>
          some { m with flag := flag, stack := Function.update m.stack m.curr rest }
  | .switch t, m =>
      if m.stack m.curr = [] then none
      else
        let stored := Function.update m.stored m.curr m.flag
        some { m with flag := stored t, curr := t, stored := stored }
  | .reset t flag, m =>
      if t = m.curr then none
      else some { m with
        stored := Function.update m.stored t flag
        stack := Function.update m.stack t [] }
  | .set flag, m =>
      if m.stack m.curr = [] then some { m with flag := flag } else none

/-- Leaving restores the flag that the section found. -/
theorem step_leave {m m' : Machine τ} : step .leave m = some m' ↔
    ∃ flag rest, m.stack m.curr = flag :: rest ∧
      m' = { m with flag := flag, stack := Function.update m.stack m.curr rest } := by
  simp only [step]
  cases m.stack m.curr with
  | nil => simp
  | cons flag rest =>
      rw [Option.some.injEq]
      constructor
      · rintro rfl
        exact ⟨flag, rest, rfl, rfl⟩
      · rintro ⟨flag', rest', hst, rfl⟩
        obtain ⟨rfl, rfl⟩ := List.cons.inj hst
        rfl

/-- A switch exchanges the flag for that of the other task. -/
theorem step_switch {t : τ} {m m' : Machine τ} : step (.switch t) m = some m' ↔
    m.stack m.curr ≠ [] ∧
      m' = { m with
        flag := Function.update m.stored m.curr m.flag t
        curr := t
        stored := Function.update m.stored m.curr m.flag } := by
  simp only [step, Option.ite_none_left_eq_some, Option.some.injEq]
  exact and_congr_right fun _ => eq_comm

/-- A reset starts another task with a flag and without sections. -/
theorem step_reset {t : τ} {flag : Bool} {m m' : Machine τ} :
    step (.reset t flag) m = some m' ↔
    t ≠ m.curr ∧ m' = { m with
      stored := Function.update m.stored t flag
      stack := Function.update m.stack t [] } := by
  simp only [step, Option.ite_none_left_eq_some, Option.some.injEq]
  exact and_congr_right fun _ => eq_comm

/-- The flag is set outside sections only. -/
theorem step_set {flag : Bool} {m m' : Machine τ} : step (.set flag) m = some m' ↔
    m.stack m.curr = [] ∧ m' = { m with flag := flag } := by
  simp only [step, Option.ite_none_right_eq_some, Option.some.injEq]
  exact and_congr_right fun _ => eq_comm

/-- The flag of a thread, running or not. -/
def flagOf (m : Machine τ) (t : τ) : Bool := if t = m.curr then m.flag else m.stored t

/-- All but the outermost section found the flag clear. -/
def Nested : List Bool → Prop
  | [] => True
  | [_] => True
  | flag :: rest => flag = false ∧ Nested rest

/-- The outer sections are nested too. -/
theorem Nested.tail {flag : Bool} {rest : List Bool} (h : Nested (flag :: rest)) :
    Nested rest := by
  cases rest with
  | nil => exact trivial
  | cons => exact h.2

/-- One section more, in front of sections that have cleared the flag. -/
theorem Nested.cons {flag : Bool} {rest : List Bool} (h : Nested rest)
    (hf : rest ≠ [] → flag = false) : Nested (flag :: rest) := by
  cases rest with
  | nil => exact trivial
  | cons => exact ⟨hf (List.cons_ne_nil _ _), h⟩

/-- Of two sections the inner one found the flag clear. -/
theorem Nested.head {flag : Bool} {rest : List Bool} (h : Nested (flag :: rest))
    (hr : rest ≠ []) : flag = false := by
  cases rest with
  | nil => exact absurd rfl hr
  | cons => exact h.1

/-- Every open section has the flag clear. -/
structure Inv (m : Machine τ) : Prop where
  clear : ∀ t, m.stack t ≠ [] → flagOf m t = false
  nested : ∀ t, Nested (m.stack t)

/-- Inside a section the flag is off. -/
theorem Inv.running {m : Machine τ} (h : Inv m) (hs : m.stack m.curr ≠ []) :
    m.flag = false := by
  have := h.clear m.curr hs
  unfold flagOf at this
  rwa [if_pos rfl] at this

/-- The running thread changes its flag and its sections. -/
theorem Inv.change {m : Machine τ} (h : Inv m) {flag : Bool} {frames : List Bool}
    (hf : frames ≠ [] → flag = false) (hn : Nested frames) :
    Inv { m with flag := flag, stack := Function.update m.stack m.curr frames } where
  clear := by
    intro t ht
    dsimp only at ht
    unfold flagOf
    dsimp only
    by_cases hc : t = m.curr
    · rw [hc, Function.update_self] at ht
      rw [if_pos hc]
      exact hf ht
    · rw [Function.update_of_ne hc] at ht
      have := h.clear t ht
      unfold flagOf at this
      rwa [if_neg hc] at this ⊢
  nested := by
    intro t
    dsimp only
    by_cases hc : t = m.curr
    · rw [hc, Function.update_self]
      exact hn
    · rw [Function.update_of_ne hc]
      exact h.nested t

/-- **EVERY STEP** keeps the invariant. -/
theorem step_inv {o : Op τ} {m m' : Machine τ} (h : Inv m) (hs : step o m = some m') :
    Inv m' := by
  cases o with
  | enter =>
      obtain rfl := Option.some.inj hs
      exact h.change (fun _ => rfl) ((h.nested m.curr).cons h.running)
  | leave =>
      obtain ⟨flag, rest, hst, rfl⟩ := step_leave.mp hs
      have hn := h.nested m.curr
      rw [hst] at hn
      exact h.change hn.head hn.tail
  | switch t =>
      obtain ⟨-, rfl⟩ := step_switch.mp hs
      refine ⟨?_, h.nested⟩
      intro u hu
      -- the flag of every thread is where it was, or has moved with the switch
      have hmoved : flagOf m u = Function.update m.stored m.curr m.flag u := by
        unfold flagOf
        rw [Function.update_apply]
      have hflag := h.clear u hu
      rw [hmoved] at hflag
      unfold flagOf
      dsimp only
      by_cases hut : u = t
      · rw [if_pos hut, ← hut]
        exact hflag
      · rw [if_neg hut]
        exact hflag
  | reset t flag =>
      obtain ⟨htc, rfl⟩ := step_reset.mp hs
      constructor
      · intro u hu
        dsimp only at hu
        by_cases hut : u = t
        · rw [hut, Function.update_self] at hu
          exact absurd rfl hu
        · rw [Function.update_of_ne hut] at hu
          have hflag := h.clear u hu
          unfold flagOf at hflag ⊢
          dsimp only
          rwa [Function.update_of_ne hut]
      · intro u
        dsimp only
        by_cases hut : u = t
        · rw [hut, Function.update_self]
          exact trivial
        · rw [Function.update_of_ne hut]
          exact h.nested u
  | set flag =>
      obtain ⟨hnil, rfl⟩ := step_set.mp hs
      have hchange : Inv { m with
          flag := flag, stack := Function.update m.stack m.curr [] } :=
        h.change (fun hc => absurd rfl hc) trivial
      rwa [← hnil, Function.update_eq_self] at hchange

/-- **EVERY RUN** keeps it. -/
theorem run_inv {ok : Op τ → Machine τ → Prop} {os : List (Op τ)} {m m' : Machine τ}
    (hr : Run step ok m os m') (h : Inv m) : Inv m' :=
  hr.invariant h fun _ _ _ hi _ hs => step_inv hi hs

/-- With no section open anywhere. -/
theorem start_inv {m : Machine τ} (h : ∀ t, m.stack t = []) : Inv m where
  clear := fun t ht => absurd (h t) ht
  nested := fun t => by
    rw [h t]
    exact trivial

end Sections
