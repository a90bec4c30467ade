import LittleOS.SchedMachine

/-! # The timer interrupt in service

    `irq_handler_timer` sends the EOI behind `task_time_tick`, whose two calls
    of `task_dispatch` may hand the processor over in its middle.  The tick
    then stays in service while the other task runs with interrupts on.

    * `serviced_of_run` — while no dispatch in the handler hands over, a task's
      own code never runs with the timer in service;
    * `handOver_in_service` — the first one that does hand over leads there, at
      once or when the task has left its own `task_dispatch`;
    * `eoi_after_switch` — such a run. -/

namespace LittleOS.TimerService

open Runs Sched SchedMachine

variable {τ : Type*} [DecidableEq τ] {idle first : τ} {osTicksMs : Nat}

/-- A task's own code runs with interrupts on while a timer interrupt is in
    service. -/
def RunsInService (m : Machine τ) : Prop :=
  m.point = .user ∧ m.intr = .on ∧ m.pic.TimerInService

instance (m : Machine τ) : Decidable (RunsInService m) :=
  inferInstanceAs (Decidable (_ ∧ _))

/-- The call of `task_dispatch` is one of the two in `task_time_tick`. -/
def InTick : Cont → Prop
  | .walk => True
  | .eoi => True
  | .yield _ => False
  | .sleep _ => False

instance : DecidablePred InTick
  | .walk => inferInstanceAs (Decidable True)
  | .eoi => inferInstanceAs (Decidable True)
  | .yield _ => inferInstanceAs (Decidable False)
  | .sleep _ => inferInstanceAs (Decidable False)

/-- No dispatch in the timer handler hands the processor over. -/
def TickKeepsTask (idle : τ) : Label τ → Machine τ → Prop
  | .kernel, m =>
      match m.point with
      | .dispatch k =>
          InTick k → some (taskNextRun idle m.sched) = m.sched.currTask
      | _ => True
  | _, _ => True

instance (l : Label τ) (m : Machine τ) : Decidable (TickKeepsTask idle l m) :=
  match l with
  | .kernel =>
      match hp : m.point with
      | .dispatch k =>
          decidable_of_iff (InTick k → some (taskNextRun idle m.sched) = m.sched.currTask)
            (by simp only [TickKeepsTask, hp])
      | .user | .leave _ _ | .walk | .eoi => isTrue (by simp only [TickKeepsTask, hp])
  | .taskInit _ | .schedYield | .sleep _ | .timer => isTrue trivial

/-! ## The invariant -/

/-- The place is in `irq_handler_timer`. -/
def InHandler : Point → Prop
  | .user => False
  | .dispatch k => InTick k
  | .leave _ k => InTick k
  | .walk => True
  | .eoi => True

/-- The call was made by a task's own code, which had interrupts on. -/
def OwnCall (k : Cont) : Prop := k = .yield .on ∨ k = .sleep .on

/-- A task's own call is no tick. -/
theorem OwnCall.not_inTick {k : Cont} (h : OwnCall k) : ¬ InTick k := by
  rcases h with rfl | rfl <;> exact id

/-- A suspended task is at its entry with interrupts on or in a dispatch that
    its own code has called. -/
def Suspended (p : Point) (i : IrqStatus) : Prop :=
  (p = .user ∧ i = .on) ∨ ∃ inner k, p = .leave inner k ∧ OwnCall k

/-- The timer is in service exactly in its handler, and no task is suspended
    there. -/
structure Serviced (m : Machine τ) : Prop where
  running : (InHandler m.point ∧ m.pic.master = 1) ∨
    ((Suspended m.point m.intr ∨ ∃ k, m.point = .dispatch k ∧ OwnCall k) ∧
      m.pic.master = 0)
  saved : ∀ t, Suspended (m.tss t).1 (m.tss t).2

/-- A task that is switched away from is not in the handler. -/
theorem Suspended.not_inHandler {p : Point} {i : IrqStatus}
    (h : Suspended p i) : ¬ InHandler p := by
  rcases h with ⟨rfl, -⟩ | ⟨inner, k, rfl, hk⟩
  · exact id
  · exact hk.not_inTick

namespace Serviced

variable {m : Machine τ}

omit [DecidableEq τ]

/-- In user code interrupts are on and nothing is in service. -/
theorem at_user (h : Serviced m) (hp : m.point = .user) :
    m.intr = .on ∧ m.pic.master = 0 := by
  rcases h.running with ⟨hin, -⟩ | ⟨hs | ⟨k, hk, -⟩, hpic⟩
  · rw [hp] at hin
    exact hin.elim
  · rcases hs with ⟨-, hi⟩ | ⟨inner, k, hk, -⟩
    · exact ⟨hi, hpic⟩
    · rw [hp] at hk
      exact nomatch hk
  · rw [hp] at hk
    exact nomatch hk

/-- At a dispatch the timer is in service exactly in a tick. -/
theorem at_dispatch (h : Serviced m) {k : Cont} (hp : m.point = .dispatch k) :
    (InTick k ∧ m.pic.master = 1) ∨
    (OwnCall k ∧ m.pic.master = 0) := by
  rcases h.running with ⟨hin, hpic⟩ | ⟨hs | ⟨k', hk, hown⟩, hpic⟩
  · rw [hp] at hin
    exact Or.inl ⟨hin, hpic⟩
  · rw [hp] at hs
    rcases hs with ⟨hu, -⟩ | ⟨inner, k', hk, -⟩
    · exact nomatch hu
    · exact nomatch hk
  · obtain rfl : k = k' := Point.dispatch.inj (hp.symm.trans hk)
    exact Or.inr ⟨hown, hpic⟩

/-- So it is where the protection is left after a dispatch. -/
theorem at_leave (h : Serviced m) {inner : IrqStatus} {k : Cont}
    (hp : m.point = .leave inner k) :
    (InTick k ∧ m.pic.master = 1) ∨
    (OwnCall k ∧ m.pic.master = 0) := by
  rcases h.running with ⟨hin, hpic⟩ | ⟨hs | ⟨k', hk, -⟩, hpic⟩
  · rw [hp] at hin
    exact Or.inl ⟨hin, hpic⟩
  · rw [hp] at hs
    rcases hs with ⟨hu, -⟩ | ⟨inner', k', hk, hown⟩
    · exact nomatch hu
    · obtain ⟨rfl, rfl⟩ := Point.leave.inj hk
      exact Or.inr ⟨hown, hpic⟩
  · rw [hp] at hk
    exact nomatch hk

/-- In the handler the timer is in service. -/
theorem at_handler (h : Serviced m) (hp : InHandler m.point) :
    m.pic.master = 1 := by
  rcases h.running with ⟨-, hpic⟩ | ⟨hs | ⟨k, hk, hown⟩, -⟩
  · exact hpic
  · exact absurd hp hs.not_inHandler
  · rw [hk] at hp
    exact absurd hp hown.not_inTick

end Serviced

/-- The switch away from a task's own call. -/
theorem Serviced.switch {m : Machine τ} (h : Serviced m) {k : Cont}
    (hk : OwnCall k) (hpic : m.pic.master = 0)
    (hn : some (taskNextRun idle m.sched) ≠ m.sched.currTask) :
    Serviced (dispatchStep idle m k) := by
  have hsaved : ∀ t, Suspended ((dispatchStep idle m k).tss t).1
      ((dispatchStep idle m k).tss t).2 := by
    intro t
    rw [dispatchStep, if_neg hn]
    cases hc : m.sched.currTask with
    | none => exact h.saved t
    | some c =>
        by_cases htc : t = c
        · subst htc
          simp only [Function.update_self]
          exact Or.inr ⟨m.intr, k, rfl, hk⟩
        · simp only [Function.update_of_ne htc]
          exact h.saved t
  refine ⟨Or.inr ⟨Or.inl ?_, ?_⟩, hsaved⟩
  · have ht := hsaved (taskNextRun idle m.sched)
    rw [dispatchStep, if_neg hn] at ht ⊢
    exact ht
  · rw [dispatchStep, if_neg hn]
    exact hpic

/-- **EVERY STEP** without a hand-over in the handler keeps the invariant. -/
theorem step_serviced {l : Label τ} {m m' : Machine τ} (h : Serviced m)
    (hok : TickKeepsTask idle l m) (hs : step idle osTicksMs l m = some m') :
    Serviced m' := by
  cases step_shape idle osTicksMs hs with
  | taskInit t hp ht =>
      obtain ⟨hi, hpic⟩ := h.at_user hp
      refine ⟨Or.inr ⟨Or.inl (Or.inl ⟨hp, hi⟩), hpic⟩, ?_⟩
      intro u
      by_cases hut : u = t
      · subst hut
        simp only [Function.update_self]
        exact Or.inl ⟨rfl, rfl⟩
      · simp only [Function.update_of_ne hut]
        exact h.saved u
  | yieldAlone hp => exact h
  | yield c hp hc hl =>
      obtain ⟨hi, hpic⟩ := h.at_user hp
      refine ⟨Or.inr ⟨Or.inr ⟨_, rfl, ?_⟩, hpic⟩, h.saved⟩
      rw [hi]
      exact Or.inl rfl
  | sleep ms hp hc =>
      obtain ⟨hi, hpic⟩ := h.at_user hp
      refine ⟨Or.inr ⟨Or.inr ⟨_, rfl, ?_⟩, hpic⟩, h.saved⟩
      rw [hi]
      exact Or.inr rfl
  | timer hp hi =>
      obtain ⟨-, hpic⟩ := h.at_user hp
      refine ⟨Or.inl ⟨?_, ?_⟩, h.saved⟩
      · show InHandler (if (sliceTick idle m.sched).2 then _ else _)
        split <;> trivial
      · show m.pic.master ||| 1 = 1
        rw [hpic]
        rfl
  | stay k hp hn =>
      rcases h.at_dispatch hp with ⟨hk, hpic⟩ | ⟨hk, hpic⟩
      · exact ⟨Or.inl ⟨hk, hpic⟩, h.saved⟩
      · exact ⟨Or.inr ⟨Or.inl (Or.inr ⟨m.intr, k, rfl, hk⟩), hpic⟩, h.saved⟩
  | switch k hp hn =>
      rcases h.at_dispatch hp with ⟨hk, -⟩ | ⟨hk, hpic⟩
      -- in the handler a hand-over is what the condition excludes
      · simp only [TickKeepsTask, hp] at hok
        exact absurd (hok hk) hn
      · exact h.switch hk hpic hn
  | leave inner k hp =>
      rcases h.at_leave hp with ⟨hk, hpic⟩ | ⟨hk, hpic⟩
      · cases k with
        | yield o => exact hk.elim
        | sleep o => exact hk.elim
        | walk => exact ⟨Or.inl ⟨trivial, hpic⟩, h.saved⟩
        | eoi => exact ⟨Or.inl ⟨trivial, hpic⟩, h.saved⟩
      · rcases hk with rfl | rfl
        · exact ⟨Or.inr ⟨Or.inl (Or.inl ⟨rfl, rfl⟩), hpic⟩, h.saved⟩
        · exact ⟨Or.inr ⟨Or.inl (Or.inl ⟨rfl, rfl⟩), hpic⟩, h.saved⟩
  | walk hp =>
      have hin : InHandler m.point := by rw [hp]; trivial
      exact ⟨Or.inl ⟨trivial, h.at_handler hin⟩, h.saved⟩
  | eoi hp =>
      have hin : InHandler m.point := by rw [hp]; trivial
      refine ⟨Or.inr ⟨Or.inl (Or.inl ⟨rfl, rfl⟩), ?_⟩, h.saved⟩
      show eoi m.pic.master = 0
      rw [h.at_handler hin]
      rfl

/-- At boot nothing is in service. -/
theorem boot_serviced (raw : τ → Task) : Serviced (boot idle first raw) :=
  ⟨Or.inr ⟨Or.inl (Or.inl ⟨rfl, rfl⟩), rfl⟩, fun _ => Or.inl ⟨rfl, rfl⟩⟩

/-- A run whose ticks keep their task stays so. -/
theorem serviced_of_keeps {raw : τ → Task} {ls : List (Label τ)} {m : Machine τ}
    (h : Run (step idle osTicksMs) (TickKeepsTask idle) (boot idle first raw)
      ls m) : Serviced m :=
  h.invariant (boot_serviced raw) (fun _ _ _ hm hok hs => step_serviced hm hok hs)

/-- **IN SERVICE ONLY IN THE HANDLER**: while no dispatch in the timer handler
    hands the processor over, no task's own code runs with interrupts on and
    the timer in service. -/
theorem serviced_of_run (raw : τ → Task) {ls : List (Label τ)} {m : Machine τ}
    (h : Run (step idle osTicksMs) (TickKeepsTask idle) (boot idle first raw)
      ls m) : ¬ RunsInService m := by
  rintro ⟨hp, -, hservice⟩
  rw [Pic.TimerInService, ((serviced_of_keeps h).at_user hp).2] at hservice
  exact absurd hservice (by decide)

/-! ## A hand-over in the handler -/

/-- **THE FIRST HAND-OVER** in the handler leads to a task's own code with the
    timer in service, at once or by the next step. -/
theorem handOver_in_service {raw : τ → Task} {ls : List (Label τ)}
    {m m' : Machine τ}
    (h : Run (step idle osTicksMs) (TickKeepsTask idle) (boot idle first raw)
      ls m)
    {k : Cont} (hp : m.point = .dispatch k) (hk : InTick k)
    (hn : some (taskNextRun idle m.sched) ≠ m.sched.currTask)
    (hs : step idle osTicksMs .kernel m = some m') :
    RunsInService m' ∨
    ∃ m'', step idle osTicksMs .kernel m' = some m'' ∧ RunsInService m'' := by
  have hm := serviced_of_keeps h
  have hpic : m.pic.master = 1 := hm.at_handler (by rw [hp]; exact hk)
  simp only [step, kernelStep, hp] at hs
  obtain rfl := Option.some.inj hs
  -- the place the incoming task goes on at
  have hnext : ∀ tss : τ → Point × IrqStatus,
      tss (taskNextRun idle m.sched) = m.tss (taskNextRun idle m.sched) →
      Suspended (tss (taskNextRun idle m.sched)).1
        (tss (taskNextRun idle m.sched)).2 := by
    intro tss he
    rw [he]
    exact hm.saved _
  have hres : Suspended (dispatchStep idle m k).point
      (dispatchStep idle m k).intr := by
    rw [dispatchStep, if_neg hn]
    refine hnext _ ?_
    cases hc : m.sched.currTask with
    | none => rfl
    | some c =>
        refine Function.update_of_ne ?_ _ _
        intro he
        exact hn (by rw [he, hc])
  have hpic' : (dispatchStep idle m k).pic = m.pic := by
    rw [dispatchStep, if_neg hn]
  have hservice : (dispatchStep idle m k).pic.TimerInService := by
    rw [hpic', Pic.TimerInService, hpic]
    decide
  rcases hres with ⟨hu, hi⟩ | ⟨inner, k', hl, hown⟩
  · exact Or.inl ⟨hu, hi, hservice⟩
  · refine Or.inr ⟨leaveStep (dispatchStep idle m k) inner k', ?_, ?_⟩
    · simp only [step, kernelStep, hl]
    · rcases hown with rfl | rfl
      · exact ⟨rfl, rfl, hservice⟩
      · exact ⟨rfl, rfl, hservice⟩

/-- The first task makes a second one and runs until its slice is used up. -/
def sliceRun : List (Label Nat) :=
  .taskInit 2 :: (List.replicate 9 quietTick).flatten ++ [.timer, .kernel]

private theorem sliceRun_isSome :
    (exec (step 0 10) (fun _ _ => True) sliceRun
      (boot 0 1 blank)).isSome = true := by decide +kernel

/-- A slice end that switches leaves the timer in service for the other task. -/
theorem eoi_after_switch :
    ¬ ∀ (ls : List (Label Nat)) (m : Machine Nat),
        Run (step 0 10) (fun _ _ => True) (boot 0 1 blank) ls m →
        ¬ RunsInService m := by
  intro hall
  exact hall _ _ (Run.of_isSome sliceRun_isSome) (by decide +kernel)

private theorem quietRun_isSome :
    (exec (step 0 10) (TickKeepsTask 0)
      (.taskInit 2 :: (List.replicate 9 quietTick).flatten)
      (boot 0 1 blank)).isSome = true := by decide +kernel

/-- A run of nine ticks within a slice, each ended before user code goes on. -/
theorem serviced_of_run_quiet :
    ∃ m, exec (step 0 10) (TickKeepsTask 0)
        (.taskInit 2 :: (List.replicate 9 quietTick).flatten)
        (boot 0 1 blank) = some m ∧ m.ticks = 9 ∧ ¬ RunsInService m :=
  ⟨_, (Option.some_get quietRun_isSome).symm, by decide +kernel,
    serviced_of_run blank (Run.of_isSome quietRun_isSome)⟩

end LittleOS.TimerService
