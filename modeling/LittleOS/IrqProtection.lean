import LittleOS.Lib.Sections
import LittleOS.SchedMachine

/-! # Interrupt protection across task switches

    `irq_enter_protection` and `irq_leave_protection` of `irq/irq.c` over the
    EFLAGS register of the one processor.  The status that the first returns
    stays on the stack of its task until the second is given it; a task switch
    inside stores EFLAGS in the TSS of the old task and loads that of the new
    one.  Gates are interrupt gates: an interrupt puts EFLAGS on the stack of
    the task and clears IF, `iret` takes it back.

    * `refines` — read through IF, the tasks are the threads of
      `LittleOS.Lib.Sections`;
    * `entered` — every open section was entered in a state of the run that left
      the same sections open below it;
    * `irq_discipline` — interrupts are off inside, and leaving a section
      restores the status of that state. -/

namespace LittleOS.IrqProtection

open Runs
open SchedMachine (IrqStatus)

/-- The flags register. -/
abbrev Word := BitVec 32

def eflagsDefault : Word := 1 <<< 1
def eflagsIf : Word := 1 <<< 9

/-- The instruction `sti`. -/
def sti (eflags : Word) : Word := eflags ||| eflagsIf

/-- The instruction `cli`. -/
def cli (eflags : Word) : Word := eflags &&& ~~~eflagsIf

/-- `get_irq_status` -/
def getIrqStatus (eflags : Word) : IrqStatus :=
  if eflagsIf &&& eflags ≠ 0 then .on else .off

/-- The functions answer the status before and change EFLAGS. -/
def irqEnable (eflags : Word) : IrqStatus × Word :=
  let oldStatus := getIrqStatus eflags
  (oldStatus, if oldStatus = .off then sti eflags else eflags)

/-- `irq_disable` -/
def irqDisable (eflags : Word) : IrqStatus × Word :=
  let oldStatus := getIrqStatus eflags
  (oldStatus, if oldStatus = .on then cli eflags else eflags)

/-- `irq_enter_protection` -/
def irqEnterProtection (eflags : Word) : IrqStatus × Word := irqDisable eflags

/-- `irq_set_status` -/
def irqSetStatus (status : IrqStatus) (eflags : Word) : IrqStatus × Word :=
  if status = .on then irqEnable eflags else irqDisable eflags

/-- It returns nothing, and nothing is made of its value. -/
def irqLeaveProtection (status : IrqStatus) (eflags : Word) : Word :=
  (irqSetStatus status eflags).2

/-! ## The bit -/

/-- The interrupt flag. -/
def isOn (eflags : Word) : Bool := eflags.getLsbD 9

/-- The status is the interrupt flag. -/
theorem getIrqStatus_eq (eflags : Word) :
    getIrqStatus eflags = if isOn eflags then .on else .off := by
  have hand : eflagsIf &&& eflags = if isOn eflags then eflagsIf else 0 := by
    rw [BitVec.and_comm]
    exact BitVec.and_twoPow eflags 9
  unfold getIrqStatus
  rw [hand]
  cases isOn eflags with
  | true => rfl
  | false => rfl

/-- Interrupts are on. -/
theorem on_iff {eflags : Word} : getIrqStatus eflags = .on ↔ isOn eflags = true := by
  rw [getIrqStatus_eq]
  cases isOn eflags <;> simp

/-- Interrupts are off. -/
theorem off_iff {eflags : Word} :
    getIrqStatus eflags = .off ↔ isOn eflags = false := by
  rw [getIrqStatus_eq]
  cases isOn eflags <;> simp

/-- After `sti` interrupts are on. -/
theorem isOn_sti (eflags : Word) : isOn (sti eflags) = true := by
  unfold isOn sti
  rw [BitVec.getLsbD_or, show eflagsIf.getLsbD 9 = true from rfl, Bool.or_true]

/-- After `cli` interrupts are off. -/
theorem isOn_cli (eflags : Word) : isOn (cli eflags) = false := by
  unfold isOn cli
  rw [BitVec.getLsbD_and, show (~~~eflagsIf).getLsbD 9 = false from rfl, Bool.and_false]

/-- After `irq_enable` interrupts are on. -/
theorem isOn_irqEnable (eflags : Word) : isOn (irqEnable eflags).2 = true := by
  unfold irqEnable
  dsimp only
  by_cases h : getIrqStatus eflags = .off
  · rw [if_pos h]
    exact isOn_sti eflags
  · rw [if_neg h]
    exact (Bool.not_eq_false _).mp fun hc => h (off_iff.mpr hc)

/-- After `irq_disable` interrupts are off. -/
theorem isOn_irqDisable (eflags : Word) : isOn (irqDisable eflags).2 = false := by
  unfold irqDisable
  dsimp only
  by_cases h : getIrqStatus eflags = .on
  · rw [if_pos h]
    exact isOn_cli eflags
  · rw [if_neg h]
    exact (Bool.not_eq_true _).mp fun hc => h (on_iff.mpr hc)

/-- **LEAVING** gives the status it is given, whatever EFLAGS was. -/
theorem irqLeaveProtection_status (status : IrqStatus) (eflags : Word) :
    getIrqStatus (irqLeaveProtection status eflags) = status := by
  unfold irqLeaveProtection irqSetStatus
  cases status with
  | on => exact on_iff.mpr (isOn_irqEnable eflags)
  | off => exact off_iff.mpr (isOn_irqDisable eflags)

/-! ## Tasks and the processor -/

/-- What a task has open: a section with the status to restore, or a handler
    with the EFLAGS of what it interrupted. -/
inductive Frame where
  | protect (status : IrqStatus)
  | handler (eflags : Word)

/-- The EFLAGS register, the current task, EFLAGS in the TSS of each task, and
    what each task has open, innermost first. -/
structure Cpu (τ : Type*) where
  eflags : Word
  curr : τ
  tss : τ → Word
  stack : τ → List Frame

/-- What the processor does next, as far as the interrupt flag is concerned. -/
inductive Op (τ : Type*) where
  | enter
  | leave
  | switch (t : τ)
  | taskInit (t : τ)
  | interrupt
  | iret
  | enable
  | disable
  | compute (eflags : Word)

variable {τ : Type*} [DecidableEq τ]

/-- `leave` is given what the last `enter` returned, and a switch is made inside
    a section only.  `enable` and `disable` are calls outside; `compute` is any
    other instruction. -/
def step : Op τ → Cpu τ → Option (Cpu τ)
  | .enter, m =>
      let r := irqEnterProtection m.eflags
      some { m with
        eflags := r.2
        stack := Function.update m.stack m.curr (.protect r.1 :: m.stack m.curr) }
  | .leave, m =>
      match m.stack m.curr with
      | .protect status :: rest => some { m with
          eflags := irqLeaveProtection status m.eflags
          stack := Function.update m.stack m.curr rest }
      | _ => none
  | .switch t, m =>
      match m.stack m.curr with
      | .protect _ :: _ =>
          let tss := Function.update m.tss m.curr m.eflags
          some { m with eflags := tss t, curr := t, tss := tss }
      | _ => none
  | .taskInit t, m =>
      if t = m.curr then none
      else some { m with
        tss := Function.update m.tss t (eflagsDefault ||| eflagsIf)
        stack := Function.update m.stack t [] }
  | .interrupt, m =>
      some { m with
        eflags := cli m.eflags
        stack := Function.update m.stack m.curr (.handler m.eflags :: m.stack m.curr) }
  | .iret, m =>
      match m.stack m.curr with
      | .handler eflags :: rest => some { m with
          eflags := eflags
          stack := Function.update m.stack m.curr rest }
      | _ => none
  | .enable, m =>
      if m.stack m.curr = [] then some { m with eflags := (irqEnable m.eflags).2 } else none
  | .disable, m =>
      if m.stack m.curr = [] then some { m with eflags := (irqDisable m.eflags).2 } else none
  | .compute eflags, m =>
      if getIrqStatus eflags = getIrqStatus m.eflags then some { m with eflags := eflags }
      else none

/-- A run of any of them. -/
abbrev Reaches (m : Cpu τ) (os : List (Op τ)) (m' : Cpu τ) : Prop :=
  Run step (fun _ _ => True) m os m'

section Steps

variable {m m' : Cpu τ}

/-- Leaving a section restores what its frame holds. -/
theorem step_leave : step .leave m = some m' ↔
    ∃ status rest, m.stack m.curr = .protect status :: rest ∧
      m' = { m with
        eflags := irqLeaveProtection status m.eflags
        stack := Function.update m.stack m.curr rest } := by
  simp only [step]
  split
  · next status rest hst =>
      rw [Option.some.injEq]
      constructor
      · rintro rfl
        exact ⟨status, rest, hst, rfl⟩
      · rintro ⟨status', rest', hst', rfl⟩
        obtain ⟨hf, rfl⟩ := List.cons.inj (hst.symm.trans hst')
        obtain rfl := Frame.protect.inj hf
        rfl
  · next hno =>
      refine iff_of_false nofun ?_
      rintro ⟨status, rest, hst, -⟩
      exact hno status rest hst

/-- Returning from a handler restores the flags that its frame holds. -/
theorem step_iret : step .iret m = some m' ↔
    ∃ eflags rest, m.stack m.curr = .handler eflags :: rest ∧
      m' = { m with
        eflags := eflags
        stack := Function.update m.stack m.curr rest } := by
  simp only [step]
  split
  · next eflags rest hst =>
      rw [Option.some.injEq]
      constructor
      · rintro rfl
        exact ⟨eflags, rest, hst, rfl⟩
      · rintro ⟨eflags', rest', hst', rfl⟩
        obtain ⟨hf, rfl⟩ := List.cons.inj (hst.symm.trans hst')
        obtain rfl := Frame.handler.inj hf
        rfl
  · next hno =>
      refine iff_of_false nofun ?_
      rintro ⟨eflags, rest, hst, -⟩
      exact hno eflags rest hst

/-- A switch saves the flags of the task it leaves and loads those of the other one. -/
theorem step_switch {t : τ} (hs : step (.switch t) m = some m') :
    m.stack m.curr ≠ [] ∧
      m' = { m with
        eflags := Function.update m.tss m.curr m.eflags t
        curr := t
        tss := Function.update m.tss m.curr m.eflags } := by
  simp only [step] at hs
  split at hs
  · next status rest hst =>
      obtain rfl := Option.some.inj hs
      exact ⟨by rw [hst]; exact List.cons_ne_nil _ _, rfl⟩
  · exact nomatch hs

/-- A new task starts with interrupts on. -/
theorem step_taskInit {t : τ} : step (.taskInit t) m = some m' ↔
    t ≠ m.curr ∧ m' = { m with
      tss := Function.update m.tss t (eflagsDefault ||| eflagsIf)
      stack := Function.update m.stack t [] } := by
  simp only [step, Option.ite_none_left_eq_some, Option.some.injEq]
  exact and_congr_right fun _ => eq_comm

/-- Interrupts are turned on outside sections only. -/
theorem step_enable : step .enable m = some m' ↔
    m.stack m.curr = [] ∧ m' = { m with eflags := (irqEnable m.eflags).2 } := by
  simp only [step, Option.ite_none_right_eq_some, Option.some.injEq]
  exact and_congr_right fun _ => eq_comm

/-- Interrupts are turned off outside sections only. -/
theorem step_disable : step .disable m = some m' ↔
    m.stack m.curr = [] ∧ m' = { m with eflags := (irqDisable m.eflags).2 } := by
  simp only [step, Option.ite_none_right_eq_some, Option.some.injEq]
  exact and_congr_right fun _ => eq_comm

/-- Any other instruction keeps the interrupt flag. -/
theorem step_compute {eflags : Word} : step (.compute eflags) m = some m' ↔
    getIrqStatus eflags = getIrqStatus m.eflags ∧ m' = { m with eflags := eflags } := by
  simp only [step, Option.ite_none_right_eq_some, Option.some.injEq]
  exact and_congr_right fun _ => eq_comm

end Steps

/-! ## Threads of the library -/

/-- The status a frame restores. -/
def Frame.found : Frame → Bool
  | .protect status => status = .on
  | .handler eflags => isOn eflags

/-- The processor, read through IF. -/
def threads (m : Cpu τ) : Sections.Machine τ where
  flag := isOn m.eflags
  curr := m.curr
  stored := isOn ∘ m.tss
  stack := List.map Frame.found ∘ m.stack

/-- A section's frame holds the interrupt flag it found. -/
theorem found_protect (eflags : Word) :
    (Frame.protect (getIrqStatus eflags)).found = isOn eflags := by
  have h : (Frame.protect (getIrqStatus eflags)).found = decide (isOn eflags = true) :=
    decide_eq_decide.mpr on_iff
  rw [h, Bool.decide_eq_true]

/-- A change of EFLAGS and of what the current task has open. -/
theorem threads_change (m : Cpu τ) (eflags : Word) (frames : List Frame) :
    threads { m with eflags := eflags, stack := Function.update m.stack m.curr frames }
      = { threads m with
          flag := isOn eflags
          stack := Function.update (threads m).stack m.curr (frames.map Frame.found) } := by
  unfold threads
  rw [Function.comp_update]

/-- **EVERY STEP** is one of the threads, or changes nothing they have. -/
theorem refines {o : Op τ} {m m' : Cpu τ} (hs : step o m = some m') :
    threads m' = threads m ∨ ∃ o', Sections.step o' (threads m) = some (threads m') := by
  cases o with
  | enter =>
      obtain rfl := Option.some.inj hs
      refine Or.inr ⟨.enter, ?_⟩
      rw [threads_change, irqEnterProtection, isOn_irqDisable]
      unfold irqDisable
      rw [List.map_cons, found_protect]
      rfl
  | leave =>
      obtain ⟨status, rest, hst, rfl⟩ := step_leave.mp hs
      refine Or.inr ⟨.leave, Sections.step_leave.mpr ⟨_, _, congrArg (List.map _) hst, ?_⟩⟩
      rw [threads_change, ← found_protect, irqLeaveProtection_status]
      rfl
  | switch t =>
      obtain ⟨hopen, rfl⟩ := step_switch hs
      refine Or.inr ⟨.switch t, Sections.step_switch.mpr ⟨?_, ?_⟩⟩
      · exact fun hc => hopen (List.map_eq_nil_iff.mp hc)
      · have htss : isOn ∘ Function.update m.tss m.curr m.eflags
            = Function.update (isOn ∘ m.tss) m.curr (isOn m.eflags) :=
          Function.comp_update ..
        have hflag := congrFun htss t
        unfold threads
        dsimp only
        rw [htss, ← hflag]
        rfl
  | taskInit t =>
      obtain ⟨htc, rfl⟩ := step_taskInit.mp hs
      refine Or.inr ⟨.reset t true, Sections.step_reset.mpr ⟨htc, ?_⟩⟩
      unfold threads
      rw [Function.comp_update, Function.comp_update]
      rfl
  | interrupt =>
      obtain rfl := Option.some.inj hs
      refine Or.inr ⟨.enter, ?_⟩
      rw [threads_change, isOn_cli]
      rfl
  | iret =>
      obtain ⟨eflags, rest, hst, rfl⟩ := step_iret.mp hs
      refine Or.inr ⟨.leave, Sections.step_leave.mpr ⟨_, _, congrArg (List.map _) hst, ?_⟩⟩
      rw [threads_change]
      rfl
  | enable =>
      obtain ⟨hnil, rfl⟩ := step_enable.mp hs
      exact Or.inr ⟨.set _, Sections.step_set.mpr ⟨congrArg (List.map _) hnil, rfl⟩⟩
  | disable =>
      obtain ⟨hnil, rfl⟩ := step_disable.mp hs
      exact Or.inr ⟨.set _, Sections.step_set.mpr ⟨congrArg (List.map _) hnil, rfl⟩⟩
  | compute eflags =>
      obtain ⟨hsame, rfl⟩ := step_compute.mp hs
      left
      unfold threads
      dsimp only
      rw [← found_protect, hsame, found_protect]

/-! ## Sections of a run -/

/-- What a step makes of the frames of a task. -/
inductive FrameStep (m : Cpu τ) (o : Op τ) (t : τ) : List Frame → Prop where
  | kept : FrameStep m o t (m.stack t)
  | popped {f : Frame} {rest : List Frame} (hs : m.stack t = f :: rest) :
      FrameStep m o t rest
  | dropped : FrameStep m o t []
  | interrupted (eflags : Word) : FrameStep m o t (.handler eflags :: m.stack t)
  | entered (ho : o = .enter) (ht : t = m.curr) :
      FrameStep m o t (.protect (getIrqStatus m.eflags) :: m.stack t)

/-- A change of the frames of one task. -/
theorem FrameStep.update {m : Cpu τ} {o : Op τ} {u : τ} {frames : List Frame}
    (h : FrameStep m o u frames) (t : τ) :
    FrameStep m o t (Function.update m.stack u frames t) := by
  by_cases ht : t = u
  · rw [ht, Function.update_self]
    exact h
  · rw [Function.update_of_ne ht]
    exact .kept

/-- A step keeps the frames of a task, pops the last, drops them all or puts one on top;
    one case for each operation. -/
theorem step_stack {o : Op τ} {m m' : Cpu τ} (hs : step o m = some m') (t : τ) :
    FrameStep m o t (m'.stack t) := by
  cases o with
  | enter =>
      obtain rfl := Option.some.inj hs
      exact FrameStep.update (.entered rfl rfl) t
  | leave =>
      obtain ⟨status, rest, hst, rfl⟩ := step_leave.mp hs
      exact FrameStep.update (.popped hst) t
  | switch u =>
      obtain ⟨-, rfl⟩ := step_switch hs
      exact .kept
  | taskInit u =>
      obtain ⟨-, rfl⟩ := step_taskInit.mp hs
      exact FrameStep.update .dropped t
  | interrupt =>
      obtain rfl := Option.some.inj hs
      exact FrameStep.update (.interrupted m.eflags) t
  | iret =>
      obtain ⟨eflags, rest, hst, rfl⟩ := step_iret.mp hs
      exact FrameStep.update (.popped hst) t
  | enable =>
      obtain ⟨-, rfl⟩ := step_enable.mp hs
      exact .kept
  | disable =>
      obtain ⟨-, rfl⟩ := step_disable.mp hs
      exact .kept
  | compute eflags =>
      obtain ⟨-, rfl⟩ := step_compute.mp hs
      exact .kept

omit [DecidableEq τ] in
/-- A section that is open behind the step was open before it, or has just been
    entered. -/
theorem FrameStep.open_before {m : Cpu τ} {o : Op τ} {t : τ} {pre rest : List Frame}
    {status : IrqStatus} (h : FrameStep m o t (pre ++ .protect status :: rest)) :
    (∃ pre', m.stack t = pre' ++ .protect status :: rest) ∨
    (o = .enter ∧ t = m.curr ∧ m.stack t = rest ∧ status = getIrqStatus m.eflags) := by
  generalize hf : pre ++ Frame.protect status :: rest = frames at h
  cases h with
  | kept => exact Or.inl ⟨pre, hf.symm⟩
  | popped hs =>
      rename_i f
      exact Or.inl ⟨f :: pre, by rw [hs, ← hf]; rfl⟩
  | dropped => exact absurd hf (by simp)
  | interrupted eflags =>
      cases pre with
      | nil => exact nomatch (List.cons.inj hf).1
      | cons f pre => exact Or.inl ⟨pre, (List.cons.inj hf).2.symm⟩
  | entered ho ht =>
      cases pre with
      | nil =>
          obtain ⟨hp, hrest⟩ := List.cons.inj hf
          exact Or.inr ⟨ho, ht, hrest.symm, Frame.protect.inj hp⟩
      | cons f pre => exact Or.inl ⟨pre, (List.cons.inj hf).2.symm⟩

/-- The section of `t` with the frames `rest` below it was entered in `m₁`, and
    has been open since. -/
structure Entered (m₀ : Cpu τ) (os : List (Op τ)) (m : Cpu τ) (t : τ)
    (rest : List Frame) (m₁ : Cpu τ) : Prop where
  task : m₁.curr = t
  frames : m₁.stack t = rest
  since : ∃ os₁ os₂ m₂, os = os₁ ++ .enter :: os₂ ∧ Reaches m₀ os₁ m₁ ∧
    step .enter m₁ = some m₂ ∧
    Run step (fun _ s => rest.length < (s.stack t).length) m₂ os₂ m

/-- **THE ENTRY** of every open section is in the run, with the status that is
    kept for it.  Induction over the run. -/
theorem entered {m₀ m : Cpu τ} {os : List (Op τ)} (h0 : ∀ t, m₀.stack t = [])
    (hr : Reaches m₀ os m) {t : τ} {pre rest : List Frame} {status : IrqStatus}
    (hst : m.stack t = pre ++ .protect status :: rest) :
    ∃ m₁, Entered m₀ os m t rest m₁ ∧ getIrqStatus m₁.eflags = status := by
  induction hr generalizing pre with
  | nil =>
      rw [h0 t] at hst
      exact absurd hst (by simp)
  | snoc hrun hok hs ih =>
      have hframe := step_stack hs t
      rw [hst] at hframe
      rcases hframe.open_before with ⟨pre', hbefore⟩ | ⟨rfl, ht, hrest, hstatus⟩
      · obtain ⟨m₁, ⟨htask, hframes, os₁, os₂, m₂, rfl, h1, henter, h2⟩, heq⟩ := ih hbefore
        have hopen : rest.length < (pre' ++ Frame.protect status :: rest).length := by
          simp
          omega
        refine ⟨m₁, ⟨htask, hframes, os₁, _, m₂, ?_, h1, henter,
          h2.snoc (by rw [hbefore]; exact hopen) hs⟩, heq⟩
        rw [List.append_assoc, List.cons_append]
      · exact ⟨_, ⟨ht.symm, hrest, _, [], _, rfl, hrun, hs, Run.nil _⟩, hstatus.symm⟩

/-! ## The discipline -/

/-- Inside a section or a handler interrupts are off. -/
theorem inside_off {m₀ m : Cpu τ} {os : List (Op τ)} (h0 : ∀ t, m₀.stack t = [])
    (hr : Reaches m₀ os m) (hopen : m.stack m.curr ≠ []) :
    getIrqStatus m.eflags = .off := by
  have hinv : Sections.Inv (threads m) := by
    refine hr.invariant (P := fun m => Sections.Inv (threads m)) ?_ ?_
    · refine Sections.start_inv fun t => ?_
      show (m₀.stack t).map Frame.found = []
      rw [h0 t]
      rfl
    · intro o m m' h _ hs
      rcases refines hs with he | ⟨o', hs'⟩
      · rw [he]
        exact h
      · exact Sections.step_inv h hs'
  refine off_iff.mpr (hinv.running ?_)
  exact fun hc => hopen (List.map_eq_nil_iff.mp hc)

/-- Interrupts are off inside, and a section that is left restores the status
    of the state it was entered in. -/
structure Disciplined (m₀ : Cpu τ) (os : List (Op τ)) (m : Cpu τ) : Prop where
  inside : m.stack m.curr ≠ [] → getIrqStatus m.eflags = .off
  restores : ∀ m', step .leave m = some m' →
    ∃ m₁, Entered m₀ os m m.curr (m'.stack m.curr) m₁ ∧
      getIrqStatus m'.eflags = getIrqStatus m₁.eflags

/-- **THE DISCIPLINE** holds in every run, for any tasks and any depth. -/
theorem irq_discipline {m₀ m : Cpu τ} {os : List (Op τ)} (h0 : ∀ t, m₀.stack t = [])
    (hr : Reaches m₀ os m) : Disciplined m₀ os m where
  inside := inside_off h0 hr
  restores := by
    intro m' hs
    obtain ⟨status, rest, hst, rfl⟩ := step_leave.mp hs
    dsimp only
    rw [Function.update_self, irqLeaveProtection_status]
    obtain ⟨m₁, he, hstatus⟩ := entered h0 hr (hst.trans (List.nil_append _).symm)
    exact ⟨m₁, he, hstatus.symm⟩

/-- Two tasks, the first one running with interrupts on. -/
def twoTasks : Cpu Bool where
  eflags := eflagsDefault ||| eflagsIf
  curr := false
  tss := fun _ => eflagsDefault ||| eflagsIf
  stack := fun _ => []

/-- `sys_sched_yield` up to the switch inside `task_dispatch`, the other task
    doing the same, and back again to the outer section. -/
def yields : List (Op Bool) :=
  [.enter, .enter, .switch true, .enter, .enter, .switch false, .leave]

/-- A run of two tasks that yield inside their sections. -/
theorem irq_discipline_yields :
    ∃ m, Reaches twoTasks yields m ∧ Disciplined twoTasks yields m :=
  have hrun : Reaches twoTasks yields _ :=
    Run.of_isSome (show (exec step (fun _ _ => True) yields twoTasks).isSome by decide)
  ⟨_, hrun, irq_discipline (fun _ => rfl) hrun⟩

end LittleOS.IrqProtection
