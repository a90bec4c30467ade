import LittleOS.Lib.Runs
import LittleOS.Sched

/-! # The processor under the scheduler

    The scheduler functions run on one processor with an interrupt flag, a
    timer on IRQ 0 of the 8259 pair and hardware task switches.  A switch
    happens in the middle of `task_dispatch`, so the rest of whatever called it
    waits in the suspended task: `Point` is the place in the source where a
    task goes on, `tss` keeps the place and the interrupt flag of each
    suspended task.

    * A step with label `taskInit`, `schedYield` or `sleep` is a call made by
      the running task's own code; `timer` is an interrupt; `kernel` lets the
      running task go on to its next point.
    * `sys_sched_yield`, `sys_sleep` and `task_dispatch` disable interrupts with
      `irq_enter_protection`; the statuses they will give to
      `irq_leave_protection` are in the points.
    * The interrupt gate clears IF and the `iret` of the handler restores the
      EFLAGS it pushed, in which IF is set.
    * A created task starts at its entry with IF set.

    The 8259 holds the line while an interrupt is in service; the machine does
    not, so its runs include every pattern of deliveries. -/

namespace LittleOS.SchedMachine

open Runs Sched

/-- `irq_status`. -/
inductive IrqStatus where
  | on
  | off
deriving DecidableEq, Repr

/-- The in-service registers of the two interrupt controllers. -/
structure Pic where
  master : BitVec 8
  slave : BitVec 8
deriving DecidableEq

/-- A non-specific EOI clears the in-service bit of highest priority, the
    lowest one set. -/
def eoi (isr : BitVec 8) : BitVec 8 := isr &&& (isr - 1)

/-- `PIC_START` -/
def picStart : Nat := 0x20

/-- `IRQ_TIMER` -/
def irqTimer : Nat := 0x20

/-- `pic_send_eoi` -/
def picSendEoi (pic : Pic) (picNum : Nat) : Pic :=
  let picNum := picNum - picStart
  let pic := if 8 ≤ picNum then { pic with slave := eoi pic.slave } else pic
  { pic with master := eoi pic.master }

/-- The timer's line is in service. -/
def Pic.TimerInService (pic : Pic) : Prop := pic.master.getLsbD 0 = true

instance (pic : Pic) : Decidable pic.TimerInService :=
  inferInstanceAs (Decidable (_ = _))

/-- Where the caller of `task_dispatch` goes on; a status is the argument of
    the caller's own `irq_leave_protection`. -/
inductive Cont where
  | yield (outer : IrqStatus)
  | sleep (outer : IrqStatus)
  | walk
  | eoi
deriving DecidableEq, Repr

/-- Where a task goes on. -/
inductive Point where
  /-- in its own code -/
  | user
  /-- at a call of `task_dispatch` -/
  | dispatch (k : Cont)
  /-- in `task_dispatch`, behind `task_switch_from_to` -/
  | leave (inner : IrqStatus) (k : Cont)
  /-- in `task_time_tick`, at the walk over `sleep_list` -/
  | walk
  /-- in `irq_handler_timer`, at `pic_send_eoi` -/
  | eoi
deriving DecidableEq, Repr

/-- The scheduler with the interrupt flag, the controllers, the ticks so far, where the
    kernel stands, and what each task was left with. -/
structure Machine (τ : Type*) where
  sched : Manager τ
  intr : IrqStatus
  pic : Pic
  ticks : Nat
  point : Point
  tss : τ → Point × IrqStatus

/-- What can happen next. -/
inductive Label (τ : Type*) where
  | taskInit (task : τ)
  | schedYield
  | sleep (ms : BitVec 32)
  | timer
  | kernel

variable {τ : Type*} [DecidableEq τ]

section Steps

variable (idle first : τ) (osTicksMs : Nat)

/-- `task_dispatch` up to and including the switch: the outgoing task keeps
    its place, the incoming one goes on at its own. -/
def dispatchStep (m : Machine τ) (k : Cont) : Machine τ :=
  let here := Point.leave m.intr k
  if some (taskNextRun idle m.sched) = m.sched.currTask then
    { m with intr := .off, point := here }
  else
    let tss := match m.sched.currTask with
      | some c => Function.update m.tss c (here, .off)
      | none => m.tss
    { m with sched := taskDispatch idle m.sched
             intr := (tss (taskNextRun idle m.sched)).2
             point := (tss (taskNextRun idle m.sched)).1
             tss := tss }

/-- `irq_leave_protection(inner)` at the end of `task_dispatch` and the return
    to its caller. -/
def leaveStep (m : Machine τ) (inner : IrqStatus) (k : Cont) : Machine τ :=
  match k with
  | .yield outer => { m with intr := outer, point := .user }
  | .sleep outer => { m with intr := outer, point := .user }
  | .walk => { m with intr := inner, point := .walk }
  | .eoi => { m with intr := inner, point := .eoi }

/-- The running task goes on in the kernel. -/
def kernelStep (m : Machine τ) : Option (Machine τ) :=
  match m.point with
  | .user => none
  | .dispatch k => some (dispatchStep idle m k)
  | .leave inner k => some (leaveStep m inner k)
  | .walk =>
      some { m with sched := sleepWalk idle m.sched, point := .dispatch .eoi }
  | .eoi =>
      some { m with pic := picSendEoi m.pic irqTimer, intr := .on, point := .user }

/-- `exception_handler_timer` up to the first dispatch or the walk. -/
def timerStep (m : Machine τ) : Machine τ :=
  { m with sched := (sliceTick idle m.sched).1
           intr := .off
           pic := { m.pic with master := m.pic.master ||| 1 }
           ticks := m.ticks + 1
           point := if (sliceTick idle m.sched).2 then .dispatch .walk else .walk }

/-- A step: the kernel can be interrupted, and tasks switched, only at its points. -/
def step : Label τ → Machine τ → Option (Machine τ)
  | .taskInit t, m =>
      if m.point = .user ∧ t ∉ m.sched.taskList then
        some { m with sched := taskInit idle m.sched t
                      tss := Function.update m.tss t (.user, .on) }
      else none
  | .schedYield, m =>
      if m.point = .user then
        match yieldRequeue idle m.sched with
        | some s =>
            some { m with sched := s, intr := .off,
                          point := .dispatch (.yield m.intr) }
        -- enter and leave the protection with nothing in between
        | none => some m
      else none
  | .sleep ms, m =>
      if m.point = .user ∧ m.sched.currTask ≠ some idle then
        some { m with sched := sleepBlock idle osTicksMs m.sched ms, intr := .off,
                      point := .dispatch (.sleep m.intr) }
      else none
  | .timer, m =>
      if m.point = .user ∧ m.intr = .on then some (timerStep idle m) else none
  | .kernel, m => kernelStep idle m

/-- `task_manager_init` and `task_first_init` over tasks with any contents;
    the first task then runs with interrupts on. -/
def boot (raw : τ → Task) : Machine τ where
  sched := taskFirstInit idle first (taskManagerInit idle
    { currTask := none, readyList := [], taskList := [], sleepList := [],
      task := raw })
  intr := .on
  pic := { master := 0, slave := 0 }
  ticks := 0
  point := .user
  tss := fun _ => (.user, .on)

/-- Tasks with all fields zero, as the `bss` has them. -/
def blank (_ : τ) : Task := ⟨.created, 0, 0, 0⟩

/-- The labels of a timer interrupt that hands the processor to no other
    task. -/
def quietTick : List (Label τ) := [.timer, .kernel, .kernel, .kernel, .kernel]

/-! ## What one step can do -/

/-- The shapes a step can have, one for each branch of the source. -/
inductive Shape (m : Machine τ) : Label τ → Machine τ → Prop where
  | taskInit (t : τ) (hp : m.point = .user) (ht : t ∉ m.sched.taskList) :
      Shape m (.taskInit t)
        { m with sched := taskInit idle m.sched t
                 tss := Function.update m.tss t (.user, .on) }
  | yieldAlone (hp : m.point = .user) : Shape m .schedYield m
  | yield (c : τ) (hp : m.point = .user) (hc : m.sched.currTask = some c)
      (hl : 1 < m.sched.readyList.length) :
      Shape m .schedYield
        { m with sched := taskSetReady idle (taskSetBlock idle m.sched c) c
                 intr := .off
                 point := .dispatch (.yield m.intr) }
  | sleep (ms : BitVec 32) (hp : m.point = .user)
      (hc : m.sched.currTask ≠ some idle) :
      Shape m (.sleep ms)
        { m with sched := sleepBlock idle osTicksMs m.sched ms, intr := .off
                 point := .dispatch (.sleep m.intr) }
  | timer (hp : m.point = .user) (hi : m.intr = .on) :
      Shape m .timer (timerStep idle m)
  | stay (k : Cont) (hp : m.point = .dispatch k)
      (hn : some (taskNextRun idle m.sched) = m.sched.currTask) :
      Shape m .kernel { m with intr := .off, point := .leave m.intr k }
  | switch (k : Cont) (hp : m.point = .dispatch k)
      (hn : some (taskNextRun idle m.sched) ≠ m.sched.currTask) :
      Shape m .kernel (dispatchStep idle m k)
  | leave (inner : IrqStatus) (k : Cont) (hp : m.point = .leave inner k) :
      Shape m .kernel (leaveStep m inner k)
  | walk (hp : m.point = .walk) :
      Shape m .kernel
        { m with sched := sleepWalk idle m.sched, point := .dispatch .eoi }
  | eoi (hp : m.point = .eoi) :
      Shape m .kernel
        { m with pic := picSendEoi m.pic irqTimer, intr := .on, point := .user }

/-- **INVERSION**: a step has one of the shapes. -/
theorem step_shape {l : Label τ} {m m' : Machine τ}
    (h : step idle osTicksMs l m = some m') : Shape idle osTicksMs m l m' := by
  cases l with
  | taskInit t =>
      simp only [step] at h
      by_cases hc : m.point = .user ∧ t ∉ m.sched.taskList
      · rw [if_pos hc] at h
        obtain rfl := Option.some.inj h
        exact Shape.taskInit t hc.1 hc.2
      · rw [if_neg hc] at h
        exact nomatch h
  | schedYield =>
      simp only [step] at h
      by_cases hp : m.point = .user
      · rw [if_pos hp] at h
        cases hq : yieldRequeue idle m.sched with
        | none =>
            rw [hq] at h
            obtain rfl := Option.some.inj h
            exact Shape.yieldAlone hp
        | some s =>
            rw [hq] at h
            obtain rfl := Option.some.inj h
            unfold yieldRequeue at hq
            by_cases hl : 1 < m.sched.readyList.length
            · rw [if_pos hl] at hq
              obtain ⟨c, hc, rfl⟩ := Option.map_eq_some_iff.mp hq
              exact Shape.yield c hp hc hl
            · rw [if_neg hl] at hq
              exact nomatch hq
      · rw [if_neg hp] at h
        exact nomatch h
  | sleep ms =>
      simp only [step] at h
      by_cases hc : m.point = .user ∧ m.sched.currTask ≠ some idle
      · rw [if_pos hc] at h
        obtain rfl := Option.some.inj h
        exact Shape.sleep ms hc.1 hc.2
      · rw [if_neg hc] at h
        exact nomatch h
  | timer =>
      simp only [step] at h
      by_cases hc : m.point = .user ∧ m.intr = .on
      · rw [if_pos hc] at h
        obtain rfl := Option.some.inj h
        exact Shape.timer hc.1 hc.2
      · rw [if_neg hc] at h
        exact nomatch h
  | kernel =>
      simp only [step, kernelStep] at h
      cases hp : m.point with
      | user => rw [hp] at h; exact nomatch h
      | dispatch k =>
          rw [hp] at h
          obtain rfl := Option.some.inj h
          by_cases hn : some (taskNextRun idle m.sched) = m.sched.currTask
          · rw [dispatchStep, if_pos hn]
            exact Shape.stay k hp hn
          · exact Shape.switch k hp hn
      | leave inner k =>
          rw [hp] at h
          obtain rfl := Option.some.inj h
          exact Shape.leave inner k hp
      | walk =>
          rw [hp] at h
          obtain rfl := Option.some.inj h
          exact Shape.walk hp
      | eoi =>
          rw [hp] at h
          obtain rfl := Option.some.inj h
          exact Shape.eoi hp

end Steps

end LittleOS.SchedMachine
