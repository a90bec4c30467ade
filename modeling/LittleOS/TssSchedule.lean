import LittleOS.AllocatedTables
import LittleOS.Lib.Rota
import LittleOS.StackOwnership
import LittleOS.TaskContext

/-! # The tasks of `tss_old.c` take turns

    `task_time_ticks` and `task_dispatch`, with `init_task` and `sys_fork`
    between the ticks, on a processor that switches tasks by their TSS.  A far
    jump to a TSS stores the registers in the TSS that TR names, loads those of
    the other and moves the busy bit; a jump to a busy TSS faults.  Both
    assertions of `init_task` hold in the runs here: the task has a page and a
    descriptor.

    * `Scheduled` — the invariant of the lists, the tasks and the descriptors;
    * `step_rota` — every step is one of a rota, or none;
    * `turn_exact`, `equal_shares` — so a task runs exactly when its place in the
      ready list says, and all have the same share;
    * `task_resumes`, `task_begins` — and what it then runs with is what the
      processor stored for it, or what its maker wrote. -/

namespace LittleOS.TssSchedule

open Gdt Memory Runs TssTasks
open AllocatedTables (kallocPages_gives)
open KernelBoot (ManagedRange)
open PageTable (Frame frameOf)
open SharedTable (HeldFrame)
open SyscallEntry (SyscallFrame)
open TaskContext (Regs tssDescriptor)
open Threads (taskTicksDefault)
open TssInit (sizeofTss)

/-- A `uint32_t`. -/
abbrev Word := BitVec 32

/-- The kernel and the processor.  `had` is history: the ticks each task has had. -/
structure Machine where
  kernel : Kernel
  regs : Regs
  cr3 : Word
  tr : BitVec 16
  had : Word → Nat

/-! ## The processor -/

/-- The bit of a TSS descriptor that says its task runs. -/
def busyBit : BitVec 16 := 1 <<< 1

/-- Mark a TSS descriptor busy. -/
def setBusy (table : GdtTable) (selector : BitVec 16) : GdtTable :=
  Function.update table (indexOf selector)
    { table (indexOf selector) with
      attributes := (table (indexOf selector)).attributes ||| busyBit }

/-- Mark a TSS descriptor available. -/
def clearBusy (table : GdtTable) (selector : BitVec 16) : GdtTable :=
  Function.update table (indexOf selector)
    { table (indexOf selector) with
      attributes := (table (indexOf selector)).attributes &&& ~~~busyBit }

/-- The task around a TSS. -/
def taskOf (base : Word) : Word := base - 4

/-- The task whose TSS a selector names. -/
def Machine.named (m : Machine) (selector : BitVec 16) : Word :=
  taskOf (baseOf (m.kernel.gdtTable (indexOf selector)))

/-- Faults without a TSS that is not busy. -/
def ltr (m : Machine) (tssSel : Int) : Option Machine :=
  (tssDescriptor m.kernel.gdtTable tssSel).map fun _ =>
    { m with
      kernel := { m.kernel with
        gdtTable := setBusy m.kernel.gdtTable (BitVec.ofInt 16 tssSel) }
      tr := BitVec.ofInt 16 tssSel }

/-- A task switch: the registers go to the TSS of one task and come from that of
    the other. -/
def exchange (m : Machine) (source target : Word) (selector : BitVec 16) : Machine :=
  let k := m.kernel.modify source (fun c => { c with tss := m.regs.save c.tss })
  let tss := (k.task target).tss
  { m with
    kernel := { k with gdtTable := setBusy (clearBusy k.gdtTable m.tr) selector }
    regs := Regs.load tss
    cr3 := tss.cr3
    tr := selector }

/-- A fault over a selector that is loaded comes in the new task. -/
def farJmp (m : Machine) (selc : Int) : Option Machine :=
  (tssDescriptor m.kernel.gdtTable selc).map fun _ =>
    let selector := BitVec.ofInt 16 selc
    exchange m (m.named m.tr) (m.named selector) selector

/-! ## The functions -/

/-- `task_FIFO` -/
def taskFIFO (k : Kernel) : Option Word := k.readyList.head?

/-- `SCHEDULE_SECTIONS` is `THREAD_FIFO`. -/
def taskSchedule (k : Kernel) : Option Word := taskFIFO k

/-- `switch_to_tss` -/
def switchToTss (m : Machine) (tssSel : Int) : Option Machine := farJmp m tssSel

/-- `task_switch_from_to` -/
def taskSwitchFromTo (m : Machine) (_cur next : Word) : Option Machine :=
  switchToTss m (m.kernel.task next).tssSel

/-- `task_dispatch` -/
def taskDispatch (m : Machine) : Option Machine :=
  let cur := m.kernel.curTask
  match taskSchedule m.kernel with
  -- the tail of the list is no task
  | none => none
  | some next =>
      if next ≠ cur ∧ (m.kernel.task next).status = .ready then
        let k := { m.kernel with curTask := next }
        taskSwitchFromTo
          { m with kernel := k.modify next (fun c => { c with status := .running }) } cur next
      else some m

/-- `task_time_ticks`: the slice is counted down before it is tested. -/
def taskTimeTicks (m : Machine) : Option Machine :=
  let cur := m.kernel.curTask
  let k := m.kernel.modify cur (fun c => { c with ticks := c.ticks - 1 })
  if (k.task cur).ticks.toInt ≤ 0 then
    let k := taskSetReady k cur
    let k := k.modify cur (fun c => { c with ticks := c.defaultTicks })
    taskDispatch { m with kernel := k }
  else some { m with kernel := k }

/-- A tick is charged to the task that ran. -/
def charged (m m' : Machine) : Machine :=
  { m' with had := Function.update m.had m.kernel.curTask (m.had m.kernel.curTask + 1) }

section Source

variable (kernelTable : Frame)

/-- With the `ltr` that `TssTasks.tssTaskInit` leaves out. -/
def tssTaskInit (m : Machine) : Option Machine :=
  let k := TssTasks.tssTaskInit kernelTable m.kernel
  ltr { m with kernel := k } (k.task k.curTask).tssSel

/-- What can happen next: other code, a tick, or a task made in one of two ways. -/
inductive Label where
  | exec (regs : Regs)
  | timeTicks
  | initTask (entry : Word)
  | sysFork (eflags : Word) (sysFrame : SyscallFrame)

/-- `exec` is what runs between two calls: it changes the registers. -/
def step : Label → Machine → Option Machine
  | .exec regs, m => some { m with regs := regs }
  | .timeTicks, m => (taskTimeTicks m).map (charged m)
  | .initTask entry, m =>
      some { m with kernel := (TssTasks.initTask kernelTable m.kernel entry).2 }
  | .sysFork eflags sysFrame, m =>
      some { m with kernel := (Fork.sysFork kernelTable eflags m.kernel sysFrame).2 }

end Source

/-- The label makes a task. -/
def Label.Makes : Label → Prop
  | .initTask _ => True
  | .sysFork .. => True
  | _ => False

instance : DecidablePred Label.Makes
  | .exec _ => isFalse id
  | .timeTicks => isFalse id
  | .initTask _ => isTrue trivial
  | .sysFork .. => isTrue trivial

/-- The task made next has a page and a descriptor. -/
def Asserted (k : Kernel) : Prop :=
  (kallocPages k.mmu.alloc 1).1 ≠ 0 ∧ 0 < gdtAllocSeg k.gdtTable

instance (k : Kernel) : Decidable (Asserted k) := inferInstanceAs (Decidable (_ ∧ _))

/-- The assertions of the step hold. -/
def Holds (l : Label) (m : Machine) : Prop := l.Makes → Asserted m.kernel

instance (l : Label) (m : Machine) : Decidable (Holds l m) :=
  inferInstanceAs (Decidable (_ → _))

/-- A tick has no condition. -/
theorem holds_timeTicks (m : Machine) : Holds .timeTicks m := False.elim

/-- The ticks among the labels. -/
def Label.isTick : Label → Bool
  | .timeTicks => true
  | _ => false

/-- The ticks of a run. -/
def ticks (ls : List Label) : Nat := ls.countP Label.isTick

/-! ## The invariant -/

/-- The entry of a task: its TSS, busy while it runs. -/
structure Described (k : Kernel) (t : Word) (i : Nat) : Prop where
  pos : 1 ≤ i
  lt : i < gdtSize
  sel : (k.task t).tssSel = i * 8
  base : baseOf (k.gdtTable i) = tssAddr t
  attributes : (k.gdtTable i).attributes = if t = k.curTask then 0x8B else 0x89

/-- It waits for a whole slice. -/
structure Waits (c : Task) : Prop where
  status : c.status = .ready
  ticks : c.ticks = taskTicksDefault

/-- The scheduler between two steps, with the current task anywhere in the queue: every
    queued task has a page and a descriptor of its own, and all but the current one wait
    with what they need. -/
structure Queued (m : Machine) : Prop where
  range : ManagedRange m.kernel.mmu.alloc
  nodup : m.kernel.readyList.Nodup
  cur : m.kernel.curTask ∈ m.kernel.readyList
  held : ∀ t ∈ m.kernel.readyList, HeldFrame m.kernel.mmu.alloc (frameOf t)
  described : ∀ t ∈ m.kernel.readyList, ∃ i, Described m.kernel t i
  slice : ∀ t ∈ m.kernel.readyList, (m.kernel.task t).defaultTicks = taskTicksDefault
  waits : ∀ t ∈ m.kernel.readyList, t ≠ m.kernel.curTask → Waits (m.kernel.task t)
  tr : m.tr = BitVec.ofInt 16 (m.kernel.task m.kernel.curTask).tssSel

/-- The ticks left to the task that runs. -/
def Machine.left (m : Machine) : Nat := (m.kernel.task m.kernel.curTask).ticks.toNat

/-- The scheduler in user code: the current task is the first and has part of its slice left. -/
structure Scheduled (m : Machine) : Prop extends Queued m where
  first : m.kernel.readyList.head? = some m.kernel.curTask
  left_pos : 0 < m.left
  left_le : m.left ≤ 5

section Entries

variable {k : Kernel} {m : Machine} {t u : Word} {i j : Nat}

/-- The selector of a task is that of its descriptor. -/
theorem Described.index (h : Described k t i) :
    indexOf (BitVec.ofInt 16 (k.task t).tssSel) = i := by
  rw [h.sel, ofInt_selector, indexOf_ofNat (Nat.lt_trans h.lt (by decide))]

/-- A descriptor is that of one task. -/
theorem Described.inj (h : Described k t i) (h' : Described k u i) : t = u :=
  (BitVec.add_left_inj 4).mp (h.base.symm.trans h'.base)

/-- The processor finds the TSS of a task that does not run. -/
theorem Described.descriptor (h : Described k t i) (hne : t ≠ k.curTask) :
    tssDescriptor k.gdtTable (k.task t).tssSel = some (k.gdtTable i) := by
  have hattr := h.attributes
  rw [if_neg hne] at hattr
  unfold tssDescriptor
  dsimp only
  rw [h.index, hattr, if_pos ⟨h.pos, h.lt, by decide, by decide⟩]

/-- A task's selector finds it. -/
theorem Described.named (h : Described m.kernel t i) :
    m.named (BitVec.ofInt 16 (m.kernel.task t).tssSel) = t := by
  unfold Machine.named
  rw [h.index, h.base]
  exact BitVec.add_sub_cancel t 4

/-- Busy bits are no part of the base. -/
theorem baseOf_setBusy (table : GdtTable) (selector : BitVec 16) (i : Nat) :
    baseOf (setBusy table selector i) = baseOf (table i) := by
  unfold setBusy
  by_cases h : i = indexOf selector
  · subst h
    rw [Function.update_self]
    rfl
  · rw [Function.update_of_ne h]

/-- Clearing one leaves the base. -/
theorem baseOf_clearBusy (table : GdtTable) (selector : BitVec 16) (i : Nat) :
    baseOf (clearBusy table selector i) = baseOf (table i) := by
  unfold clearBusy
  by_cases h : i = indexOf selector
  · subst h
    rw [Function.update_self]
    rfl
  · rw [Function.update_of_ne h]

end Entries

/-! ## A switch -/

/-- `task_manager` when `next` has been picked. -/
def picked (m : Machine) (next : Word) : Machine :=
  { m with
    kernel := { m.kernel with curTask := next }.modify next
      (fun c => { c with status := .running }) }

/-- What a switch to `next` leaves. -/
def switched (m : Machine) (next : Word) : Machine :=
  exchange (picked m next) m.kernel.curTask next
    (BitVec.ofInt 16 (m.kernel.task next).tssSel)

section Switch

variable {m : Machine} {next t : Word}

/-- After a switch the next task is the current one. -/
@[simp] theorem switched_curTask (m : Machine) (next : Word) :
    (switched m next).kernel.curTask = next := rfl

/-- What a switch does to the tasks. -/
theorem switched_task (m : Machine) (next : Word) :
    (switched m next).kernel.task = ((m.kernel.modify next
      (fun c => { c with status := .running })).modify m.kernel.curTask
        (fun c => { c with tss := m.regs.save c.tss })).task := rfl

/-- The next task is marked running. -/
theorem switched_task_next (h : next ≠ m.kernel.curTask) :
    (switched m next).kernel.task next
      = { m.kernel.task next with status := .running } := by
  rw [switched_task, modify_other _ h, modify_self]

/-- The registers of the task that is left go to its TSS. -/
theorem switched_task_cur (h : next ≠ m.kernel.curTask) :
    (switched m next).kernel.task m.kernel.curTask
      = { m.kernel.task m.kernel.curTask with
          tss := m.regs.save (m.kernel.task m.kernel.curTask).tss } := by
  rw [switched_task, modify_self, modify_other _ h.symm]

/-- No other task changes. -/
theorem switched_task_other (hn : t ≠ next) (hc : t ≠ m.kernel.curTask) :
    (switched m next).kernel.task t = m.kernel.task t := by
  rw [switched_task, modify_other _ hc, modify_other _ hn]

/-- Registers and CR3 come from the TSS of the next task. -/
theorem switched_regs (h : next ≠ m.kernel.curTask) :
    (switched m next).regs = Regs.load (m.kernel.task next).tss ∧
    (switched m next).cr3 = (m.kernel.task next).tss.cr3 := by
  unfold switched exchange picked
  dsimp only
  rw [modify_other _ h, modify_self]
  exact ⟨rfl, rfl⟩

/-- No switch touches what the lists and the selectors depend on. -/
theorem switched_fields (h : next ≠ m.kernel.curTask) (t : Word) :
    ((switched m next).kernel.task t).ticks = (m.kernel.task t).ticks ∧
    ((switched m next).kernel.task t).defaultTicks = (m.kernel.task t).defaultTicks ∧
    ((switched m next).kernel.task t).tssSel = (m.kernel.task t).tssSel := by
  by_cases hn : t = next
  · subst hn
    rw [switched_task_next h]
    exact ⟨rfl, rfl, rfl⟩
  · by_cases hc : t = m.kernel.curTask
    · subst hc
      rw [switched_task_cur h]
      exact ⟨rfl, rfl, rfl⟩
    · rw [switched_task_other hn hc]
      exact ⟨rfl, rfl, rfl⟩

/-- **A DISPATCH** to a task that waits switches to it, without a fault. -/
theorem Queued.taskDispatch (h : Queued m) {rest : List Word}
    (hq : m.kernel.readyList = next :: rest) (hne : next ≠ m.kernel.curTask) :
    taskDispatch m = some (switched m next) := by
  have hmem : next ∈ m.kernel.readyList := by rw [hq]; exact List.mem_cons_self
  obtain ⟨j, hj⟩ := h.described next hmem
  obtain ⟨i, hi⟩ := h.described _ h.cur
  have hjump : farJmp (picked m next) (m.kernel.task next).tssSel
      = some (switched m next) := by
    have hcur : (picked m next).named (picked m next).tr = m.kernel.curTask := by
      show m.named m.tr = _
      rw [h.tr]
      exact hi.named
    have hnext : (picked m next).named (BitVec.ofInt 16 (m.kernel.task next).tssSel) = next :=
      hj.named
    have hdesc : tssDescriptor (picked m next).kernel.gdtTable (m.kernel.task next).tssSel
        = some (m.kernel.gdtTable j) := hj.descriptor hne
    unfold farJmp
    dsimp only
    rw [hdesc, hcur, hnext]
    rfl
  have hsel : ((picked m next).kernel.task next).tssSel = (m.kernel.task next).tssSel := by
    unfold picked
    dsimp only
    rw [modify_self]
  unfold TssSchedule.taskDispatch taskSchedule taskFIFO
  rw [hq]
  dsimp only [List.head?_cons]
  rw [if_pos ⟨hne, (h.waits next hmem hne).status⟩]
  rw [← hsel] at hjump
  exact hjump

/-- The entries after a switch: the two tasks have changed places. -/
theorem Queued.switched_described (h : Queued m) (hn : next ∈ m.kernel.readyList)
    (hne : next ≠ m.kernel.curTask) {t : Word} (ht : t ∈ m.kernel.readyList) :
    ∃ i, Described (switched m next).kernel t i := by
  obtain ⟨j, hj⟩ := h.described next hn
  obtain ⟨c, hc⟩ := h.described _ h.cur
  obtain ⟨i, hi⟩ := h.described t ht
  have htable : (switched m next).kernel.gdtTable
      = setBusy (clearBusy m.kernel.gdtTable m.tr)
          (BitVec.ofInt 16 (m.kernel.task next).tssSel) := rfl
  refine ⟨i, hi.pos, hi.lt, (switched_fields hne t).2.2.trans hi.sel, ?_, ?_⟩
  · rw [htable, baseOf_setBusy, baseOf_clearBusy]
    exact hi.base
  · have hattr := hi.attributes
    rw [htable, h.tr]
    unfold setBusy clearBusy
    rw [hj.index, hc.index, switched_curTask]
    by_cases hin : i = j
    · obtain rfl := hin
      obtain rfl := hi.inj hj
      have hic : i ≠ c := fun hic => hne ((hic ▸ hi).inj hc)
      rw [Function.update_self, Function.update_of_ne hic, hattr, if_neg hne, if_pos rfl]
      rfl
    · rw [Function.update_of_ne hin, if_neg (fun htn => hin ?_)]
      · by_cases hic : i = c
        · obtain rfl := hic
          rw [Function.update_self, hattr, if_pos (hi.inj hc)]
          rfl
        · rw [Function.update_of_ne hic, hattr, if_neg]
          rintro rfl
          have hsel := hi.sel.symm.trans hc.sel
          omega
      · subst htn
        have hsel := hi.sel.symm.trans hj.sel
        omega

/-- **A SWITCH** from a task that waits again keeps the invariant. -/
theorem Queued.switched (h : Queued m) (hcur : Waits (m.kernel.task m.kernel.curTask))
    (hn : next ∈ m.kernel.readyList) (hne : next ≠ m.kernel.curTask) :
    Queued (switched m next) where
  range := h.range
  nodup := h.nodup
  cur := hn
  held := h.held
  described := fun t ht => h.switched_described hn hne ht
  slice := fun t ht => (switched_fields hne t).2.1.trans (h.slice t ht)
  waits := by
    intro t ht (htn : t ≠ next)
    have hwaits : Waits (m.kernel.task t) := by
      by_cases hc : t = m.kernel.curTask
      · exact hc ▸ hcur
      · exact h.waits t ht hc
    refine ⟨?_, (switched_fields hne t).1.trans hwaits.ticks⟩
    by_cases hc : t = m.kernel.curTask
    · subst hc
      rw [switched_task_cur hne]
      exact hwaits.status
    · rw [switched_task_other htn hc]
      exact hwaits.status
  tr := by
    rw [switched_curTask, (switched_fields hne next).2.2]
    rfl

end Switch

/-! ## A tick -/

/-- What a tick inside a slice leaves. -/
def counted (k : Kernel) : Kernel :=
  k.modify k.curTask (fun c => { c with ticks := c.ticks - 1 })

/-- What the end of a slice leaves before the dispatch. -/
def ended (k : Kernel) : Kernel :=
  (taskSetReady (counted k) k.curTask).modify k.curTask
    (fun c => { c with ticks := c.defaultTicks })

section Tick

variable {m m' : Machine} {t : Word} {rest : List Word}

/-- The slice end turns the ready list. -/
theorem ended_readyList (k : Kernel) :
    (ended k).readyList = k.readyList.erase k.curTask ++ [k.curTask] := rfl

/-- The current task has a tick less. -/
theorem counted_task_cur (k : Kernel) :
    (counted k).task k.curTask
      = { k.task k.curTask with ticks := (k.task k.curTask).ticks - 1 } := modify_self ..

/-- No other task is charged. -/
theorem counted_task_other {k : Kernel} (h : t ≠ k.curTask) :
    (counted k).task t = k.task t := modify_other _ h _

/-- Making ready changes a task's status only. -/
theorem taskSetReady_task (k : Kernel) (task : Word) :
    (taskSetReady k task).task
      = (k.modify task (fun c => { c with status := .ready })).task := rfl

/-- After its slice end the task is ready with a whole slice. -/
theorem ended_task_cur (k : Kernel) :
    (ended k).task k.curTask
      = { k.task k.curTask with
          status := .ready, ticks := (k.task k.curTask).defaultTicks } := by
  unfold ended
  rw [modify_self, taskSetReady_task, modify_self, counted_task_cur]

/-- Another task's slice is not touched. -/
theorem ended_task_other {k : Kernel} (h : t ≠ k.curTask) : (ended k).task t = k.task t := by
  unfold ended
  rw [modify_other _ h, taskSetReady_task, modify_other _ h, counted_task_other h]

/-- The current task is at the head of the ready list. -/
theorem Scheduled.readyList (h : Scheduled m) :
    ∃ rest, m.kernel.readyList = m.kernel.curTask :: rest := by
  have hfirst := h.first
  cases hq : m.kernel.readyList with
  | nil => rw [hq] at hfirst; exact nomatch hfirst
  | cons t rest =>
      rw [hq] at hfirst
      exact ⟨rest, by rw [Option.some.inj hfirst]⟩

/-- The counter is one less, and is used up at the last tick of a slice. -/
theorem Scheduled.counter (h : Scheduled m) :
    ((counted m.kernel).task m.kernel.curTask).ticks.toNat + 1 = m.left ∧
    (((counted m.kernel).task m.kernel.curTask).ticks.toInt ≤ 0 ↔ m.left = 1) := by
  have hpos := h.left_pos
  have hle := h.left_le
  have hsub : ((counted m.kernel).task m.kernel.curTask).ticks.toNat + 1 = m.left := by
    rw [counted_task_cur]
    unfold Machine.left at *
    dsimp only
    bv_omega
  refine ⟨hsub, ?_⟩
  rw [BitVec.toInt_eq_toNat_of_lt (by omega)]
  omega

/-- A change of the current task and of the order keeps the invariant. -/
theorem Queued.of_cur (h : Queued m) {k : Kernel} (hmmu : k.mmu = m.kernel.mmu)
    (htable : k.gdtTable = m.kernel.gdtTable) (hcur : k.curTask = m.kernel.curTask)
    (hlist : k.readyList.Perm m.kernel.readyList)
    (hother : ∀ t ≠ m.kernel.curTask, k.task t = m.kernel.task t)
    (hslice : (k.task m.kernel.curTask).defaultTicks
      = (m.kernel.task m.kernel.curTask).defaultTicks)
    (hsel : (k.task m.kernel.curTask).tssSel = (m.kernel.task m.kernel.curTask).tssSel) :
    Queued { m with kernel := k } := by
  have hall : ∀ t, (k.task t).defaultTicks = (m.kernel.task t).defaultTicks ∧
      (k.task t).tssSel = (m.kernel.task t).tssSel := by
    intro t
    by_cases ht : t = m.kernel.curTask
    · subst ht
      exact ⟨hslice, hsel⟩
    · rw [hother t ht]
      exact ⟨rfl, rfl⟩
  refine ⟨hmmu ▸ h.range, hlist.nodup_iff.mpr h.nodup, hlist.mem_iff.mpr (hcur ▸ h.cur),
    ?_, ?_, ?_, ?_, ?_⟩
  · intro t ht
    show HeldFrame k.mmu.alloc _
    rw [hmmu]
    exact h.held t (hlist.mem_iff.mp ht)
  · intro t ht
    obtain ⟨i, hi⟩ := h.described t (hlist.mem_iff.mp ht)
    refine ⟨i, hi.pos, hi.lt, (hall t).2.trans hi.sel, ?_, ?_⟩
    · rw [htable]
      exact hi.base
    · rw [htable, hcur]
      exact hi.attributes
  · exact fun t ht => (hall t).1.trans (h.slice t (hlist.mem_iff.mp ht))
  · intro t ht hne
    change t ≠ k.curTask at hne
    rw [hcur] at hne
    show Waits (k.task t)
    rw [hother t hne]
    exact h.waits t (hlist.mem_iff.mp ht) hne
  · show m.tr = BitVec.ofInt 16 (k.task k.curTask).tssSel
    rw [hcur, hsel]
    exact h.tr

/-- The slice end keeps every queued task as it has to be. -/
theorem Queued.ended (h : Queued m) (hq : m.kernel.readyList = m.kernel.curTask :: rest) :
    Queued { m with kernel := ended m.kernel } ∧
      (ended m.kernel).readyList = rest ++ [m.kernel.curTask] ∧
      Waits ((ended m.kernel).task m.kernel.curTask) := by
  have hlist : (TssSchedule.ended m.kernel).readyList = rest ++ [m.kernel.curTask] := by
    rw [ended_readyList, hq, List.erase_cons_head]
  have hself := ended_task_cur m.kernel
  refine ⟨h.of_cur rfl rfl rfl ?_ (fun t ht => ended_task_other ht) ?_ ?_, hlist, ?_⟩
  · rw [hlist, hq]
    exact List.perm_append_singleton ..
  · rw [hself]
  · rw [hself]
  · rw [hself]
    exact ⟨rfl, h.slice _ h.cur⟩

/-- So does a tick. -/
theorem Queued.counted (h : Queued m) : Queued { m with kernel := counted m.kernel } := by
  have hself := counted_task_cur m.kernel
  refine h.of_cur rfl rfl rfl (List.Perm.refl _) (fun t ht => counted_task_other ht) ?_ ?_
  · rw [hself]
  · rw [hself]

/-- The task behind the current one is another one. -/
theorem Queued.next_ne (h : Queued m) {next : Word}
    (hq : m.kernel.readyList = m.kernel.curTask :: next :: rest) :
    next ≠ m.kernel.curTask := by
  have hnd := h.nodup
  rw [hq] at hnd
  rintro rfl
  exact (List.nodup_cons.mp hnd).1 List.mem_cons_self

/-- **A TICK** counts, or starts a new slice of the only task, or switches to the
    next. -/
inductive Ticks (m : Machine) : Machine → Prop where
  | counts (hleft : m.left ≠ 1) : Ticks m { m with kernel := counted m.kernel }
  | again (hleft : m.left = 1) (hq : m.kernel.readyList = [m.kernel.curTask]) :
      Ticks m { m with kernel := ended m.kernel }
  | next {next : Word} {rest : List Word} (hleft : m.left = 1)
      (hq : m.kernel.readyList = m.kernel.curTask :: next :: rest) :
      Ticks m (switched { m with kernel := ended m.kernel } next)

/-- A tick comes back, in one of three ways: the slice goes on, it begins again for a
    task that is alone, or the next task runs. -/
theorem Scheduled.ticks (h : Scheduled m) : ∃ m', taskTimeTicks m = some m' ∧ Ticks m m' := by
  obtain ⟨rest, hq⟩ := h.readyList
  obtain ⟨-, hzero⟩ := h.counter
  obtain ⟨hended, hlist, -⟩ := h.toQueued.ended hq
  have hunfold : taskTimeTicks m
      = if ((counted m.kernel).task m.kernel.curTask).ticks.toInt ≤ 0 then
          taskDispatch { m with kernel := ended m.kernel }
        else some { m with kernel := counted m.kernel } := rfl
  rw [hunfold]
  by_cases hleft : m.left = 1
  · rw [if_pos (hzero.mpr hleft)]
    cases rest with
    | nil =>
        refine ⟨_, ?_, .again hleft hq⟩
        unfold taskDispatch taskSchedule taskFIFO
        dsimp only
        rw [hlist]
        dsimp only [List.nil_append, List.head?_cons]
        exact if_neg (fun hc => hc.1 rfl)
    | cons next rest =>
        exact ⟨_, hended.taskDispatch hlist (h.toQueued.next_ne hq), .next hleft hq⟩
  · rw [if_neg (fun hc => hleft (hzero.mp hc))]
    exact ⟨_, rfl, .counts hleft⟩

/-! ## The rota of a machine -/

/-- The ready list as a rota. -/
def Scheduled.rota (h : Scheduled m) : Rota Word 5 where
  queue := m.kernel.readyList
  left := m.left
  had := m.had
  nodup := h.nodup
  left_pos := h.left_pos
  left_le := h.left_le

/-- The charges are a record beside the machine. -/
theorem Queued.charged (h : Queued m') (m : Machine) : Queued (charged m m') :=
  ⟨h.range, h.nodup, h.cur, h.held, h.described, h.slice, h.waits, h.tr⟩

/-- **A TICK** is one of the rota. -/
theorem Ticks.rota (ht : Ticks m m') (h : Scheduled m) :
    ∃ h' : Scheduled (charged m m'), h'.rota = h.rota.tick := by
  obtain ⟨rest, hq⟩ := h.readyList
  have hle := h.left_le
  have hpos := h.left_pos
  have hcharge : Rota.charge m.kernel.readyList m.had
      = Function.update m.had m.kernel.curTask (m.had m.kernel.curTask + 1) := by
    rw [hq]
    rfl
  have hrotate : m.kernel.readyList.rotate 1 = rest ++ [m.kernel.curTask] := by
    rw [hq, List.rotate_cons_succ, List.rotate_zero]
  cases ht with
  | counts hleft =>
      have hcount := h.counter.1
      have hnew : (charged m { m with kernel := counted m.kernel }).left = m.left - 1 := by
        show ((counted m.kernel).task m.kernel.curTask).ticks.toNat = _
        omega
      exact ⟨⟨h.toQueued.counted.charged m, h.first, by omega, by omega⟩,
        Rota.eq_tick_of_more hleft rfl hnew hcharge.symm⟩
  | again hleft hone =>
      obtain rfl := (List.cons.inj (hq.symm.trans hone)).2
      obtain ⟨hended, hlist, hwaits⟩ := h.toQueued.ended hq
      have hnew : (charged m { m with kernel := TssSchedule.ended m.kernel }).left = 5 := by
        show ((TssSchedule.ended m.kernel).task m.kernel.curTask).ticks.toNat = _
        rw [hwaits.ticks]
        rfl
      refine ⟨⟨hended.charged m, ?_, by omega, by omega⟩,
        Rota.eq_tick_of_last hleft (hlist.trans hrotate.symm) hnew hcharge.symm⟩
      show (TssSchedule.ended m.kernel).readyList.head? = _
      rw [hlist]
      rfl
  | @next next rest' hleft hone =>
      obtain rfl := (List.cons.inj (hq.symm.trans hone)).2
      obtain ⟨hended, hlist, hwaits⟩ := h.toQueued.ended hq
      have hne := h.toQueued.next_ne hq
      have hin : next ∈ (TssSchedule.ended m.kernel).readyList := by
        rw [hlist]
        exact List.mem_cons_self
      have hswitched := Queued.switched hended hwaits hin hne
      have hnew : (charged m (switched { m with kernel := TssSchedule.ended m.kernel }
          next)).left = 5 := by
        show ((switched { m with kernel := TssSchedule.ended m.kernel } next).kernel.task
          next).ticks.toNat = _
        rw [(switched_fields (m := { m with kernel := TssSchedule.ended m.kernel }) hne next).1,
          (hended.waits next hin hne).ticks]
        rfl
      refine ⟨⟨hswitched.charged m, ?_, by omega, by omega⟩,
        Rota.eq_tick_of_last hleft (hlist.trans hrotate.symm) hnew hcharge.symm⟩
      show (TssSchedule.ended m.kernel).readyList.head? = _
      rw [hlist]
      rfl

end Tick

/-! ## A new task -/

/-- `t` is made: it waits for a slice, with a descriptor that was free. -/
structure Made (k k' : Kernel) (t : Word) : Prop where
  other : ∀ u ≠ t, k'.task u = k.task u
  readyList : k'.readyList = k.readyList.erase t ++ [t]
  cur : k'.curTask = k.curTask
  grows : Grows (kallocPages k.mmu.alloc 1).2 k'.mmu.alloc
  gdtTable : k'.gdtTable = gdtSegmentSet k.gdtTable (BitVec.ofInt 16 (gdtAllocSeg k.gdtTable))
    sizeofTss (tssAddr t) (segSSystem ||| segTypeTss ||| segDpl0 ||| segPPresent)
  sel : (k'.task t).tssSel = gdtAllocSeg k.gdtTable
  waits : Waits (k'.task t)
  slice : (k'.task t).defaultTicks = taskTicksDefault

section Make

variable (kernelTable : Frame) {m : Machine} {k k' : Kernel} {t : Word}

/-- What `init_task` makes: a task with its page, its descriptor and the last place in
    the queue. -/
theorem initTask_made (k : Kernel) (entry : Word) :
    Made k (TssTasks.initTask kernelTable k entry).2 (kallocPages k.mmu.alloc 1).1 where
  other := fun _ hu => initTask_other kernelTable k entry hu
  readyList := rfl
  cur := rfl
  grows := by
    have hualloc := fun a : AddrAlloc => uallocPages_grows a (Nat.le_refl 1)
    simp only [TssTasks.initTask, initTss_userProc, modify_mmu, taskSetReady_mmu,
      taskSetGeneral_mmu]
    exact ((kallocPages_grows _ (Nat.le_refl 1)).trans (hualloc _)).trans (hualloc _)
  gdtTable := rfl
  sel := by
    simp only [TssTasks.initTask, initTss, modify_self]
    rfl
  waits := by
    constructor <;> simp [TssTasks.initTask, initTss, taskSetReady, taskSetGeneral]
  slice := by simp [TssTasks.initTask, initTss, taskSetReady, taskSetGeneral]

/-- What a fork changes of the new task, no list and no selector depends on. -/
theorem sysFork_made (eflags : Word) (k : Kernel) (f : SyscallFrame) :
    Made k (Fork.sysFork kernelTable eflags k f).2 (kallocPages k.mmu.alloc 1).1 := by
  have h := initTask_made kernelTable k f.eip
  have hfst := initTask_fst kernelTable k f.eip
  refine ⟨fun u hu => ?_, h.readyList, h.cur, h.grows, h.gdtTable, ?_, ⟨?_, ?_⟩, ?_⟩
  · rw [← h.other u hu]
    rw [← hfst] at hu
    simp [Fork.sysFork, hu]
  · rw [← h.sel, ← hfst]
    simp [Fork.sysFork]
  · rw [← h.waits.status, ← hfst]
    simp [Fork.sysFork]
  · rw [← h.waits.ticks, ← hfst]
    simp [Fork.sysFork]
  · rw [← h.slice, ← hfst]
    simp [Fork.sysFork]

/-- Entry `i` was free and names the TSS of `t` now. -/
structure NewEntry (table table' : GdtTable) (t : Word) (i : Nat) : Prop where
  pos : 1 ≤ i
  lt : i < gdtSize
  sel : gdtAllocSeg table = i * 8
  base : baseOf (table' i) = tssAddr t
  attributes : (table' i).attributes = 0x89
  free : (table i).attributes = 0
  other : ∀ j ≠ i, table' j = table j

/-- The descriptor of a new task is in an entry that was free, and no other entry changes. -/
theorem newEntry {table : GdtTable} (ha : 0 < gdtAllocSeg table) (t : Word) :
    ∃ i, NewEntry table (gdtSegmentSet table (BitVec.ofInt 16 (gdtAllocSeg table)) sizeofTss
      (tssAddr t) (segSSystem ||| segTypeTss ||| segDpl0 ||| segPPresent)) t i := by
  rcases TaskContext.gdtAllocSeg_cases table with hsel | ⟨i, h1, hi, hfree, hsel⟩
  · omega
  · have hindex : indexOf (BitVec.ofNat 16 (i * 8)) = i :=
      indexOf_ofNat (Nat.lt_trans hi (by decide))
    have hbase := baseOf_gdtSegmentSet table (BitVec.ofNat 16 (i * 8))
      (segSSystem ||| segTypeTss ||| segDpl0 ||| segPPresent) sizeofTss (tssAddr t)
    rw [hindex] at hbase
    refine ⟨i, ?_⟩
    rw [hsel, ofInt_selector]
    refine ⟨h1, hi, hsel, hbase, ?_, hfree, fun j hj => ?_⟩
    · unfold gdtSegmentSet
      rw [hindex, Function.update_self]
      dsimp only
      decide
    · exact gdtSegmentSet_other (by rw [hindex]; exact hj)

/-- **A NEW TASK** is last on the ready list, and nothing else changes for the
    others. -/
theorem Scheduled.made (h : Scheduled m)
    (hm : Made m.kernel k' (kallocPages m.kernel.mmu.alloc 1).1) (ha : Asserted m.kernel) :
    ∃ (hnew : (kallocPages m.kernel.mmu.alloc 1).1 ∉ m.kernel.readyList)
      (h' : Scheduled { m with kernel := k' }), h'.rota = h.rota.join _ hnew := by
  have hgives := kallocPages_gives h.range ha.1
  have hgrows := (kallocPages_grows m.kernel.mmu.alloc (Nat.le_refl 1)).trans hm.grows
  have hheld := hgives.held.grows hm.grows
  generalize (kallocPages m.kernel.mmu.alloc 1).1 = t at hm hgives hheld
  have hnew : t ∉ m.kernel.readyList := fun hin => hgives.free (h.held t hin)
  have hne : ∀ u ∈ m.kernel.readyList, u ≠ t := fun u hu hut => hnew (hut ▸ hu)
  have hlist : k'.readyList = m.kernel.readyList ++ [t] := by
    rw [hm.readyList, List.erase_of_not_mem hnew]
  have hcur := hm.other _ (hne _ h.cur)
  have hleft : ({ m with kernel := k' } : Machine).left = m.left := by
    unfold Machine.left
    rw [hm.cur, hcur]
  obtain ⟨i, hentry⟩ := newEntry ha.2 t
  rw [← hm.gdtTable] at hentry
  have hmem : ∀ u ∈ k'.readyList, u ∈ m.kernel.readyList ∨ u = t := by
    intro u hu
    rw [hlist, List.mem_append, List.mem_singleton] at hu
    exact hu
  have hqueued : Queued { m with kernel := k' } := by
    refine ⟨h.range.of_sameRange hgrows.range, ?_, ?_, ?_, ?_, ?_, ?_, ?_⟩
    · show k'.readyList.Nodup
      rw [hlist]
      exact (h.rota.join t hnew).nodup
    · show k'.curTask ∈ k'.readyList
      rw [hlist, hm.cur]
      exact List.mem_append_left _ h.cur
    · intro u hu
      rcases hmem u hu with hold | rfl
      · exact (h.held u hold).grows hgrows
      · exact hheld
    · intro u hu
      rcases hmem u hu with hold | rfl
      · -- its entry was not free
        obtain ⟨j, hj⟩ := h.described u hold
        have hji : j ≠ i := by
          rintro rfl
          have hattr := hj.attributes
          rw [hentry.free] at hattr
          split at hattr <;> exact absurd hattr (by decide)
        refine ⟨j, hj.pos, hj.lt, ?_, ?_, ?_⟩
        · rw [hm.other u (hne u hold)]
          exact hj.sel
        · rw [hentry.other j hji]
          exact hj.base
        · rw [hentry.other j hji, hm.cur]
          exact hj.attributes
      · refine ⟨i, hentry.pos, hentry.lt, hm.sel.trans hentry.sel, hentry.base, ?_⟩
        rw [hm.cur, if_neg (hne _ h.cur).symm]
        exact hentry.attributes
    · intro u hu
      rcases hmem u hu with hold | rfl
      · show (k'.task u).defaultTicks = _
        rw [hm.other u (hne u hold)]
        exact h.slice u hold
      · exact hm.slice
    · intro u hu hu'
      change u ≠ k'.curTask at hu'
      rcases hmem u hu with hold | rfl
      · show Waits (k'.task u)
        rw [hm.other u (hne u hold)]
        exact h.waits u hold (hm.cur ▸ hu')
      · exact hm.waits
    · show m.tr = BitVec.ofInt 16 (k'.task k'.curTask).tssSel
      rw [hm.cur, hcur]
      exact h.tr
  refine ⟨hnew, ⟨hqueued, ?_, hleft ▸ h.left_pos, hleft ▸ h.left_le⟩, Rota.ext hlist hleft rfl⟩
  show k'.readyList.head? = some k'.curTask
  rw [hlist, hm.cur, List.head?_append, h.first]
  rfl

end Make

/-! ## Runs -/

section Run

variable {kernelTable : Frame} {m m' : Machine} {l : Label} {ls : List Label} {t : Word}

/-- **ONE STEP** is one of the rota, or none. -/
theorem step_rota (h : Scheduled m) (hok : Holds l m) (hs : step kernelTable l m = some m') :
    ∃ h' : Scheduled m', (l.isTick = true ∧ h'.rota = h.rota.tick) ∨
      (l.isTick = false ∧
        (h'.rota = h.rota ∨ l.Makes ∧ ∃ t hnew, h'.rota = h.rota.join t hnew)) := by
  cases l with
  | exec regs =>
      obtain rfl := Option.some.inj hs
      exact ⟨⟨⟨h.range, h.nodup, h.cur, h.held, h.described, h.slice, h.waits, h.tr⟩, h.first,
        h.left_pos, h.left_le⟩, Or.inr ⟨rfl, Or.inl rfl⟩⟩
  | timeTicks =>
      obtain ⟨m₁, hm₁, hticks⟩ := h.ticks
      have hcharged : (taskTimeTicks m).map (charged m) = some (charged m m₁) := by
        rw [hm₁]
        rfl
      obtain rfl := Option.some.inj (hs.symm.trans hcharged)
      obtain ⟨h', hrota⟩ := hticks.rota h
      exact ⟨h', Or.inl ⟨rfl, hrota⟩⟩
  | initTask entry =>
      obtain rfl := Option.some.inj hs
      obtain ⟨hnew, h', hrota⟩ := h.made (initTask_made kernelTable _ entry) (hok trivial)
      exact ⟨h', Or.inr ⟨rfl, Or.inr ⟨trivial, _, hnew, hrota⟩⟩⟩
  | sysFork eflags f =>
      obtain rfl := Option.some.inj hs
      obtain ⟨hnew, h', hrota⟩ := h.made (sysFork_made kernelTable eflags _ f) (hok trivial)
      exact ⟨h', Or.inr ⟨rfl, Or.inr ⟨trivial, _, hnew, hrota⟩⟩⟩

/-- Ticks add up. -/
theorem ticks_append (ls : List Label) (l : Label) :
    ticks (ls ++ [l]) = ticks ls + if l.isTick then 1 else 0 := by
  unfold ticks
  rw [List.countP_append, List.countP_singleton]

/-- **EVERY RUN** is one of the rota, with as many ticks. -/
theorem run_rota {ok : Label → Machine → Prop} (ok' : Rota.Event Word → Rota Word 5 → Prop)
    (hholds : ∀ l m, ok l m → Holds l m) (htick : ∀ r, ok' .tick r)
    (hjoin : ∀ l m t r, ok l m → l.Makes → ok' (.join t) r) (h : Scheduled m)
    (hrun : Run (step kernelTable) ok m ls m') :
    ∃ (h' : Scheduled m') (es : List (Rota.Event Word)),
      Run Rota.step ok' h.rota es h'.rota ∧ Rota.ticks es = ticks ls := by
  refine hrun.invariant_labels (P := fun ls s => ∃ (hs : Scheduled s)
    (es : List (Rota.Event Word)), Run Rota.step ok' h.rota es hs.rota ∧
      Rota.ticks es = ticks ls) ⟨h, [], Run.nil _, rfl⟩ ?_
  rintro ls l s s' ⟨hs, es, hes, hn⟩ hok hstep
  obtain ⟨hs', hcase⟩ := step_rota hs (hholds l s hok) hstep
  refine ⟨hs', ?_⟩
  rcases hcase with ⟨htrue, hrota⟩ | ⟨hfalse, hrota | ⟨hmakes, u, hnew, hrota⟩⟩
  · refine ⟨es ++ [.tick], ?_, ?_⟩
    · rw [hrota]
      exact hes.snoc (htick _) rfl
    · rw [Rota.ticks_append, ticks_append, hn, htrue, if_pos rfl, if_pos rfl]
  · refine ⟨es, hrota ▸ hes, ?_⟩
    rw [ticks_append, hn, hfalse]
    rfl
  · refine ⟨es ++ [.join u], ?_, ?_⟩
    · rw [hrota]
      exact hes.snoc (hjoin l s u _ hok hmakes) (dif_neg hnew)
    · rw [Rota.ticks_append, ticks_append, hn, hfalse, if_neg (by simp)]
      rfl

/-! ### The boot -/

variable (kernelTable) in
/-- **THE FIRST TASK** runs alone, with a whole slice. -/
theorem tssTaskInit_scheduled {m₀ : Machine} (hrange : ManagedRange m₀.kernel.mmu.alloc)
    (ha : Asserted m₀.kernel) :
    ∃ m, tssTaskInit kernelTable m₀ = some m ∧ Scheduled m := by
  obtain ⟨t, ht⟩ : ∃ t, t = (kallocPages m₀.kernel.mmu.alloc 1).1 := ⟨_, rfl⟩
  obtain ⟨k, hk⟩ : ∃ k, k = TssTasks.tssTaskInit kernelTable m₀.kernel := ⟨_, rfl⟩
  have hgives := kallocPages_gives hrange ha.1
  have hgrows : Grows (kallocPages m₀.kernel.mmu.alloc 1).2 k.mmu.alloc := by
    have hkalloc := fun a : AddrAlloc => kallocPages_grows a (Nat.le_refl 1)
    simp only [hk, TssTasks.tssTaskInit, initTss_kernelProc, modify_mmu, taskSetReady_mmu,
      taskSetGeneral_mmu]
    exact (hkalloc _).trans (hkalloc _)
  have hlist : k.readyList = [t] := by rw [hk, ht]; rfl
  have hcur : k.curTask = t := by rw [hk, ht]; rfl
  have hsel : (k.task t).tssSel = gdtAllocSeg m₀.kernel.gdtTable := by
    rw [hk, ht]
    simp only [TssTasks.tssTaskInit, initTss, modify_self]
    rfl
  have hticks : (k.task t).ticks = taskTicksDefault ∧
      (k.task t).defaultTicks = taskTicksDefault := by
    rw [hk, ht]
    simp [TssTasks.tssTaskInit, initTss, taskSetReady, taskSetGeneral]
  obtain ⟨i, hentry⟩ := newEntry ha.2 t
  have htable : k.gdtTable = gdtSegmentSet m₀.kernel.gdtTable
      (BitVec.ofInt 16 (gdtAllocSeg m₀.kernel.gdtTable)) sizeofTss (tssAddr t)
      (segSSystem ||| segTypeTss ||| segDpl0 ||| segPPresent) := by rw [hk, ht]; rfl
  rw [← htable] at hentry
  have hindex : indexOf (BitVec.ofInt 16 (k.task t).tssSel) = i := by
    rw [hsel, hentry.sel, ofInt_selector,
      indexOf_ofNat (Nat.lt_trans hentry.lt (by decide))]
  have hdesc : tssDescriptor k.gdtTable (k.task t).tssSel = some (k.gdtTable i) := by
    unfold tssDescriptor
    dsimp only
    rw [hindex, hentry.attributes, if_pos ⟨hentry.pos, hentry.lt, by decide, by decide⟩]
  have hone : ∀ u ∈ k.readyList, u = t := fun u hu => by
    rw [hlist] at hu
    exact List.mem_singleton.mp hu
  refine ⟨{ m₀ with
    kernel := { k with gdtTable := setBusy k.gdtTable (BitVec.ofInt 16 (k.task t).tssSel) }
    tr := BitVec.ofInt 16 (k.task t).tssSel }, ?_,
    ⟨⟨?_, ?_, ?_, ?_, ?_, ?_, ?_, ?_⟩, ?_, ?_, ?_⟩⟩
  · unfold tssTaskInit ltr
    dsimp only
    rw [← hk, hcur, hdesc]
    rfl
  · exact hrange.of_sameRange ((kallocPages_grows _ (Nat.le_refl 1)).trans hgrows).range
  · show k.readyList.Nodup
    rw [hlist]
    exact List.nodup_singleton t
  · show k.curTask ∈ k.readyList
    rw [hlist, hcur]
    exact List.mem_singleton_self t
  · intro u hu
    rw [hone u hu, ht]
    exact hgives.held.grows hgrows
  · intro u hu
    rw [hone u hu]
    refine ⟨i, hentry.pos, hentry.lt, hsel.trans hentry.sel, ?_, ?_⟩
    · exact (baseOf_setBusy ..).trans hentry.base
    · show (setBusy k.gdtTable (BitVec.ofInt 16 (k.task t).tssSel) i).attributes
        = if t = k.curTask then _ else _
      unfold setBusy
      rw [hcur, if_pos rfl, hindex, Function.update_self, hentry.attributes]
      rfl
  · intro u hu
    rw [hone u hu]
    exact hticks.2
  · intro u hu hne
    exact absurd ((hone u hu).trans hcur.symm) hne
  · show _ = BitVec.ofInt 16 (k.task k.curTask).tssSel
    rw [hcur]
  · show k.readyList.head? = some k.curTask
    rw [hlist, hcur]
    rfl
  · show 0 < (k.task k.curTask).ticks.toNat
    rw [hcur, hticks.1]
    decide
  · show (k.task k.curTask).ticks.toNat ≤ 5
    rw [hcur, hticks.1]
    decide

variable {m₀ m₁ : Machine} {ls' : List Label}

/-- The states after a boot. -/
theorem scheduled_of_run (hrange : ManagedRange m₀.kernel.mmu.alloc) (ha : Asserted m₀.kernel)
    (hboot : tssTaskInit kernelTable m₀ = some m₁)
    (hrun : Run (step kernelTable) Holds m₁ ls m) : Scheduled m := by
  obtain ⟨m', hm', h⟩ := tssTaskInit_scheduled kernelTable hrange ha
  obtain rfl := Option.some.inj (hboot.symm.trans hm')
  exact hrun.invariant h fun l s s' hs hok hstep => (step_rota hs hok hstep).choose

/-! ### Turns -/

/-- **THE TURN OF A TASK** is known in advance: whatever is made and run
    meanwhile, it has the processor from the tick on that its place in the
    ready list says, for five ticks.  And no tick faults. -/
theorem turn_exact (hrange : ManagedRange m₀.kernel.mmu.alloc) (ha : Asserted m₀.kernel)
    (hboot : tssTaskInit kernelTable m₀ = some m₁)
    (hrun : Run (step kernelTable) Holds m₁ ls m) (ht : t ∈ m.kernel.readyList)
    (hrun' : Run (step kernelTable) Holds m ls' m')
    (hn : ticks ls' < m.left + 5 * m.kernel.readyList.idxOf t) :
    (step kernelTable .timeTicks m').isSome = true ∧ t ∈ m'.kernel.readyList ∧
    (m'.kernel.curTask = t ↔ m.left + 5 * m.kernel.readyList.idxOf t ≤ 5 + ticks ls') := by
  have h := scheduled_of_run hrange ha hboot hrun
  obtain ⟨h', es, hes, hticks⟩ := run_rota (fun _ _ => True) (fun _ _ hok => hok)
    (fun _ => trivial) (fun _ _ _ _ _ _ => trivial) h hrun'
  rw [← hticks] at hn ⊢
  have hturn := Rota.Run.turn hes (t := t) ht hn
  obtain ⟨m'', hm'', -⟩ := h'.ticks
  refine ⟨?_, (Rota.Run.due hes (t := t) ht hn).1, ?_⟩
  · unfold step
    dsimp only
    rw [hm'']
    rfl
  · rw [← show _ ↔ m'.kernel.curTask = t from Option.some_inj, ← h'.first]
    exact hturn

/-- **EQUAL SHARES**: while no task is made, all have had the same number of ticks
    each time the ready list is through. -/
theorem equal_shares (hrange : ManagedRange m₀.kernel.mmu.alloc) (ha : Asserted m₀.kernel)
    (hboot : tssTaskInit kernelTable m₀ = some m₁)
    (hrun : Run (step kernelTable) Holds m₁ ls m)
    (hrun' : Run (step kernelTable) (fun l _ => ¬ l.Makes) m ls' m') {k : Nat}
    (hn : ticks ls' = 5 * m.kernel.readyList.length * k) :
    ∀ t ∈ m.kernel.readyList, m'.had t = m.had t + 5 * k := by
  intro t ht
  have h := scheduled_of_run hrange ha hboot hrun
  obtain ⟨h', es, hes, hticks⟩ := run_rota (fun e _ => e = .tick)
    (fun _ _ hno hmakes => absurd hmakes hno) (fun _ => rfl)
    (fun _ _ _ _ hno hmakes => absurd hmakes hno) h hrun'
  exact Rota.Run.share hes (t := t) ht (hticks.trans hn)

/-! ### Contexts -/

/-- **ONLY A SWITCH** away from a task writes to its TSS. -/
theorem Scheduled.step_tss (h : Scheduled m) (hok : Holds l m)
    (hs : step kernelTable l m = some m') (ht : t ∈ m.kernel.readyList)
    (hne : t ≠ m.kernel.curTask) :
    t ∈ m'.kernel.readyList ∧ (m'.kernel.task t).tss = (m.kernel.task t).tss := by
  have hmade : ∀ k', Made m.kernel k' (kallocPages m.kernel.mmu.alloc 1).1 → l.Makes →
      t ∈ k'.readyList ∧ (k'.task t).tss = (m.kernel.task t).tss := by
    intro k' hm hmakes
    obtain ⟨hnew, -, -⟩ := h.made hm (hok hmakes)
    have htne : t ≠ (kallocPages m.kernel.mmu.alloc 1).1 := fun heq => hnew (heq ▸ ht)
    rw [hm.other t htne, hm.readyList]
    exact ⟨List.mem_append_left _ ((List.mem_erase_of_ne htne).mpr ht), rfl⟩
  cases l with
  | exec regs =>
      obtain rfl := Option.some.inj hs
      exact ⟨ht, rfl⟩
  | timeTicks =>
      obtain ⟨m₁, hm₁, hticks⟩ := h.ticks
      obtain ⟨m₂, hm₂, rfl⟩ := Option.map_eq_some_iff.mp hs
      obtain rfl := Option.some.inj (hm₁.symm.trans hm₂)
      obtain ⟨h', hrota⟩ := hticks.rota h
      refine ⟨?_, ?_⟩
      · have hmem := (Rota.mem_tick (r := h.rota)).mpr ht
        rw [← hrota] at hmem
        exact hmem
      · cases hticks with
        | counts => exact congrArg Task.tss (counted_task_other hne)
        | again => exact congrArg Task.tss (ended_task_other hne)
        | @next next rest hleft hq =>
            have hother := congrArg Task.tss (ended_task_other hne)
            by_cases hn : t = next
            · subst hn
              refine Eq.trans (congrArg Task.tss (switched_task_next
                (m := { m with kernel := ended m.kernel }) hne)) hother
            · exact (congrArg Task.tss (switched_task_other
                (m := { m with kernel := ended m.kernel }) hn hne)).trans hother
  | initTask entry =>
      obtain rfl := Option.some.inj hs
      exact hmade _ (initTask_made kernelTable _ entry) trivial
  | sysFork eflags f =>
      obtain rfl := Option.some.inj hs
      exact hmade _ (sysFork_made kernelTable eflags _ f) trivial

/-- A tick that switches stores the registers for the one task and loads those of
    the other. -/
theorem Scheduled.tick_switches (h : Scheduled m)
    (hs : step kernelTable .timeTicks m = some m')
    (hne : m'.kernel.curTask ≠ m.kernel.curTask) :
    m.kernel.curTask ∈ m'.kernel.readyList ∧
    (m'.kernel.task m.kernel.curTask).tss
      = m.regs.save (m.kernel.task m.kernel.curTask).tss ∧
    m'.regs = Regs.load (m.kernel.task m'.kernel.curTask).tss ∧
    m'.cr3 = (m.kernel.task m'.kernel.curTask).tss.cr3 := by
  obtain ⟨m₁, hm₁, hticks⟩ := h.ticks
  obtain ⟨m₂, hm₂, rfl⟩ := Option.map_eq_some_iff.mp hs
  obtain rfl := Option.some.inj (hm₁.symm.trans hm₂)
  cases hticks with
  | counts => exact absurd rfl hne
  | again => exact absurd rfl hne
  | @next next rest hleft hq =>
      have hnext := h.toQueued.next_ne hq
      obtain ⟨-, hlist, -⟩ := h.toQueued.ended hq
      have hregs := switched_regs (m := { m with kernel := ended m.kernel }) hnext
      have htss := congrArg Task.tss (ended_task_other hnext)
      refine ⟨?_, ?_, hregs.1.trans (congrArg Regs.load htss),
        hregs.2.trans (congrArg TssInit.Tss.cr3 htss)⟩
      · show _ ∈ (ended m.kernel).readyList
        rw [hlist]
        exact List.mem_append_right _ (List.mem_singleton_self _)
      · refine (congrArg Task.tss (switched_task_cur
          (m := { m with kernel := ended m.kernel }) hnext)).trans ?_
        show m.regs.save ((ended m.kernel).task m.kernel.curTask).tss = _
        rw [ended_task_cur]

/-- While a task waits, its TSS stays as it is; the tick that ends the wait loads
    it. -/
theorem Scheduled.loads (h : Scheduled m) {m₃ m₄ : Machine} (ht : t ∈ m.kernel.readyList)
    (hrun : Run (step kernelTable) (fun l s => Holds l s ∧ s.kernel.curTask ≠ t) m ls m₃)
    (hne : m₃.kernel.curTask ≠ t) (hs : step kernelTable .timeTicks m₃ = some m₄)
    (hback : m₄.kernel.curTask = t) :
    m₄.regs = Regs.load (m.kernel.task t).tss ∧ m₄.cr3 = (m.kernel.task t).tss.cr3 := by
  obtain ⟨h₃, -, htss⟩ := hrun.invariant (P := fun s => Scheduled s ∧ t ∈ s.kernel.readyList ∧
    (s.kernel.task t).tss = (m.kernel.task t).tss) ⟨h, ht, rfl⟩ (by
      rintro l s s' ⟨hs, hmem, htss⟩ ⟨hok, hcur⟩ hstep
      obtain ⟨hmem', htss'⟩ := hs.step_tss hok hstep hmem (Ne.symm hcur)
      exact ⟨(step_rota hs hok hstep).choose, hmem', htss'.trans htss⟩)
  obtain ⟨-, -, hregs, hcr3⟩ := h₃.tick_switches hs (hback ▸ Ne.symm hne)
  rw [hback, htss] at hregs hcr3
  exact ⟨hregs, hcr3⟩

/-- **A TASK GOES ON** with the registers it had when the processor left it, in
    its own directory, whatever has run, been made and switched to meanwhile. -/
theorem task_resumes {m₂ m₃ m₄ : Machine} (hrange : ManagedRange m₀.kernel.mmu.alloc)
    (ha : Asserted m₀.kernel) (hboot : tssTaskInit kernelTable m₀ = some m₁)
    (hrun : Run (step kernelTable) Holds m₁ ls m)
    (hs : step kernelTable .timeTicks m = some m₂)
    (hrun' : Run (step kernelTable)
      (fun l s => Holds l s ∧ s.kernel.curTask ≠ m.kernel.curTask) m₂ ls' m₃)
    (hne : m₃.kernel.curTask ≠ m.kernel.curTask)
    (hs₃ : step kernelTable .timeTicks m₃ = some m₄)
    (hback : m₄.kernel.curTask = m.kernel.curTask) :
    m₄.regs = m.regs ∧ m₄.cr3 = (m.kernel.task m.kernel.curTask).tss.cr3 := by
  have h := scheduled_of_run hrange ha hboot hrun
  have h₂ := (step_rota h (holds_timeTicks m) hs).choose
  -- the tick has switched: otherwise the run could not have begun
  have hswitch : m₂.kernel.curTask ≠ m.kernel.curTask := by
    intro heq
    exact hne (hrun'.invariant (P := fun s => s.kernel.curTask = m.kernel.curTask) heq
      fun _ _ _ hcur hok _ => absurd hcur hok.2)
  obtain ⟨hmem, htss, -, -⟩ := h.tick_switches hs hswitch
  have hloads := h₂.loads hmem hrun' hne hs₃ hback
  rw [htss] at hloads
  exact hloads

/-- What `init_task` writes for a new task. -/
def initRegs (k : Kernel) (entry : Word) : Regs :=
  let ds := userSelectorDs.zeroExtend 32
  { eip := entry, eflags := eflagsMbs ||| TssInit.eflagsIf
    eax := 0, ecx := 0, edx := 0, ebx := 0
    esp := ((StackOwnership.Call.initTask entry).pages k).stack, ebp := 0, esi := 0, edi := 0
    es := ds, cs := userSelectorCs.zeroExtend 32, ss := ds, ds := ds, fs := ds, gs := ds }

/-- And `sys_fork`. -/
def forkRegs (f : SyscallFrame) : Regs :=
  { eip := f.eip, eflags := f.eflags
    eax := 0, ecx := f.ecx, edx := f.edx, ebx := f.ebx
    esp := f.esp, ebp := f.ebp, esi := f.esi, edi := f.edi
    es := f.es, cs := f.cs, ss := userSelectorDs.zeroExtend 32, ds := f.ds, fs := f.fs
    gs := f.gs }

/-- The task that a label makes starts with `regs`. -/
inductive Starts (k : Kernel) : Label → Regs → Prop where
  | initTask (entry : Word) : Starts k (.initTask entry) (initRegs k entry)
  | sysFork (eflags : Word) (f : SyscallFrame) : Starts k (.sysFork eflags f) (forkRegs f)

variable (kernelTable) in
/-- The registers a task of `init_task` begins with, and its directory. -/
theorem initTask_tss (k : Kernel) (entry : Word) :
    Regs.load ((TssTasks.initTask kernelTable k entry).2.task
        (kallocPages k.mmu.alloc 1).1).tss = initRegs k entry ∧
    ((StackOwnership.Call.initTask entry).pages k).dir
      = some ((TssTasks.initTask kernelTable k entry).2.task
          (kallocPages k.mmu.alloc 1).1).tss.cr3 := by
  have hrun := StackOwnership.run_tss kernelTable (.initTask entry) k
  refine ⟨?_, congrArg some (hrun.2.2 _ rfl).symm⟩
  simp [Regs.load, initRegs, TssTasks.initTask, initTss, initContext, taskSetReady,
    taskSetGeneral, userProc, kernelProc, StackOwnership.Call.pages, TssInit.Tss.zero]

variable (kernelTable) in
/-- The registers a task of `sys_fork` begins with, and its directory. -/
theorem sysFork_tss (eflags : Word) (k : Kernel) (f : SyscallFrame) :
    Regs.load ((Fork.sysFork kernelTable eflags k f).2.task (kallocPages k.mmu.alloc 1).1).tss
      = forkRegs f ∧
    ((Fork.sysFork kernelTable eflags k f).2.task (kallocPages k.mmu.alloc 1).1).tss.cr3
      = ((TssTasks.initTask kernelTable k f.eip).2.task
          (kallocPages k.mmu.alloc 1).1).tss.cr3 := by
  have hss := (initTask_task kernelTable k f.eip).2.2.2.2
  rw [← initTask_fst kernelTable k f.eip]
  simp [Fork.sysFork, Regs.load, forkRegs, hss]

/-- **A NEW TASK STARTS** with the registers that its maker wrote, in the
    directory that was made for it, whatever happens until its first turn. -/
theorem task_begins {m₂ m₃ m₄ : Machine} {regs : Regs}
    (hrange : ManagedRange m₀.kernel.mmu.alloc) (ha : Asserted m₀.kernel)
    (hboot : tssTaskInit kernelTable m₀ = some m₁)
    (hrun : Run (step kernelTable) Holds m₁ ls m) (hstart : Starts m.kernel l regs)
    (ha' : Asserted m.kernel) (hs : step kernelTable l m = some m₂)
    (ht : t = (kallocPages m.kernel.mmu.alloc 1).1)
    (hrun' : Run (step kernelTable) (fun l s => Holds l s ∧ s.kernel.curTask ≠ t) m₂ ls' m₃)
    (hne : m₃.kernel.curTask ≠ t) (hs₃ : step kernelTable .timeTicks m₃ = some m₄)
    (hfirst : m₄.kernel.curTask = t) :
    m₄.regs = regs ∧
      some m₄.cr3 = ((StackOwnership.Call.initTask regs.eip).pages m.kernel).dir := by
  have h := scheduled_of_run hrange ha hboot hrun
  have h₂ := (step_rota h (fun _ => ha') hs).choose
  cases hstart with
  | initTask entry =>
      obtain rfl := Option.some.inj hs
      have hmem : t ∈ (TssTasks.initTask kernelTable m.kernel entry).2.readyList := by
        rw [(initTask_made kernelTable m.kernel entry).readyList, ← ht]
        exact List.mem_append_right _ (List.mem_singleton_self t)
      obtain ⟨hregs, hcr3⟩ := h₂.loads hmem hrun' hne hs₃ hfirst
      obtain ⟨htss, hdir⟩ := initTask_tss kernelTable m.kernel entry
      rw [← ht] at htss hdir
      exact ⟨hregs.trans htss, (congrArg some hcr3).trans hdir.symm⟩
  | sysFork eflags f =>
      obtain rfl := Option.some.inj hs
      have hmem : t ∈ (Fork.sysFork kernelTable eflags m.kernel f).2.readyList := by
        rw [(sysFork_made kernelTable eflags m.kernel f).readyList, ← ht]
        exact List.mem_append_right _ (List.mem_singleton_self t)
      obtain ⟨hregs, hcr3⟩ := h₂.loads hmem hrun' hne hs₃ hfirst
      obtain ⟨htss, hcr3'⟩ := sysFork_tss kernelTable eflags m.kernel f
      obtain ⟨-, hdir⟩ := initTask_tss kernelTable m.kernel f.eip
      rw [← ht] at htss hcr3' hdir
      exact ⟨hregs.trans htss, (congrArg some (hcr3.trans hcr3')).trans hdir.symm⟩

end Run

/-! ## Two tasks -/

/-- Before the first task. -/
def fresh : Machine where
  kernel := StackOwnership.booted
  regs := Regs.load TssInit.Tss.zero
  cr3 := 0x20000
  tr := 0
  had := fun _ => 0

private theorem fresh_range : ManagedRange fresh.kernel.mmu.alloc :=
  (KernelBoot.memoryInit_range _ (by decide)).1

private theorem fresh_asserted : Asserted fresh.kernel := by decide +kernel

private theorem firstTask_isSome : (tssTaskInit 0x20 fresh).isSome = true := by decide +kernel

/-- The machine with its first task. -/
def firstTask : Machine := (tssTaskInit 0x20 fresh).get firstTask_isSome

private theorem boot_firstTask : tssTaskInit 0x20 fresh = some firstTask :=
  (Option.some_get firstTask_isSome).symm

private theorem makeSecond_isSome :
    (step 0x20 (.initTask 0x12000) firstTask).isSome = true := by decide +kernel

/-- The second task is made. -/
def twoTasks : Machine := (step 0x20 (.initTask 0x12000) firstTask).get makeSecond_isSome

private theorem makeSecond : step 0x20 (.initTask 0x12000) firstTask = some twoTasks :=
  (Option.some_get makeSecond_isSome).symm

/-- Four ticks, and the first task is at 0x11000. -/
def toLastTick : List Label :=
  List.replicate 4 .timeTicks ++ [.exec { firstTask.regs with eip := 0x11000 }]

private theorem toLastTick_isSome :
    (exec (step 0x20) (fun l s => Holds l s ∧ s.kernel.curTask ≠ 0x103000) toLastTick
      twoTasks).isSome = true := by decide +kernel

/-- The state before the tick that ends the first task's slice. -/
def lastTick : Machine :=
  (exec (step 0x20) (fun l s => Holds l s ∧ s.kernel.curTask ≠ 0x103000) toLastTick
    twoTasks).get toLastTick_isSome

private theorem run_toLastTick :
    Run (step 0x20) (fun l s => Holds l s ∧ s.kernel.curTask ≠ 0x103000) twoTasks toLastTick
      lastTick := Run.of_isSome toLastTick_isSome

private theorem run_lastTick :
    Run (step 0x20) Holds firstTask ([.initTask 0x12000] ++ toLastTick) lastTick :=
  (Run.single (fun _ => by decide +kernel) makeSecond).append
    (run_toLastTick.mono fun _ _ hok => hok.1)

private theorem switch_isSome : (step 0x20 .timeTicks lastTick).isSome = true := by
  decide +kernel

/-- The second task's first turn. -/
def atSecond : Machine := (step 0x20 .timeTicks lastTick).get switch_isSome

private theorem switch_atSecond : step 0x20 .timeTicks lastTick = some atSecond :=
  (Option.some_get switch_isSome).symm

/-- The last tick of the first task gives the second its turn. -/
theorem turn_exact_second : atSecond.kernel.curTask = 0x103000 :=
  (turn_exact fresh_range fresh_asserted boot_firstTask run_lastTick (t := 0x103000)
    (by decide +kernel) (Run.single (holds_timeTicks _) switch_atSecond)
    (by decide +kernel)).2.2.mpr (by decide +kernel)

/-- It starts at its entry. -/
theorem task_begins_second : atSecond.regs.eip = 0x12000 :=
  congrArg Regs.eip (task_begins fresh_range fresh_asserted boot_firstTask (Run.nil _)
    (.initTask 0x12000) (by decide +kernel) makeSecond (t := 0x103000) (by decide +kernel)
    run_toLastTick (by decide +kernel) switch_atSecond (by decide +kernel)).1

private theorem tenTicks_isSome :
    (exec (step 0x20) (fun l _ => ¬ l.Makes) (List.replicate 10 .timeTicks)
      lastTick).isSome = true := by decide +kernel

/-- The state ten ticks on, two slices. -/
def tenTicks : Machine :=
  (exec (step 0x20) (fun l _ => ¬ l.Makes) (List.replicate 10 .timeTicks) lastTick).get
    tenTicks_isSome

private theorem run_tenTicks :
    Run (step 0x20) (fun l _ => ¬ l.Makes) lastTick (List.replicate 10 .timeTicks) tenTicks :=
  Run.of_isSome tenTicks_isSome

/-- Five of the ten for each. -/
theorem equal_shares_two :
    tenTicks.had 0x100000 = lastTick.had 0x100000 + 5 * 1 ∧
    tenTicks.had 0x103000 = lastTick.had 0x103000 + 5 * 1 := by
  have hshares := equal_shares fresh_range fresh_asserted boot_firstTask run_lastTick
    run_tenTicks (k := 1) (by decide +kernel)
  exact ⟨hshares (0x100000 : Word) (by decide +kernel),
    hshares (0x103000 : Word) (by decide +kernel)⟩

private theorem toBack_isSome :
    (exec (step 0x20) (fun l s => Holds l s ∧ s.kernel.curTask ≠ lastTick.kernel.curTask)
      (List.replicate 4 .timeTicks) atSecond).isSome = true := by decide +kernel

/-- The state before the second task's slice ends. -/
def secondEnd : Machine :=
  (exec (step 0x20) (fun l s => Holds l s ∧ s.kernel.curTask ≠ lastTick.kernel.curTask)
    (List.replicate 4 .timeTicks) atSecond).get toBack_isSome

private theorem run_secondEnd :
    Run (step 0x20) (fun l s => Holds l s ∧ s.kernel.curTask ≠ lastTick.kernel.curTask)
      atSecond (List.replicate 4 .timeTicks) secondEnd := Run.of_isSome toBack_isSome

private theorem back_isSome : (step 0x20 .timeTicks secondEnd).isSome = true := by
  decide +kernel

/-- The first task's next turn. -/
def backAtFirst : Machine := (step 0x20 .timeTicks secondEnd).get back_isSome

private theorem back_atFirst : step 0x20 .timeTicks secondEnd = some backAtFirst :=
  (Option.some_get back_isSome).symm

/-- After a slice of the second the first is at 0x11000 again. -/
theorem task_resumes_first : backAtFirst.regs.eip = 0x11000 := by
  have hback := task_resumes fresh_range fresh_asserted boot_firstTask run_lastTick
    switch_atSecond run_secondEnd (by decide +kernel) back_atFirst (by decide +kernel)
  rw [hback.1]
  decide +kernel

end LittleOS.TssSchedule
