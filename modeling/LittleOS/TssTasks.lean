import LittleOS.PageTable
import LittleOS.SchedMachine
import LittleOS.Threads
import LittleOS.TssInit

/-! # Tasks with a TSS of their own

    `init_tss`, `init_task` and `tss_task_init` of `tss_old.c`.  A task is the address of the
    page `kalloc_pages` gives for it, and its TSS lies 4 bytes in.  The lists
    are sequences of tasks.  A task takes a descriptor, a page for itself, one
    for its kernel stack, one for its user stack and one for a directory.

    * `initTask_task` — the fields of a new task;
    * `initTask_other` — no other task changes. -/

namespace LittleOS.TssTasks

open Gdt Memory
open PageTable (Mmu Frame addrOf createPageTable)
open SchedMachine (IrqStatus)
open Threads (TaskStatus taskTicksDefault)
open TssInit (Tss sizeofTss eflagsIf)

/-- A `uint32_t`. -/
abbrev Word := BitVec 32

def kernelProc : Word := 0
def userProc : Word := 1

/-- `ELFAGS_MBS`. -/
def eflagsMbs : Word := 1 <<< 1

/-- `task_t`; its two nodes are in the lists. -/
structure Task where
  status : TaskStatus
  tss : Tss
  tssSel : Int
  ifkernel : Word
  parent : Word
  pid : Word
  ticks : Word
  defaultTicks : Word

/-- `task_manager` without `sleep_list`, with the tasks, and what making one needs:
    `gdt_table`, the pages, the counter of `alloc_pid` and `proc_manager.irq_state`. -/
structure Kernel where
  gdtTable : GdtTable
  mmu : Mmu
  task : Word → Task
  curTask : Word
  generalList : List Word
  readyList : List Word
  globalPid : Word
  irqState : IrqStatus

/-- Change the fields of one task. -/
def Kernel.modify (k : Kernel) (task : Word) (f : Task → Task) : Kernel :=
  { k with task := Function.update k.task task (f (k.task task)) }

/-- `&task->tss`. -/
def tssAddr (task : Word) : Word := task + 4

/-- `task_set_general` -/
def taskSetGeneral (k : Kernel) (task : Word) : Kernel :=
  { k with generalList := k.generalList ++ [task] }

/-- `task_set_ready` -/
def taskSetReady (k : Kernel) (task : Word) : Kernel :=
  { k with readyList := k.readyList.erase task ++ [task] }.modify task
    (fun c => { c with status := .ready })

section Source

variable (kernelTable : Frame)

/-- The stack, the segments and the directory of a task of this kind. -/
def initContext (mmu : Mmu) (tss : Tss) (ifkernel : Word) : Mmu × Tss :=
  if ifkernel = kernelProc then
    let r := kallocPages mmu.alloc 1
    let ds := kernelSelectorDs.zeroExtend 32
    ({ mmu with alloc := r.2 },
      { tss with
        esp := r.1
        ss := ds, es := ds, ds := ds, fs := ds, gs := ds
        cs := kernelSelectorCs.zeroExtend 32
        cr3 := addrOf kernelTable })
  else
    let r := uallocPages mmu.alloc 1
    let ds := userSelectorDs.zeroExtend 32
    let dir := createPageTable kernelTable { mmu with alloc := r.2 }
    (dir.2,
      { tss with
        esp := r.1
        ss := ds, es := ds, ds := ds, fs := ds, gs := ds
        cs := userSelectorCs.zeroExtend 32
        cr3 := dir.1 })

/-- `init_tss`: the stack pointer is the start of the page that was allocated. -/
def initTss (k : Kernel) (task entry ifkernel : Word) : Kernel :=
  let tss_sel := gdtAllocSeg k.gdtTable
  let gdtTable := gdtSegmentSet k.gdtTable (BitVec.ofInt 16 tss_sel) sizeofTss
    (tssAddr task) (segSSystem ||| segTypeTss ||| segDpl0 ||| segPPresent)
  let kernelStack := kallocPages k.mmu.alloc 1
  let tss := { Tss.zero with
    eip := entry
    esp0 := kernelStack.1
    ss0 := kernelSelectorDs.zeroExtend 32 }
  let r := initContext kernelTable { k.mmu with alloc := kernelStack.2 } tss ifkernel
  { k with gdtTable := gdtTable, mmu := r.1 }.modify task (fun c => { c with
    tss := { r.2 with eflags := eflagsMbs ||| eflagsIf }
    tssSel := tss_sel })

/-- The page for the task is not cleared. -/
def initTask (k : Kernel) (entry : Word) : Word × Kernel :=
  let r := kallocPages k.mmu.alloc 1
  let task := r.1
  -- `alloc_pid`
  let pid := k.globalPid + 1
  let k := { k with mmu := { k.mmu with alloc := r.2 }, globalPid := pid }
  let k := k.modify task (fun c => { c with
    ticks := taskTicksDefault
    defaultTicks := taskTicksDefault
    pid := pid
    ifkernel := userProc
    parent := 0 })
  let k := taskSetReady (taskSetGeneral k task) task
  (task, initTss kernelTable k task entry userProc)

/-- The first task, a kernel one; `ltr` is left out. -/
def tssTaskInit (k : Kernel) : Kernel :=
  let k := { k with readyList := [], generalList := [] }
  let r := kallocPages k.mmu.alloc 1
  let task := r.1
  -- `alloc_pid`
  let pid := k.globalPid + 1
  let k := { k with mmu := { k.mmu with alloc := r.2 }, globalPid := pid, curTask := task }
  let k := k.modify task (fun c => { c with
    ticks := taskTicksDefault
    defaultTicks := taskTicksDefault
    pid := pid
    ifkernel := kernelProc
    parent := 0 })
  let k := taskSetReady (taskSetGeneral k task) task
  let k := k.modify task (fun c => { c with status := .running })
  initTss kernelTable k task 0 kernelProc

end Source

section Spec

variable (kernelTable : Frame) (k : Kernel) (entry : Word)

/-- A change of a task is seen at that task. -/
@[simp] theorem modify_self (k : Kernel) (task : Word) (f : Task → Task) :
    (k.modify task f).task task = f (k.task task) := Function.update_self ..

/-- A change of a task is not seen at another one. -/
@[simp] theorem modify_other (k : Kernel) {task u : Word} (h : u ≠ task) (f : Task → Task) :
    (k.modify task f).task u = k.task u := Function.update_of_ne h ..

/-- Tasks are not page frames. -/
@[simp] theorem modify_mmu (k : Kernel) (task : Word) (f : Task → Task) :
    (k.modify task f).mmu = k.mmu := rfl

/-- Nor is the ready list. -/
@[simp] theorem taskSetReady_mmu (k : Kernel) (task : Word) :
    (taskSetReady k task).mmu = k.mmu := rfl

/-- Nor is the list of all tasks. -/
@[simp] theorem taskSetGeneral_mmu (k : Kernel) (task : Word) :
    (taskSetGeneral k task).mmu = k.mmu := rfl

/-- Where the stacks of a kernel task start. -/
theorem initTss_kernelProc (k : Kernel) (task entry : Word) :
    ((initTss kernelTable k task entry kernelProc).task task).tss.esp0
      = (kallocPages k.mmu.alloc 1).1 ∧
    ((initTss kernelTable k task entry kernelProc).task task).tss.esp
      = (kallocPages (kallocPages k.mmu.alloc 1).2 1).1 ∧
    (initTss kernelTable k task entry kernelProc).mmu.alloc
      = (kallocPages (kallocPages k.mmu.alloc 1).2 1).2 := by
  simp [initTss, initContext]

/-- Those of a user task, and its directory. -/
theorem initTss_userProc (k : Kernel) (task entry : Word) :
    ((initTss kernelTable k task entry userProc).task task).tss.esp0
      = (kallocPages k.mmu.alloc 1).1 ∧
    ((initTss kernelTable k task entry userProc).task task).tss.esp
      = (uallocPages (kallocPages k.mmu.alloc 1).2 1).1 ∧
    ((initTss kernelTable k task entry userProc).task task).tss.cr3
      = (uallocPages (uallocPages (kallocPages k.mmu.alloc 1).2 1).2 1).1 ∧
    (initTss kernelTable k task entry userProc).mmu.alloc
      = (uallocPages (uallocPages (kallocPages k.mmu.alloc 1).2 1).2 1).2 := by
  simp [initTss, initContext, userProc, kernelProc, createPageTable]

/-- The task has the next page. -/
theorem initTask_fst : (initTask kernelTable k entry).1 = (kallocPages k.mmu.alloc 1).1 := rfl

/-- **A NEW TASK** waits to run in ring 3 and has the next pid. -/
theorem initTask_task :
    ((initTask kernelTable k entry).2.task (initTask kernelTable k entry).1).status = .ready ∧
    ((initTask kernelTable k entry).2.task (initTask kernelTable k entry).1).pid
      = k.globalPid + 1 ∧
    ((initTask kernelTable k entry).2.task (initTask kernelTable k entry).1).ifkernel
      = userProc ∧
    ((initTask kernelTable k entry).2.task (initTask kernelTable k entry).1).tss.eip
      = entry ∧
    ((initTask kernelTable k entry).2.task (initTask kernelTable k entry).1).tss.ss
      = userSelectorDs.zeroExtend 32 := by
  simp [initTask, initTss, initContext, taskSetReady, taskSetGeneral, userProc, kernelProc]

/-- Making a task leaves the others. -/
theorem initTask_other {t : Word} (h : t ≠ (initTask kernelTable k entry).1) :
    (initTask kernelTable k entry).2.task t = k.task t := by
  rw [initTask_fst] at h
  simp [initTask, initTss, initContext, taskSetReady, taskSetGeneral, h]

end Spec

end LittleOS.TssTasks
