import LittleOS.AllocatedTables
import LittleOS.Lib.CStrings
import LittleOS.Lib.X86
import LittleOS.Threads
import LittleOS.TssInit

/-! # Processes

    `proc_init`, `proc_start`, `proc_time_ticks`, `proc_dispatch` and
    `proc_switch` of `task_old.c`, with the boot by `task_init`.  A process is
    the address of its page, and its context lies behind its `proc_pcb_t`; the
    lists are sequences of processes.  `proc_switch` leaves for the new process by
    an `iret` from the stack of the kernel.  It pushes values that it has read
    before.

    * `procSwitch_outer` — the registers a process is given;
    * `step_kept` — no step writes to the context of a process but the one that
      makes it;
    * `proc_starts_over` — so every turn of a process begins at its first
      instruction, with empty registers and an empty stack;
    * `main_starts_over` — and every turn of the first one with `main`, on the stack
      of another. -/

namespace LittleOS.ProcSwitch

open Gdt Memory Runs X86
open AllocatedTables (kallocPages_gives)
open CStrings (CString)
open KernelBoot (ManagedRange)
open PageTable (Mmu Frame addrOf frameOf createPageTable)
open SchedMachine (IrqStatus)
open SharedTable (HeldFrame)
open Threads (TaskStatus taskTicksDefault)
open TssInit (eflagsDefault eflagsIf)

/-- A `uint32_t` and a `uint8_t`. -/
abbrev Word := BitVec 32
abbrev Byte := BitVec 8

def kernelProc : Byte := 0
def userProc : Byte := 1
def taskDefaultPrio : Word := 31
def taskStackMagic : Word := 0x19870916
def kernelStackSize : Word := 8 * 1024

/-- `context_t` without `vec_no`. -/
structure Context where
  edi : Word
  esi : Word
  ebp : Word
  espDummy : Word
  ebx : Word
  edx : Word
  ecx : Word
  eax : Word
  gs : Word
  fs : Word
  es : Word
  ds : Word
  eip : Word
  cs : Word
  eflags : Word
  esp : Word
  ss : Word
deriving DecidableEq, Repr

/-- `ifsaved_context_t` -/
inductive IfsavedContext where
  | savedContext
  | unsavedContext
deriving DecidableEq, Repr

/-- `proc_pcb_t` with the context it points to; its two nodes are in the lists. -/
structure ProcPcb where
  pid : Word
  kstack : Word
  filename : Word
  priority : Word
  status : TaskStatus
  stackMagic : Word
  ticks : Word
  parent : Word
  ifkernel : Byte
  ifsavedContext : IfsavedContext
  threadTable : Word
  context : Context
  pgdir : Word
deriving DecidableEq, Repr

/-- `proc_manager` without `sleep_list`, with the processes and what making and
    switching them needs: the pages, the counter of `alloc_pid`, `esp0` of the TSS
    and CR3. -/
structure Kernel where
  mmu : Mmu
  proc : Word → ProcPcb
  curProc : Word
  generalList : List Word
  readyList : List Word
  irqState : IrqStatus
  globalPid : Word
  esp0 : Word
  cr3 : Word

/-- Change the fields of one process. -/
def Kernel.modify (k : Kernel) (pcb : Word) (f : ProcPcb → ProcPcb) : Kernel :=
  { k with proc := Function.update k.proc pcb (f (k.proc pcb)) }

/-! ## Making a process -/

/-- `proc_set_general` -/
def procSetGeneral (k : Kernel) (pcb : Word) : Kernel :=
  { k with generalList := k.generalList ++ [pcb] }

/-- `proc_set_ready` -/
def procSetReady (k : Kernel) (pcb : Word) : Kernel :=
  { k with readyList := k.readyList.erase pcb ++ [pcb] }.modify pcb
    (fun c => { c with status := .ready })

/-- `TASK_NAME_LEN`. -/
def taskNameLen : Nat := 20

/-- Byte `j` of a word. -/
def byteOf (w : Word) (j : Nat) : Byte := (w >>> (8 * j)).setWidth 8

/-- What `kstrcpy` leaves of `_filename`, which lies behind the array of the name and
    has been set before.  What is behind it is set later. -/
def nameOver (name : CString) (filename : Word) : Word :=
  let byte (j : Nat) := (name.bytes[taskNameLen + j]?).getD (byteOf filename j)
  byte 3 ++ byte 2 ++ byte 1 ++ byte 0

section Source

variable (kernelTable : Frame)

/-- The stack and the segments of a process of this kind. -/
def startContext (alloc : AddrAlloc) (ifkernel : Byte) (c : Context) : AddrAlloc × Context :=
  let c := { c with
    eax := 0, ebx := 0, edx := 0, ecx := 0
    edi := 0, esi := 0, ebp := 0, espDummy := 0 }
  if ifkernel = kernelProc then
    let r := kallocPages alloc 1
    let ds := kernelSelectorDs.zeroExtend 32
    (r.2, { c with
      esp := r.1 + memPageSize
      gs := ds, fs := ds, es := ds, ds := ds
      ss := ds
      cs := kernelSelectorCs.zeroExtend 32 })
  else
    let r := uallocPages alloc 1
    let ds := userSelectorDs.zeroExtend 32
    (r.2, { c with
      esp := r.1 + memPageSize
      gs := 0
      fs := ds, es := ds, ds := ds
      ss := ds
      cs := userSelectorCs.zeroExtend 32 })

/-- `proc_start`: the entry is what `filename` holds, a number and not a path. -/
def procStart (k : Kernel) (pcb : Word) (ifkernel : Byte) : Kernel :=
  let function := (k.proc pcb).filename
  let k := k.modify pcb (fun c => { c with
    kstack := if ifkernel = kernelProc then kernelStackSize else pcb + memPageSize - 1
    priority := taskDefaultPrio
    stackMagic := taskStackMagic
    status := .ready
    threadTable := 0
    ticks := taskTicksDefault
    context := { c.context with eip := function, eflags := eflagsIf ||| eflagsDefault } })
  let r := startContext k.mmu.alloc ifkernel (k.proc pcb).context
  { k with mmu := { k.mmu with alloc := r.1 } }.modify pcb (fun c => { c with context := r.2 })

/-- The page for the process is not cleared. -/
def procInit (k : Kernel) (filename : Word) (name : CString) : Word × Kernel :=
  let r := kallocPages k.mmu.alloc 1
  let pcb := r.1
  let dir := createPageTable kernelTable { k.mmu with alloc := r.2 }
  -- `alloc_pid`
  let pid := k.globalPid + 1
  let k := { k with mmu := dir.2, globalPid := pid }
  let k := k.modify pcb (fun c => { c with
    filename := nameOver name filename
    pgdir := dir.1
    ticks := taskTicksDefault
    pid := pid
    parent := 0
    ifkernel := userProc
    ifsavedContext := .unsavedContext })
  (pcb, procStart (procSetReady (procSetGeneral k pcb) pcb) pcb userProc)

/-- `task_init`; of `tss_init` what `proc_dispatch` changes later.  The name fits. -/
def taskInit (k : Kernel) (main : Word) : Kernel :=
  let k := { k with readyList := [], generalList := [] }
  let r := kallocPages k.mmu.alloc 1
  let pcb := r.1
  -- `alloc_pid`
  let pid := k.globalPid + 1
  let k := { k with mmu := { k.mmu with alloc := r.2 }, curProc := pcb, globalPid := pid }
  let k := k.modify pcb (fun c => { c with
    filename := main
    pgdir := addrOf kernelTable
    ticks := taskTicksDefault
    pid := pid
    parent := 0
    ifkernel := kernelProc
    ifsavedContext := .unsavedContext })
  let k := procStart (procSetReady (procSetGeneral k pcb) pcb) pcb kernelProc
  { k with esp0 := kernelStackSize }

end Source

/-! ## Switching -/

/-- The inputs of `proc_switch` that are registers. -/
def loadInputs (c : Context) : List Instr :=
  [.movImm .eax c.eax, .movImm .ebx c.ebx, .movImm .edx c.edx, .movImm .ecx c.ecx,
    .movImm .edi c.edi, .movImm .esi c.esi]

/-- The pushes of `proc_switch`. -/
def pushInputs (c : Context) : List Instr :=
  [.pushImm c.ss, .pushImm c.esp, .pushImm c.eflags, .pushImm c.cs, .pushImm c.eip,
    .pushImm c.ebp, .pushImm c.gs, .pushImm c.fs, .pushImm c.es, .pushImm c.ds]

/-- The pops of `proc_switch`, before its `iret`. -/
def popInputs : List Instr :=
  [.popSeg .ds, .popSeg .es, .popSeg .fs, .popSeg .gs, .pop .ebp]

/-- The instructions of `proc_switch`, up to its `iret`. -/
def procSwitchCode (c : Context) : List Instr := loadInputs c ++ pushInputs c ++ popInputs

section Switching

variable (cpu : Cpu)

/-- `proc_switch`: it does not come back. -/
def procSwitch (c : Context) (s : State Kernel) : State Kernel :=
  iret (run cpu (fun _ => id) (procSwitchCode c) s)

/-- `wcr3`. -/
def switchPgdir (k : Kernel) (dir : Word) : Kernel := { k with cr3 := dir }

/-- `update_tss_esp0` -/
def updateTssEsp0 (k : Kernel) (proc : Word) : Kernel := { k with esp0 := (k.proc proc).kstack }

/-- The flags after `irq_leave_protection`. -/
def irqLeaveProtection (status : IrqStatus) (eflags : Word) : Word :=
  if status = .on then eflags ||| eflagsIf else eflags &&& ~~~eflagsIf

/-- `proc_FIFO` -/
def procFIFO (k : Kernel) : Option Word := k.readyList.head?

/-- `SCHEDULE_SECTIONS` is `THREAD_FIFO`. -/
def procSchedule (k : Kernel) : Option Word := procFIFO k

/-- `proc_dispatch`: it goes on at the saved context of the next process. -/
def procDispatch (s : State Kernel) : Option (State Kernel) :=
  let k := s.rest
  let cur := k.curProc
  match procSchedule k with
  -- the tail of the list is no process
  | none => none
  | some next =>
      let eflags := irqLeaveProtection k.irqState s.eflags
      if next ≠ cur ∧ (k.proc next).status = .ready then
        let k := { k with curProc := next }.modify next (fun c => { c with status := .running })
        let k := k.modify cur (fun c => { c with ifsavedContext := .unsavedContext })
        let k := updateTssEsp0 (switchPgdir k (k.proc next).pgdir) next
        some (procSwitch cpu (k.proc next).context { s with rest := k, eflags := eflags })
      else if k.readyList.length = 1 then some { s with eflags := eflags }
      else some s

/-- `proc_time_ticks` -/
def procTimeTicks (s : State Kernel) : Option (State Kernel) :=
  let cur := s.rest.curProc
  let k := s.rest.modify cur (fun c => { c with ticks := c.ticks - 1 })
  if (k.proc cur).ticks.toInt ≤ 0 then
    let k := procSetReady k cur
    let k := k.modify cur (fun c => { c with ticks := taskTicksDefault })
    procDispatch cpu { s with rest := k }
  else some { s with rest := k }

end Switching

/-! ## The machine -/

/-- What can happen next: other code, a tick, or a process made. -/
inductive Label where
  | exec (s : State Unit)
  | timeTicks
  | procInit (filename : Word) (name : CString)

section Machine

variable (cpu : Cpu) (kernelTable : Frame)

/-- `exec` is what runs between two calls: it may change all but the kernel's
    data. -/
def step : Label → State Kernel → Option (State Kernel)
  | .exec t, s => some { t with rest := s.rest }
  | .timeTicks, s => procTimeTicks cpu s
  | .procInit filename name, s =>
      some { s with rest := (ProcSwitch.procInit kernelTable s.rest filename name).2 }

/-- A tick is handled in ring 0; a new process has a page, and its name stays in
    the page. -/
def Holds : Label → State Kernel → Prop
  | .exec _, _ => True
  | .timeTicks, s => ring (s.seg .cs) = 0
  | .procInit _ name, s =>
      (kallocPages s.rest.mmu.alloc 1).1 ≠ 0 ∧ 8 + name.bytes.length ≤ memPageSize.toNat

instance : (l : Label) → (s : State Kernel) → Decidable (Holds l s)
  | .exec _, _ => isTrue trivial
  | .timeTicks, _ => inferInstanceAs (Decidable (_ = _))
  | .procInit _ _, _ => inferInstanceAs (Decidable (_ ∧ _))

end Machine

/-! ## A switch -/

/-- The registers of a context. -/
def Context.reg (c : Context) : Reg → Word :=
  restored c.esp c.edi c.esi c.ebp c.ebx c.edx c.ecx c.eax

/-- The selectors of a context, as the processor loads them. -/
def Context.seg (c : Context) : Seg → BitVec 16
  | .es => c.es.setWidth 16
  | .cs => c.cs.setWidth 16
  | .ss => c.ss.setWidth 16
  | .ds => c.ds.setWidth 16
  | .fs => c.fs.setWidth 16
  | .gs => c.gs.setWidth 16

/-- The processor goes on in the context `c`. -/
structure Enters (c : Context) (s : State Kernel) : Prop where
  reg : s.reg = c.reg
  seg : s.seg = c.seg
  eip : s.eip = c.eip
  eflags : s.eflags = c.eflags

section Switch

variable {cpu : Cpu} {c : Context} {s : State Kernel}

variable (cpu) in
/-- The inputs of the `asm` leave the stack and load every register but `ebp`. -/
theorem loadInputs_reg (c : Context) (s : State Kernel) :
    (run cpu (fun _ => id) (loadInputs c) s).reg .esp = s.reg .esp ∧
    ∀ r, r ≠ .esp → r ≠ .ebp → (run cpu (fun _ => id) (loadInputs c) s).reg r = c.reg r := by
  refine ⟨rfl, fun r hsp hbp => ?_⟩
  cases r <;> first | rfl | contradiction

variable (cpu) in
/-- What the pushes put on the stack, in order. -/
theorem pushInputs_spec (c : Context) (s : State Kernel) :
    Pushed s (run cpu (fun _ => id) (pushInputs c) s) 10
      [c.ds, c.es, c.fs, c.gs, c.ebp, c.eip, c.cs, c.eflags, c.esp, c.ss] := by
  have hempty : Top s [] := trivial
  have hss := (Pushed.refl hempty).pushImm cpu (fun _ => id) (by simp) c.ss
  have hesp := hss.pushImm cpu (fun _ => id) (by simp) c.esp
  have heflags := hesp.pushImm cpu (fun _ => id) (by simp) c.eflags
  have hcs := heflags.pushImm cpu (fun _ => id) (by simp) c.cs
  have heip := hcs.pushImm cpu (fun _ => id) (by simp) c.eip
  have hebp := heip.pushImm cpu (fun _ => id) (by simp) c.ebp
  have hgs := hebp.pushImm cpu (fun _ => id) (by simp) c.gs
  have hfs := hgs.pushImm cpu (fun _ => id) (by simp) c.fs
  have hes := hfs.pushImm cpu (fun _ => id) (by simp) c.es
  exact hes.pushImm cpu (fun _ => id) (by simp) c.ds

variable (cpu) in
/-- The words that the pops leave are those of an `iret`. -/
theorem popInputs_spec {c : Context} {s : State Kernel}
    (h : Top s [c.ds, c.es, c.fs, c.gs, c.ebp, c.eip, c.cs, c.eflags, c.esp, c.ss]) :
    Top (run cpu (fun _ => id) popInputs s) [c.eip, c.cs, c.eflags, c.esp, c.ss] ∧
    (run cpu (fun _ => id) popInputs s).reg .esp = slot (s.reg .esp) 5 ∧
    (run cpu (fun _ => id) popInputs s).reg .ebp = c.ebp ∧
    (∀ r, r ≠ .esp → r ≠ .ebp → (run cpu (fun _ => id) popInputs s).reg r = s.reg r) ∧
    (run cpu (fun _ => id) popInputs s).seg = loaded s.seg c.gs c.fs c.es c.ds ∧
    (run cpu (fun _ => id) popInputs s).rest = s.rest := by
  have hsegs := ((((Passed.refl h).popSeg cpu (fun _ => id) .ds).popSeg cpu (fun _ => id)
    .es).popSeg cpu (fun _ => id) .fs).popSeg cpu (fun _ => id) .gs
  have hseg : ∀ seg, seg = Function.update (Function.update (Function.update (Function.update
      s.seg .ds (c.ds.setWidth 16)) .es (c.es.setWidth 16)) .fs (c.fs.setWidth 16)) .gs
        (c.gs.setWidth 16) → seg = loaded s.seg c.gs c.fs c.es c.ds := by
    rintro seg rfl
    funext q
    cases q <;> rfl
  obtain ⟨t, hpop, hpassed⟩ : ∃ t, run cpu (fun _ => id) popInputs s = t.pop .ebp ∧
      Passed s t 4 (loaded s.seg c.gs c.fs c.es c.ds)
        [c.ebp, c.eip, c.cs, c.eflags, c.esp, c.ss] :=
    ⟨_, rfl, hsegs.top, hsegs.esp, hsegs.reg, hseg _ hsegs.seg, hsegs.rest⟩
  rw [hpop]
  refine ⟨hpassed.top.pop (by decide), ?_, hpassed.top.pop_self .ebp, fun r hsp hbp => ?_,
    hpassed.seg, hpassed.rest⟩
  · rw [X86.pop_esp t (by decide), hpassed.esp, slot_add_four]
  · rw [pop_reg_of_ne t hbp hsp]
    exact hpassed.reg r hsp

variable (cpu) in
/-- **BEFORE THE `iret`** its five words are on top, and all else is in place. -/
theorem procSwitchCode_spec (c : Context) (s : State Kernel) :
    ∃ t, run cpu (fun _ => id) (procSwitchCode c) s = t ∧
      Top t [c.eip, c.cs, c.eflags, c.esp, c.ss] ∧ slot (t.reg .esp) 5 = s.reg .esp ∧
      (∀ r, r ≠ .esp → t.reg r = c.reg r) ∧ t.seg = loaded s.seg c.gs c.fs c.es c.ds ∧
      t.rest = s.rest := by
  obtain ⟨hsp, hregs⟩ := loadInputs_reg cpu c s
  have hpush := pushInputs_spec cpu c (run cpu (fun _ => id) (loadInputs c) s)
  obtain ⟨htop, hesp, hebp, hkept, hseg, hrest⟩ := popInputs_spec cpu hpush.top
  refine ⟨_, rfl, ?_⟩
  have hcode : run cpu (fun _ => id) (procSwitchCode c) s = run cpu (fun _ => id) popInputs
      (run cpu (fun _ => id) (pushInputs c) (run cpu (fun _ => id) (loadInputs c) s)) := by
    unfold procSwitchCode run
    rw [List.foldl_append, List.foldl_append]
  have hloaded : (run cpu (fun _ => id) (loadInputs c) s).seg = s.seg ∧
      (run cpu (fun _ => id) (loadInputs c) s).rest = s.rest := ⟨rfl, rfl⟩
  rw [hcode]
  generalize run cpu (fun _ => id) (loadInputs c) s = t₁ at *
  generalize run cpu (fun _ => id) (pushInputs c) t₁ = t₂ at *
  generalize run cpu (fun _ => id) popInputs t₂ = t₃ at *
  refine ⟨htop, ?_, fun r hr => ?_, ?_, ?_⟩
  · have hback := hpush.esp
    rw [hesp, slot_slot, hback, hsp]
  · by_cases hbp : r = .ebp
    · subst hbp
      exact hebp
    · rw [hkept r hr hbp, hpush.reg r hr]
      exact hregs r hr hbp
  · rw [hseg, hpush.seg, hloaded.1]
  · rw [hrest, hpush.rest, hloaded.2]

/-- **TO USER MODE**: the new process has all registers of its context. -/
theorem procSwitch_outer {c : Context} (hc : ring (c.cs.setWidth 16) = 3)
    (hs : ring (s.seg .cs) = 0) :
    Enters c (procSwitch cpu c s) ∧ (procSwitch cpu c s).rest = s.rest := by
  obtain ⟨t, hrun, htop, -, hregs, hseg, hrest⟩ := procSwitchCode_spec cpu c s
  have hring : ring (c.cs.setWidth 16) ≠ ring (t.seg .cs) := by
    rw [hseg, hc]
    show (3 : BitVec 2) ≠ ring (s.seg .cs)
    rw [hs]
    decide
  unfold procSwitch
  rw [hrun, iret_outer htop hring]
  refine ⟨⟨?_, ?_, rfl, rfl⟩, hrest⟩
  · funext r
    by_cases hsp : r = .esp
    · subst hsp
      dsimp only
      rw [Function.update_self]
      rfl
    · exact (Function.update_of_ne hsp ..).trans (hregs r hsp)
  · funext q
    dsimp only
    rw [hseg]
    cases q <;> rfl

variable (cpu) in
/-- **IN THE KERNEL** it has all but the stack: two words of the `iret` stay on the
    one that is there. -/
theorem procSwitch_inner {c : Context} (hc : ring (c.cs.setWidth 16) = 0)
    (hs : ring (s.seg .cs) = 0) :
    (procSwitch cpu c s).eip = c.eip ∧ (procSwitch cpu c s).eflags = c.eflags ∧
    (∀ r, r ≠ .esp → (procSwitch cpu c s).reg r = c.reg r) ∧
    (procSwitch cpu c s).reg .esp = s.reg .esp - 8 ∧
    (procSwitch cpu c s).seg = Function.update c.seg .ss (s.seg .ss) := by
  obtain ⟨t, hrun, htop, hesp, hregs, hseg, -⟩ := procSwitchCode_spec cpu c s
  have hring : ring (c.cs.setWidth 16) = ring (t.seg .cs) := by
    rw [hseg, hc]
    exact hs.symm
  unfold procSwitch
  rw [hrun, iret_inner htop hring]
  refine ⟨rfl, rfl, fun r hr => ?_, ?_, ?_⟩
  · exact (Function.update_of_ne hr ..).trans (hregs r hr)
  · dsimp only
    rw [Function.update_self, ← hesp]
    show t.reg .esp + 12 = t.reg .esp + 20 - 8
    bv_omega
  · funext q
    dsimp only
    rw [hseg]
    cases q <;> rfl

/-- The switch itself changes none of the kernel's data. -/
theorem procSwitch_rest (c : Context) (s : State Kernel) :
    (procSwitch cpu c s).rest = s.rest := by
  obtain ⟨t, hrun, -, -, -, -, hrest⟩ := procSwitchCode_spec cpu c s
  unfold procSwitch
  rw [hrun, iret_rest, hrest]

end Switch

/-! ## What a step changes -/

/-- What is written when a process is made. -/
def ProcPcb.made (c : ProcPcb) : Context × Word × Word := (c.context, c.pgdir, c.kstack)

section Kept

variable {cpu : Cpu} {kernelTable : Frame} {s s' : State Kernel} {p : Word}

/-- A change of a process is seen at that process. -/
@[simp] theorem modify_self (k : Kernel) (pcb : Word) (f : ProcPcb → ProcPcb) :
    (k.modify pcb f).proc pcb = f (k.proc pcb) := Function.update_self ..

/-- A change of a process is not seen at another one. -/
@[simp] theorem modify_other (k : Kernel) {pcb u : Word} (h : u ≠ pcb)
    (f : ProcPcb → ProcPcb) : (k.modify pcb f).proc u = k.proc u := Function.update_of_ne h ..

/-- Processes are not page frames. -/
@[simp] theorem modify_mmu (k : Kernel) (pcb : Word) (f : ProcPcb → ProcPcb) :
    (k.modify pcb f).mmu = k.mmu := rfl

/-- A change that keeps what a process was made with keeps it for all. -/
theorem modify_made (k : Kernel) (pcb : Word) {f : ProcPcb → ProcPcb}
    (hf : ∀ c, (f c).made = c.made) (u : Word) :
    ((k.modify pcb f).proc u).made = (k.proc u).made := by
  by_cases h : u = pcb
  · subst h
    rw [modify_self]
    exact hf _
  · rw [modify_other k h]

/-- `k'` has the processes of `k` as they were made, and the same pages. -/
structure Keeps (k k' : Kernel) : Prop where
  made : ∀ u, (k'.proc u).made = (k.proc u).made
  mmu : k'.mmu = k.mmu

/-- Such a change keeps what all processes were made with. -/
theorem Keeps.modify {k k' : Kernel} (h : Keeps k k') (pcb : Word) {f : ProcPcb → ProcPcb}
    (hf : ∀ c, (f c).made = c.made) : Keeps k (k'.modify pcb f) :=
  ⟨fun u => (modify_made k' pcb hf u).trans (h.made u), h.mmu⟩

/-- The processor goes on in `next`, which has been read from `k`. -/
structure Switches (cpu : Cpu) (k : Kernel) (s s' : State Kernel) : Prop where
  entered : ∃ t : State Kernel, t.reg = s.reg ∧ t.seg = s.seg ∧
    s' = procSwitch cpu (k.proc s'.rest.curProc).context t
  cr3 : s'.rest.cr3 = (k.proc s'.rest.curProc).pgdir
  esp0 : s'.rest.esp0 = (k.proc s'.rest.curProc).kstack

/-- What is kept twice is kept. -/
theorem Keeps.trans {k k' k'' : Kernel} (h : Keeps k k') (h' : Keeps k' k'') : Keeps k k'' :=
  ⟨fun u => (h'.made u).trans (h.made u), h'.mmu.trans h.mmu⟩

/-- It can be read from an earlier state too. -/
theorem Switches.of_keeps {k k₁ : Kernel} {s₁ : State Kernel} (h : Switches cpu k₁ s₁ s')
    (hk : Keeps k k₁) (hreg : s₁.reg = s.reg) (hseg : s₁.seg = s.seg) : Switches cpu k s s' := by
  obtain ⟨⟨t, ht, ht', hs'⟩, hcr3, hesp0⟩ := h
  have hmade := hk.made s'.rest.curProc
  refine ⟨⟨t, ht.trans hreg, ht'.trans hseg, ?_⟩, hcr3.trans (congrArg (fun c => c.2.1) hmade),
    hesp0.trans (congrArg (fun c => c.2.2) hmade)⟩
  exact hs'.trans (congrArg (procSwitch cpu · t) (congrArg Prod.fst hmade))

/-- `proc_manager` when `next` has been picked. -/
def picked (k : Kernel) (next : Word) : Kernel :=
  let k' := ({ k with curProc := next }.modify next (fun c => { c with status := .running })).modify
    k.curProc (fun c => { c with ifsavedContext := .unsavedContext })
  updateTssEsp0 (switchPgdir k' (k'.proc next).pgdir) next

/-- Picking the next process keeps what all were made with. -/
theorem picked_keeps (k : Kernel) (next : Word) : Keeps k (picked k next) := by
  have hcur : Keeps k { k with curProc := next } := ⟨fun _ => rfl, rfl⟩
  have hboth := (hcur.modify next (f := fun c => { c with status := .running })
    fun _ => rfl).modify k.curProc
      (f := fun c => { c with ifsavedContext := .unsavedContext }) fun _ => rfl
  exact ⟨hboth.made, hboth.mmu⟩

/-- **A DISPATCH** writes no context, and switches to what is written there. -/
theorem procDispatch_spec (hs : procDispatch cpu s = some s') :
    Keeps s.rest s'.rest ∧
      (s'.rest.curProc ≠ s.rest.curProc → Switches cpu s.rest s s') := by
  unfold procDispatch at hs
  dsimp only at hs
  split at hs
  · exact nomatch hs
  · next next hnext =>
      split at hs
      · have hs' : s' = procSwitch cpu ((picked s.rest next).proc next).context
            { s with
              rest := picked s.rest next
              eflags := irqLeaveProtection s.rest.irqState s.eflags } :=
          (Option.some.inj hs).symm
        have hrest : s'.rest = picked s.rest next := by rw [hs', procSwitch_rest]
        have hkeeps := picked_keeps s.rest next
        have hcur : s'.rest.curProc = next := by rw [hrest]; rfl
        have hmade := hkeeps.made next
        refine ⟨hrest ▸ hkeeps, fun _ => ⟨⟨{ s with
          rest := picked s.rest next
          eflags := irqLeaveProtection s.rest.irqState s.eflags }, rfl, rfl, ?_⟩, ?_, ?_⟩⟩
        · rw [hcur]
          exact hs'.trans (congrArg (procSwitch cpu · _) (congrArg Prod.fst hmade))
        · rw [hcur, hrest]
          exact congrArg (fun c => c.2.1) hmade
        · rw [hcur, hrest]
          exact congrArg (fun c => c.2.2) hmade
      · split at hs
        · obtain rfl := Option.some.inj hs
          exact ⟨⟨fun _ => rfl, rfl⟩, fun hne => absurd rfl hne⟩
        · obtain rfl := Option.some.inj hs
          exact ⟨⟨fun _ => rfl, rfl⟩, fun hne => absurd rfl hne⟩

/-- **A TICK** likewise. -/
theorem procTimeTicks_spec (hs : procTimeTicks cpu s = some s') :
    Keeps s.rest s'.rest ∧
      (s'.rest.curProc ≠ s.rest.curProc → Switches cpu s.rest s s') := by
  have hcount : Keeps s.rest (s.rest.modify s.rest.curProc
      (fun c => { c with ticks := c.ticks - 1 })) :=
    Keeps.modify ⟨fun _ => rfl, rfl⟩ _ fun _ => rfl
  unfold procTimeTicks at hs
  dsimp only at hs
  split at hs
  · -- the slice has ended
    have hcur : (s.rest.modify s.rest.curProc
        (fun c => { c with ticks := c.ticks - 1 })).curProc = s.rest.curProc := rfl
    generalize s.rest.modify s.rest.curProc (fun c => { c with ticks := c.ticks - 1 }) = k₁
      at hs hcount hcur
    have hready : Keeps s.rest (procSetReady k₁ s.rest.curProc) := by
      have hlist : Keeps s.rest { k₁ with
          readyList := k₁.readyList.erase s.rest.curProc ++ [s.rest.curProc] } :=
        ⟨hcount.made, hcount.mmu⟩
      exact hlist.modify _ fun _ => rfl
    have hslice := hready.modify s.rest.curProc
      (f := fun c => { c with ticks := taskTicksDefault }) fun _ => rfl
    obtain ⟨hkeeps, hswitch⟩ := procDispatch_spec hs
    exact ⟨hslice.trans hkeeps, fun hne => (hswitch (hcur ▸ hne)).of_keeps hslice rfl rfl⟩
  · obtain rfl := Option.some.inj hs
    exact ⟨hcount, fun hne => absurd rfl hne⟩

end Kept

/-! ## A new process -/

section New

variable (kernelTable : Frame) (k : Kernel) (filename : Word) (name : CString)

/-- The pages of a new process: its own, its directory and its stack. -/
def newPage : Word := (kallocPages k.mmu.alloc 1).1

/-- The directory that `proc_init` takes. -/
def newDir : Word := (uallocPages (kallocPages k.mmu.alloc 1).2 1).1

/-- The stack that `proc_init` takes. -/
def newStack : Word := (uallocPages (uallocPages (kallocPages k.mmu.alloc 1).2 1).2 1).1

/-- What a user process starts with. -/
def userContext (eip stack : Word) : Context :=
  let ds := userSelectorDs.zeroExtend 32
  { edi := 0, esi := 0, ebp := 0, espDummy := 0, ebx := 0, edx := 0, ecx := 0, eax := 0
    gs := 0, fs := ds, es := ds, ds := ds, eip := eip, cs := userSelectorCs.zeroExtend 32
    eflags := eflagsIf ||| eflagsDefault, esp := stack + memPageSize, ss := ds }

/-- And the first process. -/
def kernelContext (eip stack : Word) : Context :=
  let ds := kernelSelectorDs.zeroExtend 32
  { edi := 0, esi := 0, ebp := 0, espDummy := 0, ebx := 0, edx := 0, ecx := 0, eax := 0
    gs := ds, fs := ds, es := ds, ds := ds, eip := eip, cs := kernelSelectorCs.zeroExtend 32
    eflags := eflagsIf ||| eflagsDefault, esp := stack + memPageSize, ss := ds }

/-- A kernel process starts with every register but `esp` zero. -/
theorem kernelContext_reg (eip stack : Word) {r : Reg} (h : r ≠ .esp) :
    (kernelContext eip stack).reg r = 0 := by
  cases r <;> first | contradiction | rfl

/-- Making a process leaves the others. -/
theorem procInit_other {u : Word} (h : u ≠ newPage k) :
    (procInit kernelTable k filename name).2.proc u = k.proc u := by
  unfold newPage at h
  simp [procInit, procStart, procSetReady, procSetGeneral, h]

/-- What `proc_init` makes a process with. -/
theorem procInit_made :
    ((procInit kernelTable k filename name).2.proc (newPage k)).made
      = (userContext (nameOver name filename) (newStack k), newDir k,
          newPage k + memPageSize - 1) := by
  simp [procInit, procStart, procSetReady, procSetGeneral, newPage, newStack, newDir,
    userContext, startContext, userProc, kernelProc, ProcPcb.made, createPageTable]

/-- Making a process frees no page. -/
theorem procInit_grows :
    Grows (kallocPages k.mmu.alloc 1).2 (procInit kernelTable k filename name).2.mmu.alloc := by
  have hualloc := fun a : AddrAlloc => uallocPages_grows a (Nat.le_refl 1)
  have hafter : (procInit kernelTable k filename name).2.mmu.alloc
      = (uallocPages (uallocPages (kallocPages k.mmu.alloc 1).2 1).2 1).2 := by
    simp [procInit, procStart, procSetReady, procSetGeneral, startContext, userProc,
      kernelProc, createPageTable]
  rw [hafter]
  exact (hualloc _).trans (hualloc _)

/-- What the main process is made with. -/
theorem taskInit_made (main : Word) :
    ((taskInit kernelTable k main).proc (newPage k)).made
      = (kernelContext main (kallocPages (kallocPages k.mmu.alloc 1).2 1).1,
          addrOf kernelTable, kernelStackSize) := by
  simp [taskInit, procStart, procSetReady, procSetGeneral, newPage, kernelContext,
    startContext, kernelProc, ProcPcb.made]

/-- Making the main process frees no page. -/
theorem taskInit_grows (main : Word) :
    Grows (kallocPages k.mmu.alloc 1).2 (taskInit kernelTable k main).mmu.alloc := by
  have hafter : (taskInit kernelTable k main).mmu.alloc
      = (kallocPages (kallocPages k.mmu.alloc 1).2 1).2 := by
    simp [taskInit, procStart, procSetReady, procSetGeneral, startContext, kernelProc]
  rw [hafter]
  exact kallocPages_grows _ (Nat.le_refl 1)

/-- A name of at most 20 bytes leaves the entry of the process as it was given. -/
theorem nameOver_of_fits {name : CString} (h : name.bytes.length ≤ taskNameLen) :
    nameOver name filename = filename := by
  have hbyte : ∀ j, name.bytes[taskNameLen + j]? = none := fun j =>
    List.getElem?_eq_none (by omega)
  simp only [nameOver, hbyte, Option.getD_none, byteOf]
  refine BitVec.eq_of_getLsbD_eq fun i hi => ?_
  simp only [BitVec.getLsbD_append, BitVec.getLsbD_setWidth, BitVec.getLsbD_ushiftRight]
  grind

end New

/-! ## Whole runs -/

/-- The process `p` is as it was made, and its page is not free. -/
structure Stays (p : Word) (made : Context × Word × Word) (k : Kernel) : Prop where
  made : (k.proc p).made = made
  range : ManagedRange k.mmu.alloc
  held : HeldFrame k.mmu.alloc (frameOf p)

section Runs

variable {cpu : Cpu} {kernelTable : Frame} {s t t' : State Kernel} {ls : List Label}

/-- A process is made in a free page. -/
theorem step_kept {l : Label} {p : Word} {made : Context × Word × Word} {s s' : State Kernel}
    (h : Stays p made s.rest) (hok : Holds l s) (hs : step cpu kernelTable l s = some s') :
    Stays p made s'.rest := by
  cases l with
  | exec r =>
      obtain rfl := Option.some.inj hs
      exact h
  | timeTicks =>
      obtain ⟨hkeeps, -⟩ := procTimeTicks_spec hs
      exact ⟨(hkeeps.made p).trans h.made, hkeeps.mmu ▸ h.range, hkeeps.mmu ▸ h.held⟩
  | procInit filename name =>
      obtain rfl := Option.some.inj hs
      have hgrows := (kallocPages_grows s.rest.mmu.alloc (Nat.le_refl 1)).trans
        (procInit_grows kernelTable s.rest filename name)
      have hne : p ≠ newPage s.rest := by
        rintro rfl
        exact (kallocPages_gives h.range hok.1).free h.held
      refine ⟨?_, h.range.of_sameRange hgrows.range, h.held.grows hgrows⟩
      exact (congrArg ProcPcb.made (procInit_other kernelTable s.rest filename name hne)).trans
        h.made

/-- **A TURN** begins with what was made, whatever has run since. -/
theorem turn_made {p dir kstack : Word} {c : Context} (h : Stays p (c, dir, kstack) s.rest)
    (hrun : Run (step cpu kernelTable) Holds s ls t)
    (hs : step cpu kernelTable .timeTicks t = some t') (hcur : t.rest.curProc ≠ p)
    (hturn : t'.rest.curProc = p) :
    (∃ r : State Kernel, r.reg = t.reg ∧ r.seg = t.seg ∧ t' = procSwitch cpu c r) ∧
    t'.rest.cr3 = dir ∧ t'.rest.esp0 = kstack := by
  have hstays : Stays p (c, dir, kstack) t.rest :=
    hrun.invariant (P := fun s => Stays p (c, dir, kstack) s.rest) h
      fun l s s' hp hok hs => step_kept hp hok hs
  obtain ⟨-, hswitch⟩ := procTimeTicks_spec hs
  obtain ⟨hentered, hcr3, hesp0⟩ := hswitch (by rw [hturn]; exact hcur.symm)
  rw [hturn] at hentered hcr3 hesp0
  obtain ⟨hctx, hdir, hkstack⟩ : (t.rest.proc p).context = c ∧ (t.rest.proc p).pgdir = dir ∧
      (t.rest.proc p).kstack = kstack := by
    have hmade := hstays.made
    simp only [ProcPcb.made, Prod.mk.injEq] at hmade
    exact hmade
  rw [hctx] at hentered
  exact ⟨hentered, hcr3.trans hdir, hesp0.trans hkstack⟩

/-- What a new process was made with stays: its page is given to no other. -/
theorem stays_new {k k' : Kernel} {made : Context × Word × Word}
    (hr : ManagedRange k.mmu.alloc) (hnew : newPage k ≠ 0)
    (hmade : (k'.proc (newPage k)).made = made)
    (hgrows : Grows (kallocPages k.mmu.alloc 1).2 k'.mmu.alloc) : Stays (newPage k) made k' := by
  have hpage := kallocPages_grows k.mmu.alloc (Nat.le_refl 1)
  have hheld : HeldFrame (kallocPages k.mmu.alloc 1).2 (frameOf (newPage k)) :=
    (kallocPages_gives hr hnew).held
  exact ⟨hmade, hr.of_sameRange (hpage.trans hgrows).range, hheld.grows hgrows⟩

/-- **EVERY TURN** of a process is its first: nothing saves a context, so each time
    it is given the processor it begins at its entry with empty registers on an empty
    stack, with its directory and its kernel stack. -/
theorem proc_starts_over {filename : Word} {name : CString}
    (hr : ManagedRange s.rest.mmu.alloc) (hnew : Holds (.procInit filename name) s)
    (hrun : Run (step cpu kernelTable) Holds
      { s with rest := (procInit kernelTable s.rest filename name).2 } ls t)
    (htick : Holds .timeTicks t) (hs : step cpu kernelTable .timeTicks t = some t')
    (hcur : t.rest.curProc ≠ newPage s.rest) (hturn : t'.rest.curProc = newPage s.rest) :
    Enters (userContext (nameOver name filename) (newStack s.rest)) t' ∧
    t'.rest.cr3 = newDir s.rest ∧ t'.rest.esp0 = newPage s.rest + memPageSize - 1 ∧
    (name.bytes.length ≤ taskNameLen → nameOver name filename = filename) := by
  have hstays := stays_new hr hnew.1 (procInit_made kernelTable s.rest filename name)
    (procInit_grows kernelTable s.rest filename name)
  obtain ⟨⟨r, -, hseg, rfl⟩, hcr3, hesp0⟩ := turn_made hstays hrun hs hcur hturn
  have hring : ring (r.seg .cs) = 0 := by
    rw [hseg]
    exact htick
  have huser : ring ((userContext (nameOver name filename)
      (newStack s.rest)).cs.setWidth 16) = 3 := by
    show ring (((userSelectorCs).zeroExtend 32).setWidth 16) = 3
    decide
  exact ⟨(procSwitch_outer huser hring).1, hcr3, hesp0, nameOver_of_fits filename⟩

/-- **NOR THE FIRST PROCESS** goes on where it was: it begins with `main` again, and
    on the stack of the one that it takes the processor from.  Its own is not used. -/
theorem main_starts_over {main : Word} (hr : ManagedRange s.rest.mmu.alloc)
    (hnew : newPage s.rest ≠ 0)
    (hrun : Run (step cpu kernelTable) Holds
      { s with rest := taskInit kernelTable s.rest main } ls t)
    (htick : Holds .timeTicks t) (hs : step cpu kernelTable .timeTicks t = some t')
    (hcur : t.rest.curProc ≠ newPage s.rest) (hturn : t'.rest.curProc = newPage s.rest) :
    t'.eip = main ∧ ring (t'.seg .cs) = 0 ∧ t'.eflags = eflagsIf ||| eflagsDefault ∧
    (∀ r, r ≠ .esp → t'.reg r = 0) ∧ t'.reg .esp = t.reg .esp - 8 ∧
    t'.seg .ss = t.seg .ss ∧ t'.rest.cr3 = addrOf kernelTable := by
  have hstays := stays_new hr hnew (taskInit_made kernelTable s.rest main)
    (taskInit_grows kernelTable s.rest main)
  obtain ⟨⟨r, hreg, hseg, rfl⟩, hcr3, -⟩ := turn_made hstays hrun hs hcur hturn
  have hring : ring (r.seg .cs) = 0 := by
    rw [hseg]
    exact htick
  have hkernel : ring ((kernelContext main
      (kallocPages (kallocPages s.rest.mmu.alloc 1).2 1).1).cs.setWidth 16) = 0 := by
    show ring ((kernelSelectorCs.zeroExtend 32).setWidth 16) = 0
    decide
  obtain ⟨heip, hflags, hregs, hesp, hsegs⟩ := procSwitch_inner cpu hkernel hring
  refine ⟨heip, ?_, hflags, fun q hq => ?_, ?_, ?_, hcr3⟩
  · rw [hsegs, Function.update_of_ne (by decide)]
    exact hkernel
  · rw [hregs q hq, kernelContext_reg _ _ hq]
  · rw [hesp, hreg]
  · rw [hsegs, hseg]
    rfl

end Runs

/-! ## Two processes -/

/-- The pages from 1 MB on are free. -/
def booted : Kernel where
  mmu := ⟨fun _ _ => 0, memoryInit (fun _ => 0) 0x1000000⟩
  proc := fun _ => ⟨0, 0, 0, 0, .ready, 0, 0, 0, 0, .unsavedContext, 0,
    kernelContext 0 0, 0⟩
  curProc := 0
  generalList := []
  readyList := []
  irqState := .on
  globalPid := 0
  esp0 := 0
  cr3 := 0x20000

/-- A pushed selector leaves the upper half of the word. -/
def halfCpu : Cpu where
  addFlags := fun _ _ flags => flags
  widen := fun sel old => old.extractLsb' 16 16 ++ sel
  widen_low := fun _ _ => BitVec.setWidth_append_eq_right

/-- In the kernel, the stack at 0x8000. -/
def atKernel (k : Kernel) : State Kernel where
  reg := Function.update (fun _ => 0) .esp 0x8000
  seg := fun _ => kernelSelectorDs
  eip := 0
  eflags := 0
  mem := fun _ => 0
  rest := k

private theorem booted_range : ManagedRange (atKernel booted).rest.mmu.alloc :=
  (KernelBoot.memoryInit_range _ (by decide)).1

/-- The state after the main process was made. -/
def afterInit : State Kernel :=
  { atKernel booted with rest := taskInit 0x20 (atKernel booted).rest 0x10000 }

private theorem afterInit_range : ManagedRange afterInit.rest.mmu.alloc :=
  booted_range.of_sameRange (((kallocPages_grows _ (Nat.le_refl 1)).trans
    (taskInit_grows 0x20 _ 0x10000)).range)

/-- An empty name. -/
def noName : CString := ⟨[], by simp⟩

/-- The second process, without a name. -/
def madeSecond : State Kernel :=
  { afterInit with rest := (procInit 0x20 afterInit.rest 0x12000 noName).2 }

private theorem holds_second : Holds (.procInit 0x12000 noName) afterInit := by decide +kernel

private theorem firstSlice_isSome :
    (exec (step halfCpu 0x20) Holds (List.replicate 4 .timeTicks) madeSecond).isSome = true := by
  decide +kernel

/-- The first process has one tick left. -/
def lastTick : State Kernel :=
  (exec (step halfCpu 0x20) Holds (List.replicate 4 .timeTicks) madeSecond).get
    firstSlice_isSome

private theorem run_lastTick :
    Run (step halfCpu 0x20) Holds madeSecond (List.replicate 4 .timeTicks) lastTick :=
  Run.of_isSome firstSlice_isSome

private theorem holds_lastTick : Holds .timeTicks lastTick := by decide +kernel

private theorem switch_isSome : (step halfCpu 0x20 .timeTicks lastTick).isSome = true := by
  decide +kernel

/-- The first turn of the second process. -/
def atSecond : State Kernel := (step halfCpu 0x20 .timeTicks lastTick).get switch_isSome

private theorem switch_atSecond : step halfCpu 0x20 .timeTicks lastTick = some atSecond :=
  (Option.some_get switch_isSome).symm

/-- The second process is at its entry, and its stack ends at 0x202000. -/
theorem proc_starts_over_second : atSecond.eip = 0x12000 ∧ atSecond.reg .esp = 0x202000 := by
  have hstart := proc_starts_over afterInit_range holds_second run_lastTick holds_lastTick
    switch_atSecond (by decide +kernel) (by decide +kernel)
  refine ⟨hstart.1.eip.trans (hstart.2.2.2 (by decide)), ?_⟩
  rw [hstart.1.reg]
  decide +kernel

/-- An interrupt of the second process, on its kernel stack. -/
def ticked : State Unit :=
  { atKernel booted with
    reg := Function.update (fun _ => 7) .esp 0x102fe0
    eip := 0x12010
    rest := () }

/-- The slices of both, up to the last tick. -/
def secondSlice : List Label :=
  .procInit 0x12000 noName :: List.replicate 5 .timeTicks ++ [.exec ticked] ++
    List.replicate 4 .timeTicks

private theorem secondSlice_isSome :
    (exec (step halfCpu 0x20) Holds secondSlice afterInit).isSome = true := by
  decide +kernel

/-- The second process has one tick left. -/
def secondEnd : State Kernel :=
  (exec (step halfCpu 0x20) Holds secondSlice afterInit).get secondSlice_isSome

private theorem run_secondEnd : Run (step halfCpu 0x20) Holds afterInit secondSlice secondEnd :=
  Run.of_isSome secondSlice_isSome

private theorem holds_secondEnd : Holds .timeTicks secondEnd := by decide +kernel

private theorem back_isSome : (step halfCpu 0x20 .timeTicks secondEnd).isSome = true := by
  decide +kernel

/-- The next turn of the main process. -/
def atFirst : State Kernel := (step halfCpu 0x20 .timeTicks secondEnd).get back_isSome

private theorem back_atFirst : step halfCpu 0x20 .timeTicks secondEnd = some atFirst :=
  (Option.some_get back_isSome).symm

/-- `main` begins again, where the stack of the second process is. -/
theorem main_starts_over_first : atFirst.eip = 0x10000 ∧ ring (atFirst.seg .cs) = 0 ∧
    atFirst.reg .esp = 0x102fd8 := by
  have hstart := main_starts_over (s := atKernel booted) booted_range (by decide +kernel)
    run_secondEnd holds_secondEnd back_atFirst (by decide +kernel) (by decide +kernel)
  refine ⟨hstart.1, hstart.2.1, ?_⟩
  rw [hstart.2.2.2.2.1]
  decide +kernel

end LittleOS.ProcSwitch
