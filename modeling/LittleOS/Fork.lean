import LittleOS.SyscallEntry
import LittleOS.TssTasks

/-! # Fork

    `sys_fork` of `syscall.c` behind `syscall_handler`.  It fills the TSS of a
    new task from the frame; the parent goes on with what the pops and the
    `iret` take from the same words.  The kernel stack is a memory of its own,
    apart from what the function writes elsewhere; of the stack it may change
    all but the words of its callers.

    * `resumed_context` — the parent goes on where it was, with the pid of the
      child in `eax`;
    * `childContext` — what the child starts with.  Its `esp` is the one that
      `pusha` saved, 28 bytes below the `esp0` of the parent, and its `ss` is
      the one of `init_tss`: the frame ends below the two words of the user's
      stack;
    * `equivalent_iff` — so the two differ unless the user's own stack pointer
      happens to be that of the kernel. -/

namespace LittleOS.Fork

open X86 SyscallEntry TssTasks
open Gdt (kernelSelectorCs userSelectorDs)
open Memory (kallocPages)
open PageTable (Frame)
open SchedMachine (IrqStatus)
open TssInit (Tss eflagsIf)

/-- A `uint32_t`. -/
abbrev Word := BitVec 32

/-- `get_irq_status` -/
def getIrqStatus (eflags : Word) : IrqStatus :=
  if eflagsIf &&& eflags ≠ 0 then .on else .off

section Source

variable (kernelTable : Frame)

/-- With the `eflags` that `irq_enter_protection` looks at. -/
def sysFork (eflags : Word) (k : Kernel) (sysFrame : SyscallFrame) : Word × Kernel :=
  let cur := k.curTask
  let r := initTask kernelTable k sysFrame.eip
  let newTask := r.1
  let k := { r.2 with irqState := getIrqStatus eflags }
  let k := k.modify newTask (fun c => { c with
    tss := { c.tss with
      gs := sysFrame.gs
      fs := sysFrame.fs
      es := sysFrame.es
      ds := sysFrame.ds
      edi := sysFrame.edi
      esi := sysFrame.esi
      ebp := sysFrame.ebp
      esp := sysFrame.esp
      ebx := sysFrame.ebx
      edx := sysFrame.edx
      ecx := sysFrame.ecx
      eip := sysFrame.eip
      cs := sysFrame.cs
      eflags := sysFrame.eflags } })
  let k := k.modify newTask (fun c => { c with parent := cur })
  let k := k.modify newTask (fun c => { c with ifkernel := (k.task cur).ifkernel })
  let k := k.modify newTask (fun c => { c with tss := { c.tss with eax := 0 } })
  ((k.task newTask).pid, k)

/-- What a call leaves in what is not its callers'. -/
structure Leftover where
  ecx : Word
  edx : Word
  eflags : Word
  mem : Word → Word

/-- The words of the callers: the argument, the frame, and the user's `esp` and
    `ss` above it. -/
def callersWords (s : State Kernel) : List Word :=
  (List.range' 1 23).map (slot (s.reg .esp))

/-- `sys_fork` as it is called. -/
def sysForkCall (l : Leftover) (s : State Kernel) : State Kernel :=
  let r := sysFork kernelTable s.eflags s.rest (argFrame s)
  { s with
    reg := fun q => match q with
      | .eax => r.1
      | .ecx => l.ecx
      | .edx => l.edx
      | q => s.reg q
    eflags := l.eflags
    mem := fun a => if a ∈ callersWords s then s.mem a else l.mem a
    rest := r.2 }

/-- The gate of `int 0x80`, with the stack in the TSS of the current task. -/
def gate (syscallHandler : Word) (k : Kernel) : Gate where
  cs := kernelSelectorCs
  offset := syscallHandler
  ss0 := (k.task k.curTask).tss.ss0.setWidth 16
  esp0 := (k.task k.curTask).tss.esp0

end Source

/-! ## Contexts -/

/-- The registers of a user program. -/
structure Context where
  eip : Word
  eflags : Word
  reg : Reg → Word
  seg : Seg → BitVec 16

/-- The context a state runs in. -/
def contextOf {κ : Type*} (s : State κ) : Context := ⟨s.eip, s.eflags, s.reg, s.seg⟩

/-- The context a TSS is loaded with. -/
def Context.ofTss (t : Tss) : Context where
  eip := t.eip
  eflags := t.eflags
  reg := fun r => match r with
    | .eax => t.eax
    | .ecx => t.ecx
    | .edx => t.edx
    | .ebx => t.ebx
    | .esp => t.esp
    | .ebp => t.ebp
    | .esi => t.esi
    | .edi => t.edi
  seg := fun q => match q with
    | .es => t.es.setWidth 16
    | .cs => t.cs.setWidth 16
    | .ss => t.ss.setWidth 16
    | .ds => t.ds.setWidth 16
    | .fs => t.fs.setWidth 16
    | .gs => t.gs.setWidth 16

/-- The context with another `eax`. -/
def Context.withEax (c : Context) (v : Word) : Context :=
  { c with reg := Function.update c.reg .eax v }

/-- The registers saved are those of the task. -/
theorem contextOf_reg {κ : Type*} (s : State κ) : (contextOf s).reg = s.reg := rfl

/-- The result comes in `eax`. -/
theorem withEax_eax (c : Context) (v : Word) : (c.withEax v).reg .eax = v := by
  unfold Context.withEax
  dsimp only
  rw [Function.update_self]

/-- In ring 3. -/
def UserMode {κ : Type*} (s : State κ) : Prop := ring (s.seg .cs) = 3

instance {κ : Type*} (s : State κ) : Decidable (UserMode s) :=
  inferInstanceAs (Decidable (_ = _))

section System

variable (cpu : Cpu) (callee : Word → State Kernel → State Kernel)
  (syscallTable next handler : Word)

/-- The state at the first instruction of `syscall_handler`. -/
def trapped (s : State Kernel) : State Kernel := interrupt cpu (gate handler s.rest) s

/-- The state behind its `iret`. -/
def resumed (s : State Kernel) : State Kernel :=
  iret (run cpu callee (syscallHandler syscallTable next) (trapped cpu handler s))

/-- The task that a fork makes. -/
def childOf (k k' : Kernel) : Task := k'.task (kallocPages k.mmu.alloc 1).1

/-- The child is described by the context of its parent but for `eax`. -/
structure Equivalent (child : Task) (parent : State Kernel) : Prop where
  context : Context.ofTss child.tss = (contextOf parent).withEax 0
  pid : parent.reg .eax = child.pid

variable {cpu callee syscallTable next handler} {kernelTable : Frame} {l : Leftover}
  {s : State Kernel}

/-- The call of `sys_fork` keeps the calling convention. -/
theorem sysForkCall_cdecl (s : State Kernel) : Cdecl 23 s (sysForkCall kernelTable l s) where
  reg := by
    intro r hr
    simp only [calleeSaved, List.mem_cons, List.not_mem_nil, or_false] at hr
    rcases hr with rfl | rfl | rfl | rfl | rfl <;> rfl
  seg := rfl
  mem := by
    intro i h1 hi
    have hmem : slot (s.reg .esp) i ∈ callersWords s :=
      List.mem_map_of_mem (List.mem_range'_1.mpr ⟨h1, by omega⟩)
    exact if_pos hmem

/-- What the child gets from the frame, and its pid from `init_task`. -/
theorem sysFork_child (eflags : Word) (k : Kernel) (f : SyscallFrame) :
    Context.ofTss (childOf k (sysFork kernelTable eflags k f).2).tss = {
      eip := f.eip
      eflags := f.eflags
      reg := fun r => match r with
        | .eax => 0
        | .ecx => f.ecx
        | .edx => f.edx
        | .ebx => f.ebx
        | .esp => f.esp
        | .ebp => f.ebp
        | .esi => f.esi
        | .edi => f.edi
      seg := fun q => match q with
        | .es => f.es.setWidth 16
        | .cs => f.cs.setWidth 16
        | .ss => userSelectorDs
        | .ds => f.ds.setWidth 16
        | .fs => f.fs.setWidth 16
        | .gs => f.gs.setWidth 16 } ∧
      (childOf k (sysFork kernelTable eflags k f).2).pid
        = (sysFork kernelTable eflags k f).1 := by
  have hss := (initTask_task kernelTable k f.eip).2.2.2.2
  have hchild : childOf k (sysFork kernelTable eflags k f).2
      = (sysFork kernelTable eflags k f).2.task (initTask kernelTable k f.eip).1 := rfl
  rw [hchild]
  refine ⟨?_, rfl⟩
  simp only [sysFork, modify_self, Context.ofTss, hss]
  rfl

/-- From ring 3 the gate leads to another ring. -/
theorem UserMode.ring_ne (hu : UserMode s) : ring (s.seg .cs) ≠ ring kernelSelectorCs := by
  rw [hu]
  decide

variable (cpu handler) in
/-- The words that the processor pushes. -/
theorem trapped_top (hu : UserMode s) :
    ∃ c w : Word, c.setWidth 16 = s.seg .cs ∧ w.setWidth 16 = s.seg .ss ∧
      Top (trapped cpu handler s) [s.eip, c, s.eflags, s.reg .esp, w] ∧
      (trapped cpu handler s).reg .esp
        = (s.rest.task s.rest.curTask).tss.esp0 - 20 :=
  interrupt_top cpu (g := gate handler s.rest) hu.ring_ne

variable (next) in
/-- **THE PARENT** goes on where it was, with the answer of `sys_fork` in `eax`.
    The frame shows its registers at the trap. -/
theorem resumed_context (hu : UserMode s)
    (hfork : callee ((atCall cpu callee syscallTable (trapped cpu handler s)).reg .eax)
      = sysForkCall kernelTable l) :
    ∃ (f : SyscallFrame) (eflags : Word), Shows f (trapped cpu handler s) ∧
      f.eip = s.eip ∧ f.cs.setWidth 16 = s.seg .cs ∧ f.eflags = s.eflags ∧
      contextOf (resumed cpu callee syscallTable next handler s)
        = (contextOf s).withEax (sysFork kernelTable eflags s.rest f).1 ∧
      (resumed cpu callee syscallTable next handler s).rest
        = (sysFork kernelTable eflags s.rest f).2 := by
  obtain ⟨c, w, hc, hw, htop, -⟩ := trapped_top cpu handler hu
  obtain ⟨f, harg, hf, hip, hcs, hfl, -, -, -, hrest⟩ :=
    entry_spec cpu callee syscallTable next htop (by simp)
  obtain ⟨hend, hreg, hseg, hlast⟩ := syscallHandler_spec cpu callee syscallTable next htop
    (by simp) (congrFun hfork _) (sysForkCall_cdecl _).returns
  -- the function reads the frame and the state of the kernel before the trap
  obtain ⟨e, he⟩ : ∃ e, atEntry cpu callee syscallTable next (trapped cpu handler s) = e :=
    ⟨_, rfl⟩
  have hkernel : e.rest = s.rest := by
    rw [← he, hrest]
    exact interrupt_rest ..
  have hcall : ((sysForkCall kernelTable l e).reg .eax, (sysForkCall kernelTable l e).rest)
      = sysFork kernelTable e.eflags s.rest f := by
    rw [← hkernel, ← harg, he]
    rfl
  have hpid := congrArg Prod.fst hcall
  have hkernel' := congrArg Prod.snd hcall
  dsimp only at hpid hkernel'
  obtain ⟨u, hu'⟩ : ∃ u, run cpu callee (syscallHandler syscallTable next)
      (trapped cpu handler s) = u := ⟨_, rfl⟩
  rw [hu'] at hend hseg
  rw [he, hu', hpid] at hreg
  rw [he, hu', hkernel'] at hlast
  -- `iret` goes back to another ring, so it takes `esp` and `ss` too
  have hcs' : ring (c.setWidth 16) ≠ ring (u.seg .cs) := by
    rw [hseg, hc]
    exact (interrupt_cs cpu (gate handler s.rest) s) ▸ hu.ring_ne
  unfold resumed
  rw [hu', iret_outer hend hcs']
  refine ⟨f, e.eflags, hf, hip, hcs ▸ hc, hfl, ?_, hlast⟩
  have hregs : Function.update u.reg .esp (s.reg .esp)
      = Function.update s.reg .eax (sysFork kernelTable e.eflags s.rest f).1 := by
    rw [hreg]
    funext r
    by_cases hr : r = .esp
    · subst hr
      simp
    · rw [Function.update_of_ne hr]
      by_cases ha : r = .eax
      · subst ha
        simp
      · rw [Function.update_of_ne ha, Function.update_of_ne ha]
        exact interrupt_reg _ _ _ hr
  have hsegs : Function.update (Function.update u.seg .ss (w.setWidth 16)) .cs
      (c.setWidth 16) = s.seg := by
    rw [hseg, hc, hw]
    funext q
    by_cases hq : q = .cs
    · subst hq
      simp
    · rw [Function.update_of_ne hq]
      by_cases hs : q = .ss
      · subst hs
        simp
      · rw [Function.update_of_ne hs]
        exact interrupt_seg _ _ _ hq hs
  unfold contextOf Context.withEax
  rw [hregs, hsegs]

/-- **THE CHILD** starts with the kernel's `esp` before `pusha` and the `ss` of
    `init_tss`, and with its parent's registers otherwise. -/
theorem childContext (hu : UserMode s)
    (hfork : callee ((atCall cpu callee syscallTable (trapped cpu handler s)).reg .eax)
      = sysForkCall kernelTable l) :
    Context.ofTss (childOf s.rest
        (resumed cpu callee syscallTable next handler s).rest).tss = {
      eip := s.eip
      eflags := s.eflags
      reg := Function.update (Function.update s.reg .eax 0) .esp
        ((s.rest.task s.rest.curTask).tss.esp0 - 28)
      seg := Function.update s.seg .ss userSelectorDs } := by
  obtain ⟨f, eflags, hf, hip, hcs, hfl, -, hrest⟩ :=
    resumed_context next hu hfork
  obtain ⟨c, w, -, -, -, hesp⟩ := trapped_top cpu handler hu
  have hreg : ∀ r, r ≠ .esp → (trapped cpu handler s).reg r = s.reg r :=
    fun r hr => interrupt_reg _ _ _ hr
  have hseg : ∀ q, q ≠ .cs → q ≠ .ss → (trapped cpu handler s).seg q = s.seg q :=
    fun q hq hs => interrupt_seg _ _ _ hq hs
  rw [hrest, (sysFork_child eflags s.rest f).1, hip, hfl, Context.mk.injEq]
  refine ⟨rfl, rfl, ?_, ?_⟩
  -- all from the frame but `eax`; its `esp` is what `pusha` saved
  · funext r
    cases r with
    | eax => rfl
    | ecx => exact hf.ecx.trans (hreg .ecx (by decide))
    | edx => exact hf.edx.trans (hreg .edx (by decide))
    | ebx => exact hf.ebx.trans (hreg .ebx (by decide))
    | esp =>
        rw [Function.update_self]
        show f.esp = _
        rw [hf.esp, hesp]
        bv_omega
    | ebp => exact hf.ebp.trans (hreg .ebp (by decide))
    | esi => exact hf.esi.trans (hreg .esi (by decide))
    | edi => exact hf.edi.trans (hreg .edi (by decide))
  · funext q
    cases q with
    | es => exact hf.es.trans (hseg .es (by decide) (by decide))
    | cs => exact hcs
    | ss => rfl
    | ds => exact hf.ds.trans (hseg .ds (by decide) (by decide))
    | fs => exact hf.fs.trans (hseg .fs (by decide) (by decide))
    | gs => exact hf.gs.trans (hseg .gs (by decide) (by decide))

/-- The parent's `eax` is the pid that `init_task` gave. -/
theorem resumed_eax (hu : UserMode s)
    (hfork : callee ((atCall cpu callee syscallTable (trapped cpu handler s)).reg .eax)
      = sysForkCall kernelTable l) :
    (resumed cpu callee syscallTable next handler s).reg .eax
      = (childOf s.rest (resumed cpu callee syscallTable next handler s).rest).pid := by
  obtain ⟨f, eflags, -, -, -, -, hcontext, hrest⟩ := resumed_context next hu hfork
  rw [hrest, (sysFork_child eflags s.rest f).2]
  have hreg := congrFun (congrArg Context.reg hcontext) .eax
  rw [contextOf_reg, withEax_eax] at hreg
  exact hreg

/-- Two words decide: the user's `esp` and its `ss`. -/
theorem context_iff (hu : UserMode s)
    (hfork : callee ((atCall cpu callee syscallTable (trapped cpu handler s)).reg .eax)
      = sysForkCall kernelTable l) :
    Context.ofTss (childOf s.rest (resumed cpu callee syscallTable next handler s).rest).tss
        = (contextOf (resumed cpu callee syscallTable next handler s)).withEax 0 ↔
      s.reg .esp = (s.rest.task s.rest.curTask).tss.esp0 - 28 ∧
        s.seg .ss = userSelectorDs := by
  obtain ⟨f, eflags, -, -, -, -, hcontext, -⟩ := resumed_context next hu hfork
  have hparent : (contextOf (resumed cpu callee syscallTable next handler s)).withEax 0
      = ⟨s.eip, s.eflags, Function.update s.reg .eax 0, s.seg⟩ := by
    rw [hcontext]
    unfold Context.withEax
    dsimp only
    rw [Function.update_idem]
    rfl
  rw [childContext hu hfork, hparent, Context.mk.injEq, Function.update_eq_self_iff,
    Function.update_eq_self_iff, Function.update_of_ne (by decide)]
  constructor
  · rintro ⟨-, -, hesp, hss⟩
    exact ⟨hesp.symm, hss.symm⟩
  · rintro ⟨hesp, hss⟩
    exact ⟨rfl, rfl, hesp.symm, hss.symm⟩

end System

/-! ## A program that forks -/

/-- Selectors are pushed with zeros; the flags of an addition stay. -/
def plainCpu : Cpu where
  addFlags := fun eflags _ _ => eflags
  widen := fun sel _ => sel.setWidth 32
  widen_low := fun sel _ => BitVec.setWidth_setWidth_of_le sel (by decide)

/-- Process 1, whose kernel stack ends at `0x102000`. -/
def firstTask : Task where
  status := .running
  tss := { Tss.zero with esp0 := 0x102000, ss0 := 0x10 }
  tssSel := 24
  ifkernel := userProc
  parent := 0
  pid := 1
  ticks := 5
  defaultTicks := 5

/-- It waits in `int 0x80` with the number of fork, its stack at `esp`. -/
def forking (esp : Word) : State Kernel where
  reg := fun r => match r with
    | .eax => 3
    | .esp => esp
    | _ => 0
  seg := fun q => match q with
    | .cs => Gdt.userSelectorCs
    | _ => userSelectorDs
  eip := 0x400000
  eflags := 0x202
  mem := fun a => if a = 0x2000C then 0x11000 else 0
  rest :=
    { gdtTable := Gdt.gdtInit (fun _ => ⟨0, 0, 0, 0, 0⟩)
      mmu := ⟨fun _ _ => 0, Memory.memoryInit (fun _ => 0) 0x1000000⟩
      task := fun _ => firstTask
      curTask := 0x100000
      generalList := [0x100000]
      readyList := [0x100000]
      globalPid := 1
      irqState := .off }

/-- `sys_fork` is at `0x11000`. -/
def functions (a : Word) : State Kernel → State Kernel :=
  if a = 0x11000 then sysForkCall 0x20 ⟨0, 0, 0, fun _ => 0⟩ else id

/-- The table's entry for `fork` is the call. -/
theorem functions_fork (esp : Word)
    (h : (atCall plainCpu functions 0x20000 (trapped plainCpu 0x10100 (forking esp))).reg .eax
      = 0x11000) :
    functions ((atCall plainCpu functions 0x20000
        (trapped plainCpu 0x10100 (forking esp))).reg .eax)
      = sysForkCall 0x20 ⟨0, 0, 0, fun _ => 0⟩ := by
  rw [h]
  exact if_pos rfl

/-- **FORK**: parent and child go on alike exactly if the user's `esp` is that of
    the kernel at `pusha`, and its `ss` the one `init_tss` sets. -/
theorem equivalent_iff (cpu : Cpu) (callee : Word → State Kernel → State Kernel)
    (syscallTable next handler : Word) (kernelTable : Frame) (l : Leftover)
    (s : State Kernel) (hu : UserMode s)
    (hfork : callee ((atCall cpu callee syscallTable (trapped cpu handler s)).reg .eax)
      = sysForkCall kernelTable l) :
    Equivalent (childOf s.rest (resumed cpu callee syscallTable next handler s).rest)
        (resumed cpu callee syscallTable next handler s) ↔
      s.reg .esp = (s.rest.task s.rest.curTask).tss.esp0 - 28 ∧
        s.seg .ss = userSelectorDs := by
  rw [← context_iff hu hfork]
  constructor
  · exact Equivalent.context
  · intro hcontext
    exact ⟨hcontext, resumed_eax hu hfork⟩

/-- With the stack where the kernel's happens to be, they go on alike. -/
theorem equivalent_at_kernel_stack :
    Equivalent (childOf (forking 0x101FE4).rest
        (resumed plainCpu functions 0x20000 0x10180 0x10100 (forking 0x101FE4)).rest)
      (resumed plainCpu functions 0x20000 0x10180 0x10100 (forking 0x101FE4)) :=
  (equivalent_iff plainCpu functions 0x20000 0x10180 0x10100 0x20 ⟨0, 0, 0, fun _ => 0⟩
    (forking 0x101FE4) (by decide) (functions_fork _ (by decide +kernel))).mpr
    ⟨by decide, by decide⟩

/-- With a stack at 3 MB the child goes on with the stack of the kernel. -/
theorem child_on_kernel_stack :
    ¬ Equivalent (childOf (forking 0x300000).rest
        (resumed plainCpu functions 0x20000 0x10180 0x10100 (forking 0x300000)).rest)
      (resumed plainCpu functions 0x20000 0x10180 0x10100 (forking 0x300000)) := by
  intro h
  have hesp := ((context_iff (by decide) (functions_fork _ (by decide +kernel))).mp
    h.context).1
  exact absurd hesp (by decide)

end LittleOS.Fork
