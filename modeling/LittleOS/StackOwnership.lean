import LittleOS.Fork
import LittleOS.Lib.Runs

/-! # The stacks of tasks

    `tss_task_init`, `init_task` and `sys_fork` one after another.  Every call
    takes a page for the `task_t`, one for the kernel stack and one for the
    stack of `init_tss`, and a user task one for its directory.  A stack grows
    down from where it starts, and it starts where its page does.

    * `kallocPages_lowest` — no page below a new one is free;
    * `not_growsInto` — so what is below a kernel stack is not its task's;
    * `stacksOwned_iff` — no run but the empty one has its stacks to itself. -/

namespace LittleOS.StackOwnership

open Intervals Memory Runs TssTasks
open Fork (sysFork)
open PageTable (Frame createPageTable)
open SyscallEntry (SyscallFrame)

/-- A `uint32_t`. -/
abbrev Word := BitVec 32

/-! ## A free page -/

/-- Nothing below a page that was handed out was free. -/
theorem kallocPages_lowest {m : AddrAlloc} (h : (kallocPages m 1).1 ≠ 0) :
    ∃ i < 1023, kallocPages m 1 = (pageAddr m i, marking m i 1) ∧
      ∀ p < i, Marked m p := by
  rcases kallocPages_spec m (Nat.le_refl 1) with he | ⟨i, hfit, he⟩
  · rw [he] at h
    exact absurd rfl h
  · rw [he] at h
    by_cases hi : 1023 ≤ i
    · exact absurd (if_pos hi) h
    · refine ⟨i, Nat.lt_of_not_le hi, ?_, fun p hp => ?_⟩
      · rw [he, if_neg hi]
      · by_contra hfree
        refine hfit.first p (Nat.zero_le p) hp fun q hq _ => ?_
        have h1 := hq.1
        have h2 := hq.2
        obtain rfl : q = p := by
          dsimp only at h1 h2
          omega
        exact hfree

/-! ## The calls -/

/-- The calls that make a task. -/
inductive Call where
  | tssTaskInit
  | initTask (entry : Word)
  | sysFork (eflags : Word) (sysFrame : SyscallFrame)

/-- The pages of a task. -/
structure Pages where
  task : Word
  kernelStack : Word
  stack : Word
  dir : Option Word
deriving DecidableEq

section System

variable (kernelTable : Frame)

/-- The kernel after a call. -/
def Call.run (k : Kernel) : Call → Kernel
  | .tssTaskInit => TssTasks.tssTaskInit kernelTable k
  | .initTask entry => (TssTasks.initTask kernelTable k entry).2
  | .sysFork eflags sysFrame => (Fork.sysFork kernelTable eflags k sysFrame).2

/-- What a call takes, in its order. -/
def Call.pages (k : Kernel) (c : Call) : Pages :=
  let task := kallocPages k.mmu.alloc 1
  let kernelStack := kallocPages task.2 1
  match c with
  | .tssTaskInit => ⟨task.1, kernelStack.1, (kallocPages kernelStack.2 1).1, none⟩
  | _ =>
      let stack := uallocPages kernelStack.2 1
      ⟨task.1, kernelStack.1, stack.1, some (uallocPages stack.2 1).1⟩

/-- The kernel and the tasks it has made. -/
structure System where
  kernel : Kernel
  tasks : List Pages

/-- The kernel before the first call. -/
def started (k : Kernel) : System := ⟨k, []⟩

/-- A call, and the pages that its task owns. -/
def step (c : Call) (s : System) : Option System :=
  some ⟨c.run kernelTable s.kernel, c.pages s.kernel :: s.tasks⟩

/-- All allocations of a call succeed. -/
def Succeeds (c : Call) (s : System) : Prop :=
  let p := c.pages s.kernel
  p.task ≠ 0 ∧ p.kernelStack ≠ 0 ∧ p.stack ≠ 0 ∧ p.dir ≠ some 0

instance (c : Call) (s : System) : Decidable (Succeeds c s) :=
  inferInstanceAs (Decidable (_ ∧ _))

/-- The TSS has what the call took; a fork then puts the `esp` of its frame in
    the place of the stack. -/
theorem run_tss (c : Call) (k : Kernel) :
    ((c.run kernelTable k).task (c.pages k).task).tss.esp0 = (c.pages k).kernelStack ∧
    ((c.run kernelTable k).task (c.pages k).task).tss.esp
      = (match c with
        | .sysFork _ sysFrame => sysFrame.esp
        | _ => (c.pages k).stack) ∧
    ∀ dir, (c.pages k).dir = some dir →
      ((c.run kernelTable k).task (c.pages k).task).tss.cr3 = dir := by
  cases c with
  | tssTaskInit => simp [Call.run, Call.pages, TssTasks.tssTaskInit, initTss_kernelProc]
  | initTask entry => simp [Call.run, Call.pages, TssTasks.initTask, initTss_userProc]
  | sysFork eflags sysFrame =>
      simp [Call.run, Call.pages, Fork.sysFork, TssTasks.initTask, initTss_userProc]

/-- A call frees no page. -/
theorem run_grows (c : Call) (k : Kernel) :
    Grows k.mmu.alloc (c.run kernelTable k).mmu.alloc := by
  have hkalloc := fun m : AddrAlloc => kallocPages_grows m (Nat.le_refl 1)
  have hualloc := fun m : AddrAlloc => uallocPages_grows m (Nat.le_refl 1)
  have hfirst := (hkalloc k.mmu.alloc).trans (hkalloc (kallocPages k.mmu.alloc 1).2)
  cases c with
  | tssTaskInit =>
      simp only [Call.run, TssTasks.tssTaskInit, initTss_kernelProc, modify_mmu,
        taskSetReady_mmu, taskSetGeneral_mmu]
      exact hfirst.trans (hkalloc _)
  | initTask entry =>
      simp only [Call.run, TssTasks.initTask, initTss_userProc, modify_mmu,
        taskSetReady_mmu, taskSetGeneral_mmu]
      exact (hfirst.trans (hualloc _)).trans (hualloc _)
  | sysFork eflags sysFrame =>
      simp only [Call.run, Fork.sysFork, TssTasks.initTask, initTss_userProc, modify_mmu,
        taskSetReady_mmu, taskSetGeneral_mmu]
      exact (hfirst.trans (hualloc _)).trans (hualloc _)

/-! ## Below a stack -/

/-- One of the addresses of the page at `block`. -/
def InPage (block a : Word) : Prop := (a - block).toNat < 4096

instance (block a : Word) : Decidable (InPage block a) :=
  inferInstanceAs (Decidable (_ < _))

/-- It is in a block allocated as a stack of this task. -/
def Pages.Owns (p : Pages) (a : Word) : Prop := InPage p.kernelStack a ∨ InPage p.stack a

instance (p : Pages) (a : Word) : Decidable (p.Owns a) := inferInstanceAs (Decidable (_ ∨ _))

/-- What is pushed on a stack that starts here stays in the task's stacks. -/
def Pages.GrowsInto (p : Pages) (start : Word) : Prop :=
  ∀ a, InPage (start - memPageSize) a → p.Owns a

/-- Every stack of every task grows into memory of its own. -/
def StacksOwned (s : System) : Prop :=
  ∀ p ∈ s.tasks, p.GrowsInto p.kernelStack ∧ p.GrowsInto p.stack

/-- A free page is not the one below the lowest. -/
theorem not_inPage_below {m : AddrAlloc} (hc : m.bitmap.count < 2 ^ 20) {i q : Nat}
    (hi : i < 1023) (hlow : ∀ p < i, Marked m p) (hq : q < m.bitmap.count)
    (hfree : ¬ Marked m q) : ¬ InPage (pageAddr m q) (pageAddr m i - memPageSize) := by
  intro hin
  have hdiff : pageAddr m i - memPageSize - pageAddr m q
      = BitVec.ofNat 32 i * memPageSize - memPageSize - BitVec.ofNat 32 q * memPageSize := by
    unfold pageAddr
    bv_omega
  -- the distance of the two is a number of pages, so they are one
  have heq : q + 1 = i := by
    unfold InPage at hin
    rw [hdiff, BitVec.toNat_sub, BitVec.toNat_sub, BitVec.toNat_mul, BitVec.toNat_mul,
      BitVec.toNat_ofNat, BitVec.toNat_ofNat, memPageSize_toNat] at hin
    omega
  exact hfree (hlow q (by omega))

/-- Where the stacks of a call come from. -/
theorem pages_stacks (c : Call) (k : Kernel) :
    (c.pages k).kernelStack = (kallocPages (kallocPages k.mmu.alloc 1).2 1).1 ∧
    ((c.pages k).stack
        = (kallocPages (kallocPages (kallocPages k.mmu.alloc 1).2 1).2 1).1 ∨
      (c.pages k).stack
        = (uallocPages (kallocPages (kallocPages k.mmu.alloc 1).2 1).2 1).1) := by
  cases c with
  | tssTaskInit => simp [Call.pages]
  | initTask entry => simp [Call.pages]
  | sysFork eflags sysFrame => simp [Call.pages]

/-- **BELOW A KERNEL STACK** is no stack of its task: the page was taken before,
    or is below all of them. -/
theorem not_growsInto {c : Call} {s : System} (hm : FromOneMb s.kernel.mmu.alloc)
    (h : Succeeds c s) : ¬ (c.pages s.kernel).GrowsInto (c.pages s.kernel).kernelStack := by
  obtain ⟨-, hkernel, hstack, -⟩ := h
  obtain ⟨hk, hs⟩ := pages_stacks c s.kernel
  have hc : (kallocPages s.kernel.mmu.alloc 1).2.bitmap.count < 2 ^ 20 := by
    rw [(kallocPages_grows s.kernel.mmu.alloc (Nat.le_refl 1)).range.1]
    exact hm.count_lt
  generalize (kallocPages s.kernel.mmu.alloc 1).2 = m at hc hk hs
  generalize c.pages s.kernel = p at *
  rw [hk] at hkernel
  obtain ⟨i, hi, hki, hlow⟩ := kallocPages_lowest hkernel
  rw [hki] at hk hs
  have hc₂ : (marking m i 1).bitmap.count < 2 ^ 20 := by
    rw [(marking_sameRange m i 1).1]
    exact hc
  -- the stack comes from the pages that are free then
  obtain ⟨q, hq, he, hfree⟩ : ∃ q < (marking m i 1).bitmap.count,
      p.stack = pageAddr (marking m i 1) q ∧ ¬ Marked (marking m i 1) q := by
    rcases hs with hs | hs
    · obtain ⟨q, hq, he, hfree, -⟩ := kallocPages_one hc₂ (hs ▸ hstack)
      exact ⟨q, hq, hs.trans he, hfree⟩
    · obtain ⟨q, hq, -, he, hfree, -⟩ := uallocPages_one hc₂ (hs ▸ hstack)
      exact ⟨q, hq, hs.trans he, hfree⟩
  intro hgrows
  have hbelow : InPage (p.kernelStack - memPageSize) (p.kernelStack - memPageSize) := by
    unfold InPage
    rw [BitVec.sub_self]
    decide
  rcases hgrows _ hbelow with hown | hown
  · -- a page does not reach down to the one below
    unfold InPage memPageSize at hown
    bv_omega
  · rw [he, hk] at hown
    refine not_inPage_below hc₂ hi (fun p hp => ?_) hq hfree hown
    exact (marking_grows m i 1).marked p (hlow p hp)

/-- A call manages the same memory. -/
theorem step_fromOneMb {c : Call} {s s' : System} (hm : FromOneMb s.kernel.mmu.alloc)
    (h : step kernelTable c s = some s') : FromOneMb s'.kernel.mmu.alloc := by
  obtain rfl := Option.some.inj h
  exact hm.of_sameRange (run_grows kernelTable c s.kernel).range

/-- **STACKS OF THEIR OWN** no run has that makes a task. -/
theorem stacksOwned_iff {k : Kernel} (hm : FromOneMb k.mmu.alloc) {cs : List Call}
    {s : System} (h : Run (step kernelTable) Succeeds (started k) cs s) :
    (∀ p ∈ s.tasks, ¬ p.GrowsInto p.kernelStack) ∧ (StacksOwned s ↔ cs = []) := by
  have hinv := h.invariant_labels
    (P := fun cs s => FromOneMb s.kernel.mmu.alloc ∧
      (∀ p ∈ s.tasks, ¬ p.GrowsInto p.kernelStack) ∧ s.tasks.length = cs.length)
    ⟨hm, fun p hp => (nomatch hp), rfl⟩
    (by
      rintro cs c s s' ⟨hm, hall, hlen⟩ hok hs
      have hm' := step_fromOneMb kernelTable hm hs
      obtain rfl := Option.some.inj hs
      refine ⟨hm', ?_, ?_⟩
      · intro p hp
        rcases List.mem_cons.mp hp with rfl | hp
        · exact not_growsInto hm hok
        · exact hall p hp
      · rw [List.length_append]
        exact congrArg (· + 1) hlen)
  obtain ⟨-, hall, hlen⟩ := hinv
  refine ⟨hall, ?_, ?_⟩
  · intro hown
    cases htasks : s.tasks with
    | nil =>
        rw [htasks] at hlen
        exact List.length_eq_zero_iff.mp hlen.symm
    | cons p ps =>
        have hp : p ∈ s.tasks := by
          rw [htasks]
          exact List.mem_cons_self
        exact absurd (hown p hp).1 (hall p hp)
  · rintro rfl
    obtain rfl := Run.nil_iff.mp h
    exact fun p hp => nomatch hp

end System

/-- A kernel with 16 free pages and no task. -/
def booted : Kernel where
  gdtTable := Gdt.gdtInit (fun _ => ⟨0, 0, 0, 0, 0⟩)
  mmu := ⟨fun _ _ => 0, memoryInit (fun _ => 0) 0x110000⟩
  task := fun _ => ⟨.ready, TssInit.Tss.zero, 0, 0, 0, 0, 0, 0⟩
  curTask := 0
  generalList := []
  readyList := []
  globalPid := 0
  irqState := .off

private theorem firstTask_isSome :
    (exec (step 0x20) Succeeds [.tssTaskInit] (started booted)).isSome = true := by
  decide +kernel

/-- The first task already. -/
theorem stacksOwned_iff_booted :
    ∃ s, Run (step 0x20) Succeeds (started booted) [.tssTaskInit] s ∧ ¬ StacksOwned s := by
  have hrun := Run.of_isSome firstTask_isSome
  refine ⟨_, hrun, fun hown => ?_⟩
  have hnil := (stacksOwned_iff 0x20 (memoryInit_fromOneMb _ _) hrun).2.mp hown
  exact nomatch hnil

/-- What is pushed on its kernel stack is written over its `task_t`. -/
theorem task_below_stack :
    ∃ s, Run (step 0x20) Succeeds (started booted) [.tssTaskInit] s ∧
      (∃ p ∈ s.tasks, p.kernelStack - memPageSize = p.task) ∧ ¬ StacksOwned s := by
  have htasks : ((exec (step 0x20) Succeeds [.tssTaskInit] (started booted)).get
      firstTask_isSome).tasks = [⟨0x100000, 0x101000, 0x102000, none⟩] := by decide +kernel
  have hmem := List.mem_singleton_self (⟨0x100000, 0x101000, 0x102000, none⟩ : Pages)
  rw [← htasks] at hmem
  refine ⟨_, Run.of_isSome firstTask_isSome, ⟨_, hmem, by decide⟩, fun hown => ?_⟩
  exact absurd ((hown _ hmem).1 0x100000 (by decide)) (by decide)

end LittleOS.StackOwnership
