import LittleOS.Isolation
import LittleOS.TssInit

/-! # The contexts of tasks

    A task switch stores the registers in the TSS that TR names and loads them,
    and CR3, from the TSS of the new task; CR3 is never stored.  `tss_init` sets
    four of the segment registers to `KERNEL_SELECTOR_CS` and leaves the zero of
    `kmemset` in CR3.  No code after the boot gives a segment register another
    value than a saved one, so a task keeps these values for good.

    * `Contexts`, `step_contexts` — what every step keeps of them;
    * `never_loadable` — in no state can the context of a task other than the
      first be loaded, and no task has a directory. -/

namespace LittleOS.TaskContext

open Runs Gdt Sched SchedQueues TssInit
open PageTable (Frames Layout frameOf stext memEbdaStart)
open AddressSpaces (walkAt)

/-- A `uint32_t`. -/
abbrev Word := BitVec 32

/-- What a task switch stores and loads. -/
structure Regs where
  eip : Word
  eflags : Word
  eax : Word
  ecx : Word
  edx : Word
  ebx : Word
  esp : Word
  ebp : Word
  esi : Word
  edi : Word
  es : Word
  cs : Word
  ss : Word
  ds : Word
  fs : Word
  gs : Word

/-- The processor stores its registers in a TSS. -/
def Regs.save (r : Regs) (tss : Tss) : Tss :=
  { tss with
    eip := r.eip, eflags := r.eflags, eax := r.eax, ecx := r.ecx, edx := r.edx,
    ebx := r.ebx, esp := r.esp, ebp := r.ebp, esi := r.esi, edi := r.edi,
    es := r.es, cs := r.cs, ss := r.ss, ds := r.ds, fs := r.fs, gs := r.gs }

/-- And loads them from one. -/
def Regs.load (tss : Tss) : Regs :=
  ⟨tss.eip, tss.eflags, tss.eax, tss.ecx, tss.edx, tss.ebx, tss.esp, tss.ebp,
    tss.esi, tss.edi, tss.es, tss.cs, tss.ss, tss.ds, tss.fs, tss.gs⟩

/-- The kernel, the processor and physical memory.  `tr` is the base of the TSS
    that TR names. -/
structure Machine where
  kernel : Kernel
  regs : Regs
  cr3 : Word
  tr : Word
  mem : Frames

/-- The address of `idle_task` in the manager. -/
def idleTask (taskManager : Word) : Word := taskManager + 236
def firstTask (taskManager : Word) : Word := taskManager + 64

/-- The task around a TSS. -/
def taskOf (base : Word) : Word := base - 64

/-- A task is found from its TSS. -/
theorem taskOf_tssAddr (task : Word) : taskOf (tssAddr task) = task :=
  BitVec.add_sub_cancel task 64

/-- The descriptor that a selector names, if it names one of a TSS. -/
def tssDescriptor (table : GdtTable) (tssSel : Int) : Option GdtEntry :=
  let i := indexOf (BitVec.ofInt 16 tssSel)
  let e := table i
  if 1 ≤ i ∧ i < gdtSize ∧ e.attributes &&& segPPresent ≠ 0 ∧
      e.attributes &&& 0x1F = segSSystem ||| segTypeTss then some e
  else none

/-- Without a TSS the processor faults. -/
def ltr (m : Machine) (tssSel : Int) : Option Machine :=
  (tssDescriptor m.kernel.gdtTable tssSel).map (fun e => { m with tr := baseOf e })

/-- The task switch of a `far_jmp`, with or without a fault in the new task. -/
def switchToTss (m : Machine) (tssSel : Int) : Option Machine :=
  (tssDescriptor m.kernel.gdtTable tssSel).map (fun e =>
    let source := taskOf m.tr
    let tss := Function.update m.kernel.tss source (m.regs.save (m.kernel.tss source))
    { m with
      kernel := { m.kernel with tss := tss }
      regs := Regs.load (tss (taskOf (baseOf e)))
      cr3 := (tss (taskOf (baseOf e))).cr3
      tr := baseOf e })

section Source

variable (tm : Word)

/-- `task_dispatch` -/
def taskDispatch (m : Machine) : Option Machine :=
  let next := taskNextRun (idleTask tm) m.kernel.sched
  if m.kernel.sched.currTask = some next then some m
  else
    let sched := Sched.taskDispatch (idleTask tm) m.kernel.sched
    switchToTss { m with kernel := { m.kernel with sched := sched } }
      (m.kernel.tssSel next)

/-- `task_first_init`: the first task is current and its TSS in the task register. -/
def taskFirstInit (m : Machine) : Option Machine :=
  let k := (taskInit (idleTask tm) m.kernel ⟨firstTask tm, 0, 0⟩).1
  (ltr { m with kernel := k } (k.tssSel (firstTask tm))).map (fun m =>
    { m with kernel := { m.kernel with
        sched := { m.kernel.sched with currTask := some (firstTask tm) } } })

/-- `gdt_init` and `task_manager_init`, on a machine with any contents. -/
def taskManagerInit (m : Machine) (entry esp : Word) : Machine :=
  let k := started m.kernel.gdtTable m.kernel.tss m.kernel.tssSel m.kernel.sched.task
  { m with kernel := (taskInit (idleTask tm) k ⟨idleTask tm, entry, esp⟩).1 }

/-- What happens next: a task made, a dispatch, or other code. -/
inductive Op where
  | taskInit (c : Call)
  | dispatch
  | other (regs : Regs) (cr3 : Word) (readyList : List Word) (mem : Frames)

/-- `other` is what runs between two calls: it may change memory, CR3, which
    tasks are ready and all registers but the segments. -/
def step : Op → Machine → Option Machine
  | .taskInit c, m =>
      some { m with kernel := (TssInit.taskInit (idleTask tm) m.kernel c).1 }
  | .dispatch, m => taskDispatch tm m
  | .other regs cr3 readyList mem, m =>
      if regs.es = m.regs.es ∧ regs.cs = m.regs.cs ∧ regs.ss = m.regs.ss ∧
          regs.ds = m.regs.ds ∧ regs.fs = m.regs.fs ∧ regs.gs = m.regs.gs ∧
          ∀ t ∈ readyList, t ∈ m.kernel.sched.taskList then
        some { m with
          regs := regs
          cr3 := cr3
          mem := mem
          kernel := { m.kernel with
            sched := { m.kernel.sched with readyList := readyList } } }
      else none

/-- The states after a boot. -/
def Booted (m : Machine) : Prop :=
  ∃ m₀ entry esp, taskFirstInit tm (taskManagerInit tm m₀ entry esp) = some m

end Source

/-! ## Contexts that can be loaded -/

/-- The selector names an entry of the table that meets `p`, not the first. -/
def Selects (table : GdtTable) (selector : Word) (p : GdtEntry → Prop) : Prop :=
  selector.getLsbD 2 = false ∧
    1 ≤ indexOf (selector.truncate 16) ∧ indexOf (selector.truncate 16) < gdtSize ∧
    p (table (indexOf (selector.truncate 16)))

/-- A present code segment. -/
structure CodeSegment (e : GdtEntry) : Prop where
  present : e.attributes &&& segPPresent ≠ 0
  normal : e.attributes &&& segSNormal ≠ 0
  code : e.attributes &&& segTypeCode ≠ 0

/-- A present data segment that can be written. -/
structure DataSegment (e : GdtEntry) : Prop where
  present : e.attributes &&& segPPresent ≠ 0
  normal : e.attributes &&& segSNormal ≠ 0
  data : e.attributes &&& segTypeCode = 0
  writable : e.attributes &&& segTypeRw ≠ 0

/-- The kernel's code and data. -/
def KernelAddress (l : Layout) (v : Word) : Prop :=
  stext.toNat ≤ v.toNat ∧ v.toNat < l.etext.toNat ∨
  l.sdata.toNat ≤ v.toNat ∧ v.toNat < memEbdaStart.toNat

/-- A switch to this TSS goes on in the kernel. -/
structure Loadable (l : Layout) (table : GdtTable) (mem : Frames) (tss : Tss) :
    Prop where
  cr3 : ∀ v, KernelAddress l v →
    walkAt mem (frameOf tss.cr3) v = walkAt mem l.kernelTable v
  cs : Selects table tss.cs CodeSegment
  ss : Selects table tss.ss DataSegment
  ds : Selects table tss.ds DataSegment
  es : Selects table tss.es DataSegment
  fs : Selects table tss.fs DataSegment
  gs : Selects table tss.gs DataSegment

/-- The contexts of the ready tasks and of the idle task are. -/
def AllLoadable (l : Layout) (tm : Word) (m : Machine) : Prop :=
  ∀ t, t ∈ m.kernel.sched.readyList ∨ t = idleTask tm →
    Loadable l m.kernel.gdtTable m.mem (m.kernel.tss t)

/-! ## What `tss_init` writes -/

/-- The selectors `tss_init` leaves in DS: its own, or that of `kmemset` when
    there is no descriptor. -/
def InitialDs (ds : Word) : Prop := ds = kernelSelectorCs.zeroExtend 32 ∨ ds = 0

/-- The selector is that of a free entry, or `-1`. -/
theorem gdtAllocSeg_cases (table : GdtTable) :
    gdtAllocSeg table = -1 ∨
      ∃ i, 1 ≤ i ∧ i < gdtSize ∧ (table i).attributes = 0 ∧
        gdtAllocSeg table = i * 8 := by
  unfold gdtAllocSeg
  cases hfind : (List.range' 1 (gdtSize - 1)).find?
      (fun i => (table i).attributes = 0) with
  | none => exact Or.inl rfl
  | some i =>
      right
      have hmem := List.mem_range'_1.mp (List.mem_of_find?_eq_some hfind)
      have hzero := List.find?_some hfind
      refine ⟨i, hmem.1, by omega, by simpa using hzero, rfl⟩

/-- **`tss_init`** writes the context of its task only, with a selector of no
    writable segment, and at most an entry that was free. -/
theorem tssInit_spec (k : Kernel) (task : Word) (flag : Int) (entry esp : Word) :
    (∀ t ≠ task, (tssInit k task flag entry esp).1.tss t = k.tss t) ∧
      ((tssInit k task flag entry esp).1.tss task).cr3 = 0 ∧
      InitialDs ((tssInit k task flag entry esp).1.tss task).ds ∧
      ∀ i, (tssInit k task flag entry esp).1.gdtTable i = k.gdtTable i ∨
        (k.gdtTable i).attributes = 0 ∧
          baseOf ((tssInit k task flag entry esp).1.gdtTable i) = tssAddr task := by
  unfold tssInit
  dsimp only
  rcases gdtAllocSeg_cases k.gdtTable with hsel | ⟨i, h1, hi, hfree, hsel⟩
  · -- no descriptor: the task keeps the zeros
    rw [hsel, if_pos (by decide)]
    dsimp only
    refine ⟨fun t ht => Function.update_of_ne ht .., ?_, Or.inr ?_, fun _ => Or.inl rfl⟩
    · rw [Function.update_self]
      rfl
    · rw [Function.update_self]
      rfl
  · have hneg : ¬ ((i : Int) * 8 < 0) := by omega
    have hindex : indexOf (BitVec.ofNat 16 (i * 8)) = i :=
      indexOf_ofNat (Nat.lt_trans hi (by decide))
    rw [hsel, if_neg hneg, ofInt_selector]
    dsimp only
    refine ⟨?_, ?_, Or.inl ?_, ?_⟩
    · intro t ht
      rw [Function.update_of_ne ht, Function.update_of_ne ht]
    · rw [Function.update_self, Function.update_self]
      rfl
    · rw [Function.update_self]
    · intro j
      by_cases hj : j = i
      · subst hj
        have hbase := baseOf_gdtSegmentSet k.gdtTable (BitVec.ofNat 16 (j * 8))
          (segSSystem ||| segTypeTss ||| segDpl0 ||| segPPresent) sizeofTss (tssAddr task)
        rw [hindex] at hbase
        exact Or.inr ⟨hfree, hbase⟩
      · exact Or.inl (gdtSegmentSet_other (by rw [hindex]; exact hj))

/-! ## Every run -/

/-- What holds of the contexts in every state. -/
structure Contexts (tm : Word) (m : Machine) : Prop where
  code : (m.kernel.gdtTable 1).attributes &&& segTypeCode ≠ 0
  owned : ∀ i, 1 ≤ i → i < gdtSize →
    (m.kernel.gdtTable i).attributes &&& 0x1F = segSSystem ||| segTypeTss →
    taskOf (baseOf (m.kernel.gdtTable i)) ∈ m.kernel.sched.taskList
  cr3 : ∀ t ∈ m.kernel.sched.taskList, (m.kernel.tss t).cr3 = 0
  ds : ∀ t ∈ m.kernel.sched.taskList, t ≠ firstTask tm →
    InitialDs (m.kernel.tss t).ds
  ready : ∀ t ∈ m.kernel.sched.readyList, t ∈ m.kernel.sched.taskList

/-- What holds from `ltr` on. -/
structure Running (tm : Word) (m : Machine) : Prop extends Contexts tm m where
  idle : idleTask tm ∈ m.kernel.sched.taskList
  current : taskOf m.tr ∈ m.kernel.sched.taskList
  regs : taskOf m.tr ≠ firstTask tm → InitialDs m.regs.ds

section Run

variable {tm : Word} {m m' : Machine}

/-- The first task is not the idle one. -/
theorem firstTask_ne_idleTask (tm : Word) : firstTask tm ≠ idleTask tm := by
  intro h
  have := (BitVec.add_right_inj tm).mp h
  exact absurd this (by decide)

/-- A selector that a switch accepts names the TSS of a task. -/
theorem Contexts.tssDescriptor (h : Contexts tm m) {sel : Int} {e : GdtEntry}
    (he : tssDescriptor m.kernel.gdtTable sel = some e) :
    taskOf (baseOf e) ∈ m.kernel.sched.taskList := by
  unfold TaskContext.tssDescriptor at he
  dsimp only at he
  split at he
  · next hc =>
      obtain rfl := Option.some.inj he
      exact h.owned _ hc.1 hc.2.1 hc.2.2.2
  · exact nomatch he

/-- `task_init` adds a task with a context of `tss_init`. -/
theorem Contexts.taskInit (h : Contexts tm m) (c : Call) :
    Contexts tm { m with
      kernel := (TssInit.taskInit (idleTask tm) m.kernel c).1 } := by
  obtain ⟨hother, hcr3, hds, htable⟩ := tssInit_spec m.kernel c.task 0 c.entry c.esp
  have hlist : ∀ t, t ∈ (TssInit.taskInit (idleTask tm) m.kernel c).1.sched.taskList ↔
      t ∈ m.kernel.sched.taskList ∨ t = c.task := by
    intro t
    rw [taskInit_sched, taskInit_taskList, List.mem_append, List.mem_singleton]
  refine ⟨?_, ?_, ?_, ?_, ?_⟩
  · -- the entry of the kernel's code is not free, so it stays
    show ((tssInit m.kernel c.task 0 c.entry c.esp).1.gdtTable 1).attributes &&&
      segTypeCode ≠ 0
    rcases htable 1 with he | ⟨hfree, -⟩
    · rw [he]
      exact h.code
    · exact absurd (by rw [hfree]; rfl) h.code
  · intro i h1 hi hkind
    refine (hlist _).mpr ?_
    change (((tssInit m.kernel c.task 0 c.entry c.esp).1.gdtTable i).attributes &&& 0x1F
      = _) at hkind
    show taskOf (baseOf ((tssInit m.kernel c.task 0 c.entry c.esp).1.gdtTable i)) ∈ _ ∨
      taskOf (baseOf ((tssInit m.kernel c.task 0 c.entry c.esp).1.gdtTable i)) = _
    rcases htable i with he | ⟨-, hbase⟩
    · rw [he] at hkind ⊢
      exact Or.inl (h.owned i h1 hi hkind)
    · rw [hbase]
      exact Or.inr (taskOf_tssAddr _)
  · intro t ht
    by_cases htc : t = c.task
    · subst htc
      exact hcr3
    · exact (congrArg Tss.cr3 (hother t htc)).trans
        (h.cr3 t (((hlist t).mp ht).resolve_right htc))
  · intro t ht hfirst
    by_cases htc : t = c.task
    · subst htc
      exact hds
    · have hold := h.ds t (((hlist t).mp ht).resolve_right htc) hfirst
      exact (congrArg Tss.ds (hother t htc)).symm ▸ hold
  · intro t ht
    refine (hlist t).mpr ?_
    rw [taskInit_sched] at ht
    exact (taskInit_ready ht).imp_left (h.ready t)

/-- **A SWITCH** stores what the registers held and no CR3. -/
theorem Running.switchToTss (h : Running tm m) {sel : Int}
    (hs : switchToTss m sel = some m') : Running tm m' := by
  unfold TaskContext.switchToTss at hs
  obtain ⟨e, he, rfl⟩ := Option.map_eq_some_iff.mp hs
  have hnext := h.tssDescriptor he
  -- the contexts with that of the old task stored
  have hcr3 : ∀ t ∈ m.kernel.sched.taskList,
      (Function.update m.kernel.tss (taskOf m.tr)
        (m.regs.save (m.kernel.tss (taskOf m.tr))) t).cr3 = 0 := by
    intro t ht
    by_cases htr : t = taskOf m.tr
    · subst htr
      rw [Function.update_self]
      exact h.cr3 _ ht
    · rw [Function.update_of_ne htr]
      exact h.cr3 t ht
  have hds : ∀ t ∈ m.kernel.sched.taskList, t ≠ firstTask tm →
      InitialDs (Function.update m.kernel.tss (taskOf m.tr)
        (m.regs.save (m.kernel.tss (taskOf m.tr))) t).ds := by
    intro t ht hfirst
    by_cases htr : t = taskOf m.tr
    · subst htr
      rw [Function.update_self]
      exact h.regs hfirst
    · rw [Function.update_of_ne htr]
      exact h.ds t ht hfirst
  exact ⟨⟨h.code, h.owned, hcr3, hds, h.ready⟩, h.idle, hnext, hds _ hnext⟩

/-- A dispatch keeps the contexts of all tasks where they belong. -/
theorem Running.taskDispatch (h : Running tm m)
    (hs : taskDispatch tm m = some m') : Running tm m' := by
  unfold TaskContext.taskDispatch at hs
  dsimp only at hs
  split at hs
  · obtain rfl := Option.some.inj hs
    exact h
  · -- picking the next task changes no list and no context
    have hpicked : Running tm { m with kernel := { m.kernel with
        sched := Sched.taskDispatch (idleTask tm) m.kernel.sched } } := by
      refine ⟨⟨h.code, ?_, ?_, ?_, ?_⟩, ?_, ?_, h.regs⟩
      all_goals simp only [taskDispatch_taskList, taskDispatch_readyList]
      · exact h.owned
      · exact h.cr3
      · exact h.ds
      · exact h.ready
      · exact h.idle
      · exact h.current
    exact hpicked.switchToTss hs

/-- **EVERY STEP** keeps the contexts as they are. -/
theorem step_contexts (l : Op) (m m' : Machine) (h : Running tm m)
    (hs : step tm l m = some m') : Running tm m' := by
  cases l with
  | taskInit c =>
      simp only [step] at hs
      obtain rfl := Option.some.inj hs
      have hlist : (TssInit.taskInit (idleTask tm) m.kernel c).1.sched.taskList
          = m.kernel.sched.taskList ++ [c.task] := by
        rw [taskInit_sched, taskInit_taskList]
      refine ⟨h.toContexts.taskInit c, ?_, ?_, h.regs⟩
      · exact hlist.symm ▸ List.mem_append_left _ h.idle
      · exact hlist.symm ▸ List.mem_append_left _ h.current
  | dispatch => exact h.taskDispatch hs
  | other regs cr3 readyList mem =>
      simp only [step] at hs
      split at hs
      · next hc =>
          obtain rfl := Option.some.inj hs
          obtain ⟨-, -, -, hds, -, -, hready⟩ := hc
          refine ⟨⟨h.code, h.owned, h.cr3, h.ds, hready⟩, h.idle, h.current, ?_⟩
          intro hfirst
          show InitialDs regs.ds
          rw [hds]
          exact h.regs hfirst
      · exact nomatch hs

/-! ### The boot -/

/-- `gdt_init` makes entry 1 a code segment and no entry a TSS. -/
theorem gdtInit_kinds (table : GdtTable) :
    (gdtInit table 1).attributes &&& segTypeCode ≠ 0 ∧
      ∀ i < gdtSize, (gdtInit table i).attributes &&& 0x1F ≠ segSSystem ||| segTypeTss := by
  have h1 : indexOf kernelSelectorCs = 1 := by decide
  have h2 : indexOf kernelSelectorDs = 2 := by decide
  have h4 : indexOf userSelectorCs = 4 := by decide
  have h5 : indexOf userSelectorDs = 5 := by decide
  constructor
  · unfold gdtInit gdtSegmentSet
    rw [h1, h2, h4, h5]
    simp only [Function.update_apply, Nat.reduceEqDiff, if_true, if_false]
    decide
  · intro i hi
    by_cases hseg : i ∈ segments
    · unfold gdtInit gdtSegmentSet
      rw [h1, h2, h4, h5]
      simp only [Function.update_apply]
      rcases mem_segments.mp hseg with rfl | rfl | rfl | rfl
      all_goals simp only [Nat.reduceEqDiff, if_true, if_false]; decide
    · rw [(gdtInit_free table hi).mpr hseg]
      decide

/-- The contexts behind `gdt_init`: there are none. -/
theorem started_contexts (tm : Word) (m : Machine) (table : GdtTable) (tss : Word → Tss)
    (tssSel : Word → Int) (task : Word → Task) :
    Contexts tm { m with kernel := started table tss tssSel task } := by
  obtain ⟨hcode, hkinds⟩ := gdtInit_kinds table
  exact ⟨hcode, fun i _ hi hkind => absurd hkind (hkinds i hi),
    fun t ht => (nomatch ht), fun t ht => (nomatch ht), fun t ht => (nomatch ht)⟩

/-- The selector that `tss_init` gives a task names the TSS of the task. -/
theorem filled_tssDescriptor {n : Nat} {k : Kernel} (h : Filled n k) {t : Word}
    (ht : t ∈ k.sched.taskList) :
    ∃ e, tssDescriptor k.gdtTable (k.tssSel t) = some e ∧ baseOf e = tssAddr t := by
  obtain ⟨j, -, hlt, hsel, hdesc⟩ := h.taken t ht
  have hpos := slotOf_pos j
  refine ⟨_, ?_, hdesc.base⟩
  unfold tssDescriptor
  rw [hsel, ofInt_selector, indexOf_ofNat (Nat.lt_trans hlt (by decide))]
  dsimp only
  rw [if_pos ⟨by omega, hlt, hdesc.present, hdesc.kind⟩]

/-- What the two calls of `task_init` that a boot makes leave. -/
theorem bootCalls_spec (tm : Word) (m : Machine) (entry esp : Word) :
    ∃ m₁ k, taskManagerInit tm m entry esp = m₁ ∧
      (taskInit (idleTask tm) m₁.kernel ⟨firstTask tm, 0, 0⟩).1 = k ∧
      Contexts tm { m₁ with kernel := k } ∧ Filled 2 k ∧
      idleTask tm ∈ k.sched.taskList ∧ firstTask tm ∈ k.sched.taskList := by
  have hfilled := afterCalls_filled (idleTask tm) (started_filled m.kernel.gdtTable
    m.kernel.tss m.kernel.tssSel m.kernel.sched.task)
    [⟨idleTask tm, entry, esp⟩, ⟨firstTask tm, 0, 0⟩] (by simp)
  have hstarted := started_contexts tm m m.kernel.gdtTable m.kernel.tss
    m.kernel.tssSel m.kernel.sched.task
  have hcontexts := (hstarted.taskInit ⟨idleTask tm, entry, esp⟩).taskInit
    ⟨firstTask tm, 0, 0⟩
  refine ⟨_, _, rfl, rfl, hcontexts, hfilled, ?_, ?_⟩
  · unfold taskManagerInit
    simp
  · unfold taskManagerInit
    simp

/-- **THE BOOT** succeeds and ends in the first task. -/
theorem boot_running (tm : Word) (m : Machine) (entry esp : Word) :
    ∃ m', taskFirstInit tm (taskManagerInit tm m entry esp) = some m' ∧ Running tm m' := by
  obtain ⟨m₁, k, hm₁, hk, hcontexts, hfilled, hidle, hlist⟩ := bootCalls_spec tm m entry esp
  obtain ⟨e, he, hbase⟩ := filled_tssDescriptor hfilled hlist
  have hltr : ltr { m₁ with kernel := k } (k.tssSel (firstTask tm))
      = some { m₁ with kernel := k, tr := baseOf e } := by
    unfold ltr
    rw [he]
    rfl
  -- TR names the TSS of the first task
  have hfirst : taskOf (baseOf e) = firstTask tm := by
    rw [hbase, taskOf_tssAddr]
  have hboot : taskFirstInit tm (taskManagerInit tm m entry esp)
      = some { m₁ with
          kernel := { k with sched := { k.sched with currTask := some (firstTask tm) } }
          tr := baseOf e } := by
    unfold taskFirstInit
    rw [hm₁, hk]
    dsimp only
    rw [hltr]
    rfl
  refine ⟨_, hboot, ?_⟩
  exact ⟨⟨hcontexts.code, hcontexts.owned, hcontexts.cr3, hcontexts.ds, hcontexts.ready⟩,
    hidle, hfirst.symm ▸ hlist, fun hne => absurd hfirst hne⟩

/-- The boot leaves every context in its place. -/
theorem booted_running (h : Booted tm m) : Running tm m := by
  obtain ⟨m₀, entry, esp, hm⟩ := h
  obtain ⟨m', hm', hrunning⟩ := boot_running tm m₀ entry esp
  obtain rfl := Option.some.inj (hm.symm.trans hm')
  exact hrunning

/-! ### No context can be loaded -/

/-- A context with the DS of `tss_init` cannot be loaded. -/
theorem Contexts.not_loadable (h : Contexts tm m) {l : Layout} {t : Word}
    (hds : InitialDs (m.kernel.tss t).ds) :
    ¬ Loadable l m.kernel.gdtTable m.mem (m.kernel.tss t) := by
  intro hload
  obtain ⟨-, h1, -, hdata⟩ := hload.ds
  rcases hds with hcs | hzero
  · -- it selects the kernel's code
    rw [hcs, show indexOf ((kernelSelectorCs.zeroExtend 32).truncate 16) = 1 by decide]
      at hdata
    exact h.code hdata.data
  · rw [hzero] at h1
    exact absurd h1 (by decide)

/-- **NO STATE OF ANY RUN** has only contexts that can be loaded: that of the
    idle task cannot, nor that of any task but the first, and no context has a
    directory. -/
theorem never_loadable (l : Layout) (tm : Word) {m m' : Machine} {ops : List Op}
    (hm : Booted tm m) (hrun : Run (step tm) (fun _ _ => True) m ops m') :
    ¬ AllLoadable l tm m' ∧
      ∀ t ∈ m'.kernel.sched.taskList, (m'.kernel.tss t).cr3 = 0 ∧
        (t ≠ firstTask tm → ¬ Loadable l m'.kernel.gdtTable m'.mem (m'.kernel.tss t)) := by
  have h : Running tm m' := hrun.invariant (booted_running hm)
    (fun op s s' hs _ hstep => step_contexts op s s' hs hstep)
  have htask : ∀ t ∈ m'.kernel.sched.taskList, t ≠ firstTask tm →
      ¬ Loadable l m'.kernel.gdtTable m'.mem (m'.kernel.tss t) :=
    fun t ht hne => h.not_loadable (h.ds t ht hne)
  refine ⟨fun hall => ?_, fun t ht => ⟨h.cr3 t ht, htask t ht⟩⟩
  exact htask _ h.idle (firstTask_ne_idleTask tm).symm (hall _ (Or.inr rfl))

end Run

/-- A machine of zeros. -/
def zeroMachine : Machine where
  kernel := ⟨fun _ => ⟨0, 0, 0, 0, 0⟩, fun _ => Tss.zero, fun _ => 0,
    ⟨none, [], [], [], fun _ => ⟨.created, 0, 0, 0⟩⟩⟩
  regs := Regs.load Tss.zero
  cr3 := 0x18000
  tr := 0
  mem := fun _ _ => 0

/-- `task_manager` at 0x16000: behind its boot the idle task cannot be loaded. -/
theorem idle_not_loadable :
    ∃ m, taskFirstInit 0x16000 (taskManagerInit 0x16000 zeroMachine 0x11000 0x17000)
        = some m ∧ ¬ AllLoadable Isolation.smallKernel 0x16000 m := by
  obtain ⟨m, hm, h⟩ := boot_running 0x16000 zeroMachine 0x11000 0x17000
  refine ⟨m, hm, fun hall => ?_⟩
  have hds := h.ds _ h.idle (firstTask_ne_idleTask _).symm
  exact h.toContexts.not_loadable hds (hall _ (Or.inr rfl))

/-- One `task_init` behind that boot. -/
theorem never_loadable_task :
    ∃ m m', Booted 0x16000 m ∧
      Run (step 0x16000) (fun _ _ => True) m [.taskInit ⟨0x20000, 0x12000, 0x30000⟩] m' ∧
      ¬ AllLoadable Isolation.smallKernel 0x16000 m' := by
  obtain ⟨m, hm, -⟩ := boot_running 0x16000 zeroMachine 0x11000 0x17000
  have hbooted : Booted 0x16000 m := ⟨_, _, _, hm⟩
  have hrun : Run (step 0x16000) (fun _ _ => True) m
      [.taskInit ⟨0x20000, 0x12000, 0x30000⟩] _ := Run.single trivial rfl
  exact ⟨m, _, hbooted, hrun, (never_loadable Isolation.smallKernel 0x16000 hbooted hrun).1⟩

end LittleOS.TaskContext
