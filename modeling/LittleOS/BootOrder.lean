import LittleOS.TaskMemory

/-! # The boot with timer interrupts

    `kernel_init` from the `irq_enable` of `timer_init` on, statement by
    statement, over the memory of `LittleOS.TaskMemory`.  `timer_init` has
    installed the handler and unmasked the line before, so an interrupt can
    arrive between any two statements from then on.

    * The statements that store are the `Store`s of a list; `main` is an empty
      loop, and nothing calls `task_first_init`.
    * `timer` enters `task_time_tick`, `tick` runs it to its end.  What its last
      `far_jmp` does without a loaded task register is left out.
    * `strayed` records that it was entered without a current task or with a
      list that is not set up.

    `strayed_iff` — it is at the first interrupt, wherever that arrives. -/

namespace LittleOS.BootOrder

open Runs Words Klist SchedMachine TaskMemory

/-- A statement that stores. -/
abbrev Store := Mem → Mem

/-- Stores made one after the other. -/
def execStores (fs : List Store) (m : Mem) : Mem := fs.foldl (fun m f => f m) m

/-! ## The statements -/

/-- The stores of `klist_init`, in order. -/
def klistInitStores (list : Nat) : List Store :=
  [fun m => setPrev m (head list) 0,
   fun m => setNext m (head list) (tail list),
   fun m => setPrev m (tail list) (head list),
   fun m => setNext m (tail list) 0,
   fun m => m.write (len list) 0]

/-- The stores of `klist_append`, in order. -/
def klistAppendStores (list node : Nat) : List Store :=
  [fun m => setNext m node (tail list),
   fun m => setPrev m node (prev m (tail list)),
   fun m => setNext m (prev m (tail list)) node,
   fun m => setPrev m (tail list) node,
   fun m => m.write (len list) (inc32 (m (len list)))]

/-- The stores of `klist_node_init`, in order. -/
def klistNodeInitStores (node : Nat) : List Store :=
  [fun m => setPrev m node 0, fun m => setNext m node 0]

section Source

variable (tm : Nat)

/-- The stores of `task_set_ready`, in order. -/
def taskSetReadyStores (task : Nat) : List Store :=
  if task = idleTask tm then []
  else klistAppendStores (readyList tm) (runNode task) ++
    [fun m => m.write (state task) (stateWord .ready)]

/-- The stores of `task_init`, in order. -/
def taskInitStores (task name : Nat) (tss : Mem) : List Store :=
  [fun m => writeTss m task tss,
   fun m => m.write (state task) (stateWord .created),
   fun m => m.write (task + 4) name,
   fun m => m.write (timeTicks task) Sched.taskTimeSliceDefault,
   fun m => m.write (sliceTicks task) (m (timeTicks task))] ++
  klistNodeInitStores (runNode task) ++ klistNodeInitStores (allNode task) ++
  taskSetReadyStores tm task ++ klistAppendStores (taskList tm) (allNode task)

/-- The three `klist_init` of `task_manager_init`. -/
def listStores : List Store :=
  klistInitStores (readyList tm) ++ klistInitStores (taskList tm) ++
    klistInitStores (sleepList tm)

/-- The stores of `task_manager_init`, in order. -/
def taskManagerInitStores (name : Nat) (tss : Mem) : List Store :=
  listStores tm ++ [fun m => m.write (currTask tm) 0] ++
    taskInitStores tm (idleTask tm) name tss

/-- The six entries of `syscall_table`, at `table`. -/
def syscallInitStores (table : Nat) (handler : Nat → Nat) : List Store :=
  (List.range 6).map (fun i m => m.write (table + 4 * i) (handler i))

/-- The data of a build: where the objects lie, and what the stores store. -/
structure Build where
  table : Nat
  handler : Nat → Nat
  name : Nat
  tss : Mem

/-- `kernel_init` behind `timer_init`. -/
def bootStores (b : Build) : List Store :=
  taskManagerInitStores tm b.name b.tss ++ syscallInitStores b.table b.handler

end Source

/-! ## The machine -/

/-- The boot: memory, the interrupt flag, the stores made, and whether a tick has come
    too early. -/
structure Boot where
  mem : Mem
  intr : IrqStatus
  /-- stores made so far -/
  pc : Nat
  inTick : Bool
  strayed : Bool

/-- What can happen next while the kernel boots. -/
inductive Label where
  | irqEnable
  | store
  | timer
  | tick
deriving DecidableEq, Repr

/-- There is a current task, and the three lists are set up. -/
def SetUp (tm : Nat) (s : Boot) : Prop :=
  s.mem (currTask tm) ≠ 0 ∧ (listStores tm).length ≤ s.pc

instance (tm : Nat) (s : Boot) : Decidable (SetUp tm s) := by
  unfold SetUp
  infer_instance

section Step

variable (fuel tm : Nat) (b : Build)

def step : Label → Boot → Option Boot
  | .irqEnable, s =>
      if s.intr = .off ∧ ¬ s.inTick then some { s with intr := .on } else none
  | .store, s =>
      if s.intr = .on then
        match (bootStores tm b)[s.pc]? with
        | some f => some { s with mem := f s.mem, pc := s.pc + 1 }
        -- the loop of main
        | none => some s
      else none
  | .timer, s =>
      if s.intr = .on then
        some { s with intr := .off, inTick := true
                      strayed := s.strayed || !decide (SetUp tm s) }
      else none
  | .tick, s =>
      if s.inTick then
        (TaskMemory.taskTimeTick fuel tm s.mem).map
          (fun m => { s with mem := m, intr := .on, inTick := false })
      else none

/-- At the `irq_enable` of `timer_init`, with any memory. -/
def start (m : Mem) : Boot := ⟨m, .off, 0, false, false⟩

end Step

/-! ## The lists of statements are the functions -/

section Equations

variable (tm : Nat) (m : Mem)

/-- Stores in sequence. -/
theorem execStores_append (fs gs : List Store) (m : Mem) :
    execStores (fs ++ gs) m = execStores gs (execStores fs m) := List.foldl_append ..

/-- The stores that make the lists empty are those of the scheduler in memory. -/
theorem execStores_listStores : execStores (listStores tm ++
    [fun m => m.write (currTask tm) 0]) m = Represents.emptyLists tm m := rfl

/-- The stores of `task_init` make what the function makes. -/
theorem execStores_taskInit (name : Nat) (tss : Mem) :
    execStores (taskInitStores tm (idleTask tm) name tss) m
      = TaskMemory.taskInit tm m (idleTask tm) name tss := by
  unfold taskInitStores taskSetReadyStores TaskMemory.taskInit TaskMemory.taskSetReady
  dsimp only
  rw [if_pos rfl, if_pos rfl]
  rfl

/-- **THE STATEMENTS** of `task_manager_init` are the function. -/
theorem execStores_taskManagerInit (name : Nat) (tss : Mem) :
    execStores (taskManagerInitStores tm name tss) m
      = TaskMemory.taskManagerInit tm m name tss := by
  unfold taskManagerInitStores
  rw [execStores_append, execStores_listStores, execStores_taskInit]
  rfl

end Equations

/-! ## No statement writes the current task -/

/-- What every store keeps, every part of the list keeps. -/
theorem execStores_keeps {P : Mem → Prop} {fs : List Store}
    (h : ∀ f ∈ fs, ∀ m, P m → P (f m)) (i : Nat) {m : Mem} (hm : P m) :
    P (execStores (fs.take i) m) := by
  unfold execStores
  refine List.foldlRecOn (motive := P) (fs.take i) _ hm ?_
  intro m' hm' f hf
  exact h f (List.mem_of_mem_take hf) m' hm'

variable {tm : Nat} {b : Build}

/-- No current task, and the last node of `task_list` not 4 bytes before it. -/
def NoTask (tm : Nat) (m : Mem) : Prop := m tm = 0 ∧ m (tm + 32) + 4 ≠ tm

/-- A store of another word than the two. -/
theorem NoTask.write {m : Mem} (h : NoTask tm m) {a : Nat} (v : Nat) (h1 : a ≠ tm)
    (h2 : a ≠ tm + 32) : NoTask tm (m.write a v) := by
  unfold NoTask
  rw [Mem.write_other (Ne.symm h1), Mem.write_other (Ne.symm h2)]
  exact h

/-- Initialising a list behind `curr_task` leaves it 0. -/
theorem klistInitStores_keeps {list : Nat} (h : tm < list) :
    ∀ f ∈ klistInitStores list, ∀ m : Mem, m tm = 0 → f m tm = 0 := by
  intro f hf m hm
  simp only [klistInitStores, List.mem_cons, List.not_mem_nil, or_false] at hf
  rcases hf with rfl | rfl | rfl | rfl | rfl <;>
  exact (Mem.write_other (by simp only [head, tail, len]; omega)).trans hm

/-- While the lists are made there is no current task. -/
theorem listStores_keeps : ∀ f ∈ listStores tm, ∀ m : Mem, m tm = 0 → f m tm = 0 := by
  intro f hf
  simp only [listStores, List.mem_append] at hf
  rcases hf with (hf | hf) | hf
  · exact klistInitStores_keeps (by simp only [readyList]; omega) f hf
  · exact klistInitStores_keeps (by simp only [taskList]; omega) f hf
  · exact klistInitStores_keeps (by simp only [sleepList]; omega) f hf

/-- When the lists are made there is still no task. -/
theorem listStores_noTask {m : Mem} (hm : m tm = 0) :
    NoTask tm (execStores (listStores tm) m) := by
  have hlast : execStores (listStores tm) m (tm + 32) = tm + 24 := by
    simp [execStores, listStores, klistInitStores]
  refine ⟨?_, by rw [hlast]; omega⟩
  have hkeep := execStores_keeps listStores_keeps (listStores tm).length hm
  rwa [List.take_length] at hkeep

/-- Linking the idle task into `task_list`. -/
theorem klistAppendStores_keeps :
    ∀ f ∈ klistAppendStores (taskList tm) (allNode (idleTask tm)), ∀ m,
      NoTask tm m → NoTask tm (f m) := by
  intro f hf m hm
  simp only [klistAppendStores, List.mem_cons, List.not_mem_nil, or_false] at hf
  rcases hf with rfl | rfl | rfl | rfl | rfl
  · exact hm.write _ (by simp only [allNode, idleTask]; omega)
      (by simp only [allNode, idleTask]; omega)
  · exact hm.write _ (by simp only [allNode, idleTask]; omega)
      (by simp only [allNode, idleTask]; omega)
  · refine ⟨(Mem.write_other (Ne.symm hm.2)).trans hm.1, ?_⟩
    show (m.write (m (tm + 32) + 4) (tm + 292)) (tm + 32) + 4 ≠ tm
    rw [Mem.write_apply]
    split
    · omega
    · exact hm.2
  · refine ⟨(Mem.write_other (by simp only [tail, taskList]; omega)).trans hm.1, ?_⟩
    show (m.write (tm + 32) (tm + 292)) (tm + 32) + 4 ≠ tm
    rw [Mem.write_same]
    omega
  · exact hm.write _ (by simp only [len, taskList]; omega)
      (by simp only [len, taskList]; omega)

/-- Making the idle task leaves no current task at every store. -/
theorem taskInitStores_keeps (name : Nat) (tss : Mem) :
    ∀ f ∈ taskInitStores tm (idleTask tm) name tss, ∀ m,
      NoTask tm m → NoTask tm (f m) := by
  intro f hf
  simp only [taskInitStores, taskSetReadyStores, if_true, klistNodeInitStores,
    List.mem_append, List.mem_cons, List.not_mem_nil, or_false] at hf
  rcases hf with ((((rfl | rfl | rfl | rfl | rfl) | (rfl | rfl)) | (rfl | rfl)) | hf)
  · intro m hm
    have hout : ∀ w, w < tm + 300 → writeTss m (idleTask tm) tss w = m w :=
      fun w hw => if_neg (by simp only [idleTask]; omega)
    show NoTask tm (writeTss m (idleTask tm) tss)
    unfold NoTask
    rw [hout tm (by omega), hout (tm + 32) (by omega)]
    exact hm
  · exact fun m hm => hm.write _ (by simp only [state, idleTask]; omega)
      (by simp only [state, idleTask]; omega)
  · exact fun m hm => hm.write _ (by simp only [idleTask]; omega)
      (by simp only [idleTask]; omega)
  · exact fun m hm => hm.write _ (by simp only [timeTicks, idleTask]; omega)
      (by simp only [timeTicks, idleTask]; omega)
  · exact fun m hm => hm.write _ (by simp only [sliceTicks, idleTask]; omega)
      (by simp only [sliceTicks, idleTask]; omega)
  · exact fun m hm => hm.write _ (by simp only [runNode, idleTask]; omega)
      (by simp only [runNode, idleTask]; omega)
  · exact fun m hm => hm.write _ (by simp only [runNode, idleTask]; omega)
      (by simp only [runNode, idleTask]; omega)
  · exact fun m hm => hm.write _ (by simp only [allNode, idleTask]; omega)
      (by simp only [allNode, idleTask]; omega)
  · exact fun m hm => hm.write _ (by simp only [allNode, idleTask]; omega)
      (by simp only [allNode, idleTask]; omega)
  · exact klistAppendStores_keeps f hf

/-- `syscall_table` and the task manager are two objects. -/
def Apart (tm : Nat) (b : Build) : Prop := b.table + 80 ≤ tm ∨ tm + 408 ≤ b.table

/-- The stores of `syscall_init` are elsewhere and leave no current task. -/
theorem syscallInitStores_keeps (hb : Apart tm b) :
    ∀ f ∈ syscallInitStores b.table b.handler, ∀ m,
      NoTask tm m → NoTask tm (f m) := by
  intro f hf m hm
  obtain ⟨i, hi, rfl⟩ := List.mem_map.mp hf
  have hlt := List.mem_range.mp hi
  unfold Apart at hb
  exact hm.write _ (by omega) (by omega)

/-- **NO STATEMENT** of the boot writes the current task. -/
theorem bootStores_noTask (hb : Apart tm b) {m : Mem} (hm : m tm = 0) (i : Nat) :
    execStores ((bootStores tm b).take i) m tm = 0 := by
  have hrest : ∀ f ∈ [fun m : Mem => m.write (currTask tm) 0] ++
      taskInitStores tm (idleTask tm) b.name b.tss ++
      syscallInitStores b.table b.handler, ∀ m, NoTask tm m → NoTask tm (f m) := by
    intro f hf m hm
    simp only [List.mem_append, List.mem_singleton] at hf
    rcases hf with (rfl | hf) | hf
    · refine ⟨Mem.write_same .., ?_⟩
      show (m.write tm 0) (tm + 32) + 4 ≠ tm
      rw [Mem.write_other (by omega)]
      exact hm.2
    · exact taskInitStores_keeps _ _ f hf m hm
    · exact syscallInitStores_keeps hb f hf m hm
  have hsplit : bootStores tm b = listStores tm ++
      ([fun m : Mem => m.write (currTask tm) 0] ++
        taskInitStores tm (idleTask tm) b.name b.tss ++
        syscallInitStores b.table b.handler) := by
    simp [bootStores, taskManagerInitStores]
  rw [hsplit, List.take_append, execStores_append]
  by_cases hi : i ≤ (listStores tm).length
  · rw [Nat.sub_eq_zero_of_le hi, List.take_zero]
    exact execStores_keeps listStores_keeps i hm
  · have hfull : (listStores tm).take i = listStores tm :=
      List.take_of_length_le (by omega)
    rw [hfull]
    exact (execStores_keeps hrest _ (listStores_noTask hm)).1

/-! ## Runs -/

/-- Up to the first interrupt the memory is what the statements make of it. -/
structure Booting (tm : Nat) (b : Build) (m : Mem) (s : Boot) : Prop where
  mem : s.mem = execStores ((bootStores tm b).take s.pc) m
  outside : s.inTick = false
  strayed : s.strayed = false

/-- What holds behind a run with the labels `ls`. -/
def Tracks (tm : Nat) (b : Build) (m : Mem) (ls : List Label) (s : Boot) : Prop :=
  (Label.timer ∉ ls → Booting tm b m s) ∧ (Label.timer ∈ ls → s.strayed = true)

section Run

variable {fuel : Nat} {m : Mem}

/-- A step keeps what is known of a boot: its memory, how far it came, and that it
    strayed exactly if a tick came before the lists were made; one case for each
    label. -/
theorem step_tracks (hb : Apart tm b) (hm : m tm = 0) {ls : List Label} {l : Label}
    {s s' : Boot} (h : Tracks tm b m ls s) (hs : step fuel tm b l s = some s') :
    Tracks tm b m (ls ++ [l]) s' := by
  obtain ⟨hfirst, hlater⟩ := h
  cases l with
  | irqEnable =>
      simp only [step] at hs
      split at hs
      · obtain rfl := Option.some.inj hs
        simp only [Tracks, List.mem_append, List.mem_singleton, reduceCtorEq, or_false]
        exact ⟨fun ht => ⟨(hfirst ht).mem, (hfirst ht).outside, (hfirst ht).strayed⟩,
          hlater⟩
      · exact nomatch hs
  | store =>
      simp only [Tracks, List.mem_append, List.mem_singleton, reduceCtorEq, or_false]
      simp only [step] at hs
      split at hs
      · split at hs
        · next f hf =>
            obtain rfl := Option.some.inj hs
            refine ⟨fun ht => ⟨?_, (hfirst ht).outside, (hfirst ht).strayed⟩, hlater⟩
            -- before the first interrupt the memory is that after `pc` statements
            dsimp only
            rw [(hfirst ht).mem, List.take_add_one, hf, execStores_append]
            rfl
        · obtain rfl := Option.some.inj hs
          exact ⟨hfirst, hlater⟩
      · exact nomatch hs
  | timer =>
      simp only [step] at hs
      split at hs
      · obtain rfl := Option.some.inj hs
        refine ⟨fun ht => absurd (by simp) ht, fun _ => ?_⟩
        by_cases ht : Label.timer ∈ ls
        · simp [hlater ht]
        · -- the first interrupt finds no current task
          have hnone : ¬ SetUp tm s := by
            rintro ⟨hcurr, -⟩
            rw [(hfirst ht).mem] at hcurr
            exact hcurr (bootStores_noTask hb hm s.pc)
          simp [hnone]
      · exact nomatch hs
  | tick =>
      simp only [Tracks, List.mem_append, List.mem_singleton, reduceCtorEq, or_false]
      simp only [step] at hs
      split at hs
      · next hin =>
          obtain ⟨m', -, rfl⟩ := Option.map_eq_some_iff.mp hs
          refine ⟨fun ht => ?_, hlater⟩
          rw [(hfirst ht).outside] at hin
          exact nomatch hin
      · exact nomatch hs

/-- **THE BOOT ORDER**: `task_time_tick` is entered too early exactly when an
    interrupt arrives at all. -/
theorem strayed_iff (hb : Apart tm b) (hm : m (currTask tm) = 0) {ls : List Label}
    {s : Boot} (h : Run (step fuel tm b) (fun _ _ => True) (start m) ls s) :
    s.strayed = false ↔ Label.timer ∉ ls := by
  have htracks := h.invariant_labels (P := Tracks tm b m)
    ⟨fun _ => ⟨rfl, rfl, rfl⟩, fun hc => nomatch hc⟩
    (fun _ _ _ _ hP _ hs => step_tracks hb hm hP hs)
  constructor
  · intro hfalse ht
    rw [htracks.2 ht] at hfalse
    exact nomatch hfalse
  · exact fun ht => (htracks.1 ht).strayed

end Run

/-- A build with the task manager at 0x20000. -/
def smallBuild : Build := ⟨0x21000, fun _ => 0, 0, fun _ => 0⟩

/-- The small build keeps its system call table apart from the manager. -/
theorem smallBuild_apart : Apart 0x20000 smallBuild := Or.inr (by decide)

private theorem noTimer_isSome :
    (exec (step 1 0x20000 smallBuild) (fun _ _ => True) [.irqEnable, .store, .store]
      (start (fun _ => 0))).isSome = true := by decide

/-- A boot without a tick does not stray. -/
theorem strayed_iff_noTimer :
    ∃ s, exec (step 1 0x20000 smallBuild) (fun _ _ => True) [.irqEnable, .store, .store]
        (start (fun _ => 0)) = some s ∧ s.strayed = false :=
  ⟨_, (Option.some_get noTimer_isSome).symm,
    (strayed_iff smallBuild_apart rfl (Run.of_isSome noTimer_isSome)).mpr (by decide)⟩

private theorem early_isSome :
    (exec (step 1 0x20000 smallBuild) (fun _ _ => True) [.irqEnable, .timer]
      (start (fun _ => 0))).isSome = true := by decide

/-- An interrupt right behind `irq_enable` finds no current task. -/
theorem early_interrupt :
    ¬ ∀ (ls : List Label) (s : Boot),
        Run (step 1 0x20000 smallBuild) (fun _ _ => True) (start (fun _ => 0)) ls s →
        s.strayed = false := by
  intro hall
  exact absurd (hall _ _ (Run.of_isSome early_isSome)) (by decide)

end LittleOS.BootOrder
