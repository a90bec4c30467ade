import Mathlib.Data.List.Nodup
import Mathlib.Logic.Function.Basic
import LittleOS.Lib.Words

/-! # The scheduler of `core/task.c` on sequences

    The three lists of `task_manager_t` are the sequences of tasks they hold,
    `&task_manager.idle_task` is the parameter `idle`, and a task is named by
    its address, any type with decidable equality.  Each function is the one
    of `task.c`, with `switch_to_tss` left to the machine of
    `LittleOS.SchedMachine`: here `taskDispatch` only picks the task and writes
    `curr_task` and its state.  The walk of `task_time_tick` over `sleep_list`
    visits the tasks of the list; what the C loop does past the last of them is
    the subject of `LittleOS.TaskTick`.  `sys_sleep` acts on the current task. -/

namespace LittleOS.Sched

open Words

/-- `state_t`. -/
inductive TaskState where
  | created
  | running
  | sleep
  | ready
  | waitting
deriving DecidableEq, Repr

/-- The scheduling fields of `task_t`; the counters are 32-bit words. -/
structure Task where
  state : TaskState
  sleepTicks : Nat
  sliceTicks : Nat
  timeTicks : Nat
deriving DecidableEq, Repr

/-- `TASK_TIME_SLICE_DEFAULT`. -/
def taskTimeSliceDefault : Nat := 10

/-- `task_manager_t` and the tasks it manages; `none` is `NULL`. -/
structure Manager (τ : Type*) where
  currTask : Option τ
  readyList : List τ
  taskList : List τ
  sleepList : List τ
  task : τ → Task

variable {τ : Type*} [DecidableEq τ]

/-- Change the fields of one task. -/
def Manager.modify (s : Manager τ) (t : τ) (f : Task → Task) : Manager τ :=
  { s with task := Function.update s.task t (f (s.task t)) }

section Source

variable (idle : τ)

/-- `task_set_ready` -/
def taskSetReady (s : Manager τ) (task : τ) : Manager τ :=
  if task = idle then s
  else
    { s with readyList := s.readyList ++ [task] }.modify task
      (fun c => { c with state := .ready })

/-- `task_set_block` -/
def taskSetBlock (s : Manager τ) (task : τ) : Manager τ :=
  if task = idle then s
  else { s with readyList := s.readyList.erase task }

/-- `task_next_run` -/
def taskNextRun (s : Manager τ) : τ := s.readyList.headD idle

/-- `task_dispatch`, up to the switch. -/
def taskDispatch (s : Manager τ) : Manager τ :=
  let next := taskNextRun idle s
  if some next = s.currTask then s
  else
    { s with currTask := some next }.modify next
      (fun c => { c with state := .running })

/-- The body of `sys_sched_yield` before its call of `task_dispatch`; `none`
    when the list is too short and it does not call it. -/
def yieldRequeue (s : Manager τ) : Option (Manager τ) :=
  if 1 < s.readyList.length then
    s.currTask.map (fun c => taskSetReady idle (taskSetBlock idle s c) c)
  else none

/-- `sys_sched_yield` -/
def sysSchedYield (s : Manager τ) : Manager τ :=
  ((yieldRequeue idle s).map (taskDispatch idle)).getD s

/-- `task_set_sleep` -/
def taskSetSleep (s : Manager τ) (task : τ) (ticks : Nat) : Manager τ :=
  if ticks = 0 then s
  else
    { s with sleepList := s.sleepList ++ [task] }.modify task
      (fun c => { c with sleepTicks := ticks, state := .sleep })

/-- `task_set_wakeup` -/
def taskSetWakeup (s : Manager τ) (task : τ) : Manager τ :=
  { s with sleepList := s.sleepList.erase task }

/-- The ticks `sys_sleep` computes from `ms`: `ms + (OS_TICKS_MS - 1) /
    OS_TICKS_MS` on 32-bit words.  The division binds tighter than the sum. -/
def sleepTicksOf (osTicksMs : Nat) (ms : BitVec 32) : Nat :=
  (ms.toNat + (osTicksMs - 1) / osTicksMs) % 2 ^ 32

/-- The body of `sys_sleep` before its call of `task_dispatch`. -/
def sleepBlock (osTicksMs : Nat) (s : Manager τ) (ms : BitVec 32) : Manager τ :=
  match s.currTask with
  | none => s
  | some c =>
      taskSetSleep (taskSetBlock idle s c) c (sleepTicksOf osTicksMs ms)

/-- `sys_sleep` -/
def sysSleep (osTicksMs : Nat) (s : Manager τ) (ms : BitVec 32) : Manager τ :=
  taskDispatch idle (sleepBlock idle osTicksMs s ms)

/-- The slice part of `task_time_tick` up to its call of `task_dispatch`, with
    the answer whether it calls it. -/
def sliceTick (s : Manager τ) : Manager τ × Bool :=
  match s.currTask with
  | none => (s, false)
  | some c =>
      let s := s.modify c (fun d => { d with sliceTicks := dec32 d.sliceTicks })
      if (s.task c).sliceTicks = 0 then
        let s := s.modify c (fun d => { d with sliceTicks := d.timeTicks })
        (taskSetReady idle (taskSetBlock idle s c) c, true)
      else (s, false)

/-- One turn of the walk over `sleep_list`. -/
def wakeStep (s : Manager τ) (task : τ) : Manager τ :=
  let s := s.modify task (fun c => { c with sleepTicks := dec32 c.sleepTicks })
  if (s.task task).sleepTicks = 0 then
    taskSetReady idle (taskSetWakeup s task) task
  else s

/-- The walk of `task_time_tick` over `sleep_list`: the next node is read
    before the current one is moved, so it visits the tasks that were asleep
    when it began. -/
def sleepWalk (s : Manager τ) : Manager τ :=
  s.sleepList.foldl (wakeStep idle) s

/-- The slice part of `task_time_tick` with its dispatch. -/
def taskTimeSlice (s : Manager τ) : Manager τ :=
  match sliceTick idle s with
  | (s, true) => taskDispatch idle s
  | (s, false) => s

/-- `task_time_tick`, from its first statement to its last without a break. -/
def taskTimeTick (s : Manager τ) : Manager τ :=
  taskDispatch idle (sleepWalk idle (taskTimeSlice idle s))

/-- The scheduler's part of `task_init`. -/
def taskInit (s : Manager τ) (task : τ) : Manager τ :=
  let s := s.modify task (fun c =>
    { c with state := .created, timeTicks := taskTimeSliceDefault,
             sliceTicks := taskTimeSliceDefault })
  let s := taskSetReady idle s task
  { s with taskList := s.taskList ++ [task] }

/-- `task_manager_init`: empty lists and the idle task. -/
def taskManagerInit (s : Manager τ) : Manager τ :=
  taskInit idle { s with currTask := none, readyList := [], taskList := [],
                         sleepList := [] } idle

/-- `task_first_init`: the first task is the current one. -/
def taskFirstInit (first : τ) (s : Manager τ) : Manager τ :=
  { taskInit idle s first with currTask := some first }

end Source

/-! ## What each helper changes -/

section Fields

variable (s : Manager τ) (t : τ) (f : Task → Task)

@[simp] theorem modify_currTask : (s.modify t f).currTask = s.currTask := rfl
@[simp] theorem modify_readyList : (s.modify t f).readyList = s.readyList := rfl
@[simp] theorem modify_taskList : (s.modify t f).taskList = s.taskList := rfl
@[simp] theorem modify_sleepList : (s.modify t f).sleepList = s.sleepList := rfl

/-- A change of a task is seen at that task. -/
@[simp] theorem modify_task_self : (s.modify t f).task t = f (s.task t) :=
  Function.update_self ..

/-- A change of a task is not seen at another one. -/
@[simp] theorem modify_task_of_ne {u : τ} (h : u ≠ t) :
    (s.modify t f).task u = s.task u :=
  Function.update_of_ne h ..

/-- A change of one field of one task leaves every other field as it was. -/
theorem modify_task_field {β : Type*} (g : Task → β) (hg : ∀ c, g (f c) = g c)
    (u : τ) : g ((s.modify t f).task u) = g (s.task u) := by
  by_cases hu : u = t
  · rw [hu, modify_task_self, hg]
  · rw [modify_task_of_ne s t f hu]

end Fields

section Helpers

variable (idle : τ) (s : Manager τ) (t u : τ)

/-- The idle task is never made ready. -/
@[simp] theorem taskSetReady_idle : taskSetReady idle s idle = s := by
  simp [taskSetReady]

/-- Any other task comes last. -/
theorem taskSetReady_readyList :
    (taskSetReady idle s t).readyList
      = if t = idle then s.readyList else s.readyList ++ [t] := by
  unfold taskSetReady
  split <;> simp

/-- Making ready does not switch. -/
@[simp] theorem taskSetReady_currTask :
    (taskSetReady idle s t).currTask = s.currTask := by
  unfold taskSetReady
  split <;> simp

/-- Making ready leaves `task_list`. -/
@[simp] theorem taskSetReady_taskList :
    (taskSetReady idle s t).taskList = s.taskList := by
  unfold taskSetReady
  split <;> simp

/-- Making ready wakes nobody up. -/
@[simp] theorem taskSetReady_sleepList :
    (taskSetReady idle s t).sleepList = s.sleepList := by
  unfold taskSetReady
  split <;> simp

/-- `task_set_ready` writes no field of a task but `state`. -/
theorem taskSetReady_field {β : Type*} (g : Task → β)
    (hg : ∀ c st, g { c with state := st } = g c) :
    g ((taskSetReady idle s t).task u) = g (s.task u) := by
  unfold taskSetReady
  split
  · rfl
  · exact modify_task_field _ _ _ g (fun c => hg c _) u

/-- A blocked task leaves the ready list, unless it is the idle one. -/
theorem taskSetBlock_readyList :
    (taskSetBlock idle s t).readyList
      = if t = idle then s.readyList else s.readyList.erase t := by
  unfold taskSetBlock
  split <;> rfl

/-- Blocking does not switch. -/
@[simp] theorem taskSetBlock_currTask :
    (taskSetBlock idle s t).currTask = s.currTask := by
  unfold taskSetBlock
  split <;> rfl

/-- Blocking leaves `task_list`. -/
@[simp] theorem taskSetBlock_taskList :
    (taskSetBlock idle s t).taskList = s.taskList := by
  unfold taskSetBlock
  split <;> rfl

/-- Blocking puts nobody to sleep. -/
@[simp] theorem taskSetBlock_sleepList :
    (taskSetBlock idle s t).sleepList = s.sleepList := by
  unfold taskSetBlock
  split <;> rfl

/-- Blocking changes no task field. -/
@[simp] theorem taskSetBlock_task :
    (taskSetBlock idle s t).task = s.task := by
  unfold taskSetBlock
  split <;> rfl

/-- A dispatch leaves the ready list. -/
@[simp] theorem taskDispatch_readyList :
    (taskDispatch idle s).readyList = s.readyList := by
  unfold taskDispatch
  dsimp only
  split <;> simp

/-- A dispatch leaves `task_list`. -/
@[simp] theorem taskDispatch_taskList :
    (taskDispatch idle s).taskList = s.taskList := by
  unfold taskDispatch
  dsimp only
  split <;> simp

/-- A dispatch leaves the sleep list. -/
@[simp] theorem taskDispatch_sleepList :
    (taskDispatch idle s).sleepList = s.sleepList := by
  unfold taskDispatch
  dsimp only
  split <;> simp

/-- After `task_dispatch` the current task is the one it picked. -/
@[simp] theorem taskDispatch_currTask :
    (taskDispatch idle s).currTask = some (taskNextRun idle s) := by
  unfold taskDispatch
  dsimp only
  split
  · next h => exact h.symm
  · simp

/-- `task_dispatch` writes no field of a task but `state`. -/
theorem taskDispatch_field {β : Type*} (g : Task → β)
    (hg : ∀ c st, g { c with state := st } = g c) :
    g ((taskDispatch idle s).task u) = g (s.task u) := by
  unfold taskDispatch
  dsimp only
  split
  · rfl
  · exact modify_task_field _ _ _ g (fun c => hg c _) u

/-- Blocking a task and readying it again moves it to the tail. -/
theorem requeue_readyList (h : t ≠ idle) :
    (taskSetReady idle (taskSetBlock idle s t) t).readyList
      = s.readyList.erase t ++ [t] := by
  rw [taskSetReady_readyList, taskSetBlock_readyList, if_neg h, if_neg h]

end Helpers

/-! ## The walk over `sleep_list` -/

/-- The task wakes at the next tick: its counter reaches 0. -/
def Due (s : Manager τ) (t : τ) : Prop := dec32 (s.task t).sleepTicks = 0

instance (s : Manager τ) (t : τ) : Decidable (Due s t) :=
  inferInstanceAs (Decidable (_ = _))

section Walk

variable (idle : τ)

/-- The state after the decrement of one sleeper's counter. -/
private def countDown (s : Manager τ) (t : τ) : Manager τ :=
  s.modify t (fun c => { c with sleepTicks := dec32 c.sleepTicks })

/-- The count reaches 0 exactly in the tick that is due. -/
private theorem countDown_due (s : Manager τ) (t : τ) :
    ((countDown s t).task t).sleepTicks = 0 ↔ Due s t := by
  rw [countDown, modify_task_self]
  exact Iff.rfl

/-- A turn of the walk on a task that is due. -/
private theorem wakeStep_due {s : Manager τ} {t : τ} (h : Due s t) :
    wakeStep idle s t = taskSetReady idle (taskSetWakeup (countDown s t) t) t :=
  if_pos ((countDown_due s t).mpr h)

/-- A turn of the walk on a task that is not due. -/
private theorem wakeStep_not_due {s : Manager τ} {t : τ} (h : ¬ Due s t) :
    wakeStep idle s t = countDown s t :=
  if_neg (fun hc => h ((countDown_due s t).mp hc))

/-- A turn of the walk makes its task ready if it is due. -/
theorem wakeStep_readyList (s : Manager τ) {t : τ} (h : t ≠ idle) :
    (wakeStep idle s t).readyList
      = if Due s t then s.readyList ++ [t] else s.readyList := by
  by_cases hd : Due s t
  · rw [wakeStep_due idle hd, if_pos hd, taskSetReady_readyList, if_neg h]; rfl
  · rw [wakeStep_not_due idle hd, if_neg hd]; rfl

/-- A turn of the walk unlinks its task if it is due. -/
theorem wakeStep_sleepList (s : Manager τ) (t : τ) :
    (wakeStep idle s t).sleepList
      = if Due s t then s.sleepList.erase t else s.sleepList := by
  by_cases hd : Due s t
  · rw [wakeStep_due idle hd, if_pos hd, taskSetReady_sleepList]; rfl
  · rw [wakeStep_not_due idle hd, if_neg hd]; rfl

/-- The walk does not switch. -/
@[simp] theorem wakeStep_currTask (s : Manager τ) (t : τ) :
    (wakeStep idle s t).currTask = s.currTask := by
  unfold wakeStep
  dsimp only
  split
  · rw [taskSetReady_currTask]; rfl
  · rfl

/-- The walk leaves `task_list`. -/
@[simp] theorem wakeStep_taskList (s : Manager τ) (t : τ) :
    (wakeStep idle s t).taskList = s.taskList := by
  unfold wakeStep
  dsimp only
  split
  · rw [taskSetReady_taskList]; rfl
  · rfl

/-- The walk decrements the counter of the task it visits and no other. -/
theorem wakeStep_sleepTicks (s : Manager τ) (t u : τ) :
    ((wakeStep idle s t).task u).sleepTicks
      = if u = t then dec32 (s.task t).sleepTicks else (s.task u).sleepTicks := by
  have hdown : ((countDown s t).task u).sleepTicks
      = if u = t then dec32 (s.task t).sleepTicks else (s.task u).sleepTicks := by
    by_cases hu : u = t
    · rw [hu, countDown, modify_task_self, if_pos rfl]
    · rw [countDown, modify_task_of_ne s t _ hu, if_neg hu]
  by_cases hd : Due s t
  · rw [wakeStep_due idle hd,
      taskSetReady_field idle _ t u Task.sleepTicks (fun _ _ => rfl)]
    exact hdown
  · rw [wakeStep_not_due idle hd]
    exact hdown

/-- **THE WALK** over a part of the list, with what it does to each piece of
    the manager.  Induction over the part still to visit. -/
theorem walk_spec :
    ∀ (ts : List τ) (s : Manager τ), ts.Nodup → idle ∉ ts →
      (ts.foldl (wakeStep idle) s).readyList
          = s.readyList ++ ts.filter (fun t => Due s t) ∧
      (ts.foldl (wakeStep idle) s).sleepList
          = (ts.filter (fun t => Due s t)).foldl List.erase s.sleepList ∧
      (ts.foldl (wakeStep idle) s).currTask = s.currTask ∧
      (ts.foldl (wakeStep idle) s).taskList = s.taskList ∧
      ∀ u, ((ts.foldl (wakeStep idle) s).task u).sleepTicks
          = if u ∈ ts then dec32 (s.task u).sleepTicks
            else (s.task u).sleepTicks := by
  intro ts
  induction ts with
  | nil => intro s _ _; simp
  | cons t rest ih =>
      intro s hnd hid
      have htid : t ≠ idle := fun he => hid (by simp [he])
      have hrest : ∀ u ∈ rest, u ≠ t :=
        fun u hu he => (List.nodup_cons.mp hnd).1 (he ▸ hu)
      -- the tasks still to visit have the counters they had
      have hdue : rest.filter (fun u => Due (wakeStep idle s t) u)
          = rest.filter (fun u => Due s u) := by
        refine List.filter_congr ?_
        intro u hu
        refine decide_eq_decide.mpr ?_
        unfold Due
        rw [wakeStep_sleepTicks, if_neg (hrest u hu)]
      obtain ⟨h1, h2, h3, h4, h5⟩ := ih (wakeStep idle s t)
        (List.nodup_cons.mp hnd).2 (fun hm => hid (List.mem_cons_of_mem _ hm))
      simp only [List.foldl_cons]
      refine ⟨?_, ?_, ?_, ?_, ?_⟩
      · rw [h1, hdue, wakeStep_readyList idle s htid]
        by_cases hd : Due s t
        · simp [hd]
        · simp [hd]
      · rw [h2, hdue, wakeStep_sleepList]
        by_cases hd : Due s t
        · simp [hd]
        · simp [hd]
      · rw [h3, wakeStep_currTask]
      · rw [h4, wakeStep_taskList]
      · intro u
        rw [h5 u, wakeStep_sleepTicks]
        by_cases hut : u = t
        · subst hut
          have hur : u ∉ rest := (List.nodup_cons.mp hnd).1
          simp [hur]
        · simp [hut]

/-- Erasing the elements that meet `p`, one after another, leaves the others
    in their order. -/
theorem foldl_erase_filter (p : τ → Bool) (l : List τ) (h : l.Nodup) :
    (l.filter p).foldl List.erase l = l.filter (fun t => !p t) := by
  rw [← List.diff_eq_foldl, h.sdiff_eq_filter]
  refine List.filter_congr ?_
  intro t ht
  simp [ht]

section Result

variable {idle : τ} {s : Manager τ}

/-- The walk appends the tasks whose counter reaches 0 to `ready_list`, in
    `sleep_list` order. -/
theorem sleepWalk_readyList (hnd : s.sleepList.Nodup) (hid : idle ∉ s.sleepList) :
    (sleepWalk idle s).readyList
      = s.readyList ++ s.sleepList.filter (fun t => Due s t) :=
  (walk_spec idle s.sleepList s hnd hid).1

/-- The walk leaves the other sleepers on `sleep_list`, in order. -/
theorem sleepWalk_sleepList (hnd : s.sleepList.Nodup) (hid : idle ∉ s.sleepList) :
    (sleepWalk idle s).sleepList
      = s.sleepList.filter (fun t => !decide (Due s t)) := by
  rw [sleepWalk, (walk_spec idle s.sleepList s hnd hid).2.1]
  exact foldl_erase_filter (fun t => decide (Due s t)) s.sleepList hnd

/-- The whole walk does not switch. -/
theorem sleepWalk_currTask (hnd : s.sleepList.Nodup) (hid : idle ∉ s.sleepList) :
    (sleepWalk idle s).currTask = s.currTask :=
  (walk_spec idle s.sleepList s hnd hid).2.2.1

/-- The whole walk leaves `task_list`. -/
theorem sleepWalk_taskList (hnd : s.sleepList.Nodup) (hid : idle ∉ s.sleepList) :
    (sleepWalk idle s).taskList = s.taskList :=
  (walk_spec idle s.sleepList s hnd hid).2.2.2.1

/-- The walk decrements the counter of every sleeper and of no other task. -/
theorem sleepWalk_sleepTicks (hnd : s.sleepList.Nodup) (hid : idle ∉ s.sleepList)
    (u : τ) :
    ((sleepWalk idle s).task u).sleepTicks
      = if u ∈ s.sleepList then dec32 (s.task u).sleepTicks
        else (s.task u).sleepTicks :=
  (walk_spec idle s.sleepList s hnd hid).2.2.2.2 u

end Result

end Walk

end LittleOS.Sched
