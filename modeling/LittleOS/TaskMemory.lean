import LittleOS.KlistRun
import LittleOS.SchedQueues

/-! # The scheduler of `core/task.c` in memory

    The functions of `task.c` over the word memory of `LittleOS.Klist`, with the
    layouts of `task.h`; a task is its address:

        task_t + 0   state          task_manager_t + 0    curr_task
        task_t + 4   name           task_manager_t + 4    ready_list
        task_t + 36  sleep_ticks    task_manager_t + 24   task_list
        task_t + 40  slice_ticks    task_manager_t + 44   sleep_list
        task_t + 44  time_ticks     task_manager_t + 64   first_task
        task_t + 48  run_node       task_manager_t + 236  idle_task
        task_t + 56  all_node       task_manager_t + 408
        task_t + 64  tss, tss_sel
        task_t + 172

    `sys_sleep` acts on the task `curr_task` points to.  A task switch is the
    write of `curr_task`; the words of a TSS may change at any time.

    * `Represents` — the memory holds the queues and counters of a manager of
      `LittleOS.Sched`, and `n` in `task_list.len`;
    * one theorem for each function: it keeps this, with the function of
      `LittleOS.Sched` on the other side. -/

namespace LittleOS.TaskMemory

open Words Klist KlistRun Sched

/-- Two changes of one task are one change. -/
theorem modify_modify (s : Manager Nat) (t : Nat) (f g : Task → Task) :
    (s.modify t f).modify t g = s.modify t (fun c => g (f c)) := by
  simp [Manager.modify]

/-! ## Layouts -/

abbrev state (task : Nat) : Nat := task
abbrev sleepTicks (task : Nat) : Nat := task + 36
abbrev sliceTicks (task : Nat) : Nat := task + 40
abbrev timeTicks (task : Nat) : Nat := task + 44
abbrev runNode (task : Nat) : Nat := task + 48
abbrev allNode (task : Nat) : Nat := task + 56

abbrev currTask (tm : Nat) : Nat := tm
abbrev readyList (tm : Nat) : Nat := tm + 4
abbrev taskList (tm : Nat) : Nat := tm + 24
abbrev sleepList (tm : Nat) : Nat := tm + 44
abbrev firstTask (tm : Nat) : Nat := tm + 64
abbrev idleTask (tm : Nat) : Nat := tm + 236

/-- The values of `state_t`. -/
def stateWord : TaskState → Nat
  | .created => 0
  | .running => 1
  | .sleep => 2
  | .ready => 3
  | .waitting => 4

/-- `KLIST_STRUCT_ADDR(node, task_t, run_node)`. -/
def klistStructAddr (node : Nat) : Nat :=
  if node ≠ 0 then (node + (2 ^ 32 - 48)) % 2 ^ 32 else 0

/-! ## The functions -/

section Source

variable (fuel tm : Nat)

/-- `task_set_ready` -/
def taskSetReady (m : Mem) (task : Nat) : Mem :=
  if task = idleTask tm then m
  else
    let m := klistAppend m (readyList tm) (runNode task)
    m.write (state task) (stateWord .ready)

/-- `task_set_block`: the node that `klist_remove` unlinks need not be in the list. -/
def taskSetBlock (m : Mem) (task : Nat) : Option Mem :=
  if task = idleTask tm then some m
  else (klistRemove fuel m (readyList tm) (runNode task)).map Prod.fst

/-- `task_next_run` -/
def taskNextRun (m : Mem) : Nat :=
  if klistLen m (readyList tm) = 0 then idleTask tm
  else klistStructAddr (klistGetFirstNode m (readyList tm))

/-- `task_dispatch`, up to the switch. -/
def taskDispatch (m : Mem) : Mem :=
  let next := taskNextRun tm m
  if next ≠ m (currTask tm) then
    let m := m.write (currTask tm) next
    m.write (state next) (stateWord .running)
  else m

/-- The count is an `int`. -/
def sysSchedYield (m : Mem) : Option Mem :=
  if 1 < klistCount m (readyList tm) ∧ klistCount m (readyList tm) < 2 ^ 31 then
    let curr := m (currTask tm)
    (taskSetBlock fuel tm m curr).map
      (fun m => taskDispatch tm (taskSetReady tm m curr))
  else some m

/-- `task_set_sleep` -/
def taskSetSleep (m : Mem) (task ticks : Nat) : Mem :=
  if ticks = 0 then m
  else
    let m := m.write (sleepTicks task) ticks
    let m := m.write (state task) (stateWord .sleep)
    klistAppend m (sleepList tm) (runNode task)

/-- `task_set_wakeup` -/
def taskSetWakeup (m : Mem) (task : Nat) : Option Mem :=
  (klistRemove fuel m (sleepList tm) (runNode task)).map Prod.fst

/-- `sys_sleep` -/
def sysSleep (osTicksMs : Nat) (m : Mem) (ms : BitVec 32) : Option Mem :=
  let curr := m (currTask tm)
  (taskSetBlock fuel tm m curr).map (fun m =>
    taskDispatch tm (taskSetSleep tm m curr (sleepTicksOf osTicksMs ms)))

/-- The slice part of `task_time_tick`. -/
def taskTimeSlice (m : Mem) : Option Mem :=
  let curr := m (currTask tm)
  let m := m.write (sliceTicks curr) (dec32 (m (sliceTicks curr)))
  if m (sliceTicks curr) = 0 then
    let m := m.write (sliceTicks curr) (m (timeTicks curr))
    (taskSetBlock fuel tm m curr).map
      (fun m => taskDispatch tm (taskSetReady tm m curr))
  else some m

/-- The walk of `task_time_tick` from `curr` on. -/
def sleepWalk : Nat → Mem → Nat → Option Mem
  | 0, _, _ => none
  | turns + 1, m, curr =>
      if curr = 0 then some m
      else
        let task := klistStructAddr curr
        let next := klistGetNextNode m curr
        let m := m.write (sleepTicks task) (dec32 (m (sleepTicks task)))
        if m (sleepTicks task) = 0 then
          (taskSetWakeup fuel tm m task).bind (fun m =>
            sleepWalk turns (taskSetReady tm m task) next)
        else sleepWalk turns m next

/-- `task_time_tick` -/
def taskTimeTick (m : Mem) : Option Mem :=
  (taskTimeSlice fuel tm m).bind (fun m =>
    (sleepWalk fuel tm fuel m (klistGetFirstNode m (sleepList tm))).map
      (taskDispatch tm))

/-- Any change of the TSS and its selector. -/
def writeTss (m : Mem) (task : Nat) (tss : Mem) : Mem :=
  fun w => if task + 64 ≤ w ∧ w < task + 172 then tss w else m w

/-- `kmemcpy` copies `sizeof(name)`, the four bytes of a pointer; what
    `tss_init` writes is in `tss`. -/
def taskInit (m : Mem) (task name : Nat) (tss : Mem) : Mem :=
  let m := writeTss m task tss
  let m := m.write (state task) (stateWord .created)
  let m := m.write (task + 4) name
  let m := m.write (timeTicks task) taskTimeSliceDefault
  let m := m.write (sliceTicks task) (m (timeTicks task))
  let m := klistNodeInit m (runNode task)
  let m := klistNodeInit m (allNode task)
  let m := taskSetReady tm m task
  klistAppend m (taskList tm) (allNode task)

/-- `task_manager_init` -/
def taskManagerInit (m : Mem) (name : Nat) (tss : Mem) : Mem :=
  let m := klistInit m (readyList tm)
  let m := klistInit m (taskList tm)
  let m := klistInit m (sleepList tm)
  let m := m.write (currTask tm) 0
  taskInit tm m (idleTask tm) name tss

/-- `task_first_init` -/
def taskFirstInit (m : Mem) (name : Nat) (tss : Mem) : Mem :=
  let m := taskInit tm m (firstTask tm) name tss
  m.write (currTask tm) (firstTask tm)

end Source

/-! ## Tasks in memory -/

/-- The manager and the tasks are disjoint objects of a 32-bit memory. -/
structure Objects (tm : Nat) (T : Set Nat) : Prop where
  pos : 0 < tm
  bound : tm + 408 ≤ 2 ^ 32
  first : firstTask tm ∈ T
  idle : idleTask tm ∈ T
  task_pos : ∀ t ∈ T, 0 < t
  task_bound : ∀ t ∈ T, t + 172 ≤ 2 ^ 32
  outside : ∀ t ∈ T, t = firstTask tm ∨ t = idleTask tm ∨ t + 172 ≤ tm ∨
    tm + 408 ≤ t
  apart : ∀ t ∈ T, ∀ u ∈ T, t ≠ u → t + 172 ≤ u ∨ u + 172 ≤ t

namespace Objects

variable {tm : Nat} {T : Set Nat}

/-- Tasks lie outside the lists of the manager. -/
theorem off_lists (ho : Objects tm T) {t : Nat} (ht : t ∈ T) :
    t + 172 ≤ tm ∨ tm + 64 ≤ t := by
  have h := ho.outside t ht
  simp only [firstTask, idleTask] at h
  omega

/-- The two queues and the run nodes of the tasks are apart in memory. -/
theorem layout (ho : Objects tm T) :
    Layout [readyList tm, sleepList tm] (runNode '' T) where
  list_pos := by simp
  node_pos := by
    rintro n ⟨t, -, rfl⟩
    simp
  node_end := by
    rintro n ⟨t, ht, rfl⟩
    have := ho.task_bound t ht
    simp only [runNode]
    omega
  lists_apart := by
    intro l hl l' hl' hne
    simp only [List.mem_cons, List.not_mem_nil, or_false, readyList, sleepList]
      at hl hl'
    omega
  nodes_apart := by
    rintro n ⟨t, ht, rfl⟩ n' ⟨u, hu, rfl⟩ hne
    have := ho.apart t ht u hu (fun hc => hne (hc ▸ rfl))
    simp only [runNode]
    omega
  off_lists := by
    rintro n ⟨t, ht, rfl⟩ l hl
    have := ho.off_lists ht
    simp only [List.mem_cons, List.not_mem_nil, or_false, readyList, sleepList]
      at hl
    simp only [runNode]
    omega

/-- `KLIST_STRUCT_ADDR` of the `run_node` of a task is the task. -/
theorem klistStructAddr_runNode (ho : Objects tm T) {t : Nat} (ht : t ∈ T) :
    klistStructAddr (runNode t) = t := by
  have := ho.task_bound t ht
  unfold klistStructAddr runNode
  rw [if_pos (by omega)]
  omega

end Objects

/-- The words that the two queues do not use: `curr_task`, `task_list` and the
    fields of the tasks before `run_node`. -/
def OffQueues (tm : Nat) (T : Set Nat) (w : Nat) : Prop :=
  w = tm ∨ (tm + 24 ≤ w ∧ w < tm + 44) ∨ ∃ t ∈ T, t ≤ w ∧ w < t + 48

/-- The tasks on each queue. -/
def queue (tm : Nat) (s : Manager Nat) (l : Nat) : List Nat :=
  if l = readyList tm then s.readyList
  else if l = sleepList tm then s.sleepList
  else []

/-- The manager with one of its queues replaced. -/
def setQueue (tm : Nat) (s : Manager Nat) (l : Nat) (ts : List Nat) :
    Manager Nat :=
  if l = readyList tm then { s with readyList := ts }
  else if l = sleepList tm then { s with sleepList := ts }
  else s

/-- The head of `task_list` or the `all_node` of a task. -/
def LastNode (tm : Nat) (T : Set Nat) (a : Nat) : Prop :=
  a = head (taskList tm) ∨ ∃ t ∈ T, a = allNode t

/-- The last node of `task_list` is the sentinel's or that of a task. -/
theorem LastNode.cases {tm a : Nat} {T : Set Nat} (h : LastNode tm T a) :
    a = tm + 24 ∨ ∃ t ∈ T, a = t + 56 := h

/-- The memory holds the manager `s`, and `n` in `task_list.len`. -/
structure Represents (tm : Nat) (T : Set Nat) (n : Nat) (m : Mem)
    (s : Manager Nat) : Prop where
  queues : Holds [readyList tm, sleepList tm] (runNode '' T)
    (fun l => (queue tm s l).map runNode) m
  curr : m (currTask tm) = s.currTask.getD 0
  counters : ∀ t ∈ T, m (sleepTicks t) = (s.task t).sleepTicks ∧
    m (sliceTicks t) = (s.task t).sliceTicks ∧
    m (timeTicks t) = (s.task t).timeTicks
  created : ∀ t ∈ s.taskList, t ∈ T
  states : ∀ t ∈ s.taskList, m (state t) = stateWord (s.task t).state
  last : LastNode tm T (m (tail (taskList tm)))
  count : m (len (taskList tm)) = n

section Frames

variable {tm : Nat} {T : Set Nat} {n : Nat} {m m' : Mem} {s : Manager Nat}

/-- Each task has a run node of its own. -/
theorem runNode_injective : Function.Injective runNode := by
  intro t u h
  simp only [runNode] at h
  omega

/-- A word of the manager outside the queues, or of a task outside the
    `run_node` it may be queued with, is no word of a queue. -/
theorem Objects.not_covers (ho : Objects tm T) {l : Nat}
    (hl : l ∈ [readyList tm, sleepList tm]) {ts : List Nat} (hts : ∀ t ∈ ts, t ∈ T)
    {w : Nat}
    (hw : w = tm ∨ (tm + 24 ≤ w ∧ w < tm + 44) ∨
      ∃ t ∈ T, t ≤ w ∧ w < t + 172 ∧ (t ∈ ts → w < t + 48 ∨ t + 56 ≤ w)) :
    ¬ Covers l (ts.map runNode) w := by
  simp only [List.mem_cons, List.not_mem_nil, or_false, readyList, sleepList] at hl
  -- a word of the list lies in the manager or in a `run_node`
  have hsplit : Covers l (ts.map runNode) w →
      (l ≤ w ∧ w < l + 20) ∨ ∃ u ∈ ts, u + 48 ≤ w ∧ w < u + 56 := by
    rintro (h16 | ⟨c, hc, hcw⟩)
    · left; omega
    · rcases mem_cells.mp hc with h1 | h1 | h1
      · left; omega
      · right
        obtain ⟨u, hu, rfl⟩ := List.mem_map.mp h1
        simp only [runNode] at hcw
        exact ⟨u, hu, by omega, by omega⟩
      · left; omega
  intro hc
  rcases hsplit hc with h1 | ⟨u, hu, h1⟩
  · rcases hw with hw | hw | ⟨t, ht, hw⟩
    · omega
    · omega
    · have := ho.off_lists ht
      omega
  · have hoff := ho.off_lists (hts u hu)
    rcases hw with hw | hw | ⟨t, ht, h2, h3, h4⟩
    · omega
    · omega
    · by_cases htu : t = u
      · subst htu
        have := h4 hu
        omega
      · have := ho.apart t ht u (hts u hu) htu
        omega

/-- Where an address that is in no queue can be. -/
theorem OffQueues.outside {w : Nat} (hw : OffQueues tm T w) (ts : List Nat) :
    w = tm ∨ (tm + 24 ≤ w ∧ w < tm + 44) ∨
      ∃ t ∈ T, t ≤ w ∧ w < t + 172 ∧ (t ∈ ts → w < t + 48 ∨ t + 56 ≤ w) := by
  rcases hw with hw | hw | ⟨t, ht, h1, h2⟩
  · exact Or.inl hw
  · exact Or.inr (Or.inl hw)
  · exact Or.inr (Or.inr ⟨t, ht, h1, by omega, fun _ => Or.inl h2⟩)

/-- Words of the queues only: the rest of the manager is as it was. -/
theorem Objects.off_queues (ho : Objects tm T) {l : Nat}
    (hl : l ∈ [readyList tm, sleepList tm]) {ts : List Nat} (hts : ∀ t ∈ ts, t ∈ T)
    (hm : ∀ w, ¬ Covers l (ts.map runNode) w → m' w = m w) {w : Nat}
    (hw : OffQueues tm T w) : m' w = m w :=
  hm w (ho.not_covers hl hts (hw.outside ts))

/-- Replacing a queue changes what stands under its address and nothing else. -/
theorem queue_setQueue {l : Nat} (hl : l ∈ [readyList tm, sleepList tm])
    (ts : List Nat) :
    (fun k => (queue tm (setQueue tm s l ts) k).map runNode)
      = Function.update (fun k => (queue tm s k).map runNode) l
        (ts.map runNode) := by
  funext k
  simp only [List.mem_cons, List.not_mem_nil, or_false] at hl
  rw [Function.update_apply]
  rcases hl with rfl | rfl
  · by_cases hk : k = readyList tm
    · simp [queue, setQueue, hk]
    · simp [queue, setQueue, hk]
  · by_cases hk : k = sleepList tm
    · simp [queue, setQueue, hk]
    · simp [queue, setQueue, hk]

/-- Queues are not the current task. -/
@[simp] theorem setQueue_currTask (l : Nat) (ts : List Nat) :
    (setQueue tm s l ts).currTask = s.currTask := by
  unfold setQueue
  split <;> [rfl; (split <;> rfl)]

/-- Queues are not task fields. -/
@[simp] theorem setQueue_task (l : Nat) (ts : List Nat) :
    (setQueue tm s l ts).task = s.task := by
  unfold setQueue
  split <;> [rfl; (split <;> rfl)]

/-- Queues are not `task_list`. -/
@[simp] theorem setQueue_taskList (l : Nat) (ts : List Nat) :
    (setQueue tm s l ts).taskList = s.taskList := by
  unfold setQueue
  split <;> [rfl; (split <;> rfl)]

/-- Replacing the ready list. -/
theorem setQueue_ready (ts : List Nat) :
    setQueue tm s (readyList tm) ts = { s with readyList := ts } := if_pos rfl

/-- Replacing the sleep list. -/
theorem setQueue_sleep (ts : List Nat) :
    setQueue tm s (sleepList tm) ts = { s with sleepList := ts } := by
  have hne : sleepList tm ≠ readyList tm := by
    simp only [readyList, sleepList]
    omega
  unfold setQueue
  rw [if_neg hne, if_pos rfl]

/-- The ready list is a queue. -/
theorem ready_listed : readyList tm ∈ [readyList tm, sleepList tm] := by simp

/-- The sleep list is a queue. -/
theorem sleep_listed : sleepList tm ∈ [readyList tm, sleepList tm] := by simp

/-- What stands under the ready list's address. -/
theorem queue_ready : queue tm s (readyList tm) = s.readyList := if_pos rfl

/-- What stands under the sleep list's address. -/
theorem queue_sleep : queue tm s (sleepList tm) = s.sleepList := by
  have hne : sleepList tm ≠ readyList tm := by
    simp only [readyList, sleepList]
    omega
  unfold queue
  rw [if_neg hne, if_pos rfl]

namespace Represents

/-- Only tasks are queued. -/
theorem queue_mem (h : Represents tm T n m s) {l : Nat}
    (hl : l ∈ [readyList tm, sleepList tm]) : ∀ t ∈ queue tm s l, t ∈ T := by
  intro t ht
  obtain ⟨u, hu, he⟩ := h.queues.mem_nodes l hl _ (List.mem_map_of_mem ht)
  rw [← runNode_injective he]
  exact hu

/-- No task is in a queue twice. -/
theorem queue_nodup (h : Represents tm T n m s) {l : Nat}
    (hl : l ∈ [readyList tm, sleepList tm]) : (queue tm s l).Nodup :=
  (h.queues.nodup l hl).of_map _

/-- No task is in both queues. -/
theorem queue_disjoint (h : Represents tm T n m s) {l l' : Nat}
    (hl : l ∈ [readyList tm, sleepList tm]) (hl' : l' ∈ [readyList tm, sleepList tm])
    (hne : l ≠ l') : List.Disjoint (queue tm s l) (queue tm s l') :=
  fun _ h1 h2 => h.queues.disjoint l hl l' hl' hne (List.mem_map_of_mem h1)
    (List.mem_map_of_mem h2)

/-- What is not on the queues only reads words off them. -/
theorem of_queues (h : Represents tm T n m s) {s' : Manager Nat}
    (hq : Holds [readyList tm, sleepList tm] (runNode '' T)
      (fun l => (queue tm s' l).map runNode) m')
    (hcurr : s'.currTask = s.currTask) (htask : s'.task = s.task)
    (hlist : s'.taskList = s.taskList)
    (hm : ∀ w, OffQueues tm T w → m' w = m w) : Represents tm T n m' s' where
  queues := hq
  created := by rw [hlist]; exact h.created
  curr := by rw [hm _ (Or.inl rfl), hcurr]; exact h.curr
  counters := by
    intro t ht
    obtain ⟨h1, h2, h3⟩ := h.counters t ht
    rw [htask, hm _ (Or.inr (Or.inr ⟨t, ht, by simp, by simp⟩)),
      hm _ (Or.inr (Or.inr ⟨t, ht, by simp, by simp⟩)),
      hm _ (Or.inr (Or.inr ⟨t, ht, by simp, by simp⟩))]
    exact ⟨h1, h2, h3⟩
  states := by
    intro t ht
    rw [hlist] at ht
    rw [htask, hm _ (Or.inr (Or.inr ⟨t, h.created t ht, by simp, by simp⟩))]
    exact h.states t ht
  last := by
    rw [hm _ (Or.inr (Or.inl ⟨by simp only [tail, taskList]; omega,
      by simp only [tail, taskList]; omega⟩))]
    exact h.last
  count := by
    rw [hm _ (Or.inr (Or.inl ⟨by simp only [len, taskList]; omega,
      by simp only [len, taskList]; omega⟩))]
    exact h.count

/-- A change of words that the manager does not use. -/
theorem frame (h : Represents tm T n m s)
    (hq : ∀ l ∈ [readyList tm, sleepList tm], ∀ w,
      Covers l ((queue tm s l).map runNode) w → m' w = m w)
    (hm : ∀ w, OffQueues tm T w → m' w = m w) : Represents tm T n m' s :=
  h.of_queues (h.queues.frame hq) rfl rfl rfl hm

/-- New links of one queue. -/
theorem relink (h : Represents tm T n m s) (ho : Objects tm T) {l : Nat}
    (hl : l ∈ [readyList tm, sleepList tm]) {ts us : List Nat}
    (hr : IsList m' l (ts.map runNode)) (hx : ∀ t ∈ ts, t ∈ us) (hnd : ts.Nodup)
    (hus : ∀ t ∈ us, t ∈ T)
    (hd : ∀ l' ∈ [readyList tm, sleepList tm], l ≠ l' →
      List.Disjoint us (queue tm s l'))
    (hm : ∀ w, ¬ Covers l (us.map runNode) w → m' w = m w) :
    Represents tm T n m' (setQueue tm s l ts) := by
  refine h.of_queues ?_ (by simp) (by simp) (by simp)
    (fun w hw => ho.off_queues hl hus hm hw)
  rw [queue_setQueue hl]
  refine h.queues.update ho.layout hl hr ?_ (hnd.map runNode_injective) ?_ ?_ hm
  · intro x hx'
    obtain ⟨t, ht, rfl⟩ := List.mem_map.mp hx'
    exact List.mem_map_of_mem (hx t ht)
  · intro y hy
    obtain ⟨t, ht, rfl⟩ := List.mem_map.mp hy
    exact ⟨t, hus t ht, rfl⟩
  · intro l' hl' hne y hy hy'
    obtain ⟨t, ht, rfl⟩ := List.mem_map.mp hy
    obtain ⟨u, hu, he⟩ := List.mem_map.mp hy'
    rw [runNode_injective he] at hu
    exact hd l' hl' hne ht hu

/-- **APPENDING** a task that is on no queue. -/
theorem append (h : Represents tm T n m s) (ho : Objects tm T) {l : Nat}
    (hl : l ∈ [readyList tm, sleepList tm]) {t : Nat} (ht : t ∈ T)
    (hoff : ∀ l' ∈ [readyList tm, sleepList tm], t ∉ queue tm s l') :
    Represents tm T n (klistAppend m l (runNode t))
      (setQueue tm s l (queue tm s l ++ [t])) := by
  have hmem : ∀ u ∈ queue tm s l ++ [t], u ∈ T := by
    intro u hu
    rcases List.mem_append.mp hu with hu | hu
    · exact h.queue_mem hl u hu
    · rw [List.mem_singleton.mp hu]
      exact ht
  have hnd : (queue tm s l ++ [t]).Nodup := by
    refine List.nodup_append.mpr ⟨h.queue_nodup hl, List.nodup_singleton t, ?_⟩
    intro x hx y hy hxy
    exact hoff l hl (by rw [← List.mem_singleton.mp hy, ← hxy]; exact hx)
  have hplaced : Placed l ((queue tm s l).map runNode ++ [runNode t]) := by
    rw [← List.map_singleton, ← List.map_append]
    refine ho.layout.placed hl ?_ (hnd.map runNode_injective)
    intro x hx
    obtain ⟨u, hu, rfl⟩ := List.mem_map.mp hx
    exact ⟨u, hmem u hu, rfl⟩
  obtain ⟨hr, hm⟩ := klistAppend_isList (h.queues.isList l hl) hplaced
  rw [← List.map_singleton, ← List.map_append] at hr hm
  refine h.relink ho hl hr (fun _ hu => hu) hnd hmem ?_ hm
  intro l' hl' hne
  exact List.disjoint_append_left.mpr ⟨h.queue_disjoint hl hl' hne,
    List.singleton_disjoint.mpr (hoff l' hl')⟩

/-- **REMOVING** a task, on the queue or not. -/
theorem remove (h : Represents tm T n m s) (ho : Objects tm T) {l : Nat}
    (hl : l ∈ [readyList tm, sleepList tm]) {t : Nat} (ht : t ∈ T) {fuel : Nat}
    (hf : 2 ^ 29 + 2 ≤ fuel) :
    ∃ m' r, klistRemove fuel m l (runNode t) = some (m', r) ∧
      Represents tm T n m' (setQueue tm s l ((queue tm s l).erase t)) := by
  have hplaced := h.queues.placed ho.layout hl
  have hlen := ho.layout.length_le (h.queues.mem_nodes l hl) (h.queues.nodup l hl)
  by_cases hin : t ∈ queue tm s l
  · have hnode : runNode t ∈ (queue tm s l).map runNode := List.mem_map_of_mem hin
    obtain ⟨hr, hm⟩ := klistUnlink_isList (h.queues.isList l hl) hplaced hnode
    rw [← List.map_erase runNode_injective] at hr
    refine ⟨_, _, klistRemove_mem (h.queues.isList l hl) hplaced hnode (by omega),
      ?_⟩
    exact h.relink ho hl hr (fun _ hu => List.mem_of_mem_erase hu)
      ((h.queue_nodup hl).erase t) (h.queue_mem hl)
      (fun l' hl' hne => h.queue_disjoint hl hl' hne) hm
  · have hnode : runNode t ∉ (queue tm s l).map runNode := by
      intro hc
      obtain ⟨u, hu, he⟩ := List.mem_map.mp hc
      rw [runNode_injective he] at hu
      exact hin hu
    -- the search also visits the tail, which is no task's node
    have htail : runNode t ≠ tail l := by
      have := ho.off_lists ht
      simp only [List.mem_cons, List.not_mem_nil, or_false, readyList, sleepList]
        at hl
      simp only [runNode, tail]
      omega
    refine ⟨m, 0, klistRemove_absent (h.queues.isList l hl) hplaced htail hnode
      (by omega), ?_⟩
    have hsame : setQueue tm s l ((queue tm s l).erase t) = s := by
      rw [List.erase_of_not_mem hin]
      simp only [List.mem_cons, List.not_mem_nil, or_false] at hl
      rcases hl with rfl | rfl
      · rw [setQueue_ready, queue_ready]
      · rw [setQueue_sleep, queue_sleep]
    rw [hsame]
    exact h

/-- A write off the queues: the parts of the manager it may concern. -/
theorem write (h : Represents tm T n m s) (ho : Objects tm T) {a v : Nat}
    (ha : OffQueues tm T a) {s' : Manager Nat}
    (hq : ∀ l, queue tm s' l = queue tm s l)
    (hcurr : m.write a v (currTask tm) = s'.currTask.getD 0)
    (hcount : ∀ t ∈ T, m.write a v (sleepTicks t) = (s'.task t).sleepTicks ∧
      m.write a v (sliceTicks t) = (s'.task t).sliceTicks ∧
      m.write a v (timeTicks t) = (s'.task t).timeTicks)
    (hlist : s'.taskList = s.taskList)
    (hstate : ∀ t ∈ s.taskList, m.write a v (state t) = stateWord (s'.task t).state)
    (hlast : m.write a v (tail (taskList tm)) = m (tail (taskList tm)))
    (hlen : m.write a v (len (taskList tm)) = m (len (taskList tm))) :
    Represents tm T n (m.write a v) s' where
  queues := by
    simp only [hq]
    refine h.queues.frame ?_
    intro l hl w hw
    refine Mem.write_other ?_
    rintro rfl
    exact ho.not_covers hl (h.queue_mem hl) (ha.outside _) hw
  curr := hcurr
  counters := hcount
  created := by rw [hlist]; exact h.created
  states := by rw [hlist]; exact hstate
  last := by rw [hlast]; exact h.last
  count := by rw [hlen]; exact h.count

/-- A write of a field of one task. -/
theorem write_field (h : Represents tm T n m s) (ho : Objects tm T) {t off v : Nat}
    (ht : t ∈ T) (hoff : off < 48) {f : Task → Task}
    (hcount : m.write (t + off) v (sleepTicks t) = (f (s.task t)).sleepTicks ∧
      m.write (t + off) v (sliceTicks t) = (f (s.task t)).sliceTicks ∧
      m.write (t + off) v (timeTicks t) = (f (s.task t)).timeTicks)
    (hstate : t ∈ s.taskList →
      m.write (t + off) v (state t) = stateWord (f (s.task t)).state) :
    Represents tm T n (m.write (t + off) v) (s.modify t f) := by
  have hlists := ho.off_lists ht
  -- the words of the other tasks
  have hother : ∀ u ∈ T, u ≠ t → ∀ k < 48,
      m.write (t + off) v (u + k) = m (u + k) := by
    intro u hu hne k hk
    have := ho.apart u hu t ht hne
    exact Mem.write_other (by omega)
  refine h.write ho (Or.inr (Or.inr ⟨t, ht, by omega, by omega⟩)) (fun _ => rfl)
    ?_ ?_ rfl ?_ ?_ ?_
  · rw [Mem.write_other (by simp only [currTask]; omega)]
    exact h.curr
  · intro u hu
    by_cases hut : u = t
    · rw [hut, modify_task_self]
      exact hcount
    · rw [modify_task_of_ne s t f hut, hother u hu hut 36 (by omega),
        hother u hu hut 40 (by omega), hother u hu hut 44 (by omega)]
      exact h.counters u hu
  · intro u hu
    by_cases hut : u = t
    · subst hut
      rw [modify_task_self]
      exact hstate hu
    · rw [modify_task_of_ne s t f hut, show state u = u + 0 from rfl,
        hother u (h.created u hu) hut 0 (by omega)]
      exact h.states u hu
  · exact Mem.write_other (by simp only [tail, taskList]; omega)
  · exact Mem.write_other (by simp only [len, taskList]; omega)

/-- A store to `sleep_ticks`. -/
theorem set_sleepTicks (h : Represents tm T n m s) (ho : Objects tm T) {t : Nat}
    (ht : t ∈ T) (v : Nat) :
    Represents tm T n (m.write (sleepTicks t) v)
      (s.modify t (fun c => { c with sleepTicks := v })) := by
  obtain ⟨-, h2, h3⟩ := h.counters t ht
  refine h.write_field ho ht (by omega) ⟨Mem.write_same .., ?_, ?_⟩ ?_
  · rw [Mem.write_other (by simp), h2]
  · rw [Mem.write_other (by simp), h3]
  · intro hl
    rw [Mem.write_other (by simp), h.states t hl]

/-- A store to `slice_ticks`. -/
theorem set_sliceTicks (h : Represents tm T n m s) (ho : Objects tm T) {t : Nat}
    (ht : t ∈ T) (v : Nat) :
    Represents tm T n (m.write (sliceTicks t) v)
      (s.modify t (fun c => { c with sliceTicks := v })) := by
  obtain ⟨h1, -, h3⟩ := h.counters t ht
  refine h.write_field ho ht (by omega) ⟨?_, Mem.write_same .., ?_⟩ ?_
  · rw [Mem.write_other (by simp), h1]
  · rw [Mem.write_other (by simp), h3]
  · intro hl
    rw [Mem.write_other (by simp), h.states t hl]

/-- A store to `time_ticks`. -/
theorem set_timeTicks (h : Represents tm T n m s) (ho : Objects tm T) {t : Nat}
    (ht : t ∈ T) (v : Nat) :
    Represents tm T n (m.write (timeTicks t) v)
      (s.modify t (fun c => { c with timeTicks := v })) := by
  obtain ⟨h1, h2, -⟩ := h.counters t ht
  refine h.write_field ho ht (by omega) ⟨?_, ?_, Mem.write_same ..⟩ ?_
  · rw [Mem.write_other (by simp), h1]
  · rw [Mem.write_other (by simp), h2]
  · intro hl
    rw [Mem.write_other (by simp), h.states t hl]

/-- A store to the name, which the manager does not hold. -/
theorem set_name (h : Represents tm T n m s) (ho : Objects tm T) {t : Nat}
    (ht : t ∈ T) (v : Nat) : Represents tm T n (m.write (t + 4) v) s := by
  obtain ⟨h1, h2, h3⟩ := h.counters t ht
  have hsame : s.modify t id = s := by simp [Manager.modify]
  have h' := h.write_field ho ht (v := v) (f := id) (show 4 < 48 by omega)
    ⟨by rw [Mem.write_other (by simp), h1]; rfl,
      by rw [Mem.write_other (by simp), h2]; rfl,
      by rw [Mem.write_other (by simp), h3]; rfl⟩
    (fun hl => by rw [Mem.write_other (by simp), h.states t hl]; rfl)
  rwa [hsame] at h'

/-- A store to `state`. -/
theorem set_state (h : Represents tm T n m s) (ho : Objects tm T) {t : Nat}
    (ht : t ∈ T) (st : TaskState) :
    Represents tm T n (m.write (state t) (stateWord st))
      (s.modify t (fun c => { c with state := st })) := by
  obtain ⟨h1, h2, h3⟩ := h.counters t ht
  refine h.write_field ho ht (show 0 < 48 by omega) ⟨?_, ?_, ?_⟩ ?_
  · rw [Mem.write_other (by simp), h1]
  · rw [Mem.write_other (by simp), h2]
  · rw [Mem.write_other (by simp), h3]
  · exact fun _ => Mem.write_same ..

/-- A store to `curr_task`, 0 for none. -/
theorem set_currTask (h : Represents tm T n m s) (ho : Objects tm T) (c : Option Nat) :
    Represents tm T n (m.write (currTask tm) (c.getD 0)) { s with currTask := c } := by
  have hother : ∀ t ∈ T, ∀ k < 48,
      m.write (currTask tm) (c.getD 0) (t + k) = m (t + k) := by
    intro t ht k hk
    have := ho.off_lists ht
    exact Mem.write_other (by simp only [currTask]; omega)
  refine h.write ho (Or.inl rfl) (fun _ => rfl) (Mem.write_same ..) ?_ rfl ?_ ?_ ?_
  · intro t ht
    rw [hother t ht 36 (by omega), hother t ht 40 (by omega),
      hother t ht 44 (by omega)]
    exact h.counters t ht
  · intro t ht
    rw [show state t = t + 0 from rfl, hother t (h.created t ht) 0 (by omega)]
    exact h.states t ht
  · exact Mem.write_other (by simp only [tail, taskList]; omega)
  · exact Mem.write_other (by simp only [len, taskList]; omega)

end Represents

/-! ## The functions -/

namespace Represents

/-- What is ready is a task. -/
theorem ready_mem (h : Represents tm T n m s) {t : Nat} (ht : t ∈ s.readyList) :
    t ∈ T :=
  h.queue_mem (l := readyList tm) (by simp) t (by rw [queue_ready]; exact ht)

/-- What sleeps is a task. -/
theorem sleep_mem (h : Represents tm T n m s) {t : Nat} (ht : t ∈ s.sleepList) :
    t ∈ T :=
  h.queue_mem (l := sleepList tm) (by simp) t (by rw [queue_sleep]; exact ht)

/-- The ready list is well linked in memory. -/
theorem ready_isList (h : Represents tm T n m s) :
    IsList m (readyList tm) (s.readyList.map runNode) := by
  have := h.queues.isList (readyList tm) (by simp)
  rwa [queue_ready] at this

/-- The sleep list is well linked in memory. -/
theorem sleep_isList (h : Represents tm T n m s) :
    IsList m (sleepList tm) (s.sleepList.map runNode) := by
  have := h.queues.isList (sleepList tm) (by simp)
  rwa [queue_sleep] at this

/-- The lists are far shorter than their counters can say. -/
theorem ready_length (h : Represents tm T n m s) (ho : Objects tm T) :
    s.readyList.length ≤ 2 ^ 29 := by
  have hlen := ho.layout.length_le (h.queues.mem_nodes (readyList tm) (by simp))
    (h.queues.nodup (readyList tm) (by simp))
  rwa [List.length_map, queue_ready] at hlen

/-- Making a task ready in memory is making it ready, for a task that is in no queue. -/
theorem taskSetReady (h : Represents tm T n m s) (ho : Objects tm T) {t : Nat}
    (ht : t ∈ T) (hoff : t = idleTask tm ∨ t ∉ s.readyList ∧ t ∉ s.sleepList) :
    Represents tm T n (TaskMemory.taskSetReady tm m t)
      (Sched.taskSetReady (idleTask tm) s t) := by
  unfold TaskMemory.taskSetReady Sched.taskSetReady
  by_cases hi : t = idleTask tm
  · rw [if_pos hi, if_pos hi]
    exact h
  · rw [if_neg hi, if_neg hi]
    obtain ⟨h1, h2⟩ := hoff.resolve_left hi
    have happ := h.append ho (l := readyList tm) (by simp) ht (by
      simp only [List.mem_cons, List.not_mem_nil, or_false]
      rintro l' (rfl | rfl)
      · rw [queue_ready]; exact h1
      · rw [queue_sleep]; exact h2)
    rw [setQueue_ready, queue_ready] at happ
    exact happ.set_state ho ht .ready

/-- Blocking a task comes back and is blocking it. -/
theorem taskSetBlock (h : Represents tm T n m s) (ho : Objects tm T) {t : Nat}
    (ht : t ∈ T) {fuel : Nat} (hf : 2 ^ 29 + 2 ≤ fuel) :
    ∃ m', TaskMemory.taskSetBlock fuel tm m t = some m' ∧
      Represents tm T n m' (Sched.taskSetBlock (idleTask tm) s t) := by
  unfold TaskMemory.taskSetBlock Sched.taskSetBlock
  by_cases hi : t = idleTask tm
  · rw [if_pos hi, if_pos hi]
    exact ⟨m, rfl, h⟩
  · rw [if_neg hi, if_neg hi]
    obtain ⟨m', r, hrem, h'⟩ := h.remove ho (l := readyList tm) (by simp) ht hf
    rw [setQueue_ready, queue_ready] at h'
    exact ⟨m', by rw [hrem]; rfl, h'⟩

/-- Waking a task up comes back and is waking it up. -/
theorem taskSetWakeup (h : Represents tm T n m s) (ho : Objects tm T) {t : Nat}
    (ht : t ∈ T) {fuel : Nat} (hf : 2 ^ 29 + 2 ≤ fuel) :
    ∃ m', TaskMemory.taskSetWakeup fuel tm m t = some m' ∧
      Represents tm T n m' (Sched.taskSetWakeup s t) := by
  obtain ⟨m', r, hrem, h'⟩ := h.remove ho (l := sleepList tm) (by simp) ht hf
  rw [setQueue_sleep, queue_sleep] at h'
  refine ⟨m', ?_, h'⟩
  unfold TaskMemory.taskSetWakeup
  rw [hrem]
  rfl

/-- Putting a task to sleep is putting it to sleep, for a task that is in no queue. -/
theorem taskSetSleep (h : Represents tm T n m s) (ho : Objects tm T) {t : Nat}
    (ht : t ∈ T) (hoff : t ∉ s.readyList ∧ t ∉ s.sleepList) (ticks : Nat) :
    Represents tm T n (TaskMemory.taskSetSleep tm m t ticks)
      (Sched.taskSetSleep s t ticks) := by
  unfold TaskMemory.taskSetSleep Sched.taskSetSleep
  by_cases h0 : ticks = 0
  · rw [if_pos h0, if_pos h0]
    exact h
  · rw [if_neg h0, if_neg h0]
    have happ := ((h.set_sleepTicks ho ht ticks).set_state ho ht .sleep).append ho
      (l := sleepList tm) (by simp) ht (by
        simp only [List.mem_cons, List.not_mem_nil, or_false]
        rintro l' (rfl | rfl)
        · rw [queue_ready]; exact hoff.1
        · rw [queue_sleep]; exact hoff.2)
    rw [setQueue_sleep, queue_sleep, modify_modify] at happ
    exact happ

/-- Memory and queues agree on the next task: the first ready one, found behind its
    node, or the idle task. -/
theorem taskNextRun (h : Represents tm T n m s) (ho : Objects tm T) :
    TaskMemory.taskNextRun tm m = Sched.taskNextRun (idleTask tm) s := by
  have hlist := h.ready_isList
  have hle := h.ready_length ho
  have hlen := hlist.len_eq
  rw [List.length_map] at hlen
  unfold TaskMemory.taskNextRun Sched.taskNextRun klistLen klistGetFirstNode
  cases hq : s.readyList with
  | nil =>
      rw [hq] at hlen
      exact if_pos hlen
  | cons t rest =>
      rw [hq] at hlen hle hlist
      rw [List.length_cons] at hlen hle
      rw [if_neg (by omega)]
      have hsplit : (t :: rest).map runNode ++ [tail (readyList tm)]
          = runNode t :: (rest.map runNode ++ [tail (readyList tm)]) := rfl
      have hfirst : m (readyList tm + 4) = runNode t := hlist.first hsplit
      have ht : t ∈ T := h.ready_mem (by rw [hq]; simp)
      show klistStructAddr (m (readyList tm + 4)) = t
      rw [hfirst, ho.klistStructAddr_runNode ht]

/-- The next task is a task. -/
theorem next_mem (h : Represents tm T n m s) (ho : Objects tm T) :
    Sched.taskNextRun (idleTask tm) s ∈ T := by
  have hnext : Sched.taskNextRun (idleTask tm) s = idleTask tm ∨
      Sched.taskNextRun (idleTask tm) s ∈ s.readyList := SchedQueues.taskNextRun_mem s
  rcases hnext with hi | hr
  · rw [hi]
    exact ho.idle
  · exact h.ready_mem hr

/-- Dispatching in memory is dispatching. -/
theorem taskDispatch (h : Represents tm T n m s) (ho : Objects tm T) :
    Represents tm T n (TaskMemory.taskDispatch tm m)
      (Sched.taskDispatch (idleTask tm) s) := by
  have hmem := h.next_mem ho
  have hpos := ho.task_pos _ hmem
  have hsame : Sched.taskNextRun (idleTask tm) s = m (currTask tm)
      ↔ some (Sched.taskNextRun (idleTask tm) s) = s.currTask := by
    rw [h.curr]
    cases s.currTask with
    | none => exact iff_of_false (by simp; omega) nofun
    | some c => simp
  unfold TaskMemory.taskDispatch Sched.taskDispatch
  dsimp only
  rw [h.taskNextRun ho]
  by_cases hc : some (Sched.taskNextRun (idleTask tm) s) = s.currTask
  · rw [if_pos hc, if_neg (fun hn => hn (hsame.mpr hc))]
    exact h
  · rw [if_neg hc, if_pos (fun he => hc (hsame.mp he))]
    have hcurr := h.set_currTask ho (some (Sched.taskNextRun (idleTask tm) s))
    exact hcurr.set_state ho hmem .running

/-! ## The calls -/

/-- What holds between two calls: nothing is queued twice, and the current task
    is the idle one or ready. -/
structure Steady (tm : Nat) (s : Manager Nat) (c : Nat) : Prop where
  sound : SchedQueues.Sound (idleTask tm) s
  idle : idleTask tm ∈ s.taskList
  curr : s.currTask = some c
  ready : c = idleTask tm ∨ c ∈ s.readyList

/-- The current task is a task. -/
theorem curr_mem (h : Represents tm T n m s) (ho : Objects tm T) {c : Nat}
    (hc : c = idleTask tm ∨ c ∈ s.readyList) : c ∈ T := by
  rcases hc with rfl | hc
  · exact ho.idle
  · exact h.ready_mem hc

/-- Blocking the current task and readying it again. -/
theorem requeue (h : Represents tm T n m s) (ho : Objects tm T)
    (hs : SchedQueues.Sound (idleTask tm) s) {c : Nat}
    (hc : c = idleTask tm ∨ c ∈ s.readyList) {fuel : Nat}
    (hf : 2 ^ 29 + 2 ≤ fuel) :
    ∃ m', TaskMemory.taskSetBlock fuel tm m c = some m' ∧
      Represents tm T n (TaskMemory.taskSetReady tm m' c)
        (Sched.taskSetReady (idleTask tm) (Sched.taskSetBlock (idleTask tm) s c) c) := by
  have hmem := h.curr_mem ho hc
  obtain ⟨m', hblock, h'⟩ := h.taskSetBlock ho hmem hf
  refine ⟨m', hblock, h'.taskSetReady ho hmem ?_⟩
  by_cases hi : c = idleTask tm
  · exact Or.inl hi
  · have hr := hc.resolve_left hi
    right
    rw [taskSetBlock_readyList, if_neg hi, taskSetBlock_sleepList]
    exact ⟨hs.ready_nodup.not_mem_erase, fun hsl => hs.disjoint hr hsl⟩

/-- Changes that agree on the task they are made to are one. -/
theorem modify_congr {t : Nat} {f g : Task → Task} (h : f (s.task t) = g (s.task t)) :
    s.modify t f = s.modify t g := by
  unfold Manager.modify
  rw [h]

/-- **THE SLICE PART** of `task_time_tick`. -/
theorem taskTimeSlice (h : Represents tm T n m s) (ho : Objects tm T) {c : Nat}
    (hst : Steady tm s c) {fuel : Nat} (hf : 2 ^ 29 + 2 ≤ fuel) :
    ∃ m', TaskMemory.taskTimeSlice fuel tm m = some m' ∧
      Represents tm T n m' (Sched.taskTimeSlice (idleTask tm) s) := by
  have hmem := h.curr_mem ho hst.ready
  have hcurr : m (currTask tm) = c := by rw [h.curr, hst.curr]; rfl
  obtain ⟨-, hslice, -⟩ := h.counters c hmem
  have h₁ := h.set_sliceTicks ho hmem (dec32 (m (sliceTicks c)))
  rw [hslice, modify_congr (s := s) (t := c)
    (g := fun d => { d with sliceTicks := dec32 d.sliceTicks }) rfl] at h₁
  obtain ⟨-, hslice₁, htime₁⟩ := h₁.counters c hmem
  unfold TaskMemory.taskTimeSlice Sched.taskTimeSlice Sched.sliceTick
  dsimp only
  rw [hcurr, hst.curr, hslice]
  dsimp only
  rw [hslice₁]
  split
  · have h₂ := h₁.set_sliceTicks ho hmem
      (m.write (sliceTicks c) (dec32 (s.task c).sliceTicks) (timeTicks c))
    rw [htime₁, modify_congr (s := s.modify c _) (t := c)
      (g := fun d => { d with sliceTicks := d.timeTicks }) rfl] at h₂
    obtain ⟨m', hblock, h'⟩ := h₂.requeue ho
      (hst.sound.of_same (SchedQueues.same_of_eq rfl rfl rfl)) hst.ready hf
    rw [htime₁, hblock]
    exact ⟨_, rfl, h'.taskDispatch ho⟩
  · exact ⟨_, rfl, h₁⟩

/-- **`sys_sched_yield`** -/
theorem sysSchedYield (h : Represents tm T n m s) (ho : Objects tm T) {c : Nat}
    (hst : Steady tm s c) {fuel : Nat} (hf : 2 ^ 29 + 2 ≤ fuel) :
    ∃ m', TaskMemory.sysSchedYield fuel tm m = some m' ∧
      Represents tm T n m' (Sched.sysSchedYield (idleTask tm) s) := by
  have hcurr : m (currTask tm) = c := by rw [h.curr, hst.curr]; rfl
  have hle := h.ready_length ho
  have hlen : klistCount m (readyList tm) = s.readyList.length := by
    have := h.ready_isList.len_eq
    rw [List.length_map] at this
    unfold klistCount
    omega
  unfold TaskMemory.sysSchedYield Sched.sysSchedYield Sched.yieldRequeue
  rw [hlen]
  by_cases hmany : 1 < s.readyList.length
  · obtain ⟨m', hblock, h'⟩ := h.requeue ho hst.sound hst.ready hf
    rw [if_pos ⟨hmany, by omega⟩, if_pos hmany, hst.curr]
    dsimp only
    rw [hcurr, hblock]
    exact ⟨_, rfl, h'.taskDispatch ho⟩
  · rw [if_neg (fun hc => hmany hc.1), if_neg hmany]
    exact ⟨m, rfl, h⟩

/-- **`sys_sleep`** of a task other than the idle one. -/
theorem sysSleep (h : Represents tm T n m s) (ho : Objects tm T) {c : Nat}
    (hst : Steady tm s c) (hci : c ≠ idleTask tm) {fuel : Nat}
    (hf : 2 ^ 29 + 2 ≤ fuel) (osTicksMs : Nat) (ms : BitVec 32) :
    ∃ m', TaskMemory.sysSleep fuel tm osTicksMs m ms = some m' ∧
      Represents tm T n m' (Sched.sysSleep (idleTask tm) osTicksMs s ms) := by
  have hmem := h.curr_mem ho hst.ready
  have hr := hst.ready.resolve_left hci
  have hcurr : m (currTask tm) = c := by rw [h.curr, hst.curr]; rfl
  obtain ⟨m', hblock, h'⟩ := h.taskSetBlock ho hmem hf
  have hsleep := h'.taskSetSleep ho hmem (by
    rw [taskSetBlock_readyList, if_neg hci, taskSetBlock_sleepList]
    exact ⟨hst.sound.ready_nodup.not_mem_erase,
      fun hsl => hst.sound.disjoint hr hsl⟩) (sleepTicksOf osTicksMs ms)
  unfold TaskMemory.sysSleep Sched.sysSleep Sched.sleepBlock
  rw [hst.curr]
  dsimp only
  rw [hcurr, hblock]
  exact ⟨_, rfl, hsleep.taskDispatch ho⟩

/-! ## `task_init` -/

/-- Words of a task behind `run_node`, or in the `run_node` of a task that is
    not queued. -/
theorem frame_task (h : Represents tm T n m s) (ho : Objects tm T) {t : Nat}
    (ht : t ∈ T) (hoff : ∀ l ∈ [readyList tm, sleepList tm], t ∉ queue tm s l)
    (hm : ∀ w, (w < t + 48 ∨ t + 172 ≤ w) → m' w = m w) :
    Represents tm T n m' s := by
  have hlists := ho.off_lists ht
  refine h.frame ?_ ?_
  · intro l hl w hw
    refine hm w ?_
    by_contra hc
    exact ho.not_covers hl (h.queue_mem hl) (Or.inr (Or.inr ⟨t, ht, by omega,
      by omega, fun hin => absurd hin (hoff l hl)⟩)) hw
  · rintro w (hw | hw | ⟨u, hu, h1, h2⟩)
    · exact hm w (by omega)
    · exact hm w (by omega)
    · by_cases hut : u = t
      · exact hm w (by omega)
      · have := ho.apart u hu t ht hut
        exact hm w (by omega)

/-- The task joins `task_list` with the state it is given. -/
theorem adopt (h : Represents tm T n m s) (ho : Objects tm T) {t : Nat}
    (ht : t ∈ T) :
    Represents tm T n (m.write (state t) (stateWord .created))
      ({ s with taskList := s.taskList ++ [t] }.modify t
        (fun c => { c with state := .created })) := by
  have h' := h.set_state ho ht .created
  refine ⟨h'.queues, h'.curr, h'.counters, ?_, ?_, h'.last, h'.count⟩
  · intro u hu
    rcases List.mem_append.mp hu with hu | hu
    · exact h.created u hu
    · rw [List.mem_singleton.mp hu]
      exact ht
  · intro u hu
    rcases List.mem_append.mp hu with hu | hu
    · exact h'.states u hu
    · rw [List.mem_singleton.mp hu, modify_task_self]
      exact Mem.write_same ..

/-- Linking the `all_node` of a task into `task_list`. -/
theorem append_all (h : Represents tm T n m s) (ho : Objects tm T) {t : Nat}
    (ht : t ∈ T) :
    Represents tm T (inc32 n) (klistAppend m (taskList tm) (allNode t)) s := by
  have hlists := ho.off_lists ht
  obtain ⟨a, ha, hpos⟩ : ∃ a, m (taskList tm + 8) = a ∧ LastNode tm T a :=
    ⟨_, rfl, h.last⟩
  have hne : m (taskList tm + 8) + 4 ≠ taskList tm + 16 := by
    rw [ha]
    rcases hpos.cases with rfl | ⟨u, hu, rfl⟩
    · simp only [taskList]; omega
    · have := ho.off_lists hu
      simp only [taskList]; omega
  have heff := fun w => klistAppend_apply m (taskList tm) (allNode t) w
    (by simp only [taskList, allNode]; omega) hne
  rw [ha] at heff
  simp only [taskList, allNode] at heff
  have hkeep : ∀ w, w ≠ tm + 40 → w ≠ tm + 32 → w ≠ a + 4 → w ≠ t + 56 →
      w ≠ t + 60 → klistAppend m (taskList tm) (allNode t) w = m w := by
    intro w h1 h2 h3 h4 h5
    rw [heff, if_neg (by omega), if_neg (by omega), if_neg h3, if_neg h4,
      if_neg (by omega)]
  -- words of the queues and fields of tasks are none of the five
  have hq : ∀ l ∈ [readyList tm, sleepList tm], ∀ w,
      Covers l ((queue tm s l).map runNode) w →
      klistAppend m (taskList tm) (allNode t) w = m w := by
    intro l hl w hw
    have hsub := h.queue_mem hl
    have houtside : ∀ u ∈ T, u ≤ w → w < u + 172 → ¬ (w < u + 48 ∨ u + 56 ≤ w) :=
      fun u hu h1 h2 hc => ho.not_covers hl hsub
        (Or.inr (Or.inr ⟨u, hu, h1, h2, fun _ => hc⟩)) hw
    have hmid : ¬ (tm + 24 ≤ w ∧ w < tm + 44) :=
      fun hc => ho.not_covers hl hsub (Or.inr (Or.inl hc)) hw
    have htw := houtside t ht
    refine hkeep w (by omega) (by omega) ?_ (by omega) (by omega)
    rcases hpos.cases with rfl | ⟨u, hu, rfl⟩
    · omega
    · have := houtside u hu
      omega
  have hfield : ∀ u ∈ T, ∀ k < 48,
      klistAppend m (taskList tm) (allNode t) (u + k) = m (u + k) := by
    intro u hu k hk
    have hul := ho.off_lists hu
    have hsep : ∀ v ∈ T, u + k ≠ v + 56 ∧ u + k ≠ v + 60 := by
      intro v hv
      by_cases huv : u = v
      · omega
      · have := ho.apart u hu v hv huv
        omega
    obtain ⟨ht1, ht2⟩ := hsep t ht
    refine hkeep _ (by omega) (by omega) ?_ ht1 ht2
    rcases hpos.cases with rfl | ⟨v, hv, rfl⟩
    · omega
    · exact (hsep v hv).2
  have hcurr : klistAppend m (taskList tm) (allNode t) tm = m tm := by
    refine hkeep tm (by omega) (by omega) ?_ (by omega) (by omega)
    rcases hpos.cases with rfl | ⟨u, hu, rfl⟩
    · omega
    · have := ho.off_lists hu
      omega
  refine ⟨h.queues.frame hq, hcurr.trans h.curr, ?_, h.created, ?_, ?_, ?_⟩
  · intro u hu
    rw [hfield u hu 36 (by omega), hfield u hu 40 (by omega),
      hfield u hu 44 (by omega)]
    exact h.counters u hu
  · intro u hu
    exact (hfield u (h.created u hu) 0 (by omega)).trans (h.states u hu)
  · right
    refine ⟨t, ht, ?_⟩
    show klistAppend m (taskList tm) (allNode t) (tm + 32) = allNode t
    rw [heff, if_neg (by omega), if_pos rfl]
  · show klistAppend m (taskList tm) (allNode t) (tm + 40) = inc32 n
    rw [heff, if_pos rfl]
    exact congrArg inc32 h.count

/-- `Sched.taskInit` with the new task on `taskList` from the start. -/
theorem taskInit_eq (t : Nat) :
    Sched.taskInit (idleTask tm) s t
      = Sched.taskSetReady (idleTask tm)
        ((({ s with taskList := s.taskList ++ [t] }.modify t
          (fun c => { c with state := .created })).modify t
          (fun c => { c with timeTicks := taskTimeSliceDefault })).modify t
          (fun c => { c with sliceTicks := taskTimeSliceDefault })) t := by
  rw [modify_modify, modify_modify]
  unfold Sched.taskInit Sched.taskSetReady
  dsimp only
  split
  · rfl
  · rfl

/-- Initialising a node writes its two links only. -/
theorem klistNodeInit_apply (m : Mem) {node w : Nat} (h : w < node ∨ node + 8 ≤ w) :
    klistNodeInit m node w = m w := by
  have h1 : w ≠ node := by omega
  have h2 : w ≠ node + 4 := by omega
  simp [klistNodeInit, h1, h2]

/-- **`task_init`** of a task that is on no queue. -/
theorem taskInit (h : Represents tm T n m s) (ho : Objects tm T) {t : Nat}
    (ht : t ∈ T) (hoff : t ∉ s.readyList ∧ t ∉ s.sleepList) (name : Nat) (tss : Mem) :
    Represents tm T (inc32 n) (TaskMemory.taskInit tm m t name tss)
      (Sched.taskInit (idleTask tm) s t) := by
  have hqueue : ∀ s' : Manager Nat, s'.readyList = s.readyList →
      s'.sleepList = s.sleepList →
      ∀ l ∈ [readyList tm, sleepList tm], t ∉ queue tm s' l := by
    intro s' h1 h2 l hl
    simp only [List.mem_cons, List.not_mem_nil, or_false] at hl
    rcases hl with rfl | rfl
    · rw [queue_ready, h1]; exact hoff.1
    · rw [queue_sleep, h2]; exact hoff.2
  have h₁ : Represents tm T n (writeTss m t tss) s := by
    refine h.frame_task ho ht (hqueue s rfl rfl) ?_
    intro w hw
    exact if_neg (by omega)
  have h₂ := ((h₁.adopt ho ht).set_name ho ht name).set_timeTicks ho ht
    taskTimeSliceDefault
  have h₃ := h₂.set_sliceTicks ho ht taskTimeSliceDefault
  have hnodes : ∀ (m : Mem) (w : Nat), (w < t + 48 ∨ t + 172 ≤ w) →
      klistNodeInit (klistNodeInit m (runNode t)) (allNode t) w = m w := by
    intro m w hw
    rw [klistNodeInit_apply _ (by simp only [allNode]; omega),
      klistNodeInit_apply _ (by simp only [runNode]; omega)]
  have h₄ := h₃.frame_task ho ht (hqueue _ rfl rfl) (hnodes _)
  have h₅ := (h₄.taskSetReady ho ht (Or.inr hoff)).append_all ho ht
  rw [taskInit_eq]
  unfold TaskMemory.taskInit
  dsimp only
  rw [Mem.write_same]
  exact h₅

/-! ## The boot -/

/-- The manager after the three `klist_init`. -/
def emptyLists (tm : Nat) (m : Mem) : Mem :=
  (klistInit (klistInit (klistInit m (readyList tm)) (taskList tm))
    (sleepList tm)).write (currTask tm) 0

/-- The counters a memory has for the tasks. -/
def rawTask (m : Mem) (t : Nat) : Task :=
  ⟨.created, m (sleepTicks t), m (sliceTicks t), m (timeTicks t)⟩

/-- The manager with three empty lists and the fields that memory holds. -/
def emptyManager (m : Mem) : Manager Nat where
  currTask := none
  readyList := []
  taskList := []
  sleepList := []
  task := rawTask m

/-- Initialising the lists writes to the manager only. -/
theorem emptyLists_outside (m : Mem) {w : Nat} (hw : w < tm ∨ tm + 64 ≤ w) :
    emptyLists tm m w = m w := by
  unfold emptyLists
  rw [Mem.write_other (by simp only [currTask]; omega),
    klistInit_frame (by simp only [sleepList]; omega),
    klistInit_frame (by simp only [taskList]; omega),
    klistInit_frame (by simp only [readyList]; omega)]

/-- The words of `task_list` are those its `klist_init` left. -/
theorem emptyLists_taskList (m : Mem) {w : Nat} (h1 : tm + 24 ≤ w) (h2 : w < tm + 44) :
    emptyLists tm m w = klistInit (klistInit m (readyList tm)) (taskList tm) w := by
  unfold emptyLists
  rw [Mem.write_other (by simp only [currTask]; omega),
    klistInit_frame (by simp only [sleepList]; omega)]

/-- An empty list covers its five words. -/
theorem Covers.nil_range {l w : Nat} (h : Covers l [] w) : l ≤ w ∧ w < l + 20 := by
  rcases h with h16 | ⟨c, hc, hcw⟩
  · omega
  · rcases mem_cells.mp hc with h1 | h1 | h1
    · omega
    · exact nomatch h1
    · omega

/-- The ready list is empty after its initialisation. -/
theorem emptyLists_readyList (m : Mem) :
    IsList (emptyLists tm m) (readyList tm) [] := by
  refine (klistInit_isList m (readyList tm)).frame ?_
  intro w hw
  have hrange := Covers.nil_range hw
  simp only [readyList] at hrange
  unfold emptyLists
  rw [Mem.write_other (by simp only [currTask]; omega),
    klistInit_frame (by simp only [sleepList]; omega),
    klistInit_frame (by simp only [taskList]; omega)]

/-- The sleep list is empty after its initialisation. -/
theorem emptyLists_sleepList (m : Mem) :
    IsList (emptyLists tm m) (sleepList tm) [] := by
  refine (klistInit_isList (klistInit (klistInit m (readyList tm)) (taskList tm))
    (sleepList tm)).frame ?_
  intro w hw
  have hrange := Covers.nil_range hw
  simp only [sleepList] at hrange
  unfold emptyLists
  rw [Mem.write_other (by simp only [currTask]; omega)]

/-- Whatever memory held, the three initialised lists represent the empty manager. -/
theorem emptyLists_represents (ho : Objects tm T) (m : Mem) :
    Represents tm T 0 (emptyLists tm m) (emptyManager m) := by
  have htasks := klistInit_isList (klistInit m (readyList tm)) (taskList tm)
  have hnone : ∀ l, (queue tm (emptyManager m) l).map runNode = [] := by
    intro l
    unfold queue
    split <;> [rfl; (split <;> rfl)]
  refine ⟨⟨?_, ?_, ?_, ?_⟩, ?_, ?_, ?_, ?_, ?_, ?_⟩
  · intro l hl
    simp only [List.mem_cons, List.not_mem_nil, or_false] at hl
    rcases hl with rfl | rfl
    · rw [queue_ready]
      exact emptyLists_readyList m
    · rw [queue_sleep]
      exact emptyLists_sleepList m
  · intro l _ x hx
    rw [hnone l] at hx
    exact nomatch hx
  · intro l _
    rw [hnone l]
    exact List.nodup_nil
  · intro l _ l' _ _
    rw [hnone l]
    exact List.disjoint_nil_left _
  · exact Mem.write_same ..
  · intro t ht
    have := ho.off_lists ht
    refine ⟨emptyLists_outside m ?_, emptyLists_outside m ?_, emptyLists_outside m ?_⟩
    · simp only [sleepTicks]; omega
    · simp only [sliceTicks]; omega
    · simp only [timeTicks]; omega
  · exact fun t ht => nomatch ht
  · exact fun t ht => nomatch ht
  -- of `task_list` only the last node and the counter are known
  · left
    have hlast := htasks.last (show _ = [] ++ [head (taskList tm)] from rfl)
    rw [emptyLists_taskList m (by simp only [tail, taskList]; omega)
      (by simp only [tail, taskList]; omega)]
    exact hlast
  · have hlen := htasks.len_eq
    rw [emptyLists_taskList m (by simp only [len, taskList]; omega)
      (by simp only [len, taskList]; omega)]
    exact hlen

/-- **`task_manager_init`** and **`task_first_init`**: two tasks, so 2 in
    `task_list.len`. -/
theorem boot (ho : Objects tm T) (m : Mem) (name name' : Nat) (tss tss' : Mem) :
    Represents tm T 2
      (taskFirstInit tm (taskManagerInit tm m name tss) name' tss')
      (SchedMachine.boot (idleTask tm) (firstTask tm) (rawTask m)).sched := by
  have hidle := (emptyLists_represents ho m).taskInit ho ho.idle
    ⟨List.not_mem_nil, List.not_mem_nil⟩ name tss
  have hfirst := hidle.taskInit ho ho.first (by
    simp [Sched.taskInit, emptyManager]) name' tss'
  exact hfirst.set_currTask ho (some (firstTask tm))

end Represents

end Frames

end LittleOS.TaskMemory
