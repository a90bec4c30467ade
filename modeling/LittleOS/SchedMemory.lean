import LittleOS.Lib.Lockstep
import LittleOS.BoundedWait
import LittleOS.TaskTick

/-! # The scheduler in memory, interrupted anywhere

    The processor of `LittleOS.SchedMachine` with the functions of
    `LittleOS.TaskMemory`: the manager, the tasks and the lists are words, and a
    task switch in the middle of `task_time_tick` leaves its walk to later.  No
    step calls `sys_sleep`, which as the source has it loses `sleep_list`
    (`LittleOS.SysSleep`).

    * `lockstep` — as long as no walk finds 1 in `task_list.len`, the machine goes
      in lockstep with the one on sequences;
    * `scheduler_in_memory` — so every run is a run of that, and the word is the
      number of tasks less that of the walks;
    * `walk_keeps_iff` — the walk that finds 1 there is the end of the lists;
    * `bounded_wait_in_memory` — how long a task waits, up to that walk. -/

namespace LittleOS.SchedMemory

open Runs Words Klist KlistRun Sched SchedQueues TaskMemory
open SchedMachine (IrqStatus Pic Point Cont picSendEoi irqTimer)
open TaskTick (writeTss_represents sleepWalk_refines walk_to_tail sleepWalk_tail)

/-- The manager of `SchedMachine` is in memory here.  `created` are the tasks that
    `task_init` was called for, and `walks` counts the walks over `sleep_list`. -/
structure Machine where
  mem : Mem
  created : List Nat
  walks : Nat
  intr : IrqStatus
  pic : Pic
  ticks : Nat
  point : Point
  tss : Nat → Point × IrqStatus

/-- `saved` are the words that the processor stores at a task switch. -/
inductive Label where
  | taskInit (task name : Nat) (tss : Mem)
  | schedYield
  | timer
  | kernel (saved : Mem)

section Source

variable (fuel tm : Nat)

/-- `sys_sched_yield` up to its call of `task_dispatch`, with the answer whether it
    calls it. -/
def yieldRequeue (m : Mem) : Option (Mem × Bool) :=
  if 1 < klistCount m (readyList tm) ∧ klistCount m (readyList tm) < 2 ^ 31 then
    let curr := m (currTask tm)
    (TaskMemory.taskSetBlock fuel tm m curr).map
      (fun m => (TaskMemory.taskSetReady tm m curr, true))
  else some (m, false)

/-- The slice part of `task_time_tick` up to its call of `task_dispatch`. -/
def sliceTick (m : Mem) : Option (Mem × Bool) :=
  let curr := m (currTask tm)
  let m := m.write (sliceTicks curr) (dec32 (m (sliceTicks curr)))
  if m (sliceTicks curr) = 0 then
    let m := m.write (sliceTicks curr) (m (timeTicks curr))
    (TaskMemory.taskSetBlock fuel tm m curr).map
      (fun m => (TaskMemory.taskSetReady tm m curr, true))
  else some (m, false)

/-- `task_dispatch` up to and including the switch. -/
def dispatchStep (saved : Mem) (m : Machine) (k : Cont) : Machine :=
  let here := Point.leave m.intr k
  let next := TaskMemory.taskNextRun tm m.mem
  let curr := m.mem (currTask tm)
  if next = curr then { m with intr := .off, point := here }
  else
    let tss := Function.update m.tss curr (here, .off)
    { m with mem := writeTss (TaskMemory.taskDispatch tm m.mem) curr saved
             intr := (tss next).2
             point := (tss next).1
             tss := tss }

/-- The end of `task_dispatch` and the return to its caller. -/
def leaveStep (m : Machine) (inner : IrqStatus) (k : Cont) : Machine :=
  match k with
  | .yield outer => { m with intr := outer, point := .user }
  | .sleep outer => { m with intr := outer, point := .user }
  | .walk => { m with intr := inner, point := .walk }
  | .eoi => { m with intr := inner, point := .eoi }

/-- The running task goes on in the kernel. -/
def kernelStep (saved : Mem) (m : Machine) : Option Machine :=
  match m.point with
  | .user => none
  | .dispatch k => some (dispatchStep tm saved m k)
  | .leave inner k => some (leaveStep m inner k)
  | .walk =>
      (TaskMemory.sleepWalk fuel tm fuel m.mem
          (klistGetFirstNode m.mem (sleepList tm))).map (fun mem =>
        { m with mem := mem, walks := m.walks + 1, point := .dispatch .eoi })
  | .eoi =>
      some { m with pic := picSendEoi m.pic irqTimer, intr := .on, point := .user }

/-- A step of the kernel in memory, with the same points of interruption as the machine
    over queues. -/
def step : Label → Machine → Option Machine
  | .taskInit t name tss, m =>
      if m.point = .user then
        some { m with mem := TaskMemory.taskInit tm m.mem t name tss
                      created := m.created ++ [t]
                      tss := Function.update m.tss t (.user, .on) }
      else none
  | .schedYield, m =>
      if m.point = .user then
        (yieldRequeue fuel tm m.mem).map (fun r =>
          if r.2 then
            { m with mem := r.1, intr := .off, point := .dispatch (.yield m.intr) }
          else { m with mem := r.1 })
      else none
  | .timer, m =>
      if m.point = .user ∧ m.intr = .on then
        (sliceTick fuel tm m.mem).map (fun r =>
          { m with mem := r.1
                   intr := .off
                   pic := { m.pic with master := m.pic.master ||| 1 }
                   ticks := m.ticks + 1
                   point := if r.2 then .dispatch .walk else .walk })
      else none
  | .kernel saved, m => kernelStep fuel tm saved m

/-- The machine behind `task_manager_init` and `task_first_init`. -/
def boot (mem : Mem) (name name' : Nat) (tss tss' : Mem) : Machine where
  mem := TaskMemory.taskFirstInit tm (TaskMemory.taskManagerInit tm mem name tss) name' tss'
  created := [idleTask tm, firstTask tm]
  walks := 0
  intr := .on
  pic := { master := 0, slave := 0 }
  ticks := 0
  point := .user
  tss := fun _ => (.user, .on)

/-- Tasks are initialised once, and no walk finds 1 in `task_list.len`. -/
def Holds (T : Set Nat) : Label → Machine → Prop
  | .taskInit t _ _, m => t ∈ T ∧ t ∉ m.created
  | .schedYield, _ => True
  | .timer, _ => True
  | .kernel _, m => m.point = .walk → m.mem (len (taskList tm)) ≠ 1

instance {T : Set Nat} [DecidablePred (· ∈ T)] :
    (l : Label) → (m : Machine) → Decidable (Holds tm T l m)
  | .taskInit t _ _, m => inferInstanceAs (Decidable (t ∈ T ∧ t ∉ m.created))
  | .schedYield, _ => isTrue trivial
  | .timer, _ => isTrue trivial
  | .kernel _, m =>
      inferInstanceAs (Decidable (m.point = .walk → m.mem (len (taskList tm)) ≠ 1))

end Source

/-! ## The parts of the functions -/

/-- `sys_sched_yield` is its two halves. -/
theorem sysSchedYield_eq (fuel tm : Nat) (m : Mem) :
    TaskMemory.sysSchedYield fuel tm m
      = (yieldRequeue fuel tm m).map
          (fun r => if r.2 then TaskMemory.taskDispatch tm r.1 else r.1) := by
  unfold TaskMemory.sysSchedYield yieldRequeue
  split
  · rw [Option.map_map]
    rfl
  · rfl

/-- `task_time_slice` is its two halves. -/
theorem taskTimeSlice_eq (fuel tm : Nat) (m : Mem) :
    TaskMemory.taskTimeSlice fuel tm m
      = (sliceTick fuel tm m).map
          (fun r => if r.2 then TaskMemory.taskDispatch tm r.1 else r.1) := by
  unfold TaskMemory.taskTimeSlice sliceTick
  dsimp only
  split
  · rw [Option.map_map]
    rfl
  · rfl

section Parts

variable {tm : Nat} {T : Set Nat} {n : Nat} {m : Mem} {s : Manager Nat} {c fuel : Nat}

/-- The first half of a yield comes back, agrees on whether there is a dispatch, and
    turns the queue. -/
theorem yieldRequeue_refines (h : Represents tm T n m s) (ho : Objects tm T)
    (hst : Represents.Steady tm s c) (hf : 2 ^ 29 + 2 ≤ fuel) :
    ∃ m', yieldRequeue fuel tm m = some (m', (Sched.yieldRequeue (idleTask tm) s).isSome) ∧
      Represents tm T n m' ((Sched.yieldRequeue (idleTask tm) s).getD s) := by
  have hcurr : m (currTask tm) = c := by rw [h.curr, hst.curr]; rfl
  have hle := h.ready_length ho
  have hlen : klistCount m (readyList tm) = s.readyList.length := by
    have := h.ready_isList.len_eq
    rw [List.length_map] at this
    unfold klistCount
    omega
  unfold yieldRequeue Sched.yieldRequeue
  rw [hlen]
  by_cases hmany : 1 < s.readyList.length
  · obtain ⟨m', hblock, h'⟩ := h.requeue ho hst.sound hst.ready hf
    rw [if_pos ⟨hmany, by omega⟩, if_pos hmany, hst.curr]
    dsimp only
    rw [hcurr, hblock]
    exact ⟨_, rfl, h'⟩
  · rw [if_neg (fun hc => hmany hc.1), if_neg hmany]
    exact ⟨m, rfl, h⟩

/-- Likewise the end of a slice. -/
theorem sliceTick_refines (h : Represents tm T n m s) (ho : Objects tm T)
    (hst : Represents.Steady tm s c) (hf : 2 ^ 29 + 2 ≤ fuel) :
    ∃ m', sliceTick fuel tm m = some (m', (Sched.sliceTick (idleTask tm) s).2) ∧
      Represents tm T n m' (Sched.sliceTick (idleTask tm) s).1 := by
  have hmem := h.curr_mem ho hst.ready
  have hcurr : m (currTask tm) = c := by rw [h.curr, hst.curr]; rfl
  obtain ⟨-, hslice, -⟩ := h.counters c hmem
  have h₁ := h.set_sliceTicks ho hmem (dec32 (m (sliceTicks c)))
  rw [hslice, Represents.modify_congr (s := s) (t := c)
    (g := fun d => { d with sliceTicks := dec32 d.sliceTicks }) rfl] at h₁
  obtain ⟨-, hslice₁, htime₁⟩ := h₁.counters c hmem
  unfold sliceTick Sched.sliceTick
  rw [hst.curr]
  dsimp only
  rw [hcurr, hslice, hslice₁]
  split
  · have h₂ := h₁.set_sliceTicks ho hmem
      (m.write (sliceTicks c) (dec32 (s.task c).sliceTicks) (timeTicks c))
    rw [htime₁, Represents.modify_congr (s := s.modify c _) (t := c)
      (g := fun d => { d with sliceTicks := d.timeTicks }) rfl] at h₂
    obtain ⟨m', hblock, h'⟩ := h₂.requeue ho
      (hst.sound.of_same (same_of_eq rfl rfl rfl)) hst.ready hf
    rw [htime₁, hblock]
    exact ⟨_, rfl, h'⟩
  · exact ⟨_, rfl, h₁⟩

end Parts

/-! ## In lockstep with the sequences -/

/-- The same machine with the manager as sequences. -/
def Machine.over (m : Machine) (s : Manager Nat) : SchedMachine.Machine Nat :=
  ⟨s, m.intr, m.pic, m.ticks, m.point, m.tss⟩

/-- The label without what only memory has. -/
def Label.abstract : Label → SchedMachine.Label Nat
  | .taskInit t _ _ => .taskInit t
  | .schedYield => .schedYield
  | .timer => .timer
  | .kernel _ => .kernel

/-- The memory has the manager of `a`, and in `task_list.len` what the walks have
    left of the number of tasks. -/
structure Refines (tm : Nat) (T : Set Nat) (m : Machine) (a : SchedMachine.Machine Nat) :
    Prop where
  control : a = m.over a.sched
  manager : Represents tm T (m.mem (len (taskList tm))) m.mem a.sched
  inv : Inv (idleTask tm) a
  current : ∃ c ∈ T, a.sched.currTask = some c
  created : a.sched.taskList = m.created
  left : m.mem (len (taskList tm)) + m.walks = m.created.length
  some_left : 1 ≤ m.mem (len (taskList tm))

section Lockstep

variable {tm fuel osTicksMs n : Nat} {T : Set Nat} {m m' : Machine} {s s' : Manager Nat}

namespace Refines

/-- The machine behind a step, which the invariant of the sequences comes from. -/
theorem next (h : Refines tm T m (m.over s)) {l : SchedMachine.Label Nat}
    (hs : SchedMachine.step (idleTask tm) osTicksMs l (m.over s) = some (m'.over s'))
    (hr : Represents tm T n m'.mem s') (hcurr : ∃ c ∈ T, s'.currTask = some c)
    (hlist : s'.taskList = m'.created) (hleft : n + m'.walks = m'.created.length)
    (hpos : 1 ≤ n) : Refines tm T m' (m'.over s') where
  control := rfl
  manager := by
    show Represents tm T (m'.mem (len (taskList tm))) m'.mem s'
    rw [hr.count]
    exact hr
  inv := step_inv h.inv hs
  current := hcurr
  created := hlist
  left := by rw [hr.count]; exact hleft
  some_left := by rw [hr.count]; exact hpos

/-- The same where tasks and walks stay as they are. -/
theorem next_same (h : Refines tm T m (m.over s)) {l : SchedMachine.Label Nat}
    (hs : SchedMachine.step (idleTask tm) osTicksMs l (m.over s) = some (m'.over s'))
    (hr : Represents tm T (m.mem (len (taskList tm))) m'.mem s')
    (hcurr : ∃ c ∈ T, s'.currTask = some c) (hlist : s'.taskList = s.taskList)
    (hcreated : m'.created = m.created) (hwalks : m'.walks = m.walks) :
    Refines tm T m' (m'.over s') := by
  refine h.next hs hr hcurr (hlist.trans (h.created.trans hcreated.symm)) ?_ h.some_left
  rw [hwalks, hcreated]
  exact h.left

/-- Memory stands for the queues. -/
theorem represents (h : Refines tm T m (m.over s)) :
    Represents tm T (m.mem (len (taskList tm))) m.mem s := h.manager

/-- At the code of a task nothing is under way. -/
theorem steady (h : Refines tm T m (m.over s)) (hp : m.point = .user) :
    ∃ c, Represents.Steady tm s c := by
  obtain ⟨c, hc, hq⟩ := h.inv.current_user hp
  exact ⟨c, h.inv.sound, h.inv.idle_init, hc, hq⟩

/-- There is room for as many tasks in memory only, so `len` does not wrap. -/
theorem length_le (h : Refines tm T m (m.over s)) (ho : Objects tm T) :
    m.created.length ≤ 2 ^ 29 := by
  have hnd : (m.created.map runNode).Nodup := by
    rw [← h.created]
    exact h.inv.sound.nodup.map runNode_injective
  have hmem : ∀ x ∈ m.created.map runNode, x ∈ runNode '' T := by
    intro x hx
    obtain ⟨t, ht, rfl⟩ := List.mem_map.mp hx
    exact ⟨t, h.manager.created t (h.created ▸ ht), rfl⟩
  have hle := ho.layout.length_le hmem hnd
  rwa [List.length_map] at hle

end Refines

/-- Where neither system has a step. -/
theorem rel_of_none {x : Option Machine} {y : Option (SchedMachine.Machine Nat)}
    (hx : x = none) (hy : y = none) : Option.Rel (Refines tm T) x y := by
  rw [hx, hy]
  exact Option.Rel.none

/-- Making a task in memory follows the machine over queues. -/
theorem taskInit_step (h : Refines tm T m (m.over s)) (ho : Objects tm T) {t : Nat}
    (ht : t ∈ T ∧ t ∉ m.created) (name : Nat) (tss : Mem) :
    Option.Rel (Refines tm T) (step fuel tm (.taskInit t name tss) m)
      (SchedMachine.step (idleTask tm) osTicksMs (.taskInit t) (m.over s)) := by
  have hnew : t ∉ s.taskList := fun hc => ht.2 (h.created ▸ hc)
  by_cases hp : m.point = .user
  · have hs : SchedMachine.step (idleTask tm) osTicksMs (.taskInit t) (m.over s)
        = some ({ m.over s with sched := Sched.taskInit (idleTask tm) s t
                                tss := Function.update m.tss t (.user, .on) }) :=
      if_pos ⟨hp, hnew⟩
    have hm : step fuel tm (.taskInit t name tss) m = some
        { m with mem := TaskMemory.taskInit tm m.mem t name tss
                 created := m.created ++ [t]
                 tss := Function.update m.tss t (.user, .on) } := if_pos hp
    have hoff : t ∉ s.readyList ∧ t ∉ s.sleepList :=
      ⟨fun hq => hnew (h.inv.sound.mem_queues (List.mem_append_left _ hq)).1,
        fun hq => hnew (h.inv.sound.mem_queues (List.mem_append_right _ hq)).1⟩
    have hr := h.manager.taskInit ho ht.1 hoff name tss
    have hle := h.length_le ho
    have hleft := h.left
    have hinc : inc32 (m.mem (len (taskList tm))) = m.mem (len (taskList tm)) + 1 := by
      unfold inc32
      omega
    rw [hinc] at hr
    rw [hs, hm]
    refine Option.Rel.some (h.next hs hr ?_ ?_ ?_ (Nat.le_add_left ..))
    · rw [taskInit_currTask]
      exact h.current
    · rw [taskInit_taskList]
      exact congrArg (· ++ [t]) h.created
    · show m.mem (len (taskList tm)) + 1 + m.walks = (m.created ++ [t]).length
      rw [List.length_append, List.length_singleton]
      omega
  · have hs : SchedMachine.step (idleTask tm) osTicksMs (.taskInit t) (m.over s) = none :=
      if_neg (fun hc => hp hc.1)
    exact rel_of_none (if_neg hp) hs

variable (osTicksMs) in
/-- A yield of a task that is alone. -/
theorem schedYield_of_none {a : SchedMachine.Machine Nat} (hp : a.point = .user)
    (hq : Sched.yieldRequeue (idleTask tm) a.sched = none) :
    SchedMachine.step (idleTask tm) osTicksMs .schedYield a = some a := by
  simp only [SchedMachine.step]
  rw [if_pos hp, hq]

variable (osTicksMs) in
/-- A yield with another task to run. -/
theorem schedYield_of_some {a : SchedMachine.Machine Nat} (hp : a.point = .user)
    (hq : Sched.yieldRequeue (idleTask tm) a.sched = some s') :
    SchedMachine.step (idleTask tm) osTicksMs .schedYield a
      = some { a with sched := s', intr := .off, point := .dispatch (.yield a.intr) } := by
  simp only [SchedMachine.step]
  rw [if_pos hp, hq]

/-- A yield in memory follows the machine over queues. -/
theorem schedYield_step (h : Refines tm T m (m.over s)) (ho : Objects tm T)
    (hf : 2 ^ 29 + 2 ≤ fuel) :
    Option.Rel (Refines tm T) (step fuel tm .schedYield m)
      (SchedMachine.step (idleTask tm) osTicksMs .schedYield (m.over s)) := by
  by_cases hp : m.point = .user
  · obtain ⟨c, hst⟩ := h.steady hp
    obtain ⟨mem, hmem, hr⟩ := yieldRequeue_refines h.represents ho hst hf
    have hm : step fuel tm .schedYield m = some
        (if (Sched.yieldRequeue (idleTask tm) s).isSome then
          { m with mem := mem, intr := .off, point := .dispatch (.yield m.intr) }
        else { m with mem := mem }) := by
      simp only [step]
      rw [if_pos hp, hmem]
      rfl
    rw [hm]
    cases hq : Sched.yieldRequeue (idleTask tm) s with
    | none =>
        rw [hq, Option.getD_none] at hr
        have hs := schedYield_of_none osTicksMs (a := m.over s) hp hq
        rw [hs]
        have hnext : Refines tm T { m with mem := mem } (m.over s) :=
          h.next_same hs hr h.current rfl rfl rfl
        exact Option.Rel.some hnext
    | some s' =>
        rw [hq, Option.getD_some] at hr
        have hs := schedYield_of_some osTicksMs (a := m.over s) hp hq
        have hkeep : s'.currTask = s.currTask ∧ s'.taskList = s.taskList := by
          unfold Sched.yieldRequeue at hq
          split at hq
          · obtain ⟨c, -, rfl⟩ := Option.map_eq_some_iff.mp hq
            simp
          · exact nomatch hq
        rw [hs]
        exact Option.Rel.some (h.next_same hs hr (hkeep.1 ▸ h.current) hkeep.2 rfl rfl)
  · exact rel_of_none (if_neg hp) (if_neg hp)

/-- A timer interrupt in memory follows the machine over queues: masked together, and
    otherwise the slice end of the one is that of the other, with a dispatch to come or
    with the walk. -/
theorem timer_step (h : Refines tm T m (m.over s)) (ho : Objects tm T)
    (hf : 2 ^ 29 + 2 ≤ fuel) :
    Option.Rel (Refines tm T) (step fuel tm .timer m)
      (SchedMachine.step (idleTask tm) osTicksMs .timer (m.over s)) := by
  by_cases hp : m.point = .user ∧ m.intr = .on
  · obtain ⟨c, hst⟩ := h.steady hp.1
    obtain ⟨mem, hmem, hr⟩ := sliceTick_refines h.represents ho hst hf
    have hm : step fuel tm .timer m = some
        { m with mem := mem
                 intr := .off
                 pic := { m.pic with master := m.pic.master ||| 1 }
                 ticks := m.ticks + 1
                 point := if (Sched.sliceTick (idleTask tm) s).2 then .dispatch .walk
                          else .walk } := by
      simp only [step]
      rw [if_pos hp, hmem]
      rfl
    have hs : SchedMachine.step (idleTask tm) osTicksMs .timer (m.over s)
        = some (SchedMachine.timerStep (idleTask tm) (m.over s)) := if_pos hp
    rw [hm, hs]
    refine Option.Rel.some (h.next_same hs hr ?_ (same_slice hst.curr hst.ready).2 rfl rfl)
    rw [sliceTick_currTask]
    exact h.current
  · exact rel_of_none (if_neg hp) (if_neg hp)

/-- A dispatch that switches saves the task it leaves in its TSS. -/
theorem dispatchStep_of_ne (saved : Mem) (k : Cont)
    (hn : TaskMemory.taskNextRun tm m.mem ≠ m.mem (currTask tm)) :
    dispatchStep tm saved m k
      = { m with
          mem := writeTss (TaskMemory.taskDispatch tm m.mem) (m.mem (currTask tm)) saved
          intr := (Function.update m.tss (m.mem (currTask tm)) (.leave m.intr k, .off)
            (TaskMemory.taskNextRun tm m.mem)).2
          point := (Function.update m.tss (m.mem (currTask tm)) (.leave m.intr k, .off)
            (TaskMemory.taskNextRun tm m.mem)).1
          tss := Function.update m.tss (m.mem (currTask tm)) (.leave m.intr k, .off) } := by
  unfold dispatchStep
  exact if_neg hn

/-- The dispatch goes to the same task, and stores the place of the same. -/
theorem dispatch_step (h : Refines tm T m (m.over s)) (ho : Objects tm T) (saved : Mem)
    {k : Cont} (hp : m.point = .dispatch k) :
    Refines tm T (dispatchStep tm saved m k)
      (SchedMachine.dispatchStep (idleTask tm) (m.over s) k) := by
  have hs : SchedMachine.step (idleTask tm) 0 .kernel (m.over s)
      = some (SchedMachine.dispatchStep (idleTask tm) (m.over s) k) := by
    show SchedMachine.kernelStep (idleTask tm) (m.over s) = _
    unfold SchedMachine.kernelStep
    rw [show (m.over s).point = .dispatch k from hp]
  obtain ⟨c, hc, hcurr⟩ := h.current
  have hcurr' : s.currTask = some c := hcurr
  have hword : m.mem (currTask tm) = c := by
    rw [h.manager.curr, hcurr]
    rfl
  have hnext := h.represents.taskNextRun ho
  by_cases hn : Sched.taskNextRun (idleTask tm) s = c
  · have hm : dispatchStep tm saved m k = { m with intr := .off, point := .leave m.intr k } := by
      unfold dispatchStep
      rw [hnext, hword]
      exact if_pos hn
    have ha : SchedMachine.dispatchStep (idleTask tm) (m.over s) k
        = ({ m with intr := .off, point := .leave m.intr k } : Machine).over s := by
      unfold SchedMachine.dispatchStep
      exact if_pos ((congrArg some hn).trans hcurr'.symm)
    rw [ha] at hs ⊢
    rw [hm]
    exact h.next_same hs h.represents h.current rfl rfl rfl
  · have hne : TaskMemory.taskNextRun tm m.mem ≠ m.mem (currTask tm) := by
      rw [hnext, hword]
      exact hn
    have hm := dispatchStep_of_ne saved k hne
    rw [hnext, hword] at hm
    have ha : SchedMachine.dispatchStep (idleTask tm) (m.over s) k
        = (dispatchStep tm saved m k).over (Sched.taskDispatch (idleTask tm) s) := by
      rw [hm]
      unfold SchedMachine.dispatchStep
      rw [if_neg (fun he => hn (Option.some.inj (he.trans hcurr')))]
      simp only [Machine.over, hcurr']
    have hr := writeTss_represents (h.represents.taskDispatch ho) ho hc saved
    rw [ha] at hs ⊢
    refine h.next_same hs ?_ ?_ (taskDispatch_taskList ..) ?_ ?_
    · rw [hm]
      exact hr
    · exact ⟨_, h.represents.next_mem ho, taskDispatch_currTask ..⟩
    · rw [hm]
    · rw [hm]

/-- The end of a dispatch and the EOI are the same in both. -/
theorem leave_step (h : Refines tm T m (m.over s)) {inner : IrqStatus} {k : Cont}
    (hp : m.point = .leave inner k) :
    Refines tm T (leaveStep m inner k) (SchedMachine.leaveStep (m.over s) inner k) := by
  have hs : SchedMachine.step (idleTask tm) 0 .kernel (m.over s)
      = some (SchedMachine.leaveStep (m.over s) inner k) := by
    show SchedMachine.kernelStep (idleTask tm) (m.over s) = _
    unfold SchedMachine.kernelStep
    rw [show (m.over s).point = .leave inner k from hp]
  have ha : SchedMachine.leaveStep (m.over s) inner k = (leaveStep m inner k).over s := by
    cases k <;> rfl
  rw [ha] at hs ⊢
  refine h.next_same hs ?_ h.current rfl ?_ ?_
  · cases k <;> exact h.represents
  · cases k <;> rfl
  · cases k <;> rfl

/-- A step inside the kernel follows the machine over queues: one case for a dispatch,
    one for the walk. -/
theorem kernel_step (h : Refines tm T m (m.over s)) (ho : Objects tm T)
    (hf : 2 ^ 29 + 2 ≤ fuel) (saved : Mem)
    (hlen : m.point = .walk → m.mem (len (taskList tm)) ≠ 1) :
    Option.Rel (Refines tm T) (step fuel tm (.kernel saved) m)
      (SchedMachine.step (idleTask tm) osTicksMs .kernel (m.over s)) := by
  show Option.Rel (Refines tm T) (kernelStep fuel tm saved m)
    (SchedMachine.kernelStep (idleTask tm) (m.over s))
  have hpoint : (m.over s).point = m.point := rfl
  unfold kernelStep SchedMachine.kernelStep
  rw [hpoint]
  cases hp : m.point with
  | user => exact Option.Rel.none
  | dispatch k => exact Option.Rel.some (dispatch_step h ho saved hp)
  | leave inner k => exact Option.Rel.some (leave_step h hp)
  | walk =>
      have hpos := h.some_left
      have hleft := h.left
      have hle := h.length_le ho
      have hne := hlen hp
      have hdec : dec32 (m.mem (len (taskList tm))) = m.mem (len (taskList tm)) - 1 := by
        unfold dec32
        omega
      obtain ⟨mem, hmem, hr⟩ := sleepWalk_refines h.represents ho hf
        (by rw [hdec]; omega)
      have hs : SchedMachine.step (idleTask tm) 0 .kernel (m.over s)
          = some (({ m with mem := mem, walks := m.walks + 1,
                            point := .dispatch .eoi } : Machine).over
                    (Sched.sleepWalk (idleTask tm) s)) := by
        show SchedMachine.kernelStep (idleTask tm) (m.over s) = _
        unfold SchedMachine.kernelStep
        rw [show (m.over s).point = .walk from hp]
        rfl
      rw [hdec] at hr
      dsimp only
      rw [hmem]
      have hnd : s.sleepList.Nodup := h.inv.sound.sleep_nodup
      have hid : idleTask tm ∉ s.sleepList := h.inv.sound.idle_sleep
      refine Option.Rel.some (h.next hs hr ?_ ?_ ?_ (by omega))
      · show ∃ c ∈ T, (Sched.sleepWalk (idleTask tm) s).currTask = some c
        rw [sleepWalk_currTask hnd hid]
        exact h.current
      · exact (sleepWalk_taskList hnd hid).trans h.created
      · show m.mem (len (taskList tm)) - 1 + (m.walks + 1) = m.created.length
        omega
  | eoi =>
      have hs : SchedMachine.step (idleTask tm) 0 .kernel (m.over s)
          = some (({ m with pic := picSendEoi m.pic irqTimer, intr := .on,
                            point := .user } : Machine).over s) := by
        show SchedMachine.kernelStep (idleTask tm) (m.over s) = _
        unfold SchedMachine.kernelStep
        rw [show (m.over s).point = .eoi from hp]
        rfl
      exact Option.Rel.some (h.next_same hs h.represents h.current rfl rfl rfl)

variable (osTicksMs) in
/-- **EVERY STEP** has its match on the sequences, and the other way round. -/
theorem lockstep (ho : Objects tm T) (hf : 2 ^ 29 + 2 ≤ fuel) :
    Lockstep (step fuel tm) (Holds tm T) (SchedMachine.step (idleTask tm) osTicksMs)
      (fun _ _ => True) Label.abstract (Refines tm T) where
  cond := fun _ _ _ _ _ => trivial
  steps := by
    intro l m a h hok
    have hc : a = m.over a.sched := h.control
    rw [hc] at h ⊢
    cases l with
    | taskInit t name tss => exact taskInit_step h ho hok name tss
    | schedYield => exact schedYield_step h ho hf
    | timer => exact timer_step h ho hf
    | kernel saved => exact kernel_step h ho hf saved hok

/-- The machine in memory boots as the one over queues does. -/
theorem boot_refines (ho : Objects tm T) (mem : Mem) (name name' : Nat) (tss tss' : Mem) :
    Refines tm T (boot tm mem name name' tss tss')
      (SchedMachine.boot (idleTask tm) (firstTask tm) (Represents.rawTask mem)) := by
  have hfi : firstTask tm ≠ idleTask tm := by
    simp only [firstTask, idleTask]
    omega
  have hr : Represents tm T 2 (boot tm mem name name' tss tss').mem _ :=
    Represents.boot ho mem name name' tss tss'
  refine ⟨rfl, ?_, (boot_inv hfi _).1, ⟨firstTask tm, ho.first, rfl⟩, ?_, ?_, ?_⟩
  · rw [hr.count]
    exact hr
  · exact boot_taskList _
  · rw [hr.count]
    rfl
  · rw [hr.count]
    decide

end Lockstep

/-! ## Runs -/

section Main

variable {tm fuel osTicksMs : Nat} {T : Set Nat} {m m' : Machine} {ls ls' : List Label}

variable (osTicksMs) in
/-- **EVERY RUN**, with interrupts and switches anywhere, is one of the scheduler on
    sequences, and at its end the same steps can be taken. -/
theorem scheduler_in_memory (ho : Objects tm T) (hf : 2 ^ 29 + 2 ≤ fuel) (mem : Mem)
    (name name' : Nat) (tss tss' : Mem)
    (h : Run (step fuel tm) (Holds tm T) (boot tm mem name name' tss tss') ls m) :
    ∃ a, Run (SchedMachine.step (idleTask tm) osTicksMs) (fun _ _ => True)
        (SchedMachine.boot (idleTask tm) (firstTask tm) (Represents.rawTask mem))
        (ls.map Label.abstract) a ∧
      Refines tm T m a ∧
      ∀ l, Holds tm T l m → (step fuel tm l m).isSome
        = (SchedMachine.step (idleTask tm) osTicksMs l.abstract a).isSome := by
  have hlock := lockstep osTicksMs ho hf
  obtain ⟨a, hrun, hr⟩ := hlock.run h (boot_refines ho mem name name' tss tss')
  exact ⟨a, hrun, hr, fun l hok => hlock.enabled hr hok⟩

/-- The word at the head of `ready_list` behind a walk that finds 1. -/
theorem walk_breaks {a : SchedMachine.Machine Nat} (h : Refines tm T m a) (ho : Objects tm T)
    (hf : 2 ^ 29 + 2 ≤ fuel) (hlen : m.mem (len (taskList tm)) = 1) {mem : Mem}
    (hw : TaskMemory.sleepWalk fuel tm fuel m.mem (klistGetFirstNode m.mem (sleepList tm))
      = some mem) : mem (readyList tm) = stateWord .ready := by
  have hr := h.manager
  rw [hlen] at hr
  obtain ⟨mem₁, turns, hr₁, hwalk⟩ := walk_to_tail hr ho hf
  rw [hwalk, sleepWalk_tail hr₁ ho, if_pos (by decide)] at hw
  obtain ⟨mem₂, -, rfl⟩ := Option.map_eq_some_iff.mp hw
  -- the sentinel is taken for the node of a task whose `state` is there
  unfold TaskMemory.taskSetReady
  rw [if_neg (by simp only [idleTask]; omega)]
  exact Mem.write_same ..

/-- **THE LISTS SURVIVE** a walk exactly if there have been fewer walks, this one
    counted, than tasks. -/
theorem walk_keeps_iff (ho : Objects tm T) (hf : 2 ^ 29 + 2 ≤ fuel) (mem : Mem)
    (name name' : Nat) (tss tss' saved : Mem)
    (h : Run (step fuel tm) (Holds tm T) (boot tm mem name name' tss tss') ls m)
    (hp : m.point = .walk) (hs : step fuel tm (.kernel saved) m = some m') :
    (∃ n s, Represents tm T n m'.mem s) ↔ m.walks + 1 < m.created.length := by
  have hlock := lockstep 0 ho hf
  obtain ⟨a, -, hr⟩ := hlock.run h (boot_refines ho mem name name' tss tss')
  have hleft := hr.left
  have hpos := hr.some_left
  constructor
  · rintro ⟨n, s, hrep⟩
    by_contra hge
    have hlen : m.mem (len (taskList tm)) = 1 := by omega
    have hk : kernelStep fuel tm saved m = some m' := hs
    unfold kernelStep at hk
    rw [hp] at hk
    obtain ⟨mem', hw, rfl⟩ := Option.map_eq_some_iff.mp hk
    have hhead : mem' (readyList tm) = 0 := hrep.ready_isList.head_prev
    rw [walk_breaks hr ho hf hlen hw] at hhead
    exact absurd hhead (by decide)
  · intro hlt
    have hok : Holds tm T (.kernel saved) m := fun _ => by omega
    obtain ⟨a', -, hr'⟩ := hlock.some hr hok hs
    exact ⟨_, a'.sched, hr'.manager⟩

/-- The ready list can be read off memory by its own functions. -/
theorem Refines.shows {a : SchedMachine.Machine Nat} (h : Refines tm T m a)
    (ho : Objects tm T) (hf : 2 ^ 29 + 2 ≤ fuel) :
    Shows fuel m.mem (readyList tm) (a.sched.readyList.map runNode) := by
  have hq := h.manager.queues.shows ho.layout ready_listed hf
  rwa [queue_ready] at hq

/-- The current task is the one in memory. -/
theorem Refines.curr_of_some {a : SchedMachine.Machine Nat} (h : Refines tm T m a) {t : Nat}
    (hc : a.sched.currTask = some t) : m.mem (currTask tm) = t := by
  rw [h.manager.curr, hc]
  rfl

/-- **NO STARVATION** in memory: a task on `ready_list` that has not run yet is still
    on it, no further back, and not more timer interrupts have come than the slices
    in front of it amount to, and one. -/
theorem bounded_wait_in_memory (ho : Objects tm T) (hf : 2 ^ 29 + 2 ≤ fuel) (mem : Mem)
    (name name' : Nat) (tss tss' : Mem) {t : Nat} {ts : List Nat}
    (h : Run (step fuel tm) (Holds tm T) (boot tm mem name name' tss tss') ls m)
    (hts : Shows fuel m.mem (readyList tm) (ts.map runNode)) (ht : t ∈ ts)
    (h' : Run (step fuel tm) (fun l m => Holds tm T l m ∧ m.mem (currTask tm) ≠ t)
      m ls' m') :
    ∃ ts' : List Nat, Shows fuel m'.mem (readyList tm) (ts'.map runNode) ∧ t ∈ ts' ∧
      ts'.idxOf t ≤ ts.idxOf t ∧
      (ls'.map (fun l => BoundedWait.isTimer l.abstract)).sum
        ≤ taskTimeSliceDefault * ts.idxOf t + 1 := by
  have hfi : firstTask tm ≠ idleTask tm := by
    simp only [firstTask, idleTask]
    omega
  have hlock := lockstep 0 ho hf
  obtain ⟨a, hrun, hr⟩ := hlock.run h (boot_refines ho mem name name' tss tss')
  -- memory shows one list only
  have hsame : ts = a.sched.readyList :=
    List.map_injective_iff.mpr runNode_injective
      (Option.some.inj (hts.2.1.symm.trans (hr.shows ho hf).2.1))
  subst hsame
  have hlock' := hlock.mono (fun l m => Holds tm T l m ∧ m.mem (currTask tm) ≠ t)
    (fun _ a => a.sched.currTask ≠ some t) (fun _ _ hok => hok.1)
    (fun _ _ _ hr hok hc => hok.2 (hr.curr_of_some hc))
  obtain ⟨a', hrun', hr'⟩ := hlock'.run h' hr
  obtain ⟨hmem, hplace, hticks⟩ := (BoundedWait.served_of_run hfi hrun).waits ht hrun'
  rw [List.map_map] at hticks
  exact ⟨a'.sched.readyList, hr'.shows ho hf, hmem, hplace, hticks⟩

end Main

/-! ## A manager with room for sixteen tasks -/

/-- The manager is at 0x20000, and other tasks are from 0x30000 on. -/
def sixteenTasks : Set Nat :=
  {t | t = 0x20040 ∨ t = 0x200EC ∨ (0x30000 ≤ t ∧ t < 0x40000 ∧ t % 0x1000 = 0)}

instance : DecidablePred (· ∈ sixteenTasks) := fun t =>
  inferInstanceAs
    (Decidable (t = 0x20040 ∨ t = 0x200EC ∨ (0x30000 ≤ t ∧ t < 0x40000 ∧ t % 0x1000 = 0)))

/-- The sixteen tasks of the small build are apart in memory. -/
theorem sixteenTasks_objects : Objects 0x20000 sixteenTasks where
  pos := by omega
  bound := by omega
  first := Or.inl rfl
  idle := Or.inr (Or.inl rfl)
  task_pos := by
    simp only [sixteenTasks, Set.mem_ofPred_eq]
    omega
  task_bound := by
    simp only [sixteenTasks, Set.mem_ofPred_eq]
    omega
  outside := by
    simp only [sixteenTasks, Set.mem_ofPred_eq, firstTask, idleTask]
    omega
  apart := by
    simp only [sixteenTasks, Set.mem_ofPred_eq]
    omega

/-- A boot in a memory of zeros. -/
def zeroBoot : Machine := boot 0x20000 (fun _ => 0) 0 0 (fun _ => 0) (fun _ => 0)

/-- An interrupt with its walk and no switch. -/
def quietTick : List Label := .timer :: List.replicate 4 (.kernel fun _ => 0)

/-- Twelve tasks made. -/
def makeTwelve : List Label :=
  (List.range 12).map fun i => .taskInit (0x30000 + 0x1000 * i) 0 fun _ => 0

/-- The first task takes all of its slice. -/
def wholeSlice : List Label :=
  (List.replicate 9 quietTick).flatten ++ [.timer, .kernel fun _ => 0]

private theorem makeTwelve_isSome :
    (exec (step (2 ^ 29 + 2) 0x20000) (Holds 0x20000 sixteenTasks) makeTwelve
      zeroBoot).isSome = true := by decide +kernel

/-- The machine with twelve tasks. -/
def madeTwelve : Machine :=
  (exec (step (2 ^ 29 + 2) 0x20000) (Holds 0x20000 sixteenTasks) makeTwelve zeroBoot).get
    makeTwelve_isSome

private theorem sliceEnd_isSome :
    (exec (step (2 ^ 29 + 2) 0x20000) (Holds 0x20000 sixteenTasks) (makeTwelve ++ wholeSlice)
      zeroBoot).isSome = true := by decide +kernel

/-- The machine one slice later. -/
def sliceEnd : Machine :=
  (exec (step (2 ^ 29 + 2) 0x20000) (Holds 0x20000 sixteenTasks) (makeTwelve ++ wholeSlice)
    zeroBoot).get sliceEnd_isSome

/-- The task made first runs after the slice, in memory and on the sequences. -/
theorem scheduler_in_memory_second :
    sliceEnd.mem (currTask 0x20000) = 0x30000 ∧ sliceEnd.ticks = 10 ∧
    ∃ a, Run (SchedMachine.step 0x200EC 10) (fun _ _ => True)
        (SchedMachine.boot 0x200EC 0x20040 (Represents.rawTask fun _ => 0))
        ((makeTwelve ++ wholeSlice).map Label.abstract) a ∧
      Refines 0x20000 sixteenTasks sliceEnd a := by
  obtain ⟨a, hrun, hr, -⟩ := scheduler_in_memory 10 sixteenTasks_objects
    (Nat.le_refl (2 ^ 29 + 2)) (fun _ => 0) 0 0 (fun _ => 0) (fun _ => 0)
    (Run.of_isSome sliceEnd_isSome)
  exact ⟨by decide +kernel, by decide +kernel, a, hrun, hr⟩

private theorem secondTick_isSome :
    (exec (step (2 ^ 29 + 2) 0x20000) (Holds 0x20000 sixteenTasks) (quietTick ++ [.timer])
      zeroBoot).isSome = true := by decide +kernel

/-- The first task and the idle task are alone. -/
def secondTick : Machine :=
  (exec (step (2 ^ 29 + 2) 0x20000) (Holds 0x20000 sixteenTasks) (quietTick ++ [.timer])
    zeroBoot).get secondTick_isSome

private theorem secondWalk_isSome :
    (step (2 ^ 29 + 2) 0x20000 (.kernel fun _ => 0) secondTick).isSome = true := by
  decide +kernel

/-- The second walk is one too many for two tasks. -/
theorem walk_keeps_iff_two :
    secondTick.walks = 1 ∧
    ∃ m, step (2 ^ 29 + 2) 0x20000 (.kernel fun _ => 0) secondTick = some m ∧
      ¬ ∃ n s, Represents 0x20000 sixteenTasks n m.mem s := by
  have hbreaks : ¬ secondTick.walks + 1 < secondTick.created.length := by decide +kernel
  have hwalk := (Option.some_get secondWalk_isSome).symm
  exact ⟨by decide +kernel, _, hwalk, fun hrep => hbreaks
    ((walk_keeps_iff sixteenTasks_objects (Nat.le_refl (2 ^ 29 + 2)) (fun _ => 0) 0 0
      (fun _ => 0) (fun _ => 0) (fun _ => 0) (Run.of_isSome secondTick_isSome)
      (by decide +kernel) hwalk).mp hrep)⟩

private theorem madeTwelve_shows :
    Shows (2 ^ 29 + 2) madeTwelve.mem (readyList 0x20000)
      ((0x20040 :: (List.range 12).map (0x30000 + 0x1000 * ·)).map runNode) :=
  ⟨by decide, by decide +kernel, by decide +kernel, by decide +kernel⟩

private theorem wholeSlice_isSome :
    (exec (step (2 ^ 29 + 2) 0x20000)
      (fun l m => Holds 0x20000 sixteenTasks l m ∧ m.mem (currTask 0x20000) ≠ 0x30000)
      wholeSlice madeTwelve).isSome = true := by decide +kernel

/-- The second of thirteen ready tasks runs after a whole slice. -/
theorem bounded_wait_in_memory_second :
    ∃ m, exec (step (2 ^ 29 + 2) 0x20000)
        (fun l m => Holds 0x20000 sixteenTasks l m ∧ m.mem (currTask 0x20000) ≠ 0x30000)
        wholeSlice madeTwelve = some m ∧
      m.mem (currTask 0x20000) = 0x30000 ∧
      (wholeSlice.map (fun l => BoundedWait.isTimer l.abstract)).sum = 10 ∧
      ∃ ts : List Nat, Shows (2 ^ 29 + 2) m.mem (readyList 0x20000) (ts.map runNode) ∧
        0x30000 ∈ ts ∧ ts.idxOf 0x30000 ≤ 1 := by
  obtain ⟨ts, hts, hmem, hplace, -⟩ := bounded_wait_in_memory sixteenTasks_objects
    (Nat.le_refl (2 ^ 29 + 2)) (fun _ => 0) 0 0 (fun _ => 0) (fun _ => 0)
    (Run.of_isSome makeTwelve_isSome) madeTwelve_shows (by decide)
    (Run.of_isSome wholeSlice_isSome)
  exact ⟨_, (Option.some_get wholeSlice_isSome).symm, by decide +kernel, by decide +kernel,
    ts, hts, hmem, hplace⟩

end LittleOS.SchedMemory
