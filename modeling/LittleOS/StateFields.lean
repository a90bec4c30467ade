import LittleOS.SchedQueues

/-! # The state fields and the queues

    `task->state` is written in `task_set_ready`, `task_set_sleep`,
    `task_dispatch` and `task_init`.  A task on `sleep_list` is always in
    `TASK_SLEEP`, and a task on `ready_list` that does not run in `TASK_READY`.
    Whether the current task is the only one in `TASK_RUNNING` depends on what
    has happened before:

    * `task_set_ready` of the current task makes it `TASK_READY`, and
      `task_dispatch` writes no state when it picks the same task again;
    * nothing takes the idle task out of `TASK_RUNNING`;
    * `sys_sleep` of no ticks leaves its caller in `TASK_RUNNING` on no queue.

    `Marks` records these three along a run, and `agree_iff` says that the
    fields agree with the queues exactly when none of them is in the way. -/

namespace LittleOS.StateFields

open Words Runs Sched SchedMachine SchedQueues

variable {τ : Type*} [DecidableEq τ] {idle : τ}

/-! ## What each helper does to the states -/

section States

variable (s : Manager τ) (t u : τ)

/-- A change of a task is seen in its state only. -/
theorem modify_state (f : Task → Task) :
    ((s.modify t f).task u).state
      = if u = t then (f (s.task t)).state else (s.task u).state := by
  by_cases hu : u = t
  · rw [hu, modify_task_self, if_pos rfl]
  · rw [modify_task_of_ne s t f hu, if_neg hu]

/-- Making a task ready marks it so, unless it is the idle one. -/
theorem taskSetReady_state :
    ((taskSetReady idle s t).task u).state
      = if t ≠ idle ∧ u = t then .ready else (s.task u).state := by
  by_cases ht : t = idle
  · rw [ht, taskSetReady_idle, if_neg (fun hc => hc.1 rfl)]
  · unfold taskSetReady
    rw [if_neg ht, modify_state]
    simp [ht]

/-- A dispatch marks the next task running, unless it is the current one already. -/
theorem taskDispatch_state :
    ((taskDispatch idle s).task u).state
      = if some (taskNextRun idle s) ≠ s.currTask ∧ u = taskNextRun idle s then .running
        else (s.task u).state := by
  unfold taskDispatch
  dsimp only
  by_cases hn : some (taskNextRun idle s) = s.currTask
  · rw [if_pos hn, if_neg (fun hc => hc.1 hn)]
  · rw [if_neg hn, modify_state]
    simp [hn]

/-- Going to sleep marks the task asleep, unless its time rounds to no ticks. -/
theorem sleepBlock_state {osTicksMs : Nat} {ms : BitVec 32} {c : τ}
    (hc : s.currTask = some c) :
    ((sleepBlock idle osTicksMs s ms).task u).state
      = if sleepTicksOf osTicksMs ms ≠ 0 ∧ u = c then .sleep else (s.task u).state := by
  unfold sleepBlock taskSetSleep
  rw [hc]
  dsimp only
  split
  · next h0 => rw [taskSetBlock_task, if_neg (fun hc => hc.1 h0)]
  · next h0 =>
      rw [modify_state]
      simp [h0]

/-- A new task is marked ready. -/
theorem taskInit_state (ht : t ≠ idle) :
    ((taskInit idle s t).task u).state
      = if u = t then .ready else (s.task u).state := by
  unfold taskInit
  dsimp only
  rw [taskSetReady_state, modify_state]
  by_cases hu : u = t
  · simp [hu, ht]
  · simp [hu]

/-- A turn of the walk marks its task ready if it is due, and no other. -/
theorem wakeStep_state (ht : t ≠ idle) :
    ((wakeStep idle s t).task u).state
      = if u = t ∧ Due s t then .ready else (s.task u).state := by
  have hdown : ((s.modify t fun c => { c with sleepTicks := dec32 c.sleepTicks }).task
      t).sleepTicks = 0 ↔ Due s t := by
    unfold Due
    rw [modify_task_self]
  have hkeep : ((s.modify t fun c => { c with sleepTicks := dec32 c.sleepTicks }).task
      u).state = (s.task u).state := by
    refine modify_task_field s t _ Task.state ?_ u
    exact fun _ => rfl
  unfold wakeStep
  dsimp only
  by_cases hd : Due s t
  · rw [if_pos (hdown.mpr hd), taskSetReady_state]
    by_cases hu : u = t
    · simp [hu, ht, hd]
    · rw [if_neg (fun hc => hu hc.2), if_neg (fun hc => hu hc.1)]
      exact hkeep
  · rw [if_neg (fun hc => hd (hdown.mp hc)), if_neg (fun hc => hd hc.2)]
    exact hkeep

end States

/-- The walk readies the tasks that wake and writes no other state. -/
theorem walk_state :
    ∀ (ts : List τ) (s : Manager τ), ts.Nodup → idle ∉ ts → ∀ u,
      ((ts.foldl (wakeStep idle) s).task u).state
        = if u ∈ ts ∧ Due s u then .ready else (s.task u).state := by
  intro ts
  induction ts with
  | nil => intro s _ _ u; simp
  | cons t rest ih =>
      intro s hnd hid u
      obtain ⟨htr, hrest⟩ := List.nodup_cons.mp hnd
      have hti : t ≠ idle := fun he => hid (by simp [he])
      have hdue : u ≠ t → (Due (wakeStep idle s t) u ↔ Due s u) := by
        intro hu
        unfold Due
        rw [wakeStep_sleepTicks, if_neg hu]
      rw [List.foldl_cons, ih _ hrest (fun hm => hid (List.mem_cons_of_mem _ hm)),
        wakeStep_state s t u hti]
      by_cases hu : u = t
      · subst hu
        simp [htr]
      · simp [hu, hdue hu]

/-! ## What a run has done -/

/-- What a run has done to the fields: three things that are seen when they happen. -/
structure Marks where
  /-- the current task was readied where it runs, and not dispatched since -/
  inPlace : Bool
  /-- the idle task has been dispatched -/
  idleRan : Bool
  /-- a task in `TASK_RUNNING` slept for no ticks -/
  dropped : Bool
deriving DecidableEq, Repr

section Watch

variable (idle : τ) (osTicksMs : Nat)

/-- The marks behind a step taken in machine `m`. -/
def mark (l : Label τ) (m : Machine τ) (k : Marks) : Marks :=
  match l with
  | .taskInit _ => k
  | .schedYield =>
      if 1 < m.sched.readyList.length ∧ m.sched.currTask ≠ some idle then
        { k with inPlace := true }
      else k
  | .sleep ms =>
      if sleepTicksOf osTicksMs ms = 0 ∧ k.inPlace = false then
        { k with dropped := true }
      else k
  | .timer =>
      if (sliceTick idle m.sched).2 = true ∧ m.sched.currTask ≠ some idle then
        { k with inPlace := true }
      else k
  | .kernel =>
      match m.point with
      | .dispatch _ =>
          if some (taskNextRun idle m.sched) = m.sched.currTask then k
          else { k with inPlace := false
                        idleRan := k.idleRan || taskNextRun idle m.sched = idle }
      | _ => k

/-- A step of the machine, with the marks kept. -/
def watch (l : Label τ) (w : Machine τ × Marks) : Option (Machine τ × Marks) :=
  (step idle osTicksMs l w.1).map (fun m => (m, mark idle osTicksMs l w.1 w.2))

/-- The boot, which makes the first task current without a dispatch. -/
def watched (first : τ) (raw : τ → Task) : Machine τ × Marks :=
  (boot idle first raw, ⟨true, false, false⟩)

end Watch

/-- The state fields agree with the queues. -/
def Agree (s : Manager τ) : Prop :=
  (∀ t ∈ s.taskList, (s.task t).state = .running ↔ s.currTask = some t) ∧
  (∀ t ∈ s.readyList, s.currTask ≠ some t → (s.task t).state = .ready) ∧
  ∀ t ∈ s.sleepList, (s.task t).state = .sleep

instance (s : Manager τ) : Decidable (Agree s) := by
  unfold Agree
  infer_instance

/-! ## The invariant -/

/-- What the states say about the tasks that do not run. -/
structure Fields (idle : τ) (s : Manager τ) (k : Marks) : Prop where
  sleepers : ∀ t ∈ s.sleepList, (s.task t).state = .sleep
  ready : ∀ t ∈ s.readyList, s.currTask ≠ some t → (s.task t).state = .ready
  idle_iff : (s.task idle).state = .running ↔ k.idleRan = true
  running : ∀ t ∈ s.taskList, (s.task t).state = .running →
    s.currTask = some t ∨ t = idle ∨ k.dropped = true
  lost : k.dropped = true → ∃ t ∈ s.taskList, t ≠ idle ∧ t ∉ queues s ∧
    (s.task t).state = .running

/-- How the current task `c` stands. -/
inductive Stands (idle : τ) (s : Manager τ) (p : Point) (k : Marks) (c : τ) : Prop where
  /-- it was dispatched -/
  | dispatched (hst : (s.task c).state = .running) (hk : k.inPlace = false)
      (hq : c = idle ∨ s.readyList.head? = some c)
  /-- it was readied where it runs -/
  | inPlace (hst : (s.task c).state = .ready) (hk : k.inPlace = true) (hci : c ≠ idle)
      (hr : c ∈ s.readyList)
      (hq : s.readyList.head? = some c ∨ ∃ k, p = .dispatch k)
  /-- it is about to leave the processor in `sys_sleep` -/
  | leaves (o : IrqStatus) (hp : p = .dispatch (.sleep o)) (hci : c ≠ idle)
      (hr : c ∉ s.readyList) (hd : (s.task c).state = .running → k.dropped = true)

/-- The same queues and states, other counters. -/
structure SameStates (s s' : Manager τ) : Prop where
  curr : s'.currTask = s.currTask
  ready : s'.readyList = s.readyList
  list : s'.taskList = s.taskList
  sleep : s'.sleepList = s.sleepList
  state : ∀ u, (s'.task u).state = (s.task u).state

section Steps

variable {s s' : Manager τ} {k : Marks} {p : Point} {c : τ}

omit [DecidableEq τ] in
/-- The fields stay as they have to be where queues and states are the same. -/
theorem Fields.of_same (h : Fields idle s k) (hs : SameStates s s') :
    Fields idle s' k where
  sleepers := by
    intro t ht
    rw [hs.state]
    exact h.sleepers t (hs.sleep ▸ ht)
  ready := by
    intro t ht hc
    rw [hs.state]
    exact h.ready t (hs.ready ▸ ht) (hs.curr ▸ hc)
  idle_iff := by
    rw [hs.state]
    exact h.idle_iff
  running := by
    intro t ht hr
    rw [hs.state] at hr
    rw [hs.curr]
    exact h.running t (hs.list ▸ ht) hr
  lost := by
    intro hd
    obtain ⟨t, ht, hti, hq, hst⟩ := h.lost hd
    refine ⟨t, hs.list ▸ ht, hti, ?_, by rw [hs.state]; exact hst⟩
    rw [queues, hs.ready, hs.sleep]
    exact hq

omit [DecidableEq τ] in
/-- The marks on the current task alone say nothing about the others. -/
theorem Fields.of_marks (h : Fields idle s k) {k' : Marks} (h1 : k'.idleRan = k.idleRan)
    (h2 : k'.dropped = k.dropped) : Fields idle s k' :=
  ⟨h.sleepers, h.ready, by rw [h1]; exact h.idle_iff, by rw [h2]; exact h.running,
    by rw [h2]; exact h.lost⟩

/-- The slice part counts, and readies the current task at the end of its
    slice. -/
theorem slice_cases (hc : s.currTask = some c) :
    ∃ s₁, SameStates s s₁ ∧ (sliceTick idle s = (s₁, false) ∨
      sliceTick idle s = (taskSetReady idle (taskSetBlock idle s₁ c) c, true)) := by
  have hkeep : ∀ (s : Manager τ) (f : Task → Task), (∀ d, (f d).state = d.state) →
      SameStates s (s.modify c f) := by
    intro s f hf
    exact ⟨rfl, rfl, rfl, rfl, modify_task_field s c f Task.state hf⟩
  unfold sliceTick
  rw [hc]
  dsimp only
  split
  · refine ⟨_, ?_, Or.inr rfl⟩
    refine ⟨rfl, rfl, rfl, rfl, ?_⟩
    intro u
    rw [(hkeep _ _ ?_).state, (hkeep _ _ ?_).state]
    · exact fun _ => rfl
    · exact fun _ => rfl
  · refine ⟨_, ?_, Or.inl rfl⟩
    exact hkeep _ _ (fun _ => rfl)

/-- A new task keeps them so: it is the only one whose state and queue change. -/
theorem Fields.taskInit (h : Fields idle s k) (hs : Sound idle s)
    (hi : idle ∈ s.taskList) {t : τ} (ht : t ∉ s.taskList) :
    Fields idle (taskInit idle s t) k := by
  have hti : t ≠ idle := fun he => ht (he ▸ hi)
  -- the new task is on no queue yet
  have hqueue : ∀ u ∈ queues s, u ≠ t :=
    fun u hu he => ht (he ▸ (hs.mem_queues hu).1)
  have hstate := fun u => taskInit_state s t u hti
  refine ⟨?_, ?_, ?_, ?_, ?_⟩
  · intro u hu
    rw [taskInit_sleepList] at hu
    rw [hstate, if_neg (hqueue u (List.mem_append_right _ hu))]
    exact h.sleepers u hu
  · intro u hu hc
    rw [taskInit_readyList hti] at hu
    rw [taskInit_currTask] at hc
    rw [hstate]
    rcases List.mem_append.mp hu with hu | hu
    · rw [if_neg (hqueue u (List.mem_append_left _ hu))]
      exact h.ready u hu hc
    · rw [if_pos (List.mem_singleton.mp hu)]
  · rw [hstate, if_neg (Ne.symm hti)]
    exact h.idle_iff
  · intro u hu hr
    rw [hstate] at hr
    by_cases hut : u = t
    · rw [if_pos hut] at hr
      exact nomatch hr
    · rw [if_neg hut] at hr
      rw [taskInit_currTask]
      rw [taskInit_taskList] at hu
      refine h.running u ((List.mem_append.mp hu).resolve_right ?_) hr
      exact fun hm => hut (List.mem_singleton.mp hm)
  · intro hd
    obtain ⟨u, hu, hui, hq, hst⟩ := h.lost hd
    have hut : u ≠ t := fun he => ht (he ▸ hu)
    refine ⟨u, ?_, hui, ?_, ?_⟩
    · rw [taskInit_taskList]
      exact List.mem_append_left _ hu
    · intro hm
      rcases List.mem_append.mp ((queues_taskInit hti).subset hm) with hm | hm
      · exact hq hm
      · exact hut (List.mem_singleton.mp hm)
    · rw [hstate, if_neg hut]
      exact hst

/-- Readying the current task where it runs. -/
theorem Fields.requeue (h : Fields idle s k) (hs : Sound idle s)
    (hc : s.currTask = some c) (hq : c = idle ∨ c ∈ s.readyList) :
    Fields idle (taskSetReady idle (taskSetBlock idle s c) c) k := by
  by_cases hci : c = idle
  · have hself : taskSetReady idle (taskSetBlock idle s c) c = s := by
      simp [taskSetBlock, hci]
    rw [hself]
    exact h
  -- the current task is off `sleep_list`: no other task changes its field
  have hr := hq.resolve_left hci
  have hsame : SameQueued s (taskSetReady idle (taskSetBlock idle s c) c) :=
    same_requeue (Or.inr hr)
  have hstate : ∀ u, ((taskSetReady idle (taskSetBlock idle s c) c).task u).state
      = if u = c then .ready else (s.task u).state := by
    intro u
    rw [taskSetReady_state, taskSetBlock_task]
    simp [hci]
  refine ⟨?_, ?_, ?_, ?_, ?_⟩
  · intro u hu
    rw [taskSetReady_sleepList, taskSetBlock_sleepList] at hu
    rw [hstate, if_neg (fun he : u = c => hs.disjoint hr (he ▸ hu))]
    exact h.sleepers u hu
  · intro u hu hn
    rw [taskSetReady_currTask, taskSetBlock_currTask] at hn
    have huc : u ≠ c := fun he => hn (he ▸ hc)
    rw [requeue_readyList idle s c hci] at hu
    rw [hstate, if_neg huc]
    refine h.ready u (List.mem_of_mem_erase
      ((List.mem_append.mp hu).resolve_right ?_)) hn
    exact fun hm => huc (List.mem_singleton.mp hm)
  · rw [hstate, if_neg (Ne.symm hci)]
    exact h.idle_iff
  · intro u hu hrun
    rw [taskSetReady_taskList, taskSetBlock_taskList] at hu
    rw [hstate] at hrun
    rw [taskSetReady_currTask, taskSetBlock_currTask]
    split at hrun
    · exact nomatch hrun
    · exact h.running u hu hrun
  · intro hd
    obtain ⟨u, hu, hui, hq, hst⟩ := h.lost hd
    have huc : u ≠ c := fun he => hq (he ▸ List.mem_append_left _ hr)
    refine ⟨u, ?_, hui, fun hm => hq (hsame.1.subset hm), ?_⟩
    · rw [hsame.2]
      exact hu
    · rw [hstate, if_neg huc]
      exact hst

variable {osTicksMs : Nat}

/-- The current task leaves `ready_list`, and joins `sleep_list` if it is to
    sleep at all. -/
theorem Fields.sleepBlock (h : Fields idle s k) (hs : Sound idle s)
    (hc : s.currTask = some c) (hci : c ≠ idle) (hr : c ∈ s.readyList)
    (hrun : (s.task c).state = .running ↔ k.inPlace = false) (m : Machine τ)
    (ms : BitVec 32) :
    Fields idle (sleepBlock idle osTicksMs s ms)
      (mark idle osTicksMs (.sleep ms) m k) := by
  have hstate : ∀ u, ((Sched.sleepBlock idle osTicksMs s ms).task u).state
      = if sleepTicksOf osTicksMs ms ≠ 0 ∧ u = c then .sleep else (s.task u).state :=
    fun u => sleepBlock_state s u hc
  have hkeep : ∀ u, u ≠ c → ((Sched.sleepBlock idle osTicksMs s ms).task u).state
      = (s.task u).state := by
    intro u hu
    rw [hstate, if_neg (fun hc => hu hc.2)]
  refine ⟨?_, ?_, ?_, ?_, ?_⟩
  · intro u hu
    rw [hstate]
    split
    · rfl
    · next hn =>
        exact h.sleepers u (((mem_sleepBlock_iff hc).mp hu).resolve_right hn)
  · intro u hu hn
    rw [sleepBlock_currTask] at hn
    rw [sleepBlock_readyList hc hci] at hu
    rw [hkeep u (fun he => hn (he ▸ hc))]
    exact h.ready u (List.mem_of_mem_erase hu) hn
  · rw [hkeep idle (Ne.symm hci)]
    unfold mark
    dsimp only
    split <;> exact h.idle_iff
  · intro u hu hrun'
    rw [sleepBlock_taskList] at hu
    rw [sleepBlock_currTask]
    by_cases huc : u = c
    · exact Or.inl (huc ▸ hc)
    · rw [hkeep u huc] at hrun'
      refine (h.running u hu hrun').imp_right (Or.imp_right ?_)
      intro hd
      unfold mark
      dsimp only
      split
      · rfl
      · exact hd
  · intro hd
    unfold mark at hd
    dsimp only at hd
    rw [sleepBlock_taskList]
    split at hd
    · -- the caller itself is lost
      next h0 =>
        refine ⟨c, (hs.mem_queues (List.mem_append_left _ hr)).1, hci, ?_, ?_⟩
        · intro hm
          rcases List.mem_append.mp hm with hm | hm
          · rw [sleepBlock_readyList hc hci] at hm
            exact hs.ready_nodup.not_mem_erase hm
          · rcases (mem_sleepBlock_iff hc).mp hm with hm | ⟨hne, -⟩
            · exact hs.disjoint hr hm
            · exact hne h0.1
        · rw [hstate, if_neg (fun hc => hc.1 h0.1)]
          exact hrun.mpr h0.2
    · obtain ⟨u, hu, hui, hq, hst⟩ := h.lost hd
      have huc : u ≠ c := fun he => hq (he ▸ List.mem_append_left _ hr)
      refine ⟨u, hu, hui, ?_, by rw [hkeep u huc]; exact hst⟩
      intro hm
      rcases List.mem_append.mp hm with hm | hm
      · rw [sleepBlock_readyList hc hci] at hm
        exact hq (List.mem_append_left _ (List.mem_of_mem_erase hm))
      · rcases (mem_sleepBlock_iff hc).mp hm with hm | ⟨-, he⟩
        · exact hq (List.mem_append_right _ hm)
        · exact huc he

/-- **THE HAND-OVER**: the outgoing task is the idle one, ready or off the
    queues, and the incoming one gets `TASK_RUNNING`. -/
theorem Fields.dispatch (h : Fields idle s k) (hs : Sound idle s)
    (hst : Stands idle s p k c) (hc : s.currTask = some c)
    (hn : some (taskNextRun idle s) ≠ s.currTask) {k' : Marks}
    (hran : k'.idleRan = (k.idleRan || decide (taskNextRun idle s = idle)))
    (hdrop : k'.dropped = k.dropped) :
    Fields idle (taskDispatch idle s) k' := by
  have hstate : ∀ u, ((taskDispatch idle s).task u).state
      = if u = taskNextRun idle s then .running else (s.task u).state := by
    intro u
    rw [taskDispatch_state]
    simp [hn]
  have hnext : taskNextRun idle s = idle ∨ taskNextRun idle s ∈ s.readyList :=
    taskNextRun_mem s
  have hcn : c ≠ taskNextRun idle s := fun he => hn (he ▸ hc.symm)
  -- the outgoing task is not in TASK_RUNNING on ready_list
  have hout : c ≠ idle → (c ∈ s.readyList → (s.task c).state = .ready) ∧
      ((s.task c).state = .running → k.dropped = true) := by
    intro hci
    have hfront : s.readyList.head? ≠ some c := by
      intro he
      refine hcn ?_
      unfold taskNextRun
      rw [List.headD_eq_head?_getD, he]
      rfl
    cases hst with
    | dispatched _ _ hq => exact absurd (hq.resolve_left hci) hfront
    | inPlace hst _ _ _ _ =>
        exact ⟨fun _ => hst, fun hr => by rw [hst] at hr; exact nomatch hr⟩
    | leaves o _ _ hr hd => exact ⟨fun hm => absurd hm hr, hd⟩
  refine ⟨?_, ?_, ?_, ?_, ?_⟩
  · intro u hu
    rw [taskDispatch_sleepList] at hu
    rw [hstate, if_neg]
    · exact h.sleepers u hu
    · rintro rfl
      rcases hnext with he | hm
      · exact hs.idle_sleep (he ▸ hu)
      · exact hs.disjoint hm hu
  · intro u hu hne
    rw [taskDispatch_readyList] at hu
    rw [taskDispatch_currTask] at hne
    rw [hstate, if_neg (fun he : u = taskNextRun idle s => hne (he ▸ rfl))]
    by_cases huc : u = c
    · rw [huc]
      exact (hout (fun he => hs.idle_ready (by rw [← he, ← huc]; exact hu))).1
        (huc ▸ hu)
    · refine h.ready u hu ?_
      rw [hc]
      exact fun he => huc (Option.some.inj he).symm
  · rw [hstate, hran]
    by_cases he : idle = taskNextRun idle s
    · rw [if_pos he]
      simp [← he]
    · rw [if_neg he, h.idle_iff]
      simp [Ne.symm he]
  · intro u hu hrun
    rw [taskDispatch_taskList] at hu
    rw [hstate] at hrun
    rw [taskDispatch_currTask, hdrop]
    by_cases hun : u = taskNextRun idle s
    · exact Or.inl (hun ▸ rfl)
    · rw [if_neg hun] at hrun
      right
      rcases h.running u hu hrun with he | he | he
      · by_cases hui : u = idle
        · exact Or.inl hui
        · obtain rfl : u = c := Option.some.inj (he.symm.trans hc)
          exact Or.inr ((hout hui).2 hrun)
      · exact Or.inl he
      · exact Or.inr he
  · intro hd
    rw [hdrop] at hd
    obtain ⟨u, hu, hui, hq, hst⟩ := h.lost hd
    refine ⟨u, ?_, hui, ?_, ?_⟩
    · rw [taskDispatch_taskList]
      exact hu
    · rw [queues, taskDispatch_readyList, taskDispatch_sleepList]
      exact hq
    · rw [hstate]
      split
      · rfl
      · exact hst

/-- The walk: the tasks that wake are `TASK_READY`. -/
theorem Fields.walk (h : Fields idle s k) (hs : Sound idle s) :
    Fields idle (sleepWalk idle s) k := by
  have hnd := hs.sleep_nodup
  have hid := hs.idle_sleep
  have hsame := same_walk hs
  have hstate := walk_state s.sleepList s hnd hid
  have hkeep : ∀ u, u ∉ s.sleepList → ((sleepWalk idle s).task u).state
      = (s.task u).state := by
    intro u hu
    exact (hstate u).trans (if_neg (fun hc => hu hc.1))
  refine ⟨?_, ?_, ?_, ?_, ?_⟩
  · intro u hu
    rw [sleepWalk_sleepList hnd hid, List.mem_filter] at hu
    refine (hstate u).trans ?_
    rw [if_neg (fun hc => by simp [hc.2] at hu)]
    exact h.sleepers u hu.1
  · intro u hu hn
    rw [sleepWalk_readyList hnd hid] at hu
    rw [sleepWalk_currTask hnd hid] at hn
    -- ready before the walk, or readied by it
    rcases List.mem_append.mp hu with hu | hu
    · rw [hkeep u (fun hm => hs.disjoint hu hm)]
      exact h.ready u hu hn
    · rw [List.mem_filter, decide_eq_true_iff] at hu
      exact (hstate u).trans (if_pos hu)
  · rw [hkeep idle hid]
    exact h.idle_iff
  · intro u hu hrun
    rw [sleepWalk_taskList hnd hid] at hu
    rw [sleepWalk_currTask hnd hid]
    refine h.running u hu ?_
    have hrun' := (hstate u).symm.trans hrun
    split at hrun'
    · exact nomatch hrun'
    · exact hrun'
  · intro hd
    obtain ⟨u, hu, hui, hq, hst⟩ := h.lost hd
    refine ⟨u, ?_, hui, fun hm => hq (hsame.1.subset hm), ?_⟩
    · rw [sleepWalk_taskList hnd hid]
      exact hu
    · rw [hkeep u (fun hm => hq (List.mem_append_right _ hm))]
      exact hst

end Steps

/-! ## Runs -/

section Runs

variable {first : τ} {osTicksMs : Nat}

/-- The invariant of every run. -/
structure Kept (idle : τ) (w : Machine τ × Marks) : Prop where
  inv : Inv idle w.1
  fields : Fields idle w.1.sched w.2
  current : ∃ c, w.1.sched.currTask = some c ∧
    Stands idle w.1.sched w.1.point w.2 c

omit [DecidableEq τ] in
/-- At a point behind a dispatch the current task is the idle one or the first
    of `ready_list`. -/
theorem Stands.front {s : Manager τ} {p : Point} {k : Marks} {c : τ}
    (h : Stands idle s p k c) (hp : ∀ k, p ≠ .dispatch k) :
    c = idle ∨ s.readyList.head? = some c := by
  cases h with
  | dispatched _ _ hq => exact hq
  | inPlace _ _ _ _ hq => exact Or.inr (hq.resolve_right (fun ⟨k, hk⟩ => hp k hk))
  | leaves o hp' => exact absurd hp' (hp _)

omit [DecidableEq τ] in
/-- A longer `ready_list` has the same first task. -/
theorem head?_append {l l' : List τ} {c : τ} (h : l.head? = some c) :
    (l ++ l').head? = some c := by
  rw [List.head?_append, h]
  rfl

omit [DecidableEq τ] in
/-- Between dispatches, more tasks behind the current one change nothing for
    it. -/
theorem Stands.grow {s s' : Manager τ} {p p' : Point} {k : Marks} {c : τ}
    (h : Stands idle s p k c) (hp : ∀ k, p ≠ .dispatch k) {l : List τ}
    (hr : s'.readyList = s.readyList ++ l)
    (hst : (s'.task c).state = (s.task c).state) : Stands idle s' p' k c := by
  cases h with
  | dispatched hrun hk hq =>
      refine Stands.dispatched (hst.trans hrun) hk (hq.imp_right (fun hf => ?_))
      rw [hr]
      exact head?_append hf
  | inPlace hready hk hci hm hq =>
      have hf := hq.resolve_right (fun ⟨k, hk⟩ => hp k hk)
      refine Stands.inPlace (hst.trans hready) hk hci ?_ (Or.inl ?_)
      · rw [hr]
        exact List.mem_append_left _ hm
      · rw [hr]
        exact head?_append hf
  | leaves o hp' => exact absurd hp' (hp _)

omit [DecidableEq τ] in
/-- The same queues and states at another place. -/
theorem Stands.of_same {s s' : Manager τ} {p p' : Point} {k : Marks} {c : τ}
    (h : Stands idle s p k c) (hp : ∀ k, p ≠ .dispatch k) (hs : SameStates s s') :
    Stands idle s' p' k c :=
  h.grow hp (hs.ready.trans (List.append_nil _).symm) (hs.state c)

omit [DecidableEq τ] in
/-- Nothing changed. -/
theorem SameStates.refl (s : Manager τ) : SameStates s s :=
  ⟨rfl, rfl, rfl, rfl, fun _ => rfl⟩

omit [DecidableEq τ] in
/-- The task that `task_next_run` picks is first on `ready_list`. -/
theorem head?_of_next {s : Manager τ} {c : τ} (h : taskNextRun idle s = c) :
    c = idle ∨ s.readyList.head? = some c := by
  subst h
  unfold taskNextRun
  cases s.readyList with
  | nil => exact Or.inl rfl
  | cons t rest => exact Or.inr rfl

/-- The current task moved to the tail of `ready_list`, at a call of
    `task_dispatch`. -/
theorem Stands.requeue {s : Manager τ} {p : Point} {k k' : Marks} {c : τ}
    (h : Stands idle s p k c) (hp : ∀ k, p ≠ .dispatch k) (j : Cont)
    (hk : k'.inPlace = if c = idle then k.inPlace else true) :
    Stands idle (taskSetReady idle (taskSetBlock idle s c) c) (.dispatch j) k' c := by
  by_cases hci : c = idle
  · subst hci
    rw [if_pos rfl] at hk
    have hself : taskSetReady c (taskSetBlock c s c) c = s := by
      simp [taskSetBlock]
    rw [hself]
    cases h with
    | dispatched hrun hk₀ hq => exact Stands.dispatched hrun (hk.trans hk₀) hq
    | inPlace _ _ hne => exact absurd rfl hne
    | leaves o hp' => exact absurd hp' (hp _)
  · rw [if_neg hci] at hk
    refine Stands.inPlace ?_ hk hci ?_ (Or.inr ⟨j, rfl⟩)
    · rw [taskSetReady_state, if_pos ⟨hci, rfl⟩]
    · rw [requeue_readyList idle s c hci]
      simp

/-- A `sys_sched_yield` that changes nothing found at most one ready task. -/
theorem yield_alone {m : Machine τ} (hs : step idle osTicksMs .schedYield m = some m)
    (hp : m.point = .user) {c : τ} (hc : m.sched.currTask = some c) :
    ¬ 1 < m.sched.readyList.length := by
  intro hl
  simp only [step, yieldRequeue, if_pos hp, if_pos hl, hc, Option.map_some] at hs
  have hpoint := congrArg Machine.point (Option.some.inj hs)
  rw [hp] at hpoint
  cases hpoint

/-- In a task's own code the current task is the idle one or on `ready_list`. -/
theorem Kept.current_user {m : Machine τ} {k : Marks} (h : Kept idle (m, k))
    (hp : m.point = .user) :
    ∃ c, m.sched.currTask = some c ∧ (c = idle ∨ c ∈ m.sched.readyList) ∧
      Stands idle m.sched m.point k c := by
  obtain ⟨c, hc, hst⟩ := h.current
  obtain ⟨c', hc', hq⟩ := h.inv.current_user hp
  obtain rfl : c = c' := Option.some.inj (hc.symm.trans hc')
  exact ⟨c, hc, hq, hst⟩

omit [DecidableEq τ] in
/-- There its field says `running` unless it was requeued in place. -/
theorem Stands.running_iff {s : Manager τ} {k : Marks} {c : τ}
    (h : Stands idle s .user k c) :
    (s.task c).state = .running ↔ k.inPlace = false := by
  cases h with
  | dispatched hrun hk _ => simp [hrun, hk]
  | inPlace hready hk _ _ _ => simp [hready, hk]
  | leaves o hp' => exact nomatch hp'

/-- The sleeper leaves `ready_list` and is current until the dispatch. -/
theorem Kept.sleep {m : Machine τ} {k : Marks} (h : Kept idle (m, k))
    (hp : m.point = .user) (hne : m.sched.currTask ≠ some idle) (ms : BitVec 32)
    (hinv : Inv idle { m with sched := sleepBlock idle osTicksMs m.sched ms, intr := .off
                              point := .dispatch (.sleep m.intr) }) :
    Kept idle ({ m with sched := sleepBlock idle osTicksMs m.sched ms, intr := .off
                        point := .dispatch (.sleep m.intr) },
      mark idle osTicksMs (.sleep ms) m k) := by
  obtain ⟨c, hc, hq, hst⟩ := h.current_user hp
  have hci : c ≠ idle := fun he => hne (he ▸ hc)
  have hrun : (m.sched.task c).state = .running ↔ k.inPlace = false :=
    Stands.running_iff (hp ▸ hst)
  refine ⟨hinv, h.fields.sleepBlock h.inv.sound hc hci (hq.resolve_left hci) hrun m ms, c,
    sleepBlock_currTask.trans hc, Stands.leaves m.intr rfl hci ?_ ?_⟩
  · dsimp only
    rw [sleepBlock_readyList hc hci]
    exact h.inv.sound.ready_nodup.not_mem_erase
  · dsimp only
    rw [sleepBlock_state m.sched c hc]
    intro hstate
    split at hstate
    · exact nomatch hstate
    · next h0 =>
        -- a sleep of no ticks sets no field: the task keeps the state it had
        have hzero : sleepTicksOf osTicksMs ms = 0 := by
          by_contra hz
          exact h0 ⟨hz, rfl⟩
        exact congrArg Marks.dropped (if_pos ⟨hzero, hrun.mp hstate⟩)

/-- A tick requeues the current task in place, or changes no queue. -/
theorem Kept.timer {m : Machine τ} {k : Marks} (h : Kept idle (m, k))
    (hp : m.point = .user) (hinv : Inv idle (timerStep idle m)) :
    Kept idle (timerStep idle m, mark idle osTicksMs .timer m k) := by
  obtain ⟨c, hc, hq, hst⟩ := h.current_user hp
  have hslice : ∃ s₁, SameStates m.sched s₁ ∧
      (sliceTick idle m.sched = (s₁, false) ∨ sliceTick idle m.sched
        = (taskSetReady idle (taskSetBlock idle s₁ c) c, true)) := slice_cases hc
  obtain ⟨s₁, hsame, he | he⟩ := hslice
  -- the slice goes on
  · have hmark : mark idle osTicksMs .timer m k = k := by
      simp [mark, he]
    refine ⟨hinv, ?_, c, ?_, ?_⟩
    · simpa only [timerStep, he, hmark] using h.fields.of_same hsame
    · simpa only [timerStep, he] using hsame.curr.trans hc
    · simpa only [timerStep, he, hmark] using hst.of_same (by simp [hp]) hsame
  -- the slice is over
  · have hmark : mark idle osTicksMs .timer m k
        = if c = idle then k else { k with inPlace := true } := by
      simp [mark, he, hc]
    have hsound₁ : Sound idle s₁ :=
      h.inv.sound.of_same (same_of_eq hsame.ready hsame.sleep hsame.list)
    have hq₁ : c = idle ∨ c ∈ s₁.readyList := hq.imp_right (fun hm => hsame.ready ▸ hm)
    have hfields := (h.fields.of_same hsame).requeue hsound₁ (hsame.curr.trans hc) hq₁
    have hst₁ : Stands idle s₁ .user k c := hst.of_same (by simp [hp]) hsame
    refine ⟨hinv, ?_, c, ?_, ?_⟩
    · simp only [timerStep, he, hmark]
      refine hfields.of_marks ?_ ?_
      · split <;> rfl
      · split <;> rfl
    · simpa [timerStep, he] using hsame.curr.trans hc
    · simp only [timerStep, he, hmark, if_true]
      refine hst₁.requeue (fun _ => nofun) _ ?_
      split <;> rfl

/-- A `sys_sched_yield` of one of several ready tasks requeues it in place. -/
theorem Kept.yield {m : Machine τ} {k : Marks} {c : τ} (h : Kept idle (m, k))
    (hp : m.point = .user) (hc : m.sched.currTask = some c)
    (hl : 1 < m.sched.readyList.length)
    (hinv : Inv idle { m with sched := taskSetReady idle (taskSetBlock idle m.sched c) c
                              intr := .off, point := .dispatch (.yield m.intr) }) :
    Kept idle ({ m with sched := taskSetReady idle (taskSetBlock idle m.sched c) c
                        intr := .off, point := .dispatch (.yield m.intr) },
      mark idle osTicksMs .schedYield m k) := by
  obtain ⟨c', hcur, hq, hst⟩ := h.current_user hp
  obtain rfl : c = c' := Option.some.inj (hc.symm.trans hcur)
  have hmark : mark idle osTicksMs .schedYield m k
      = if c = idle then k else { k with inPlace := true } := by
    simp [mark, hl, hc]
  rw [hmark]
  refine ⟨hinv, ?_, c, ?_, ?_⟩
  · refine (h.fields.requeue h.inv.sound hc hq).of_marks ?_ ?_
    · split <;> rfl
    · split <;> rfl
  · simpa using hc
  · refine hst.requeue (by simp [hp]) _ ?_
    split <;> rfl

/-- The tasks the walk over `sleep_list` readies were asleep, so none of them is current. -/
theorem Kept.walk {m : Machine τ} {k : Marks} (h : Kept idle (m, k))
    (hp : m.point = .walk)
    (hinv : Inv idle { m with sched := sleepWalk idle m.sched, point := .dispatch .eoi }) :
    Kept idle ({ m with sched := sleepWalk idle m.sched, point := .dispatch .eoi }, k) := by
  obtain ⟨c, hc, hst⟩ := h.current
  have hnd := h.inv.sound.sleep_nodup
  have hid := h.inv.sound.idle_sleep
  have hcs : c ∉ m.sched.sleepList := by
    intro hm
    rcases hst.front (by simp [hp]) with rfl | hf
    · exact hid hm
    · exact h.inv.sound.disjoint (List.mem_of_head? hf) hm
  refine ⟨hinv, h.fields.walk h.inv.sound, c, (sleepWalk_currTask hnd hid).trans hc, ?_⟩
  refine hst.grow (by simp [hp]) (sleepWalk_readyList hnd hid) ?_
  exact (walk_state m.sched.sleepList m.sched hnd hid c).trans
    (if_neg (fun hm => hcs hm.1))

/-- A new task is none that the scheduler knows of. -/
theorem Kept.taskInit {m : Machine τ} {k : Marks} {t : τ} (h : Kept idle (m, k))
    (hp : m.point = .user) (ht : t ∉ m.sched.taskList)
    (hinv : Inv idle { m with sched := Sched.taskInit idle m.sched t
                              tss := Function.update m.tss t (.user, .on) }) :
    Kept idle ({ m with sched := Sched.taskInit idle m.sched t
                        tss := Function.update m.tss t (.user, .on) }, k) := by
  obtain ⟨c, hc, hq, hst⟩ := h.current_user hp
  have hti : t ≠ idle := fun he => ht (he ▸ h.inv.idle_init)
  refine ⟨hinv, h.fields.taskInit h.inv.sound h.inv.idle_init ht, c, ?_, ?_⟩
  · exact (taskInit_currTask t).trans hc
  · refine hst.grow (by simp [hp]) (taskInit_readyList hti) ?_
    refine (taskInit_state m.sched t c hti).trans (if_neg ?_)
    rintro rfl
    exact ht (h.inv.sound.mem_queues (List.mem_append_left _ (hq.resolve_left hti))).1

/-- A dispatch that finds the current task again changes nothing. -/
theorem Kept.stay {m : Machine τ} {k : Marks} {j : Cont} (h : Kept idle (m, k))
    (hp : m.point = .dispatch j) (hn : some (taskNextRun idle m.sched) = m.sched.currTask)
    (hinv : Inv idle { m with intr := .off, point := .leave m.intr j }) :
    Kept idle ({ m with intr := .off, point := .leave m.intr j },
      mark idle osTicksMs .kernel m k) := by
  obtain ⟨c, hc, hst⟩ := h.current
  have hmark : mark idle osTicksMs .kernel m k = k := by
    simp [mark, hp, hn]
  rw [hmark]
  refine ⟨hinv, h.fields, c, hc, ?_⟩
  have hnext : taskNextRun idle m.sched = c := Option.some.inj (hn.trans hc)
  cases hst with
  | dispatched hrun hk hq => exact Stands.dispatched hrun hk hq
  | inPlace hready hk hci hr hq =>
      exact Stands.inPlace hready hk hci hr (Or.inl ((head?_of_next hnext).resolve_left hci))
  | leaves o hp' hci hr hd =>
      have hf := (head?_of_next hnext).resolve_left hci
      exact absurd (List.mem_of_head? hf) hr

/-- Another task gets the processor, and with it `TASK_RUNNING`. -/
theorem Kept.switch {m : Machine τ} {k : Marks} {j : Cont} (h : Kept idle (m, k))
    (hp : m.point = .dispatch j) (hn : some (taskNextRun idle m.sched) ≠ m.sched.currTask)
    (hinv : Inv idle (dispatchStep idle m j)) :
    Kept idle (dispatchStep idle m j, mark idle osTicksMs .kernel m k) := by
  obtain ⟨c, hc, hst⟩ := h.current
  have hmark : mark idle osTicksMs .kernel m k = { k with
      inPlace := false
      idleRan := k.idleRan || decide (taskNextRun idle m.sched = idle) } := by
    simp [mark, hp, hn]
  have hd : dispatchStep idle m j = _ := if_neg hn
  refine ⟨hinv, ?_, taskNextRun idle m.sched, ?_, ?_⟩
  · simp only [hd, hmark]
    exact h.fields.dispatch h.inv.sound hst hc hn rfl rfl
  · simp only [hd]
    exact taskDispatch_currTask idle m.sched
  · simp only [hd, hmark]
    refine Stands.dispatched ?_ rfl ?_
    · rw [taskDispatch_state, if_pos ⟨hn, rfl⟩]
    · rw [taskDispatch_readyList]
      exact head?_of_next rfl

/-- **EVERY STEP** keeps the invariant. -/
theorem step_kept {l : Label τ} {w w' : Machine τ × Marks} (h : Kept idle w)
    (hs : watch idle osTicksMs l w = some w') : Kept idle w' := by
  obtain ⟨m, k⟩ := w
  obtain ⟨m', hm, rfl⟩ := Option.map_eq_some_iff.mp hs
  have hinv := step_inv h.inv hm
  obtain ⟨c, hc, hst⟩ := h.current
  dsimp only at hc hst hm hinv
  cases step_shape idle osTicksMs hm with
  | taskInit t hp ht => exact h.taskInit hp ht hinv
  | yieldAlone hp =>
      have hmark : mark idle osTicksMs .schedYield m k = k :=
        if_neg (fun hl => yield_alone hm hp hc hl.1)
      dsimp only
      rw [hmark]
      exact h
  | yield c' hp hc' hl => exact h.yield hp hc' hl hinv
  | sleep ms hp hne => exact h.sleep hp hne ms hinv
  | timer hp hi => exact h.timer hp hinv
  | stay j hp hn => exact h.stay hp hn hinv
  | switch j hp hn => exact h.switch hp hn hinv
  | leave inner j hp =>
      have hmark : mark idle osTicksMs .kernel m k = k := by
        simp [mark, hp]
      dsimp only
      rw [hmark]
      have hmove : ∀ p, Stands idle m.sched p k c :=
        fun p => hst.of_same (by simp [hp]) (SameStates.refl m.sched)
      cases j <;> exact ⟨hinv, h.fields, c, hc, hmove _⟩
  | walk hp =>
      have hmark : mark idle osTicksMs .kernel m k = k := by
        simp [mark, hp]
      rw [hmark]
      exact h.walk hp hinv
  | eoi hp =>
      have hmark : mark idle osTicksMs .kernel m k = k := by
        simp [mark, hp]
      dsimp only
      rw [hmark]
      refine ⟨hinv, h.fields, c, hc, ?_⟩
      exact hst.of_same (by simp [hp]) (SameStates.refl m.sched)

/-- At boot the fields are as they have to be: two tasks, the idle one marked created
    and the first one ready. -/
theorem watched_kept (hfi : first ≠ idle) (raw : τ → Task) :
    Kept idle (watched idle first raw) := by
  have hready : (watched idle first raw).1.sched.readyList = [first] :=
    boot_readyList hfi raw
  have hsleep : (watched idle first raw).1.sched.sleepList = [] := boot_sleepList raw
  have hlist : (watched idle first raw).1.sched.taskList = [idle, first] :=
    boot_taskList raw
  have hfirst : ((watched idle first raw).1.sched.task first).state = .ready := by
    simp [watched, boot, taskFirstInit, taskInit_state _ _ _ hfi]
  have hidle : ((watched idle first raw).1.sched.task idle).state = .created := by
    show ((taskInit idle (taskManagerInit idle _) first).task idle).state = .created
    rw [taskInit_state _ _ _ hfi, if_neg (Ne.symm hfi)]
    simp [taskManagerInit, taskInit]
  refine ⟨(boot_inv hfi raw).1, ⟨?_, ?_, ?_, ?_, ?_⟩, first, rfl, ?_⟩
  · intro t ht
    rw [hsleep] at ht
    cases ht
  · intro t ht hc
    rw [hready] at ht
    exact absurd (by rw [List.mem_singleton.mp ht]; rfl) hc
  · refine iff_of_false (fun hrun => ?_) (fun hran => ?_)
    · rw [hidle] at hrun
      cases hrun
    · cases hran
  · intro t ht hr
    rw [hlist] at ht
    rcases List.mem_pair.mp ht with rfl | rfl
    · exact Or.inr (Or.inl rfl)
    · exact Or.inl rfl
  · intro hdropped
    cases hdropped
  -- nothing was dispatched: the first task was made current while ready
  · refine Stands.inPlace hfirst rfl hfi ?_ (Or.inl ?_)
    · rw [hready]
      simp
    · rw [hready]
      rfl

/-- In the task's own code the fields agree with the queues exactly when the
    current task was dispatched and no other task is stuck in
    `TASK_RUNNING`. -/
theorem Kept.agrees {w : Machine τ × Marks} (h : Kept idle w)
    (hp : w.1.point = .user) :
    Agree w.1.sched ↔ w.2.inPlace = false ∧
      (w.2.idleRan = true → w.1.sched.currTask = some idle) ∧ w.2.dropped = false := by
  obtain ⟨c, hc, hst⟩ := h.current
  have hfront := hst.front (by simp [hp])
  have hmem : c ∈ w.1.sched.taskList := by
    rcases hfront with rfl | hf
    · exact h.inv.idle_init
    · exact (h.inv.sound.mem_queues (List.mem_append_left _ (List.mem_of_head? hf))).1
  constructor
  · rintro ⟨hrun, -, -⟩
    have hcrun := (hrun c hmem).mpr hc
    refine ⟨?_, ?_, ?_⟩
    · cases hst with
      | dispatched _ hk _ => exact hk
      | inPlace hready => rw [hready] at hcrun; exact nomatch hcrun
      | leaves o hp' => rw [hp] at hp'; exact nomatch hp'
    · intro hran
      exact (hrun idle h.inv.idle_init).mp (h.fields.idle_iff.mpr hran)
    · by_contra hd
      obtain ⟨t, ht, hti, hq, hst'⟩ := h.fields.lost (by simpa using hd)
      have htc : t = c := Option.some.inj (((hrun t ht).mp hst').symm.trans hc)
      subst htc
      exact hq (List.mem_append_left _ (List.mem_of_head? (hfront.resolve_left hti)))
  · rintro ⟨hk, hran, hd⟩
    have hcrun : (w.1.sched.task c).state = .running := by
      cases hst with
      | dispatched hrun => exact hrun
      | inPlace _ hk' => rw [hk] at hk'; exact nomatch hk'
      | leaves o hp' => rw [hp] at hp'; exact nomatch hp'
    refine ⟨fun t ht => ⟨fun hr => ?_, fun he => ?_⟩, h.fields.ready, h.fields.sleepers⟩
    · rcases h.fields.running t ht hr with he | rfl | he
      · exact he
      · exact hran (h.fields.idle_iff.mp hr)
      · rw [hd] at he
        exact nomatch he
    · obtain rfl : c = t := Option.some.inj (hc.symm.trans he)
      exact hcrun

/-- **THE STATE FIELDS AND THE QUEUES**, in every state of every run in which
    no scheduler call is under way. -/
theorem agree_iff (hfi : first ≠ idle) (raw : τ → Task) {ls : List (Label τ)}
    {w : Machine τ × Marks}
    (h : Run (watch idle osTicksMs) (fun _ _ => True) (watched idle first raw) ls w)
    (hp : w.1.point = .user) :
    Agree w.1.sched ↔ w.2.inPlace = false ∧
      (w.2.idleRan = true → w.1.sched.currTask = some idle) ∧ w.2.dropped = false :=
  (h.invariant (watched_kept hfi raw) (fun _ _ _ hk _ hs => step_kept hk hs)).agrees hp

end Runs

/-- The first task makes a second one and yields to it. -/
def yieldRun : List (Label Nat) := [.taskInit 2, .schedYield, .kernel]

private theorem yieldRun_isSome :
    (exec (watch 0 10) (fun _ _ => True) yieldRun (watched 0 1 blank)).isSome = true := by
  decide

/-- A run with a yield after which fields and queues agree. -/
theorem agree_iff_yield :
    ∃ w, exec (watch 0 10) (fun _ _ => True) yieldRun (watched 0 1 blank) = some w ∧
      Agree w.1.sched :=
  ⟨_, (Option.some_get yieldRun_isSome).symm,
    (agree_iff (by decide) blank (Run.of_isSome yieldRun_isSome) (by decide)).mpr
      (by decide)⟩

/-- Behind the boot the current task is `TASK_READY`. -/
theorem boot_not_running :
    ¬ ∀ (ls : List (Label Nat)) (w : Machine Nat × Marks),
        Run (watch 0 10) (fun _ _ => True) (watched 0 1 blank) ls w →
        w.1.point = .user → Agree w.1.sched := by
  intro hall
  exact absurd (hall [] _ (Run.nil _) rfl) (by decide)

end LittleOS.StateFields
