import LittleOS.TaskTick

/-! # `sys_sleep` as it is written

    `sys_sleep` passes `&task_manager.curr_task` to its helpers, which is the
    address of the manager and not the one stored there.  Read as a task, the
    manager has

        sleep_ticks in task_list.tail.next     run_node in sleep_list
        state in curr_task                     from head.next on

    and `ms + (OS_TICKS_MS - 1) / OS_TICKS_MS` is `ms`.

    * `sysSleep_frame` — the words that are written: none of them is one of
      `ready_list`;
    * `sysSleep_effect` — what becomes of the lists: the caller stays ready, the
      sleepers are lost;
    * `sleep_never_correct` — so in no state the call does what it is for. -/

namespace LittleOS.SysSleep

open Words Klist KlistRun TaskMemory TaskTick
open Sched (Manager sleepTicksOf)

variable {tm : Nat} {T : Set Nat} {m m' : Mem} {fuel osTicksMs : Nat} {ms : BitVec 32}
  {ready : List Nat}

/-- `sys_sleep`; `TaskMemory.sysSleep` is the same with the task `curr_task`
    points to. -/
def sysSleep (fuel tm osTicksMs : Nat) (m : Mem) (ms : BitVec 32) : Option Mem :=
  (taskSetBlock fuel tm m (currTask tm)).map (fun m =>
    taskDispatch tm (taskSetSleep tm m (currTask tm) (sleepTicksOf osTicksMs ms)))

/-- The time is not divided by the length of a tick. -/
theorem sleepTicksOf_eq (hos : 1 ≤ osTicksMs) : sleepTicksOf osTicksMs ms = ms.toNat := by
  unfold sleepTicksOf
  rw [Nat.div_eq_of_lt (by omega), Nat.add_zero, Nat.mod_eq_of_lt ms.isLt]

/-- No task starts among the first words of the manager. -/
theorem manager_off (ho : Objects tm T) {t : Nat} (ht : t ∈ T) (off : Nat)
    (hoff : off < 64) : t ≠ tm + off := by
  have := ho.off_lists ht
  omega

/-! ## The words it writes -/

/-- `curr_task`, `task_list.tail.next`, `sleep_list` from `head.next` on, and
    the state of a task. -/
def Stray (tm : Nat) (T : Set Nat) (w : Nat) : Prop :=
  w = tm ∨ w = tm + 36 ∨ (tm + 48 ≤ w ∧ w < tm + 64) ∨ w ∈ T

/-- A stray address is in no list. -/
theorem Stray.not_covers (ho : Objects tm T) (hr : ∀ t ∈ ready, t ∈ T) {w : Nat}
    (hw : Stray tm T w) : ¬ Covers (readyList tm) (ready.map runNode) w := by
  have hoff : OffQueues tm T w →
      ¬ Covers (readyList tm) (ready.map runNode) w :=
    fun h => ho.not_covers ready_listed hr (h.outside ready)
  rcases hw with rfl | rfl | ⟨h1, h2⟩ | ht
  · exact hoff (Or.inl rfl)
  · exact hoff (Or.inr (Or.inl ⟨by omega, by omega⟩))
  · rintro (hc | ⟨c, hc, hcw⟩)
    · simp only [readyList] at hc
      omega
    · rcases mem_cells.mp hc with hc | hc | hc
      · simp only [readyList] at hc
        omega
      -- a `run_node` is part of a task, and no task lies in a list
      · obtain ⟨t, ht, rfl⟩ := List.mem_map.mp hc
        have := ho.off_lists (hr t ht)
        simp only [runNode] at hcw
        omega
      · simp only [readyList] at hc
        omega
  · exact hoff (Or.inr (Or.inr ⟨w, ht, Nat.le_refl w, by omega⟩))

/-- So `ready_list` survives them. -/
theorem ready_frame (ho : Objects tm T) (hr : ∀ t ∈ ready, t ∈ T)
    (h : IsList m (readyList tm) (ready.map runNode))
    (hw : ∀ w, ¬ Stray tm T w → m' w = m w) :
    IsList m' (readyList tm) (ready.map runNode) :=
  h.frame fun w hc => hw w fun hs => hs.not_covers ho hr hc

/-- Taken for a task, the manager has its `run_node` in `sleep_list`: appending
    it makes the list end behind its head, with `tail.next` going back. -/
theorem klistAppend_manager (m : Mem) (w : Nat) :
    klistAppend m (sleepList tm) (runNode (currTask tm)) w
      = if w = tm + 60 then inc32 (m (tm + 60))
        else if w = tm + 52 then tm + 48
        else if w = tm + 56 then tm + 48
        else if w = tm + 48 then tm + 52
        else m w := by
  simp only [klistAppend, Mem.write_apply, len, tail, sleepList, runNode, currTask]
  split_ifs <;> first | rfl | omega

/-- **`task_set_sleep`** of the manager. -/
theorem taskSetSleep_manager (m : Mem) {ticks : Nat} (ht : ticks ≠ 0) (w : Nat) :
    taskSetSleep tm m (currTask tm) ticks w
      = if w = tm + 60 then inc32 (m (tm + 60))
        else if w = tm + 52 then tm + 48
        else if w = tm + 56 then tm + 48
        else if w = tm + 48 then tm + 52
        else if w = tm then stateWord .sleep
        else if w = tm + 36 then ticks
        else m w := by
  unfold taskSetSleep
  rw [if_neg ht, klistAppend_manager]
  simp [Mem.write_apply]

/-- Putting the manager's own address to sleep writes stray addresses only. -/
theorem taskSetSleep_frame (m : Mem) (ticks w : Nat) (hw : ¬ Stray tm T w) :
    taskSetSleep tm m (currTask tm) ticks w = m w := by
  by_cases ht : ticks = 0
  · unfold taskSetSleep
    rw [if_pos ht]
  · unfold Stray at hw
    push Not at hw
    obtain ⟨h0, h36, hrange, -⟩ := hw
    rw [taskSetSleep_manager m ht, if_neg (by omega), if_neg (by omega),
      if_neg (by omega), if_neg (by omega), if_neg h0, if_neg h36]

/-! ## The calls it makes -/

/-- From a node of the list the search never meets the manager.  Induction over
    the turns: `next` stays in the list until it is `NULL`. -/
theorem removeFrom_manager (ho : Objects tm T) (hr : ∀ t ∈ ready, t ∈ T)
    (h : IsList m (readyList tm) (ready.map runNode)) {r : Mem × Nat} :
    ∀ (fuel temp : Nat), temp = 0 ∨ temp ∈ ready.map runNode ++ [tail (readyList tm)] →
      klistRemoveFrom m (readyList tm) (runNode (currTask tm)) fuel temp = some r →
      r.1 = m := by
  intro fuel
  induction fuel with
  | zero => intro temp _ he; exact nomatch he
  | succ fuel ih =>
      intro temp htemp he
      unfold klistRemoveFrom at he
      by_cases h0 : temp = 0
      · rw [if_pos h0] at he
        rw [← Option.some.inj he]
      · rw [if_neg h0] at he
        have hmem := htemp.resolve_left h0
        have hne : temp ≠ runNode (currTask tm) := by
          rintro rfl
          rcases List.mem_append.mp hmem with hx | hx
          · obtain ⟨t, ht, htm⟩ := List.mem_map.mp hx
            have := ho.off_lists (hr t ht)
            simp only [runNode, currTask] at htm
            omega
          · have := List.mem_singleton.mp hx
            simp only [runNode, currTask, tail, readyList] at this
            omega
        rw [if_neg hne] at he
        refine ih (next m temp) ?_ he
        rcases List.mem_append.mp hmem with hx | hx
        · obtain ⟨pre, post, hsplit⟩ := List.append_of_mem hx
          rw [hsplit] at h ⊢
          right
          rw [show next m temp = _ from isList_next h]
          cases post with
          | nil => simp
          | cons y post => simp
        · left
          rw [List.mem_singleton.mp hx]
          exact h.tail_next

/-- **`task_set_block`** of the manager leaves the memory alone. -/
theorem taskSetBlock_manager (ho : Objects tm T) (hr : ∀ t ∈ ready, t ∈ T)
    (h : IsList m (readyList tm) (ready.map runNode))
    (he : taskSetBlock fuel tm m (currTask tm) = some m') : m' = m := by
  unfold taskSetBlock at he
  have hidle : currTask tm ≠ idleTask tm := by
    simp only [currTask, idleTask]
    omega
  rw [if_neg hidle] at he
  obtain ⟨r, hrem, rfl⟩ := Option.map_eq_some_iff.mp he
  exact removeFrom_manager ho hr h fuel _ (Or.inr (isList_first h)) hrem

/-- The next task is a task. -/
theorem taskNextRun_mem (ho : Objects tm T) (hr : ∀ t ∈ ready, t ∈ T)
    (h : IsList m (readyList tm) (ready.map runNode)) : taskNextRun tm m ∈ T := by
  unfold taskNextRun klistLen klistGetFirstNode
  cases ready with
  | nil =>
      have hlen : m (len (readyList tm)) = 0 := h.len_eq
      rw [if_pos hlen]
      exact ho.idle
  | cons t rest =>
      have ht := hr t (by simp)
      have hsplit : (t :: rest).map runNode ++ [tail (readyList tm)]
          = runNode t :: (rest.map runNode ++ [tail (readyList tm)]) := rfl
      have hfirst : m (readyList tm + 4) = runNode t := h.first hsplit
      split
      · exact ho.idle
      · show klistStructAddr (m (readyList tm + 4)) ∈ T
        rw [hfirst, ho.klistStructAddr_runNode ht]
        exact ht

/-- A dispatch writes no other address. -/
theorem taskDispatch_frame (ho : Objects tm T) (hr : ∀ t ∈ ready, t ∈ T)
    (h : IsList m (readyList tm) (ready.map runNode)) {w : Nat}
    (hw : ¬ Stray tm T w) : taskDispatch tm m w = m w := by
  have hnext := taskNextRun_mem ho hr h
  have hcurr : w ≠ currTask tm := fun hc => hw (Or.inl hc)
  have hstate : w ≠ state (taskNextRun tm m) :=
    fun hc => hw (Or.inr (Or.inr (Or.inr (hc ▸ hnext))))
  unfold taskDispatch
  dsimp only
  split
  · rw [Mem.write_other hstate, Mem.write_other hcurr]
  · rfl

/-- The call is `task_set_sleep` of the manager and a dispatch. -/
theorem sysSleep_eq (ho : Objects tm T) (hr : ∀ t ∈ ready, t ∈ T)
    (h : IsList m (readyList tm) (ready.map runNode)) (hos : 1 ≤ osTicksMs)
    (he : sysSleep fuel tm osTicksMs m ms = some m') :
    m' = taskDispatch tm (taskSetSleep tm m (currTask tm) ms.toNat) := by
  obtain ⟨m₁, hblock, rfl⟩ := Option.map_eq_some_iff.mp he
  rw [taskSetBlock_manager ho hr h hblock, sleepTicksOf_eq hos]

/-- **THE FRAME** of the call. -/
theorem sysSleep_frame (ho : Objects tm T) (hr : ∀ t ∈ ready, t ∈ T)
    (h : IsList m (readyList tm) (ready.map runNode)) (hos : 1 ≤ osTicksMs)
    (he : sysSleep fuel tm osTicksMs m ms = some m') {w : Nat} (hw : ¬ Stray tm T w) :
    m' w = m w := by
  have hsleep : ∀ w, ¬ Stray tm T w →
      taskSetSleep tm m (currTask tm) ms.toNat w = m w :=
    fun w hw => taskSetSleep_frame m ms.toNat w hw
  rw [sysSleep_eq ho hr h hos he,
    taskDispatch_frame ho hr (ready_frame ho hr h hsleep) hw, hsleep w hw]

/-- `ready_list` behind the call. -/
theorem sysSleep_ready (ho : Objects tm T) (hr : ∀ t ∈ ready, t ∈ T)
    (h : IsList m (readyList tm) (ready.map runNode)) (hos : 1 ≤ osTicksMs)
    (he : sysSleep fuel tm osTicksMs m ms = some m') :
    IsList m' (readyList tm) (ready.map runNode) :=
  ready_frame ho hr h fun _ hw => sysSleep_frame ho hr h hos he hw

/-! ## What becomes of the lists -/

/-- **WHAT IT DOES**, in a state of the scheduler: `ready_list` stays and its
    head runs next; `sleep_list` starts with its tail, and `task_list` ends in
    the number of milliseconds. -/
theorem sysSleep_effect {n : Nat} {s : Manager Nat} (h : Represents tm T n m s)
    (ho : Objects tm T) (hf : 2 ^ 29 + 2 ≤ fuel) (hos : 1 ≤ osTicksMs)
    (hms : 1 ≤ ms.toNat) :
    ∃ m', sysSleep fuel tm osTicksMs m ms = some m' ∧
      IsList m' (readyList tm) (s.readyList.map runNode) ∧
      m' (currTask tm) = Sched.taskNextRun (idleTask tm) s ∧
      klistGetFirstNode m' (sleepList tm) = tail (sleepList tm) ∧
      next m' (tail (taskList tm)) = ms.toNat := by
  have hr : ∀ t ∈ s.readyList, t ∈ T := fun t ht => h.ready_mem ht
  have hlist := h.ready_isList
  obtain ⟨m', he⟩ : ∃ m', sysSleep fuel tm osTicksMs m ms = some m' := by
    have hidle : currTask tm ≠ idleTask tm := by
      simp only [currTask, idleTask]
      omega
    have hlen := h.ready_length ho
    have hplaced := h.queues.placed ho.layout ready_listed
    rw [queue_ready] at hplaced
    have hnot : runNode (currTask tm) ∉ s.readyList.map runNode := by
      intro hx
      obtain ⟨t, ht, htm⟩ := List.mem_map.mp hx
      exact manager_off ho (hr t ht) 0 (by omega) (runNode_injective htm)
    unfold sysSleep taskSetBlock
    rw [if_neg hidle, klistRemove_absent hlist hplaced
      (by simp only [runNode, currTask, tail, readyList]; omega) hnot
      (by rw [List.length_map]; omega)]
    exact ⟨_, rfl⟩
  refine ⟨m', he, sysSleep_ready ho hr hlist hos he, ?_⟩
  rw [sysSleep_eq ho hr hlist hos he]
  obtain ⟨m₁, hm₁⟩ : ∃ m₁, taskSetSleep tm m (currTask tm) ms.toNat = m₁ := ⟨_, rfl⟩
  have hw : ∀ w, taskSetSleep tm m (currTask tm) ms.toNat w = _ :=
    taskSetSleep_manager m (by omega)
  rw [hm₁] at hw ⊢
  -- the dispatch goes by the words of `ready_list`
  have hnext : taskNextRun tm m₁ = Sched.taskNextRun (idleTask tm) s := by
    have hlen := hw (tm + 20)
    have hfirst := hw (tm + 8)
    rw [if_neg (by omega), if_neg (by omega), if_neg (by omega), if_neg (by omega),
      if_neg (by omega), if_neg (by omega)] at hlen hfirst
    rw [← h.taskNextRun ho]
    unfold taskNextRun
    exact if_congr (by rw [show klistLen m₁ (readyList tm) = _ from hlen]; rfl) rfl
      (congrArg klistStructAddr hfirst)
  have hmem := h.next_mem ho
  rw [← hnext] at hmem ⊢
  have hkeep : ∀ off, 0 < off → off < 64 → taskDispatch tm m₁ (tm + off) = m₁ (tm + off) := by
    intro off hpos hoff
    have hne : tm + off ≠ taskNextRun tm m₁ :=
      fun hc => manager_off ho hmem off hoff hc.symm
    unfold taskDispatch
    dsimp only
    split
    · rw [Mem.write_other hne, Mem.write_other (by simp only [currTask]; omega)]
    · rfl
  refine ⟨?_, ?_, ?_⟩
  · unfold taskDispatch
    dsimp only
    split
    · have hne : currTask tm ≠ state (taskNextRun tm m₁) :=
        fun hc => manager_off ho hmem 0 (by omega) hc.symm
      rw [Mem.write_other hne, Mem.write_same]
    · next heq => exact (not_not.mp heq).symm
  · have h48 := hw (tm + 48)
    rw [if_neg (by omega), if_neg (by omega), if_neg (by omega), if_pos rfl] at h48
    exact (hkeep 48 (by omega) (by omega)).trans h48
  · have h36 := hw (tm + 36)
    rw [if_neg (by omega), if_neg (by omega), if_neg (by omega), if_neg (by omega),
      if_neg (by omega), if_pos rfl] at h36
    exact (hkeep 36 (by omega) (by omega)).trans h36

/-! ## What it is for -/

/-- The words of the two queues, those of the caller and of the next task that
    are written, and `curr_task`. -/
def Involved (tm : Nat) (m : Mem) (ready sleepers : List Nat) (w : Nat) : Prop :=
  Covers (readyList tm) (ready.map runNode) w ∨
  Covers (sleepList tm) (sleepers.map runNode) w ∨
  w = currTask tm ∨ w = state (m (currTask tm)) ∨ w = sleepTicks (m (currTask tm)) ∨
  w = state ((ready.erase (m (currTask tm))).headD (idleTask tm))

/-- What `sys_sleep(ms)` is for, from memory `m` to `m'`: the caller moves from
    `ready_list` to the end of `sleep_list` with the ticks that cover `ms`, the
    head of `ready_list` runs, and nothing else changes. -/
def SleepCorrect (tm : Nat) (T : Set Nat) (osTicksMs : Nat) (ms : BitVec 32)
    (m m' : Mem) : Prop :=
  ∃ ready sleepers : List Nat,
    IsList m (readyList tm) (ready.map runNode) ∧
    IsList m (sleepList tm) (sleepers.map runNode) ∧
    (∀ t ∈ ready ++ sleepers, t ∈ T) ∧ m (currTask tm) ∈ ready ∧
    IsList m' (readyList tm) ((ready.erase (m (currTask tm))).map runNode) ∧
    IsList m' (sleepList tm) ((sleepers ++ [m (currTask tm)]).map runNode) ∧
    m' (sleepTicks (m (currTask tm))) = (ms.toNat + osTicksMs - 1) / osTicksMs ∧
    m' (state (m (currTask tm))) = stateWord .sleep ∧
    m' (currTask tm) = (ready.erase (m (currTask tm))).headD (idleTask tm) ∧
    m' (state (m' (currTask tm))) = stateWord .running ∧
    ∀ w, ¬ Involved tm m ready sleepers w → m' w = m w

/-- The two counts of a list differ by one. -/
theorem not_erased {list c : Nat} {ts : List Nat} (hc : c ∈ ts)
    (h : IsList m list (ts.map runNode)) : ¬ IsList m list ((ts.erase c).map runNode) := by
  intro h'
  have hlen := h.len_eq
  rw [h'.len_eq, List.length_map, List.length_map, List.length_erase_of_mem hc] at hlen
  have := List.length_pos_of_mem hc
  omega

/-- **NO CALL** does what it is for, in no state: the caller stays on
    `ready_list`. -/
theorem sleep_never_correct (ho : Objects tm T) (hos : 1 ≤ osTicksMs) (m : Mem)
    (fuel : Nat) (ms : BitVec 32) :
    ¬ ∃ m', sysSleep fuel tm osTicksMs m ms = some m' ∧
      SleepCorrect tm T osTicksMs ms m m' := by
  rintro ⟨m', he, ready, sleepers, hready, -, hT, hc, hready', -⟩
  have hr : ∀ t ∈ ready, t ∈ T := fun t ht => hT t (List.mem_append_left _ ht)
  exact not_erased hc (sysSleep_ready ho hr hready hos he) hready'

/-- The first task asleep for ten milliseconds after boot. -/
theorem sleep_never_correct_boot :
    ¬ ∃ m', sysSleep (2 ^ 29 + 2) 0x20000 10 zeroBoot.mem 10 = some m' ∧
      SleepCorrect 0x20000 (bootTasks 0x20000) 10 10 zeroBoot.mem m' :=
  sleep_never_correct bootTasks_objects (by decide) zeroBoot.mem _ 10

/-- It is not the idle task. -/
theorem zeroBoot_running : zeroBoot.mem (currTask 0x20000) ≠ idleTask 0x20000 := by
  unfold zeroBoot booted taskFirstInit
  dsimp only
  rw [Mem.write_same]
  simp only [firstTask, idleTask]
  omega

/-- Behind the boot the first task calls `sys_sleep(10)`, and is still ready. -/
theorem first_sleep_blocks_nothing :
    ¬ ∀ w, Runs.Run (call (2 ^ 29 + 2) 0x20000 10) (Allowed 0x20000 (bootTasks 0x20000))
        zeroBoot [] w → w.mem (currTask 0x20000) ≠ idleTask 0x20000 →
      ∃ m', sysSleep (2 ^ 29 + 2) 0x20000 10 w.mem 10 = some m' ∧
        SleepCorrect 0x20000 (bootTasks 0x20000) 10 10 w.mem m' := by
  intro hall
  obtain ⟨m', he, ready, sleepers, hready, -, hT, hc, hready', -⟩ :=
    hall zeroBoot (Runs.Run.nil _) zeroBoot_running
  have hr : ∀ t ∈ ready, t ∈ bootTasks 0x20000 :=
    fun t ht => hT t (List.mem_append_left _ ht)
  exact not_erased hc (sysSleep_ready bootTasks_objects hr hready (by decide) he) hready'

end LittleOS.SysSleep
