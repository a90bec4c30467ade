import LittleOS.TaskMemory

/-! # `task_time_tick` in memory

    The walk over `sleep_list` stops at `NULL`, and the first node whose `next`
    is `NULL` is the tail sentinel of the list.  So it also takes that node for
    the `run_node` of a task, and the `sleep_ticks` of the task 48 bytes before
    it are the word `task_list.len`.

    * `sleepWalk_refines`, `taskTimeTick_refines` — for the tasks the walk is
      the one of `LittleOS.Sched`, of any length, and `task_list.len` is
      counted down with them;
    * `tick_changes_len` — no tick leaves it as it was, also not the one that
      takes it to 0 and unlinks the sentinel;
    * `tick_never_correct` — so in no state a tick does what it is for. -/

namespace LittleOS.TaskTick

open Runs Words Klist KlistRun Sched SchedQueues TaskMemory

variable {tm : Nat} {T : Set Nat} {n : Nat} {m : Mem} {s : Manager Nat} {fuel : Nat}

/-! ## The walk -/

/-- The node at which a walk over the tasks `ts` begins. -/
def startNode (tm : Nat) (ts : List Nat) : Nat :=
  (ts.map runNode ++ [tail (sleepList tm)]).headD 0

/-- The node behind one of a list. -/
theorem isList_next {list x : Nat} {pre post : List Nat}
    (h : IsList m list (pre ++ x :: post)) :
    m (x + 4) = (post ++ [tail list]).headD 0 := by
  obtain ⟨b, l₂, hb⟩ : ∃ b l₂, post ++ [tail list] = b :: l₂ := by
    cases post with
    | nil => exact ⟨_, _, rfl⟩
    | cons y rest => exact ⟨_, _, rfl⟩
  have hl := h.linked
  have hcells : cells list (pre ++ x :: post) = (head list :: pre) ++ x :: b :: l₂ := by
    rw [← hb]
    simp
  rw [hcells] at hl
  rw [hb]
  exact (List.isChain_append_cons_cons.mp hl).2.1.1

/-- The walk begins at the first sleeper. -/
theorem first_node (h : Represents tm T n m s) :
    klistGetFirstNode m (sleepList tm) = startNode tm s.sleepList := by
  obtain ⟨b, l₂, hb⟩ : ∃ b l₂,
      s.sleepList.map runNode ++ [tail (sleepList tm)] = b :: l₂ := by
    cases s.sleepList with
    | nil => exact ⟨_, _, rfl⟩
    | cons y rest => exact ⟨_, _, rfl⟩
  have hfirst := h.sleep_isList.first hb
  unfold startNode
  rw [hb]
  exact hfirst

/-- **ONE SLEEPER** of the walk. -/
theorem wakeStep_refines (h : Represents tm T n m s) (ho : Objects tm T)
    (hf : 2 ^ 29 + 2 ≤ fuel) {pre rest : List Nat} {t : Nat}
    (hs : s.sleepList = pre ++ t :: rest) (turns : Nat) :
    ∃ m', Represents tm T n m' (wakeStep (idleTask tm) s t) ∧
      TaskMemory.sleepWalk fuel tm (turns + 1) m (runNode t)
        = TaskMemory.sleepWalk fuel tm turns m' (startNode tm rest) := by
  have htl : t ∈ s.sleepList := by rw [hs]; simp
  have ht := h.sleep_mem htl
  have hne : runNode t ≠ 0 := by simp
  -- the walk reads the next node before it may move this one
  have hnext : klistGetNextNode m (runNode t) = startNode tm rest := by
    have hlist := h.sleep_isList
    rw [hs, List.map_append, List.map_cons] at hlist
    have hnode := isList_next hlist
    exact hnode
  obtain ⟨hticks, -, -⟩ := h.counters t ht
  have h₁ := h.set_sleepTicks ho ht (dec32 (m (sleepTicks t)))
  rw [hticks, Represents.modify_congr (s := s) (t := t)
    (g := fun c => { c with sleepTicks := dec32 c.sleepTicks }) rfl] at h₁
  obtain ⟨hticks₁, -, -⟩ := h₁.counters t ht
  unfold wakeStep
  dsimp only
  by_cases h0 : ((s.modify t fun c => { c with sleepTicks := dec32 c.sleepTicks }).task
      t).sleepTicks = 0
  · obtain ⟨m₂, hwake, h₂⟩ := h₁.taskSetWakeup ho ht hf
    -- woken up, the task is on neither list and can be readied
    have hready : t ∉ s.readyList := by
      have hdis := h.queue_disjoint sleep_listed ready_listed
        (by simp only [sleepList, readyList]; omega)
      rw [queue_ready, queue_sleep] at hdis
      exact fun hr => hdis htl hr
    have hsleep : t ∉ s.sleepList.erase t := by
      have hnd := h.queue_nodup (l := sleepList tm) (by simp)
      rw [queue_sleep] at hnd
      exact hnd.not_mem_erase
    have h₃ := h₂.taskSetReady ho ht (Or.inr ⟨hready, hsleep⟩)
    rw [if_pos h0]
    refine ⟨_, h₃, ?_⟩
    rw [TaskMemory.sleepWalk, if_neg hne]
    dsimp only
    rw [ho.klistStructAddr_runNode ht, hticks, hticks₁, if_pos h0, hwake, hnext]
    rfl
  · rw [if_neg h0]
    refine ⟨_, h₁, ?_⟩
    rw [TaskMemory.sleepWalk, if_neg hne]
    dsimp only
    rw [ho.klistStructAddr_runNode ht, hticks, hticks₁, if_neg h0, hnext]

/-- The walk over the tasks still to visit. -/
theorem walk_refines (ho : Objects tm T) (hf : 2 ^ 29 + 2 ≤ fuel) :
    ∀ (ts pre : List Nat) (m : Mem) (s : Manager Nat) (turns : Nat),
      Represents tm T n m s → s.sleepList = pre ++ ts →
      ∃ m', Represents tm T n m' (ts.foldl (wakeStep (idleTask tm)) s) ∧
        TaskMemory.sleepWalk fuel tm (turns + ts.length) m (startNode tm ts)
          = TaskMemory.sleepWalk fuel tm turns m' (tail (sleepList tm)) := by
  intro ts
  induction ts with
  | nil => intro pre m s turns h _; exact ⟨m, h, rfl⟩
  | cons t rest ih =>
      intro pre m s turns h hs
      obtain ⟨m₁, h₁, hwalk⟩ := wakeStep_refines h ho hf hs (turns + rest.length)
      -- the tasks still to visit stay at the end of the list
      obtain ⟨pre', hs'⟩ : ∃ pre', (wakeStep (idleTask tm) s t).sleepList
          = pre' ++ rest := by
        rw [wakeStep_sleepList, hs]
        split
        · have hnd := h.queue_nodup (l := sleepList tm) (by simp)
          rw [queue_sleep, hs] at hnd
          have ht : t ∉ pre := fun hm =>
            (List.nodup_append.mp hnd).2.2 t hm t (by simp) rfl
          exact ⟨pre, by rw [List.erase_append_right _ ht, List.erase_cons_head]⟩
        · exact ⟨pre ++ [t], by simp⟩
      obtain ⟨m', h', hrest⟩ := ih pre' m₁ _ turns h₁ hs'
      refine ⟨m', h', ?_⟩
      rw [← hrest, ← hwalk]
      rfl

/-- Another value in `task_list.len`. -/
theorem set_len (h : Represents tm T n m s) (ho : Objects tm T) (v : Nat) :
    Represents tm T v (m.write (len (taskList tm)) v) s where
  queues := by
    refine h.queues.frame ?_
    intro l hl w hw
    refine Mem.write_other ?_
    rintro rfl
    exact ho.not_covers hl (h.queue_mem hl) (Or.inr (Or.inl ⟨by
      simp only [len, taskList]; omega, by simp only [len, taskList]; omega⟩)) hw
  curr := by
    rw [Mem.write_other (by simp only [len, taskList, currTask]; omega)]
    exact h.curr
  counters := by
    intro t ht
    have hoff := ho.off_lists ht
    rw [Mem.write_other (by simp only [len, taskList, sleepTicks]; omega),
      Mem.write_other (by simp only [len, taskList, sliceTicks]; omega),
      Mem.write_other (by simp only [len, taskList, timeTicks]; omega)]
    exact h.counters t ht
  created := h.created
  states := by
    intro t ht
    have hoff := ho.off_lists (h.created t ht)
    rw [Mem.write_other (by simp only [len, taskList, state]; omega)]
    exact h.states t ht
  last := by
    rw [Mem.write_other (by simp only [len, tail, taskList]; omega)]
    exact h.last
  count := Mem.write_same ..

/-- The task the tail sentinel is taken for has its `sleep_ticks` in
    `task_list.len`. -/
theorem structAddr_tail (ho : Objects tm T) :
    sleepTicks (klistStructAddr (tail (sleepList tm))) = len (taskList tm) := by
  have := ho.bound
  unfold klistStructAddr
  rw [if_pos (by simp only [tail, sleepList]; omega)]
  simp only [sleepTicks, tail, sleepList, len, taskList]
  omega

/-- **THE LAST TURN** of the walk, at the tail sentinel. -/
theorem sleepWalk_tail (h : Represents tm T n m s) (ho : Objects tm T) (turns : Nat) :
    TaskMemory.sleepWalk fuel tm (turns + 2) m (tail (sleepList tm))
      = if dec32 n = 0 then
          (TaskMemory.taskSetWakeup fuel tm (m.write (len (taskList tm)) (dec32 n))
            (tm + 4)).map (fun m' => TaskMemory.taskSetReady tm m' (tm + 4))
        else some (m.write (len (taskList tm)) (dec32 n)) := by
  have hne : tail (sleepList tm) ≠ 0 := by
    simp only [tail, sleepList]
    omega
  have haddr : klistStructAddr (tail (sleepList tm)) = tm + 4 := by
    have hticks := structAddr_tail ho
    simp only [sleepTicks, len, taskList] at hticks
    omega
  have hnext : klistGetNextNode m (tail (sleepList tm)) = 0 :=
    h.sleep_isList.tail_next
  have hcount : m (tm + 40) = n := h.count
  rw [TaskMemory.sleepWalk, if_neg hne, hnext, haddr]
  simp only [sleepTicks, len, taskList, Nat.add_assoc, Nat.reduceAdd, hcount,
    Mem.write_same]
  split
  · cases TaskMemory.taskSetWakeup fuel tm (m.write (tm + 40) (dec32 n)) (tm + 4) with
    | none => rfl
    | some m' => rfl
  · rfl

/-- There are no more sleepers than tasks have room for. -/
theorem sleep_length (h : Represents tm T n m s) (ho : Objects tm T) :
    s.sleepList.length ≤ 2 ^ 29 := by
  have hlen := ho.layout.length_le (h.queues.mem_nodes (sleepList tm) (by simp))
    (h.queues.nodup (sleepList tm) (by simp))
  rwa [List.length_map, queue_sleep] at hlen

/-- The whole walk up to its last turn. -/
theorem walk_to_tail (h : Represents tm T n m s) (ho : Objects tm T)
    (hf : 2 ^ 29 + 2 ≤ fuel) :
    ∃ m' turns, Represents tm T n m' (Sched.sleepWalk (idleTask tm) s) ∧
      TaskMemory.sleepWalk fuel tm fuel m (klistGetFirstNode m (sleepList tm))
        = TaskMemory.sleepWalk fuel tm (turns + 2) m' (tail (sleepList tm)) := by
  have hlen := sleep_length h ho
  obtain ⟨m', h', hwalk⟩ := walk_refines ho hf s.sleepList [] m s
    (fuel - s.sleepList.length) h rfl
  refine ⟨m', fuel - s.sleepList.length - 2, h', ?_⟩
  rw [first_node h]
  rw [show fuel - s.sleepList.length + s.sleepList.length = fuel by omega] at hwalk
  rw [hwalk, show fuel - s.sleepList.length - 2 + 2 = fuel - s.sleepList.length by omega]

/-- **THE WALK** is the one over the tasks, and `task_list.len` is counted down
    with them. -/
theorem sleepWalk_refines (h : Represents tm T n m s) (ho : Objects tm T)
    (hf : 2 ^ 29 + 2 ≤ fuel) (hn : dec32 n ≠ 0) :
    ∃ m', TaskMemory.sleepWalk fuel tm fuel m (klistGetFirstNode m (sleepList tm))
        = some m' ∧
      Represents tm T (dec32 n) m' (Sched.sleepWalk (idleTask tm) s) := by
  obtain ⟨m', turns, h', hwalk⟩ := walk_to_tail h ho hf
  refine ⟨m'.write (len (taskList tm)) (dec32 n), ?_, set_len h' ho (dec32 n)⟩
  rw [hwalk, sleepWalk_tail h' ho, if_neg hn]

/-- **`task_time_tick`** is the tick of the list model, but for
    `task_list.len`. -/
theorem taskTimeTick_refines (h : Represents tm T n m s) (ho : Objects tm T) {c : Nat}
    (hst : Represents.Steady tm s c) (hf : 2 ^ 29 + 2 ≤ fuel) (hn : dec32 n ≠ 0) :
    ∃ m', TaskMemory.taskTimeTick fuel tm m = some m' ∧
      Represents tm T (dec32 n) m' (Sched.taskTimeTick (idleTask tm) s) := by
  obtain ⟨m₁, hslice, h₁⟩ := h.taskTimeSlice ho hst hf
  obtain ⟨m₂, hwalk, h₂⟩ := sleepWalk_refines h₁ ho hf hn
  refine ⟨TaskMemory.taskDispatch tm m₂, ?_, h₂.taskDispatch ho⟩
  unfold TaskMemory.taskTimeTick
  rw [hslice, Option.bind_some, hwalk, Option.map_some]

/-! ## The tick that takes `task_list.len` to 0 -/

/-- The node before the tail sentinel. -/
theorem isList_last {list : Nat} {xs : List Nat} (h : IsList m list xs) :
    m (list + 8) ∈ head list :: xs := by
  obtain ⟨l₁, a, ha⟩ : ∃ l₁ a, head list :: xs = l₁ ++ [a] :=
    ⟨_, _, (List.dropLast_append_getLast (by simp)).symm⟩
  rw [h.last ha, ha]
  simp

/-- The node behind the head sentinel. -/
theorem isList_first {list : Nat} {xs : List Nat} (h : IsList m list xs) :
    m (list + 4) ∈ xs ++ [tail list] := by
  obtain ⟨b, l₂, hb⟩ : ∃ b l₂, xs ++ [tail list] = b :: l₂ := by
    cases xs with
    | nil => exact ⟨_, _, rfl⟩
    | cons y rest => exact ⟨_, _, rfl⟩
  rw [h.first hb, hb]
  simp

/-- The head sentinel of a queue or the `run_node` of a task. -/
def LastRun (list : Nat) (T : Set Nat) (a : Nat) : Prop :=
  a = list ∨ ∃ t ∈ T, a = t + 48

/-- The last node of a queue is the sentinel's or that of a task. -/
theorem LastRun.cases {list a : Nat} (h : LastRun list T a) :
    a = list ∨ ∃ t ∈ T, a = t + 48 := h

/-- The last node of a queue. -/
theorem lastRun {list : Nat} {ts : List Nat} (hts : ∀ t ∈ ts, t ∈ T)
    (h : IsList m list (ts.map runNode)) : LastRun list T (m (list + 8)) := by
  rcases List.mem_cons.mp (isList_last h) with hl | hl
  · exact Or.inl hl
  · obtain ⟨u, hu, hn⟩ := List.mem_map.mp hl
    exact Or.inr ⟨u, hts u hu, hn.symm⟩

/-- Unlinking the tail sentinel of `sleep_list` writes neither `ready_list` nor
    `task_list`. -/
theorem unlink_tail (h : Represents tm T n m s) (ho : Objects tm T) {w : Nat}
    (h1 : tm + 4 ≤ w) (h2 : w ≤ tm + 40) :
    klistUnlink m (sleepList tm) (tail (sleepList tm)) w = m w := by
  have hpos := ho.pos
  have hlast : LastRun (tm + 44) T (m (tm + 52)) :=
    lastRun (fun _ => h.sleep_mem) h.sleep_isList
  have hnext : m (tm + 56) = 0 := h.sleep_isList.tail_next
  obtain ⟨a, ha⟩ : ∃ a, m (tm + 52) = a := ⟨_, rfl⟩
  rw [ha] at hlast
  have hoff : a + 4 ≠ w ∧ a + 4 ≠ tm + 56 := by
    rcases hlast.cases with rfl | ⟨u, hu, rfl⟩
    · omega
    · have := ho.off_lists hu
      omega
  have hzero : m.write (a + 4) 0 (tm + 56) = 0 := by
    rw [Mem.write_other (Ne.symm hoff.2), hnext]
  unfold klistUnlink
  simp only [prev, next, setPrev, setNext, tail, sleepList, len, Nat.add_assoc,
    Nat.reduceAdd, ha, hnext, hzero]
  rw [Mem.write_other (by omega), Mem.write_other (by omega),
    Mem.write_other (Ne.symm hoff.1)]

/-- Waking the task that the tail sentinel is taken for. -/
theorem wakeup_tail (h : Represents tm T n m s) (ho : Objects tm T) {m' : Mem}
    (hm : TaskMemory.taskSetWakeup fuel tm m (tm + 4) = some m') {w : Nat}
    (h1 : tm + 4 ≤ w) (h2 : w ≤ tm + 40) : m' w = m w := by
  unfold TaskMemory.taskSetWakeup at hm
  obtain ⟨r, hr, rfl⟩ := Option.map_eq_some_iff.mp hm
  rw [klistRemove_eq_find] at hr
  obtain ⟨f, -, rfl⟩ := Option.map_eq_some_iff.mp hr
  split
  · rfl
  · exact unlink_tail h ho h1 h2

/-- Readying that task, and the dispatch behind it, leave `task_list.len`. -/
theorem dispatch_tail (h : Represents tm T n m s) (ho : Objects tm T) {m' : Mem}
    (hm : ∀ w, tm + 4 ≤ w → w ≤ tm + 40 → m' w = m w) :
    TaskMemory.taskDispatch tm (TaskMemory.taskSetReady tm m' (tm + 4)) (tm + 40)
      = n := by
  have hcount : m (tm + 40) = n := h.count
  have hlast : LastRun (tm + 4) T (m (tm + 12)) :=
    lastRun (fun _ => h.ready_mem) h.ready_isList
  have hlast' : m' (tm + 4 + 8) = m (tm + 12) := hm _ (by omega) (by omega)
  obtain ⟨a, ha⟩ : ∃ a, m (tm + 12) = a := ⟨_, rfl⟩
  rw [ha] at hlast hlast'
  have hoff : a + 4 ≠ tm + 20 ∧ a + 4 ≠ tm + 40 := by
    rcases hlast.cases with rfl | ⟨u, hu, rfl⟩
    · omega
    · have := ho.off_lists hu
      omega
  have heff := fun w => klistAppend_apply m' (tm + 4) (tm + 52) w (by omega)
    (by rw [hlast']; omega)
  rw [hlast'] at heff
  have hready : ∀ w, TaskMemory.taskSetReady tm m' (tm + 4) w
      = (klistAppend m' (tm + 4) (tm + 52)).write (tm + 4) (stateWord .ready) w := by
    intro w
    unfold TaskMemory.taskSetReady
    rw [if_neg (by simp only [idleTask]; omega)]
  have hlen : TaskMemory.taskSetReady tm m' (tm + 4) (tm + 40) = n := by
    rw [hready, Mem.write_other (by omega), heff, if_neg (by omega), if_neg (by omega),
      if_neg (Ne.symm hoff.2), if_neg (by omega), if_neg (by omega),
      hm _ (by omega) (by omega), hcount]
  -- the task picked next is the idle one, a ready one or the sentinel's
  have hnext : TaskMemory.taskNextRun tm (TaskMemory.taskSetReady tm m' (tm + 4))
      ≠ tm + 40 := by
    obtain ⟨f, hf⟩ : ∃ f, TaskMemory.taskSetReady tm m' (tm + 4) (tm + 8) = f :=
      ⟨_, rfl⟩
    have hfirst : f = tm + 52 ∨ f = tm + 12 ∨ ∃ u ∈ s.readyList, f = u + 48 := by
      rw [hready, Mem.write_other (by omega), heff, if_neg (by omega),
        if_neg (by omega)] at hf
      by_cases hempty : tm + 8 = a + 4
      · rw [if_pos hempty] at hf
        exact Or.inl hf.symm
      · rw [if_neg hempty, if_neg (by omega), if_neg (by omega),
          hm _ (by omega) (by omega)] at hf
        have hmem := isList_first h.ready_isList
        simp only [readyList, Nat.add_assoc, Nat.reduceAdd, hf] at hmem
        rcases List.mem_append.mp hmem with hn | hn
        · obtain ⟨u, hu, he⟩ := List.mem_map.mp hn
          exact Or.inr (Or.inr ⟨u, hu, he.symm⟩)
        · exact Or.inr (Or.inl (List.mem_singleton.mp hn))
    have hbound := ho.bound
    unfold TaskMemory.taskNextRun klistGetFirstNode klistStructAddr
    simp only [idleTask, readyList, next, head, Nat.add_assoc, Nat.reduceAdd, hf]
    split
    · omega
    · rcases hfirst with rfl | rfl | ⟨u, hu, rfl⟩
      · rw [if_pos (by omega)]
        omega
      · rw [if_pos (by omega)]
        omega
      · have hu' := h.ready_mem hu
        have hoff := ho.off_lists hu'
        have hend := ho.task_bound u hu'
        rw [if_pos (by omega)]
        omega
  unfold TaskMemory.taskDispatch
  dsimp only
  split
  · rw [Mem.write_other (by simp only [state]; exact Ne.symm hnext),
      Mem.write_other (by simp only [currTask]; omega)]
    exact hlen
  · exact hlen

/-- **EVERY TICK** changes `task_list.len`. -/
theorem tick_changes_len (h : Represents tm T n m s) (ho : Objects tm T) {c : Nat}
    (hst : Represents.Steady tm s c) (hf : 2 ^ 29 + 2 ≤ fuel) {m' : Mem}
    (hm : TaskMemory.taskTimeTick fuel tm m = some m') :
    m' (len (taskList tm)) ≠ n := by
  by_cases hn : dec32 n = 0
  · obtain ⟨m₁, hslice, h₁⟩ := h.taskTimeSlice ho hst hf
    obtain ⟨m₂, turns, h₂, hwalk⟩ := walk_to_tail h₁ ho hf
    unfold TaskMemory.taskTimeTick at hm
    rw [hslice, Option.bind_some, hwalk, sleepWalk_tail h₂ ho, if_pos hn, hn,
      Option.map_map] at hm
    obtain ⟨m₃, hwake, rfl⟩ := Option.map_eq_some_iff.mp hm
    have h₃ := set_len h₂ ho 0
    have hzero := dispatch_tail h₃ ho (fun w hl hr => wakeup_tail h₃ ho hwake hl hr)
    have hne := dec32_ne n
    rw [hn] at hne
    exact fun he => hne (hzero.symm.trans he)
  · obtain ⟨m₁, htick, h₁⟩ := taskTimeTick_refines h ho hst hf hn
    obtain rfl := Option.some.inj (htick.symm.trans hm)
    rw [h₁.count]
    exact dec32_ne n

/-! ## Runs -/

/-- The saved registers of a task change. -/
theorem writeTss_represents (h : Represents tm T n m s) (ho : Objects tm T) {t : Nat}
    (ht : t ∈ T) (tss : Mem) : Represents tm T n (writeTss m t tss) s := by
  have hoff := ho.off_lists ht
  refine h.frame ?_ ?_
  · intro l hl w hw
    refine if_neg ?_
    intro hc
    exact ho.not_covers hl (h.queue_mem hl) (Or.inr (Or.inr ⟨t, ht, by omega,
      by omega, fun _ => Or.inr (by omega)⟩)) hw
  · rintro w (hw | hw | ⟨u, hu, h1, h2⟩)
    · exact if_neg (by omega)
    · exact if_neg (by omega)
    · refine if_neg ?_
      by_cases hut : u = t
      · omega
      · have := ho.apart u hu t ht hut
        omega

/-- Sound queues are steady after a dispatch. -/
theorem steady_dispatch (hs : Sound (idleTask tm) s) (hi : idleTask tm ∈ s.taskList) :
    Represents.Steady tm (Sched.taskDispatch (idleTask tm) s)
      (Sched.taskNextRun (idleTask tm) s) where
  sound := hs.of_same same_dispatch
  idle := by rw [taskDispatch_taskList]; exact hi
  curr := taskDispatch_currTask ..
  ready := by
    rw [taskDispatch_readyList]
    exact taskNextRun_mem s

section Steady

variable {c : Nat}

/-- A new task leaves the current one steady. -/
theorem steady_taskInit (h : Represents.Steady tm s c) {t : Nat} (ht : t ∉ s.taskList) :
    Represents.Steady tm (Sched.taskInit (idleTask tm) s t) c := by
  have hti : t ≠ idleTask tm := fun he => ht (he ▸ h.idle)
  refine ⟨h.sound.taskInit ht hti, ?_, ?_, h.ready.imp_right ?_⟩
  · rw [taskInit_taskList]
    exact List.mem_append_left _ h.idle
  · rw [taskInit_currTask]
    exact h.curr
  · intro hr
    rw [taskInit_readyList hti]
    exact List.mem_append_left _ hr

/-- A dispatch behind a step that moves tasks between the queues. -/
theorem steady_same {s' : Manager Nat} (h : Represents.Steady tm s c)
    (hsame : SameQueued s s') :
    Represents.Steady tm (Sched.taskDispatch (idleTask tm) s')
        (Sched.taskNextRun (idleTask tm) s') ∧
      (Sched.taskDispatch (idleTask tm) s').taskList = s.taskList := by
  refine ⟨steady_dispatch (h.sound.of_same hsame) ?_, ?_⟩
  · rw [hsame.2]
    exact h.idle
  · rw [taskDispatch_taskList, hsame.2]

/-- After a yield the next task is. -/
theorem steady_yield (h : Represents.Steady tm s c) :
    ∃ c', Represents.Steady tm (Sched.sysSchedYield (idleTask tm) s) c' ∧
      (Sched.sysSchedYield (idleTask tm) s).taskList = s.taskList := by
  unfold Sched.sysSchedYield Sched.yieldRequeue
  split
  · rw [h.curr]
    exact ⟨_, steady_same h (same_requeue h.ready)⟩
  · exact ⟨c, h, rfl⟩

/-- After a sleep the next task is. -/
theorem steady_sleep (h : Represents.Steady tm s c) (hci : c ≠ idleTask tm)
    (osTicksMs : Nat) (ms : BitVec 32) :
    ∃ c', Represents.Steady tm (Sched.sysSleep (idleTask tm) osTicksMs s ms) c' ∧
      (Sched.sysSleep (idleTask tm) osTicksMs s ms).taskList = s.taskList := by
  refine ⟨_, steady_dispatch (h.sound.sleepBlock h.curr hci
    (h.ready.resolve_left hci)) ?_, ?_⟩
  · rw [sleepBlock_taskList]
    exact h.idle
  · exact (taskDispatch_taskList ..).trans sleepBlock_taskList

/-- The slice part leaves the current task queued. -/
theorem steady_slice (h : Represents.Steady tm s c) :
    ∃ c', Represents.Steady tm (Sched.taskTimeSlice (idleTask tm) s) c' ∧
      (Sched.taskTimeSlice (idleTask tm) s).taskList = s.taskList := by
  have hsame := same_slice h.curr h.ready
  have hcurr : (sliceTick (idleTask tm) s).1.currTask = some c :=
    (sliceTick_currTask s).trans h.curr
  have hmem := mem_slice h.curr h.ready
  unfold Sched.taskTimeSlice
  split
  · next s' he =>
      rw [he] at hsame
      exact ⟨_, steady_same h hsame⟩
  · next s' he =>
      rw [he] at hsame hcurr hmem
      refine ⟨c, ⟨h.sound.of_same hsame, ?_, hcurr, hmem⟩, hsame.2⟩
      rw [hsame.2]
      exact h.idle

/-- After a tick the next task is. -/
theorem steady_tick (h : Represents.Steady tm s c) :
    ∃ c', Represents.Steady tm (Sched.taskTimeTick (idleTask tm) s) c' ∧
      (Sched.taskTimeTick (idleTask tm) s).taskList = s.taskList := by
  obtain ⟨c', h', hlist⟩ := steady_slice h
  obtain ⟨hst, hlist'⟩ := steady_same h' (same_walk h'.sound)
  exact ⟨_, hst, hlist'.trans hlist⟩

end Steady

/-- The calls of a run; `saveTss` is what a task switch stores. -/
inductive Call where
  | taskInit (task name : Nat) (tss : Mem)
  | schedYield
  | sleep (ms : BitVec 32)
  | tick
  | saveTss (task : Nat) (tss : Mem)

/-- The memory, with the tasks `task_init` was called for. -/
structure World where
  mem : Mem
  created : List Nat

section Calls

variable (fuel tm osTicksMs : Nat) (T : Set Nat)

/-- A call, and the tasks that have been made. -/
def call : Call → World → Option World
  | .taskInit t name tss, w =>
      some ⟨TaskMemory.taskInit tm w.mem t name tss, w.created ++ [t]⟩
  | .schedYield, w =>
      (TaskMemory.sysSchedYield fuel tm w.mem).map (fun m => ⟨m, w.created⟩)
  | .sleep ms, w =>
      (TaskMemory.sysSleep fuel tm osTicksMs w.mem ms).map (fun m => ⟨m, w.created⟩)
  | .tick, w => (TaskMemory.taskTimeTick fuel tm w.mem).map (fun m => ⟨m, w.created⟩)
  | .saveTss t tss, w => some ⟨writeTss w.mem t tss, w.created⟩

/-- Tasks are initialised once, the idle task does not sleep, and the tail
    sentinel of `sleep_list` has not been unlinked. -/
def Allowed : Call → World → Prop
  | .taskInit t _ _, w => t ∈ T ∧ t ∉ w.created
  | .schedYield, _ => True
  | .sleep _, w => w.mem (currTask tm) ≠ idleTask tm
  | .tick, w => w.mem (len (taskList tm)) ≠ 1
  | .saveTss t _, _ => t ∈ T

/-- The world behind `task_manager_init` and `task_first_init`. -/
def booted (m : Mem) (name name' : Nat) (tss tss' : Mem) : World :=
  ⟨taskFirstInit tm (taskManagerInit tm m name tss) name' tss',
    [idleTask tm, firstTask tm]⟩

/-- The memory holds a manager with steady queues. -/
def Intact (w : World) : Prop :=
  ∃ n s c, n < 2 ^ 32 ∧ Represents tm T n w.mem s ∧ Represents.Steady tm s c ∧
    s.taskList = w.created

end Calls

section Main

variable {osTicksMs : Nat}

/-- Boot leaves memory intact. -/
theorem booted_intact (ho : Objects tm T) (m : Mem) (name name' : Nat) (tss tss' : Mem) :
    Intact tm T (booted tm m name name' tss tss') := by
  have hfi : firstTask tm ≠ idleTask tm := by
    simp only [firstTask, idleTask]
    omega
  have hr : Represents tm T 2 (booted tm m name name' tss tss').mem _ :=
    Represents.boot ho m name name' tss tss'
  obtain ⟨hinv, -⟩ := boot_inv hfi (Represents.rawTask m)
  obtain ⟨c, hc, hq⟩ := hinv.current_user rfl
  refine ⟨2, _, c, by omega, hr, ⟨hinv.sound, hinv.idle_init, hc, hq⟩, ?_⟩
  simp [SchedMachine.boot, Sched.taskFirstInit, Sched.taskManagerInit, booted]

/-- **ONE CALL** keeps the lists. -/
theorem call_intact (ho : Objects tm T) (hf : 2 ^ 29 + 2 ≤ fuel) {l : Call}
    {w w' : World} (h : Intact tm T w) (hok : Allowed tm T l w)
    (hs : call fuel tm osTicksMs l w = some w') : Intact tm T w' := by
  obtain ⟨n, s, c, hn, hr, hst, hlist⟩ := h
  cases l with
  | taskInit t name tss =>
      obtain rfl := Option.some.inj hs
      have ht : t ∉ s.taskList := by rw [hlist]; exact hok.2
      have hoff : t ∉ s.readyList ∧ t ∉ s.sleepList :=
        ⟨fun hq => ht (hst.sound.mem_queues (List.mem_append_left _ hq)).1,
          fun hq => ht (hst.sound.mem_queues (List.mem_append_right _ hq)).1⟩
      refine ⟨inc32 n, _, c, Nat.mod_lt _ (by omega), hr.taskInit ho hok.1 hoff name tss,
        steady_taskInit hst ht, ?_⟩
      rw [taskInit_taskList, hlist]
  | schedYield =>
      obtain ⟨m', hm, rfl⟩ := Option.map_eq_some_iff.mp hs
      obtain ⟨m₁, hm₁, h₁⟩ := hr.sysSchedYield ho hst hf
      obtain rfl := Option.some.inj (hm₁.symm.trans hm)
      obtain ⟨c', hst', hlist'⟩ := steady_yield hst
      exact ⟨n, _, c', hn, h₁, hst', hlist'.trans hlist⟩
  | sleep ms =>
      obtain ⟨m', hm, rfl⟩ := Option.map_eq_some_iff.mp hs
      have hci : c ≠ idleTask tm := by
        have hcurr : w.mem (currTask tm) = c := by rw [hr.curr, hst.curr]; rfl
        exact hcurr ▸ hok
      obtain ⟨m₁, hm₁, h₁⟩ := hr.sysSleep ho hst hci hf osTicksMs ms
      obtain rfl := Option.some.inj (hm₁.symm.trans hm)
      obtain ⟨c', hst', hlist'⟩ := steady_sleep hst hci osTicksMs ms
      exact ⟨n, _, c', hn, h₁, hst', hlist'.trans hlist⟩
  | tick =>
      obtain ⟨m', hm, rfl⟩ := Option.map_eq_some_iff.mp hs
      have hlen : n ≠ 1 := fun he => hok (hr.count.trans he)
      obtain ⟨m₁, hm₁, h₁⟩ := taskTimeTick_refines hr ho hst hf (by
        unfold dec32
        omega)
      obtain rfl := Option.some.inj (hm₁.symm.trans hm)
      obtain ⟨c', hst', hlist'⟩ := steady_tick hst
      exact ⟨_, _, c', dec32_lt n, h₁, hst', hlist'.trans hlist⟩
  | saveTss t tss =>
      obtain rfl := Option.some.inj hs
      exact ⟨n, s, c, hn, writeTss_represents hr ho hok tss, hst, hlist⟩

/-- `ready_list` behind the slice part. -/
def afterSlice (tm : Nat) (m : Mem) (ready : List Nat) : List Nat :=
  if dec32 (m (sliceTicks (m (currTask tm)))) = 0 ∧ m (currTask tm) ≠ idleTask tm then
    ready.erase (m (currTask tm)) ++ [m (currTask tm)]
  else ready

/-- What a tick is for, from memory `m` to `m'`: it counts down the sleepers,
    readies those that reach 0, in order, and leaves `task_list` alone. -/
def TickCorrect (tm : Nat) (T : Set Nat) (m m' : Mem) : Prop :=
  ∃ ready sleepers : List Nat,
    IsList m (readyList tm) (ready.map runNode) ∧
    IsList m (sleepList tm) (sleepers.map runNode) ∧
    (∀ t ∈ ready ++ sleepers, t ∈ T) ∧
    IsList m' (readyList tm) ((afterSlice tm m ready ++
      sleepers.filter (fun t => dec32 (m (sleepTicks t)) = 0)).map runNode) ∧
    IsList m' (sleepList tm)
      ((sleepers.filter (fun t => dec32 (m (sleepTicks t)) ≠ 0)).map runNode) ∧
    (∀ t ∈ T, m' (sleepTicks t)
      = if t ∈ sleepers then dec32 (m (sleepTicks t)) else m (sleepTicks t)) ∧
    ∀ w, taskList tm ≤ w → w < taskList tm + 20 → m' w = m w

/-- From no intact state is a tick correct: the walk runs to the sentinel at the end of
    the list and counts it down. -/
theorem intact_not_correct (ho : Objects tm T) (hf : 2 ^ 29 + 2 ≤ fuel) {w : World}
    (h : Intact tm T w) :
    ¬ ∃ m', TaskMemory.taskTimeTick fuel tm w.mem = some m' ∧
      TickCorrect tm T w.mem m' := by
  obtain ⟨n, s, c, -, hr, hst, -⟩ := h
  rintro ⟨m', hm, -, -, -, -, -, -, -, -, hkeep⟩
  have hne := tick_changes_len hr ho hst hf hm
  have hlen := hkeep (len (taskList tm)) (by simp only [len, taskList]; omega)
    (by simp only [len, taskList]; omega)
  exact hne (hlen.trans hr.count)

/-- **NO TICK** does what it is for, in no state of a run in which the tail
    sentinel of `sleep_list` is still linked. -/
theorem tick_never_correct (ho : Objects tm T) (hf : 2 ^ 29 + 2 ≤ fuel) (m : Mem)
    (name name' : Nat) (tss tss' : Mem) {ls : List Call} {w : World}
    (h : Run (call fuel tm osTicksMs) (Allowed tm T)
      (booted tm m name name' tss tss') ls w) :
    ¬ ∃ m', TaskMemory.taskTimeTick fuel tm w.mem = some m' ∧
      TickCorrect tm T w.mem m' :=
  intact_not_correct ho hf (h.invariant (booted_intact ho m name name' tss tss')
    (fun _ _ _ hi hok hs => call_intact ho hf hi hok hs))

/-- The two tasks of the manager and no other. -/
def bootTasks (tm : Nat) : Set Nat := {firstTask tm, idleTask tm}

/-- The two tasks of boot are apart in memory. -/
theorem bootTasks_objects : Objects 0x20000 (bootTasks 0x20000) where
  pos := by omega
  bound := by omega
  first := by simp [bootTasks]
  idle := by simp [bootTasks]
  task_pos := by simp [bootTasks]
  task_bound := by simp [bootTasks, firstTask, idleTask]
  outside := by simp [bootTasks]
  apart := by
    simp only [bootTasks, Set.mem_insert_iff, Set.mem_singleton_iff, firstTask, idleTask]
    omega

/-- The world behind a boot in a memory of zeros. -/
def zeroBoot : World := booted 0x20000 (fun _ => 0) 0 0 (fun _ => 0) (fun _ => 0)

/-- And a third task. -/
def threeTasks : Set Nat := {firstTask 0x20000, idleTask 0x20000, 0x21000}

/-- So are three tasks. -/
theorem threeTasks_objects : Objects 0x20000 threeTasks where
  pos := by omega
  bound := by omega
  first := by simp [threeTasks]
  idle := by simp [threeTasks]
  task_pos := by simp [threeTasks]
  task_bound := by simp [threeTasks, firstTask, idleTask]
  outside := by simp [threeTasks]
  apart := by
    simp only [threeTasks, Set.mem_insert_iff, Set.mem_singleton_iff, firstTask, idleTask]
    omega

/-- A sleep that comes back. -/
theorem call_sleep {w : World} {m' : Mem} {ms : BitVec 32}
    (h : TaskMemory.sysSleep fuel tm osTicksMs w.mem ms = some m') :
    call fuel tm osTicksMs (.sleep ms) w = some ⟨m', w.created⟩ :=
  Option.map_eq_some_iff.mpr ⟨m', h, rfl⟩

/-- A tick that comes back. -/
theorem call_tick {w : World} {m' : Mem}
    (h : TaskMemory.taskTimeTick fuel tm w.mem = some m') :
    call fuel tm osTicksMs .tick w = some ⟨m', w.created⟩ :=
  Option.map_eq_some_iff.mpr ⟨m', h, rfl⟩

/-- The first task sleeps 30 ticks, of which two are over. -/
theorem tick_never_correct_sleeper :
    ∃ w, Run (call (2 ^ 29 + 2) 0x20000 10) (Allowed 0x20000 threeTasks) zeroBoot
        [.taskInit 0x21000 0 (fun _ => 0), .sleep 30, .tick, .tick] w ∧
      w.mem (sleepTicks (firstTask 0x20000)) = 28 ∧
      ¬ ∃ m', TaskMemory.taskTimeTick (2 ^ 29 + 2) 0x20000 w.mem = some m' ∧
        TickCorrect 0x20000 threeTasks w.mem m' := by
  have ho := threeTasks_objects
  have hf : 2 ^ 29 + 2 ≤ 2 ^ 29 + 2 := Nat.le_refl _
  have hr := Represents.boot ho (fun _ => 0) 0 0 (fun _ => 0) (fun _ => 0)
  have hne : firstTask 0x20000 ≠ idleTask 0x20000 := by decide
  obtain ⟨hinv, -⟩ := boot_inv hne (Represents.rawTask (fun _ => 0))
  obtain ⟨c, hc, hq⟩ := hinv.current_user rfl
  obtain rfl : firstTask 0x20000 = c := Option.some.inj hc
  have hst : Represents.Steady 0x20000 _ (firstTask 0x20000) :=
    ⟨hinv.sound, hinv.idle_init, hc, hq⟩
  -- the third task, and the first one goes to sleep
  have hr₁ := hr.taskInit ho (t := 0x21000) (by simp [threeTasks]) (by decide) 0 (fun _ => 0)
  have hst₁ := steady_taskInit hst (t := 0x21000) (by decide)
  obtain ⟨m₂, hm₂, hr₂⟩ := hr₁.sysSleep ho hst₁ (by decide) hf 10 30
  obtain ⟨c₂, hst₂, -⟩ := steady_sleep hst₁ (by decide) 10 30
  -- two ticks
  obtain ⟨m₃, hm₃, hr₃⟩ := taskTimeTick_refines hr₂ ho hst₂ hf (by decide)
  obtain ⟨c₃, hst₃, -⟩ := steady_tick hst₂
  obtain ⟨m₄, hm₄, hr₄⟩ := taskTimeTick_refines hr₃ ho hst₃ hf (by decide)
  have hrun : Run (call (2 ^ 29 + 2) 0x20000 10) (Allowed 0x20000 threeTasks) zeroBoot
      [.taskInit 0x21000 0 (fun _ => 0), .sleep 30, .tick, .tick]
      ⟨m₄, [idleTask 0x20000, firstTask 0x20000, 0x21000]⟩ := by
    have h₁ : Run (call (2 ^ 29 + 2) 0x20000 10) (Allowed 0x20000 threeTasks) zeroBoot
        [.taskInit 0x21000 0 (fun _ => 0)] _ := Run.single ?_ rfl
    have h₂ := h₁.snoc ?_ (call_sleep hm₂)
    have h₃ := h₂.snoc ?_ (call_tick hm₃)
    refine h₃.snoc ?_ (call_tick hm₄)
    · exact fun he => absurd (hr₃.count.symm.trans he) (by decide)
    · exact fun he => absurd (hr₂.count.symm.trans he) (by decide)
    · exact fun he => absurd (hr₁.curr.symm.trans he) (by decide)
    · exact ⟨by simp [threeTasks], by decide⟩
  refine ⟨_, hrun, ?_, tick_never_correct ho hf (fun _ => 0) 0 0 (fun _ => 0) (fun _ => 0) hrun⟩
  exact (hr₄.counters _ ho.first).1.trans (by decide)

/-- The first tick behind the boot takes `task_list.len` from 2 to 1. -/
theorem first_tick_counts_tasks :
    ¬ ∀ w, Run (call (2 ^ 29 + 2) 0x20000 10) (Allowed 0x20000 (bootTasks 0x20000))
        zeroBoot [] w →
      ∃ m', TaskMemory.taskTimeTick (2 ^ 29 + 2) 0x20000 w.mem = some m' ∧
        TickCorrect 0x20000 (bootTasks 0x20000) w.mem m' := by
  intro hall
  exact intact_not_correct bootTasks_objects (by omega)
    (booted_intact bootTasks_objects (fun _ => 0) 0 0 (fun _ => 0) (fun _ => 0))
    (hall zeroBoot (Run.nil _))

end Main

end LittleOS.TaskTick
