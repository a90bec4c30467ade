import LittleOS.Lib.Waiting
import LittleOS.RoundRobin
import LittleOS.SchedQueues

/-! # Waiting for the processor

    A task on `ready_list` waits for the tasks in front of it.  Each of them can
    take the rest of its slice, and then it is behind.

    * `step_served` — the current task is the first on the list, and all slices
      are between 1 and `TASK_TIME_SLICE_DEFAULT`;
    * `step_pays` — so every timer interrupt is paid for by what the tasks in
      front have left;
    * `bounded_wait` — a task runs after a number of interrupts that depends on
      its place alone, whatever the others do. -/

namespace LittleOS.BoundedWait

open Words Runs Waiting Sched SchedMachine SchedQueues
open RoundRobin (counters counters_requeue)

variable {τ : Type*} [DecidableEq τ] {idle : τ}

/-! ## The counters of a slice -/

section Counters

variable {s : Manager τ} {c u : τ}

/-- A new task has a whole slice. -/
theorem counters_taskInit (t : τ) :
    counters ((taskInit idle s t).task u)
      = if u = t then (taskTimeSliceDefault, taskTimeSliceDefault)
        else counters (s.task u) := by
  show counters ((taskSetReady idle _ t).task u) = _
  rw [taskSetReady_field idle _ t u counters (fun _ _ => rfl)]
  by_cases hu : u = t
  · rw [hu, modify_task_self, if_pos rfl]
    rfl
  · rw [modify_task_of_ne s t _ hu, if_neg hu]

/-- Going to sleep charges nobody. -/
theorem counters_sleepBlock {osTicksMs : Nat} {ms : BitVec 32} :
    counters ((sleepBlock idle osTicksMs s ms).task u) = counters (s.task u) := by
  unfold sleepBlock
  split
  · rfl
  · next c _ =>
      unfold taskSetSleep
      split
      · rw [taskSetBlock_task]
      · refine (modify_task_field _ c _ counters ?_ u).trans ?_
        · exact fun _ => rfl
        · show counters ((taskSetBlock idle s c).task u) = _
          rw [taskSetBlock_task]

/-- Waking up charges nobody. -/
theorem counters_wakeStep (t : τ) :
    counters ((wakeStep idle s t).task u) = counters (s.task u) := by
  have hdown : counters ((s.modify t fun c =>
      { c with sleepTicks := dec32 c.sleepTicks }).task u) = counters (s.task u) := by
    refine modify_task_field s t _ counters ?_ u
    intro d
    simp only [counters]
  unfold wakeStep
  dsimp only
  split
  · rw [taskSetReady_field idle _ t u counters (fun _ _ => rfl)]
    exact hdown
  · exact hdown

/-- The walk writes no counter of a slice.  Induction over the sleepers. -/
theorem counters_walk : counters ((sleepWalk idle s).task u) = counters (s.task u) := by
  have hall : ∀ (ts : List τ) (s : Manager τ),
      counters ((ts.foldl (wakeStep idle) s).task u) = counters (s.task u) := by
    intro ts
    induction ts with
    | nil => exact fun _ => rfl
    | cons t ts ih => exact fun s => (ih (wakeStep idle s t)).trans (counters_wakeStep t)
  exact hall s.sleepList s

variable (idle) in
/-- A tick in the middle of a slice. -/
theorem slice_stays (hc : s.currTask = some c) (hpos : 1 < (s.task c).sliceTicks)
    (hle : (s.task c).sliceTicks ≤ taskTimeSliceDefault) :
    (sliceTick idle s).2 = false ∧ (sliceTick idle s).1.readyList = s.readyList ∧
    ∀ u, counters ((sliceTick idle s).1.task u)
      = if u = c then ((s.task c).sliceTicks - 1, (s.task c).timeTicks)
        else counters (s.task u) := by
  have hten : taskTimeSliceDefault = 10 := rfl
  have hdec : dec32 (s.task c).sliceTicks = (s.task c).sliceTicks - 1 :=
    RoundRobin.dec32_of_pos (by omega) (by omega)
  have heq : sliceTick idle s
      = (s.modify c (fun d => { d with sliceTicks := dec32 d.sliceTicks }), false) := by
    unfold sliceTick
    rw [hc]
    simp only [modify_task_self]
    rw [if_neg (by omega)]
  rw [heq]
  refine ⟨rfl, rfl, fun u => ?_⟩
  by_cases hu : u = c
  · rw [hu, modify_task_self, if_pos rfl, counters, hdec]
  · rw [modify_task_of_ne s c _ hu, if_neg hu]

variable (idle) in
/-- The last tick of a slice. -/
theorem slice_ends (hc : s.currTask = some c) (hone : (s.task c).sliceTicks = 1) :
    (sliceTick idle s).2 = true ∧
    (sliceTick idle s).1.readyList
      = (if c = idle then s.readyList else s.readyList.erase c ++ [c]) ∧
    ∀ u, counters ((sliceTick idle s).1.task u)
      = if u = c then ((s.task c).timeTicks, (s.task c).timeTicks)
        else counters (s.task u) := by
  have hdec : dec32 (s.task c).sliceTicks = 0 := by rw [hone]; rfl
  obtain ⟨s₁, hs₁⟩ : ∃ s₁, s₁ = (s.modify c (fun d =>
      { d with sliceTicks := dec32 d.sliceTicks })).modify c (fun d =>
        { d with sliceTicks := d.timeTicks }) := ⟨_, rfl⟩
  have heq : sliceTick idle s
      = (taskSetReady idle (taskSetBlock idle s₁ c) c, true) := by
    unfold sliceTick
    rw [hc]
    simp only [modify_task_self]
    rw [if_pos hdec, hs₁]
  rw [heq]
  refine ⟨rfl, ?_, fun u => ?_⟩
  · dsimp only
    rw [taskSetReady_readyList, taskSetBlock_readyList, hs₁]
    by_cases hci : c = idle
    · rw [if_pos hci, if_pos hci, if_pos hci]
      rfl
    · rw [if_neg hci, if_neg hci, if_neg hci]
      rfl
  · dsimp only
    rw [taskSetReady_field idle _ c u counters (fun _ _ => rfl), taskSetBlock_task, hs₁]
    by_cases hu : u = c
    · rw [hu, modify_task_self, modify_task_self, if_pos rfl]
      rfl
    · rw [modify_task_of_ne _ c _ hu, modify_task_of_ne s c _ hu, if_neg hu]

end Counters

/-! ## The invariant -/

/-- What is left of a slice, and what it is refilled to. -/
def SliceLeft (c : Task) : Prop :=
  1 ≤ c.sliceTicks ∧ c.sliceTicks ≤ taskTimeSliceDefault ∧
    c.timeTicks = taskTimeSliceDefault

/-- The current task is first on `ready_list`, or the idle one, unless a dispatch is
    about to make it so; every initialised task has something left of its
    slice. -/
structure Served (idle : τ) (m : Machine τ) : Prop where
  inv : Inv idle m
  front : (∀ k, m.point ≠ .dispatch k) →
    m.sched.currTask = some idle ∨ m.sched.currTask = m.sched.readyList.head?
  slices : ∀ t ∈ m.sched.taskList, SliceLeft (m.sched.task t)

/-- What is left of a slice depends on the counters only. -/
theorem sliceLeft_congr {c d : Task} (h : counters c = counters d) :
    SliceLeft c ↔ SliceLeft d := by
  obtain ⟨h1, h2⟩ := Prod.mk.inj h
  unfold SliceLeft
  rw [h1, h2]

section Steps

variable {first : τ} {osTicksMs : Nat} {m m' : Machine τ}

omit [DecidableEq τ] in
/-- The head stays where it is when others come. -/
theorem head?_append_of_eq {l l' : List τ} {c : τ} (h : some c = l.head?) :
    some c = (l ++ l').head? := by
  rw [List.head?_append, ← h]
  rfl

/-- Who is current where no dispatch is called. -/
theorem Served.current (h : Served idle m) (hp : ∀ k, m.point ≠ .dispatch k) :
    ∃ c, m.sched.currTask = some c ∧ (c = idle ∨ some c = m.sched.readyList.head?) := by
  obtain ⟨c, hc, -⟩ := h.inv.current
  refine ⟨c, hc, ?_⟩
  have hor := h.front hp
  rw [hc] at hor
  exact hor.imp_left Option.some.inj

/-- Tasks that join behind the current one, and counters that stay, change
    nothing. -/
theorem Served.grow (h : Served idle m) (hinv : Inv idle m')
    (hp : ∀ k, m.point ≠ .dispatch k) (hcurr : m'.sched.currTask = m.sched.currTask)
    {l : List τ} (hready : m'.sched.readyList = m.sched.readyList ++ l)
    (hslices : ∀ t ∈ m'.sched.taskList, SliceLeft (m'.sched.task t)) :
    Served idle m' := by
  refine ⟨hinv, fun _ => ?_, hslices⟩
  obtain ⟨c, hc, hor⟩ := h.current hp
  rw [hcurr, hc, hready]
  exact hor.imp (congrArg some) head?_append_of_eq

/-- The slices, where the counters of all tasks stay. -/
theorem Served.slices_of_same (h : Served idle m)
    (hlist : m'.sched.taskList = m.sched.taskList)
    (hcount : ∀ t, counters (m'.sched.task t) = counters (m.sched.task t)) :
    ∀ t ∈ m'.sched.taskList, SliceLeft (m'.sched.task t) := by
  intro t ht
  rw [sliceLeft_congr (hcount t)]
  exact h.slices t (hlist ▸ ht)

/-- Those of a tick. -/
theorem Served.slices_timer (h : Served idle m) (hp : m.point = .user)
    (hlist : (sliceTick idle m.sched).1.taskList = m.sched.taskList) :
    ∀ t ∈ (sliceTick idle m.sched).1.taskList,
      SliceLeft ((sliceTick idle m.sched).1.task t) := by
  obtain ⟨c, hc, hq⟩ := h.inv.current_user hp
  have hmem : c ∈ m.sched.taskList := by
    rcases hq with rfl | hq
    · exact h.inv.idle_init
    · exact (h.inv.sound.mem_queues (List.mem_append_left _ hq)).1
  obtain ⟨hpos, hle, htime⟩ := h.slices c hmem
  have hten : 1 ≤ taskTimeSliceDefault := by decide
  intro t ht
  by_cases hone : (m.sched.task c).sliceTicks = 1
  · have hcount := (slice_ends idle hc hone).2.2 t
    by_cases htc : t = c
    · rw [if_pos htc, htime] at hcount
      obtain ⟨h1, h2⟩ := Prod.mk.inj hcount
      unfold SliceLeft
      omega
    · rw [if_neg htc] at hcount
      exact (sliceLeft_congr hcount).mpr (h.slices t (hlist ▸ ht))
  · have hcount := (slice_stays idle hc (by omega) hle).2.2 t
    by_cases htc : t = c
    · rw [if_pos htc, htime] at hcount
      obtain ⟨h1, h2⟩ := Prod.mk.inj hcount
      unfold SliceLeft
      omega
    · rw [if_neg htc] at hcount
      exact (sliceLeft_congr hcount).mpr (h.slices t (hlist ▸ ht))

/-- **EVERY STEP** keeps the invariant. -/
theorem step_served {l : Label τ} (h : Served idle m)
    (hs : step idle osTicksMs l m = some m') : Served idle m' := by
  have hinv := step_inv h.inv hs
  cases step_shape idle osTicksMs hs with
  | taskInit t hp ht =>
      have hti : t ≠ idle := fun he => ht (he ▸ h.inv.idle_init)
      refine h.grow hinv (by simp [hp]) (taskInit_currTask t) (taskInit_readyList hti) ?_
      intro u hu
      have hcount : counters ((taskInit idle m.sched t).task u) = _ := counters_taskInit t
      by_cases hut : u = t
      · rw [if_pos hut] at hcount
        obtain ⟨h1, h2⟩ := Prod.mk.inj hcount
        exact ⟨h1 ▸ (by decide), h1 ▸ Nat.le_refl _, h2⟩
      · rw [if_neg hut] at hcount
        have hu' : u ∈ m.sched.taskList ++ [t] := taskInit_taskList t ▸ hu
        refine (sliceLeft_congr hcount).mpr (h.slices u ((List.mem_append.mp hu').resolve_right ?_))
        exact fun he => hut (List.mem_singleton.mp he)
  | yieldAlone hp => exact h
  | yield c hp hc hl =>
      refine ⟨hinv, fun hk => absurd rfl (hk _), h.slices_of_same ?_ fun t => ?_⟩
      · simp
      · dsimp only
        rw [taskSetReady_field idle _ c t counters (fun _ _ => rfl), taskSetBlock_task]
  | sleep ms hp hne =>
      refine ⟨hinv, fun hk => absurd rfl (hk _), h.slices_of_same sleepBlock_taskList ?_⟩
      exact fun t => counters_sleepBlock
  | timer hp hi =>
      obtain ⟨c, hc, hq⟩ := h.inv.current_user hp
      have hlist : (sliceTick idle m.sched).1.taskList = m.sched.taskList :=
        (same_slice hc hq).2
      refine ⟨hinv, fun hk => ?_, h.slices_timer hp hlist⟩
      have hstays : (sliceTick idle m.sched).2 = false := by
        by_contra hends
        exact hk .walk (if_pos (Bool.eq_true_of_not_eq_false hends))
      have hmem : c ∈ m.sched.taskList := by
        rcases hq with rfl | hq
        · exact h.inv.idle_init
        · exact (h.inv.sound.mem_queues (List.mem_append_left _ hq)).1
      obtain ⟨hpos, hle, -⟩ := h.slices c hmem
      have hne : (m.sched.task c).sliceTicks ≠ 1 := by
        intro hone
        rw [(slice_ends idle hc hone).1] at hstays
        exact nomatch hstays
      show (sliceTick idle m.sched).1.currTask = _ ∨
        (sliceTick idle m.sched).1.currTask = (sliceTick idle m.sched).1.readyList.head?
      rw [sliceTick_currTask, (slice_stays idle hc (by omega) hle).2.1]
      exact h.front (by simp [hp])
  | stay k hp hn =>
      refine ⟨hinv, fun _ => ?_, h.slices⟩
      dsimp only
      rw [← hn, taskNextRun]
      cases m.sched.readyList with
      | nil => exact Or.inl rfl
      | cons t rest => exact Or.inr rfl
  | switch k hp hn =>
      rw [dispatchStep, if_neg hn] at hinv ⊢
      refine ⟨hinv, fun _ => ?_, h.slices_of_same (taskDispatch_taskList idle _) fun t => ?_⟩
      · dsimp only
        rw [taskDispatch_currTask, taskDispatch_readyList, taskNextRun]
        cases m.sched.readyList with
        | nil => exact Or.inl rfl
        | cons t rest => exact Or.inr rfl
      · exact taskDispatch_field idle _ t counters (fun _ _ => rfl)
  | leave inner k hp =>
      have hfront := h.front (by simp [hp])
      cases k <;> exact ⟨hinv, fun _ => hfront, h.slices⟩
  | walk hp =>
      have hnd := h.inv.sound.sleep_nodup
      have hid := h.inv.sound.idle_sleep
      refine ⟨hinv, fun hk => absurd rfl (hk _), h.slices_of_same ?_ fun t => counters_walk⟩
      exact sleepWalk_taskList hnd hid
  | eoi hp => exact ⟨hinv, fun _ => h.front (by simp [hp]), h.slices⟩

/-- The machine boots with a whole slice for its first task. -/
theorem boot_served (hfi : first ≠ idle) (raw : τ → Task) :
    Served idle (boot idle first raw) := by
  refine ⟨(boot_inv hfi raw).1, fun _ => Or.inr ?_, fun t ht => ?_⟩
  · rw [boot_readyList hfi raw]
    rfl
  · rw [boot_taskList raw] at ht
    have hcount : counters ((boot idle first raw).sched.task t)
        = (taskTimeSliceDefault, taskTimeSliceDefault) := by
      show counters ((taskInit idle (taskManagerInit idle _) first).task t) = _
      rw [counters_taskInit]
      split
      · rfl
      · next hne =>
          obtain rfl : t = idle := (List.mem_pair.mp ht).resolve_right hne
          exact (counters_taskInit t).trans (if_pos rfl)
    obtain ⟨h1, h2⟩ := Prod.mk.inj hcount
    exact ⟨h1 ▸ (by decide), h1 ▸ Nat.le_refl _, h2⟩

/-! ## What the others have left -/

/-- The tick that may pass before the idle task is dispatched away from. -/
def idleTick (idle : τ) (m : Machine τ) : Nat :=
  match m.point with
  | .user | .leave _ _ | .eoi => if m.sched.currTask = some idle then 1 else 0
  | .walk | .dispatch _ => 0

/-- The timer interrupts that may come before task `t` runs. -/
def ticksBefore (idle t : τ) (m : Machine τ) : Nat :=
  load (fun u => (m.sched.task u).sliceTicks) m.sched.readyList t + idleTick idle m

/-- A timer interrupt counts one. -/
def isTimer : Label τ → Nat
  | .timer => 1
  | .taskInit _ | .schedYield | .sleep _ | .kernel => 0

/-- Task `t` is still on the list, no further back, and what it waits for has been
    paid from. -/
structure Pays (idle t : τ) (l : Label τ) (m m' : Machine τ) : Prop where
  mem : t ∈ m'.sched.readyList
  place : m'.sched.readyList.idxOf t ≤ m.sched.readyList.idxOf t
  ticks : isTimer l + ticksBefore idle t m' ≤ ticksBefore idle t m

section Pays

variable {t c : τ} {l : Label τ}

/-- The current task is ahead of any other ready one. -/
theorem mem_ahead_of_head {rs : List τ} (hc : some c = rs.head?) (hct : c ≠ t) :
    c ∈ ahead rs t := by
  cases rs with
  | nil => exact nomatch hc
  | cons a rs =>
      obtain rfl : c = a := Option.some.inj hc
      rw [ahead_cons_of_ne hct]
      exact List.mem_cons_self

/-- Nobody in front moves or spends anything. -/
theorem Pays.of_grow (ht : t ∈ m.sched.readyList) (rs : List τ)
    (hready : m'.sched.readyList = m.sched.readyList ++ rs)
    (hslice : ∀ u ∈ m.sched.readyList,
      (m'.sched.task u).sliceTicks = (m.sched.task u).sliceTicks)
    (hticks : isTimer l + idleTick idle m' ≤ idleTick idle m) : Pays idle t l m m' where
  mem := by
    rw [hready]
    exact List.mem_append_left _ ht
  place := by
    rw [hready, List.idxOf_append_of_mem ht]
  ticks := by
    unfold ticksBefore
    rw [hready, load_append ht, load_congr fun u hu => hslice u (mem_of_mem_ahead hu)]
    omega

/-- Somebody in front leaves, and joins again at the end or not. -/
theorem Pays.of_leave (ht : t ∈ m.sched.readyList) (hnd : m.sched.readyList.Nodup)
    (hc : c ∈ ahead m.sched.readyList t) (rs : List τ)
    (hready : m'.sched.readyList = m.sched.readyList.erase c ++ rs)
    (hslice : ∀ u, u ≠ c → (m'.sched.task u).sliceTicks = (m.sched.task u).sliceTicks)
    (hticks : isTimer l + idleTick idle m' ≤ (m.sched.task c).sliceTicks) :
    Pays idle t l m m' := by
  have hct := ne_of_mem_ahead hc
  have ht' : t ∈ m.sched.readyList.erase c := (List.mem_erase_of_ne hct.symm).mpr ht
  refine ⟨?_, ?_, ?_⟩
  · rw [hready]
    exact List.mem_append_left _ ht'
  · rw [hready, List.idxOf_append_of_mem ht']
    exact idxOf_erase_le ht hct
  · have hrest : load (fun u => (m'.sched.task u).sliceTicks) (m.sched.readyList.erase c) t
        = load (fun u => (m.sched.task u).sliceTicks) (m.sched.readyList.erase c) t :=
      load_congr fun u hu => hslice u fun he => hnd.not_mem_erase (he ▸ mem_of_mem_ahead hu)
    have hload := load_erase (w := fun u => (m.sched.task u).sliceTicks) hc
    unfold ticksBefore
    rw [hready, load_append ht', hrest]
    omega

/-- No tick is spent idle while another task runs. -/
theorem idleTick_of_ne (h : m.sched.currTask ≠ some idle) : idleTick idle m = 0 := by
  unfold idleTick
  split <;> simp [h]

/-- **A TIMER INTERRUPT** is paid for by the current task, which is in front, or by
    the tick the idle task has. -/
theorem Served.pays_timer (h : Served idle m) (hp : m.point = .user)
    (ht : t ∈ m.sched.readyList) (hne : m.sched.currTask ≠ some t) :
    Pays idle t .timer m (timerStep idle m) := by
  obtain ⟨c, hc, hor⟩ := h.current (by simp [hp])
  obtain ⟨c', hc', hq⟩ := h.inv.current_user hp
  obtain rfl : c = c' := Option.some.inj (hc.symm.trans hc')
  have hct : c ≠ t := fun he => hne (he ▸ hc)
  have hmem : c ∈ m.sched.taskList := by
    rcases hq with rfl | hq
    · exact h.inv.idle_init
    · exact (h.inv.sound.mem_queues (List.mem_append_left _ hq)).1
  obtain ⟨hpos, hle, -⟩ := h.slices c hmem
  have hkernel : idleTick idle (timerStep idle m) = 0 := by
    cases hends : (sliceTick idle m.sched).2 with
    | true => simp [idleTick, timerStep, hends]
    | false => simp [idleTick, timerStep, hends]
  have hslice : ∀ {u : τ} {p : Nat × Nat}, counters ((sliceTick idle m.sched).1.task u) = p →
      ((timerStep idle m).sched.task u).sliceTicks = p.1 := fun he => congrArg Prod.fst he
  by_cases hone : (m.sched.task c).sliceTicks = 1
  · obtain ⟨-, hready, hcount⟩ := slice_ends idle hc hone
    by_cases hci : c = idle
    · rw [if_pos hci] at hready
      refine Pays.of_grow ht [] (hready.trans (List.append_nil _).symm) (fun u hu => ?_) ?_
      · have huc : u ≠ c := fun he => h.inv.sound.idle_ready (hci ▸ he ▸ hu)
        exact hslice ((hcount u).trans (if_neg huc))
      · rw [hkernel]
        simp [idleTick, hp, hc, hci, isTimer]
    · rw [if_neg hci] at hready
      refine Pays.of_leave ht h.inv.sound.ready_nodup
        (mem_ahead_of_head (hor.resolve_left hci) hct) [c] hready (fun u hu => ?_) ?_
      · exact hslice ((hcount u).trans (if_neg hu))
      · rw [hkernel, hone]
        exact Nat.le_refl _
  · obtain ⟨-, hready, hcount⟩ := slice_stays idle hc (by omega) hle
    by_cases hci : c = idle
    · refine Pays.of_grow ht [] (hready.trans (List.append_nil _).symm) (fun u hu => ?_) ?_
      · have huc : u ≠ c := fun he => h.inv.sound.idle_ready (hci ▸ he ▸ hu)
        exact hslice ((hcount u).trans (if_neg huc))
      · rw [hkernel]
        simp [idleTick, hp, hc, hci, isTimer]
    · have hahead := mem_ahead_of_head (hor.resolve_left hci) hct
      have hspent : ((timerStep idle m).sched.task c).sliceTicks + 1
          = (m.sched.task c).sliceTicks := by
        rw [hslice ((hcount c).trans (if_pos rfl))]
        exact Nat.sub_add_cancel hpos
      have hload := load_spend (w := fun u => (m.sched.task u).sliceTicks)
        (v := fun u => ((timerStep idle m).sched.task u).sliceTicks)
        h.inv.sound.ready_nodup hahead hspent
        (fun u hu => hslice ((hcount u).trans (if_neg hu)))
      refine ⟨?_, ?_, ?_⟩
      · exact hready.symm ▸ ht
      · exact Nat.le_of_eq (congrArg (List.idxOf t) hready)
      · unfold ticksBefore
        rw [hkernel, show (timerStep idle m).sched.readyList = m.sched.readyList from hready]
        show 1 + _ ≤ _
        omega

/-- **EVERY STEP** of the others is paid for, as long as `t` is not current. -/
theorem Served.step_pays (h : Served idle m) (ht : t ∈ m.sched.readyList)
    (hne : m.sched.currTask ≠ some t) (hs : step idle osTicksMs l m = some m') :
    Pays idle t l m m' := by
  have hnd := h.inv.sound.ready_nodup
  -- where a task is on the list, the next to run is not the idle one
  have hnext : taskNextRun idle m.sched ≠ idle := by
    intro he
    unfold taskNextRun at he
    cases hr : m.sched.readyList with
    | nil => exact nomatch hr ▸ ht
    | cons a rest =>
        rw [hr, List.headD_cons] at he
        refine h.inv.sound.idle_ready ?_
        rw [hr, he]
        exact List.mem_cons_self
  cases step_shape idle osTicksMs hs with
  | taskInit u hp hu =>
      have hui : u ≠ idle := fun he => hu (he ▸ h.inv.idle_init)
      refine Pays.of_grow ht [u] (taskInit_readyList hui) (fun v hv => ?_) ?_
      · have hvu : v ≠ u := fun he =>
          hu (he ▸ (h.inv.sound.mem_queues (List.mem_append_left _ hv)).1)
        exact congrArg Prod.fst ((counters_taskInit u).trans (if_neg hvu))
      · simp [idleTick, hp, isTimer]
  | yieldAlone hp =>
      exact Pays.of_grow ht [] (List.append_nil _).symm (fun _ _ => rfl)
        (by simp [isTimer])
  | yield c hp hc hl =>
      have hslice : ∀ u, ((taskSetReady idle (taskSetBlock idle m.sched c) c).task u).sliceTicks
          = (m.sched.task u).sliceTicks := by
        intro u
        rw [taskSetReady_field idle _ c u Task.sliceTicks (fun _ _ => rfl), taskSetBlock_task]
      obtain ⟨c', hc', hor⟩ := h.current (by simp [hp])
      obtain rfl : c = c' := Option.some.inj (hc.symm.trans hc')
      by_cases hci : c = idle
      · refine Pays.of_grow ht [] ?_ (fun u _ => hslice u) ?_
        · simp [hci, taskSetBlock_readyList]
        · simp [idleTick, isTimer]
      · refine Pays.of_leave ht hnd
          (mem_ahead_of_head (hor.resolve_left hci) fun he => hne (he ▸ hc)) [c]
          (requeue_readyList idle m.sched c hci) (fun u _ => hslice u) ?_
        simp [idleTick, isTimer]
  | sleep ms hp hcur =>
      obtain ⟨c, hc, hor⟩ := h.current (by simp [hp])
      have hci : c ≠ idle := fun he => hcur (he ▸ hc)
      refine Pays.of_leave ht hnd
        (mem_ahead_of_head (hor.resolve_left hci) fun he => hne (he ▸ hc)) [] ?_
        (fun u _ => congrArg Prod.fst counters_sleepBlock) ?_
      · rw [List.append_nil]
        exact sleepBlock_readyList hc hci
      · simp [idleTick, isTimer]
  | timer hp hi => exact h.pays_timer hp ht hne
  | stay k hp hn =>
      refine Pays.of_grow ht [] (List.append_nil _).symm (fun _ _ => rfl) ?_
      rw [idleTick_of_ne (by rw [← hn]; exact fun he => hnext (Option.some.inj he))]
      exact Nat.zero_le _
  | switch k hp hn =>
      rw [dispatchStep, if_neg hn]
      refine Pays.of_grow ht [] ?_ (fun u _ => ?_) ?_
      · exact (taskDispatch_readyList idle _).trans (List.append_nil _).symm
      · exact taskDispatch_field idle _ u Task.sliceTicks (fun _ _ => rfl)
      · rw [idleTick_of_ne]
        · exact Nat.zero_le _
        · dsimp only
          rw [taskDispatch_currTask]
          exact fun he => hnext (Option.some.inj he)
  | leave inner k hp =>
      have hidle : idleTick idle (leaveStep m inner k) ≤ idleTick idle m := by
        unfold idleTick
        rw [hp]
        cases k <;> first | exact Nat.le_refl _ | exact Nat.zero_le _
      refine Pays.of_grow ht [] ?_ (fun u _ => ?_) ?_
      · cases k <;> exact (List.append_nil _).symm
      · cases k <;> rfl
      · exact (Nat.zero_add _).trans_le hidle
  | walk hp =>
      refine Pays.of_grow ht _
        (sleepWalk_readyList h.inv.sound.sleep_nodup h.inv.sound.idle_sleep)
        (fun u _ => congrArg Prod.fst counters_walk) ?_
      simp [idleTick, isTimer]
  | eoi hp =>
      refine Pays.of_grow ht [] (List.append_nil _).symm (fun _ _ => rfl) ?_
      simp [idleTick, hp, isTimer]

end Pays

/-- The ticks before a task's turn: a whole slice for each task ahead of it and one tick
    more. -/
theorem ticksBefore_le (h : Served idle m) {t : τ} (ht : t ∈ m.sched.readyList) :
    ticksBefore idle t m ≤ taskTimeSliceDefault * m.sched.readyList.idxOf t + 1 := by
  have hload := load_le (w := fun u => (m.sched.task u).sliceTicks) ht
    (b := taskTimeSliceDefault) fun u hu =>
      (h.slices u (h.inv.sound.mem_queues (List.mem_append_left _ hu)).1).2.1
  have hidle : idleTick idle m ≤ 1 := by
    unfold idleTick
    split <;> first | exact Nat.zero_le _ | split <;> decide
  unfold ticksBefore
  omega

/-- Every state of a run is so. -/
theorem served_of_run (hfi : first ≠ idle) {raw : τ → Task} {ls : List (Label τ)}
    (h : Run (step idle osTicksMs) (fun _ _ => True) (boot idle first raw) ls m) :
    Served idle m :=
  h.invariant (boot_served hfi raw) fun _ _ _ hs _ hstep => step_served hs hstep

/-- The whole run of the other tasks is paid for by what is in front of `t`. -/
theorem Served.waits (h : Served idle m) {ls : List (Label τ)} {m' : Machine τ} {t : τ}
    (ht : t ∈ m.sched.readyList)
    (h' : Run (step idle osTicksMs) (fun _ m => m.sched.currTask ≠ some t) m ls m') :
    t ∈ m'.sched.readyList ∧ m'.sched.readyList.idxOf t ≤ m.sched.readyList.idxOf t ∧
    (ls.map isTimer).sum ≤ taskTimeSliceDefault * m.sched.readyList.idxOf t + 1 := by
  have hspent := h'.spent isTimer (ticksBefore idle t)
    (P := fun m₁ => Served idle m₁ ∧ t ∈ m₁.sched.readyList ∧
      m₁.sched.readyList.idxOf t ≤ m.sched.readyList.idxOf t)
    ⟨h, ht, Nat.le_refl _⟩ ?_
  · obtain ⟨⟨-, hmem, hplace⟩, hticks⟩ := hspent
    exact ⟨hmem, hplace, by have := ticksBefore_le h ht; omega⟩
  · rintro l s s' ⟨hs, hmem, hplace⟩ hne hstep
    have hpays := hs.step_pays hmem hne hstep
    exact ⟨⟨step_served hs hstep, hpays.mem, hpays.place.trans hplace⟩, hpays.ticks⟩

/-- **NO STARVATION**: in every run from every reachable state, a task on
    `ready_list` that has not run yet is still on it, no further back, and not
    more timer interrupts have come than the slices of the tasks in front of it
    amount to, and one. -/
theorem bounded_wait (hfi : first ≠ idle) {raw : τ → Task} {ls ls' : List (Label τ)}
    {m m' : Machine τ} {t : τ}
    (h : Run (step idle osTicksMs) (fun _ _ => True) (boot idle first raw) ls m)
    (ht : t ∈ m.sched.readyList)
    (h' : Run (step idle osTicksMs) (fun _ m => m.sched.currTask ≠ some t) m ls' m') :
    t ∈ m'.sched.readyList ∧ m'.sched.readyList.idxOf t ≤ m.sched.readyList.idxOf t ∧
    (ls'.map isTimer).sum ≤ taskTimeSliceDefault * m.sched.readyList.idxOf t + 1 := by
  have hserved : Served idle m := served_of_run hfi h
  exact hserved.waits ht h'

end Steps

/-! ## The second of two tasks -/

private theorem madeTwo_isSome :
    (exec (step 0 10) (fun _ _ => True) [.taskInit 2] (boot 0 1 blank)).isSome = true := by
  decide

/-- The machine with two ready tasks. -/
def madeTwo : Machine Nat :=
  (exec (step 0 10) (fun _ _ => True) [.taskInit 2] (boot 0 1 blank)).get madeTwo_isSome

/-- The first task takes all of its slice. -/
def wholeSlice : List (Label Nat) :=
  (List.replicate 9 quietTick).flatten ++ [.timer, .kernel]

private theorem wholeSlice_isSome :
    (exec (step 0 10) (fun _ m => m.sched.currTask ≠ some 2) wholeSlice
      madeTwo).isSome = true := by decide +kernel

/-- The second one runs after a whole slice of the first. -/
theorem bounded_wait_second :
    ∃ m, exec (step 0 10) (fun _ m => m.sched.currTask ≠ some 2) wholeSlice madeTwo
        = some m ∧
      m.sched.currTask = some 2 ∧ m.sched.readyList.idxOf 2 = 0 ∧
      (wholeSlice.map isTimer).sum = 10 ∧
      (wholeSlice.map isTimer).sum
        ≤ taskTimeSliceDefault * madeTwo.sched.readyList.idxOf 2 + 1 :=
  ⟨_, (Option.some_get wholeSlice_isSome).symm, by decide +kernel, by decide +kernel,
    by decide,
    (bounded_wait (by decide) (Run.of_isSome madeTwo_isSome) (by decide +kernel)
      (Run.of_isSome wholeSlice_isSome)).2.2⟩

end LittleOS.BoundedWait
