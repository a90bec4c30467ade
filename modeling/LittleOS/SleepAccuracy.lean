import LittleOS.SchedQueues

/-! # How long a sleeper sleeps

    A task that `sys_sleep` has put on `sleep_list` for `k` ticks waits for the
    walk of the `k`-th timer interrupt.  The walk comes behind the first
    `task_dispatch` of the tick: when that one hands the processor over, the
    walk is left to whenever the preempted task runs again.

    * `sleep_accurate` — while the first dispatch of a tick is left and come
      back to only with no task asleep, every sleeper wakes in the walk of its
      `k`-th interrupt;
    * `sleeps_too_long` — a run in which the interrupt goes by without a
      walk. -/

namespace LittleOS.SleepAccuracy

open Runs Words Sched SchedMachine SchedQueues

variable {τ : Type*} [DecidableEq τ] {idle first : τ} {osTicksMs : Nat}

/-- The running task is in `task_time_tick`, before its walk. -/
def BeforeWalk (p : Point) : Prop :=
  p = .walk ∨ p = .dispatch .walk ∨ ∃ inner, p = .leave inner .walk

instance : DecidablePred BeforeWalk
  | .walk => isTrue (Or.inl rfl)
  | .dispatch k => decidable_of_iff (k = .walk) (by simp [BeforeWalk])
  | .leave _ k => decidable_of_iff (k = .walk) (by simp [BeforeWalk])
  | .user => isFalse (by simp [BeforeWalk])
  | .eoi => isFalse (by simp [BeforeWalk])

/-- The processor changes hands at the first dispatch of a tick, on the way out
    or on the way in, only while no task is asleep. -/
def WalkNotLeft (idle : τ) : Label τ → Machine τ → Prop
  | .kernel, m =>
      match m.point with
      | .dispatch k =>
          some (taskNextRun idle m.sched) ≠ m.sched.currTask →
          k = .walk ∨ BeforeWalk (m.tss (taskNextRun idle m.sched)).1 →
          m.sched.sleepList = []
      | _ => True
  | _, _ => True

instance (l : Label τ) (m : Machine τ) : Decidable (WalkNotLeft idle l m) :=
  match l with
  | .kernel =>
      match hp : m.point with
      | .dispatch k =>
          decidable_of_iff (some (taskNextRun idle m.sched) ≠ m.sched.currTask →
            k = .walk ∨ BeforeWalk (m.tss (taskNextRun idle m.sched)).1 →
            m.sched.sleepList = [])
            (by simp only [WalkNotLeft, hp])
      | .user | .leave _ _ | .walk | .eoi => isTrue (by simp only [WalkNotLeft, hp])
  | .taskInit _ | .schedYield | .sleep _ | .timer => isTrue trivial

/-- The timer interrupts delivered in a run. -/
def interrupts : List (Label τ) → Nat
  | [] => 0
  | .timer :: ls => interrupts ls + 1
  | _ :: ls => interrupts ls

omit [DecidableEq τ] in
/-- Interrupts add up. -/
theorem interrupts_snoc (ls : List (Label τ)) (l : Label τ) :
    interrupts (ls ++ [l]) = interrupts ls + interrupts [l] := by
  induction ls with
  | nil => simp [interrupts]
  | cons l' ls ih =>
      cases l' <;> simp +arith only [List.cons_append, interrupts, ih]

/-- What is promised of a task put to sleep for `k` ticks, after `n` interrupts
    in which it slept: asleep, it still waits, if only for the walk of the
    `k`-th interrupt, and every interrupt has taken one tick off its counter;
    awake, it has just been moved to `ready_list` by that walk. -/
def WakesOnTime (c : τ) (k n : Nat) (m : Machine τ) : Prop :=
  (c ∈ m.sched.sleepList →
    (n < k ∨ n = k ∧ BeforeWalk m.point) ∧
    (m.sched.task c).sleepTicks + n
      = k + if BeforeWalk m.point then 1 else 0) ∧
  (c ∉ m.sched.sleepList →
    n = k ∧ m.point = .dispatch .eoi ∧ c ∈ m.sched.readyList)

instance (c : τ) (k n : Nat) (m : Machine τ) : Decidable (WakesOnTime c k n m) :=
  inferInstanceAs (Decidable (_ ∧ _))

/-! ## The counter of a sleeper -/

/-- Still asleep: what is left of the counter, and the interrupts so far, make
    up `k`, with one interrupt counted too many before its walk. -/
structure Waiting (c : τ) (k n : Nat) (m : Machine τ) : Prop where
  asleep : c ∈ m.sched.sleepList
  pos : 1 ≤ (m.sched.task c).sleepTicks
  le : (m.sched.task c).sleepTicks ≤ k
  count : (m.sched.task c).sleepTicks + n
    = k + if BeforeWalk m.point then 1 else 0

/-- Woken up by the walk just now. -/
structure Woken (c : τ) (k n : Nat) (m : Machine τ) : Prop where
  awake : c ∉ m.sched.sleepList
  count : n = k
  point : m.point = .dispatch .eoi
  ready : c ∈ m.sched.readyList

omit [DecidableEq τ] in
/-- A step that leaves the sleeper and the side of the walk alone. -/
theorem Waiting.of_same {c : τ} {k n : Nat} {m m' : Machine τ}
    (h : Waiting c k n m) (hs : c ∈ m'.sched.sleepList)
    (ht : (m'.sched.task c).sleepTicks = (m.sched.task c).sleepTicks)
    (hp : BeforeWalk m'.point ↔ BeforeWalk m.point) : Waiting c k n m' where
  asleep := hs
  pos := by rw [ht]; exact h.pos
  le := by rw [ht]; exact h.le
  count := by rw [ht, h.count, if_congr hp rfl rfl]

/-- Turning the ready list counts no sleeper down. -/
theorem sleepTicks_requeue (s : Manager τ) (c u : τ) :
    ((taskSetReady idle (taskSetBlock idle s c) c).task u).sleepTicks
      = (s.task u).sleepTicks := by
  rw [taskSetReady_field idle _ c u Task.sleepTicks (fun _ _ => rfl),
    taskSetBlock_task]

/-- Nor does the slice end. -/
theorem sleepTicks_slice (s : Manager τ) (u : τ) :
    (((sliceTick idle s).1).task u).sleepTicks = (s.task u).sleepTicks := by
  unfold sliceTick
  cases s.currTask with
  | none => rfl
  | some c =>
      dsimp only
      have hslice : ((s.modify c fun d =>
          { d with sliceTicks := dec32 d.sliceTicks }).task u).sleepTicks
          = (s.task u).sleepTicks := by
        refine modify_task_field s c _ Task.sleepTicks ?_ u
        intro d
        rfl
      split
      · rw [sleepTicks_requeue]
        refine Eq.trans (modify_task_field _ c _ Task.sleepTicks ?_ u) hslice
        intro d
        rfl
      · exact hslice

/-- The slice end wakes nobody up. -/
theorem sleepList_slice (s : Manager τ) :
    ((sliceTick idle s).1).sleepList = s.sleepList := by
  unfold sliceTick
  cases s.currTask with
  | none => rfl
  | some c =>
      dsimp only
      split <;> simp

/-- A new task counts no sleeper down. -/
theorem sleepTicks_taskInit (s : Manager τ) (t u : τ) :
    ((taskInit idle s t).task u).sleepTicks = (s.task u).sleepTicks := by
  show ((taskSetReady idle _ t).task u).sleepTicks = _
  rw [taskSetReady_field idle _ t u Task.sleepTicks (fun _ _ => rfl)]
  refine modify_task_field s t _ Task.sleepTicks ?_ u
  intro d
  rfl

/-- `sys_sleep` of another task leaves the counter of a sleeper. -/
theorem sleepTicks_sleepBlock {s : Manager τ} {c u : τ} {ms : BitVec 32}
    (hc : s.currTask = some c) (hu : u ≠ c) :
    ((sleepBlock idle osTicksMs s ms).task u).sleepTicks
      = (s.task u).sleepTicks := by
  unfold sleepBlock taskSetSleep
  rw [hc]
  dsimp only
  split
  · rw [taskSetBlock_task]
  · rw [modify_task_of_ne _ _ _ hu]
    exact congrArg (fun f => (f u).sleepTicks) (taskSetBlock_task idle s c)

/-! ## The steps -/

section Steps

variable {c : τ} {k n : Nat} {m : Machine τ}

/-- **THE WALK** takes one tick off the sleeper or wakes it up. -/
theorem Waiting.walk (h : Waiting c k n m) (hi : Inv idle m) (hk : k < 2 ^ 32)
    (hp : m.point = .walk) :
    let m' := { m with sched := sleepWalk idle m.sched, point := .dispatch .eoi }
    Waiting c k n m' ∨ Woken c k n m' := by
  intro m'
  have hnd := hi.sound.sleep_nodup
  have hid := hi.sound.idle_sleep
  have hcount := h.count
  rw [if_pos (show BeforeWalk m.point from Or.inl hp)] at hcount
  have hpos := h.pos
  have hle := h.le
  have hdec : dec32 (m.sched.task c).sleepTicks
      = (m.sched.task c).sleepTicks - 1 := by
    unfold dec32
    omega
  have hslept : m'.sched.sleepList
      = m.sched.sleepList.filter (fun t => !decide (Due m.sched t)) :=
    sleepWalk_sleepList hnd hid
  -- due is who has one tick left
  by_cases hdue : Due m.sched c
  · right
    have hone : (m.sched.task c).sleepTicks = 1 := by
      have h0 : dec32 (m.sched.task c).sleepTicks = 0 := hdue
      omega
    refine ⟨?_, by omega, rfl, ?_⟩
    · rw [hslept, List.mem_filter]
      simp [hdue]
    · show c ∈ (sleepWalk idle m.sched).readyList
      rw [sleepWalk_readyList hnd hid]
      exact List.mem_append_right _
        (List.mem_filter.mpr ⟨h.asleep, decide_eq_true hdue⟩)
  · left
    have hne : (m.sched.task c).sleepTicks - 1 ≠ 0 := by
      intro h0
      exact hdue (hdec.trans h0)
    have hticks : (m'.sched.task c).sleepTicks
        = (m.sched.task c).sleepTicks - 1 := by
      show ((sleepWalk idle m.sched).task c).sleepTicks = _
      rw [sleepWalk_sleepTicks hnd hid, if_pos h.asleep, hdec]
    refine ⟨?_, by omega, by omega, ?_⟩
    · rw [hslept, List.mem_filter]
      exact ⟨h.asleep, by simp [hdue]⟩
    · rw [if_neg (show ¬ BeforeWalk m'.point by simp [m', BeforeWalk]), hticks]
      omega

/-- A hand-over puts the sleeper's count on neither side of a walk. -/
theorem Waiting.switch (h : Waiting c k n m) {j : Cont}
    (hp : m.point = .dispatch j)
    (hn : some (taskNextRun idle m.sched) ≠ m.sched.currTask)
    (hok : WalkNotLeft idle .kernel m) :
    Waiting c k n (dispatchStep idle m j) := by
  have hne : m.sched.sleepList ≠ [] := by
    intro he
    have hm := h.asleep
    rw [he] at hm
    exact nomatch hm
  simp only [WalkNotLeft, hp] at hok
  -- with a sleeper there, neither the outgoing task nor the incoming one has its
  -- walk to make
  have hkeep : ¬ (j = .walk ∨ BeforeWalk (m.tss (taskNextRun idle m.sched)).1) :=
    fun hor => hne (hok hn hor)
  have htss : (dispatchStep idle m j).point
      = (m.tss (taskNextRun idle m.sched)).1 := by
    rw [dispatchStep, if_neg hn]
    cases hc : m.sched.currTask with
    | none => rfl
    | some d =>
        have hd : taskNextRun idle m.sched ≠ d := by
          intro he
          exact hn (by rw [he, hc])
        show (Function.update m.tss d _ _).1 = _
        rw [Function.update_of_ne hd]
  have hsched : (dispatchStep idle m j).sched = taskDispatch idle m.sched := by
    rw [dispatchStep, if_neg hn]
  refine h.of_same ?_ ?_ ?_
  · rw [hsched, taskDispatch_sleepList]
    exact h.asleep
  · rw [hsched, taskDispatch_field idle _ c Task.sleepTicks (fun _ _ => rfl)]
  · rw [htss]
    refine iff_of_false (fun hb => hkeep (Or.inr hb)) ?_
    rw [hp]
    intro hb
    exact hkeep (Or.inl (by simpa [BeforeWalk] using hb))

/-- **EVERY STEP** of a task asleep keeps it waiting or wakes it on time. -/
theorem step_waiting {l : Label τ} {m' : Machine τ} (hk : k < 2 ^ 32)
    (hi : Inv idle m) (h : Waiting c k n m) (hok : WalkNotLeft idle l m)
    (hs : step idle osTicksMs l m = some m') :
    Waiting c k (n + interrupts [l]) m' ∨ Woken c k (n + interrupts [l]) m' := by
  cases step_shape idle osTicksMs hs with
  | taskInit t hp ht =>
      refine Or.inl (h.of_same ?_ (sleepTicks_taskInit _ _ _) Iff.rfl)
      show c ∈ (taskInit idle m.sched t).sleepList
      rw [taskInit_sleepList]
      exact h.asleep
  | yieldAlone hp => exact Or.inl h
  | yield d hp hd hl =>
      refine Or.inl (h.of_same ?_ (sleepTicks_requeue _ _ _) ?_)
      · simpa using h.asleep
      · simp [BeforeWalk, hp]
  | sleep ms hp hne =>
      obtain ⟨d, hd, hq⟩ := hi.current_user hp
      have hdi : d ≠ idle := fun he => hne (he ▸ hd)
      have hcd : c ≠ d := by
        rintro rfl
        exact hi.sound.disjoint (hq.resolve_left hdi) h.asleep
      refine Or.inl (h.of_same ((mem_sleepBlock_iff hd).mpr (Or.inl h.asleep))
        (sleepTicks_sleepBlock hd hcd) ?_)
      simp [BeforeWalk, hp]
  | timer hp hon =>
      -- the interrupt is counted at once, the walk is still to come
      have hcount := h.count
      rw [if_neg (by simp [BeforeWalk, hp])] at hcount
      have hticks : (((timerStep idle m).sched).task c).sleepTicks
          = (m.sched.task c).sleepTicks := sleepTicks_slice m.sched c
      refine Or.inl ⟨?_, by rw [hticks]; exact h.pos,
        by rw [hticks]; exact h.le, ?_⟩
      · show c ∈ (sliceTick idle m.sched).1.sleepList
        rw [sleepList_slice]
        exact h.asleep
      · have hb : BeforeWalk (timerStep idle m).point := by
          show BeforeWalk (if (sliceTick idle m.sched).2 then _ else _)
          split
          · exact Or.inr (Or.inl rfl)
          · exact Or.inl rfl
        rw [if_pos hb, hticks]
        simp only [interrupts]
        omega
  | stay j hp hn =>
      refine Or.inl (h.of_same h.asleep rfl ?_)
      simp [BeforeWalk, hp]
  | switch j hp hn => exact Or.inl (h.switch hp hn hok)
  | leave inner j hp =>
      left
      cases j with
      | yield o => exact h.of_same h.asleep rfl (by simp [BeforeWalk, hp, leaveStep])
      | sleep o => exact h.of_same h.asleep rfl (by simp [BeforeWalk, hp, leaveStep])
      | walk => exact h.of_same h.asleep rfl (by simp [BeforeWalk, hp, leaveStep])
      | eoi => exact h.of_same h.asleep rfl (by simp [BeforeWalk, hp, leaveStep])
  | walk hp => exact h.walk hi hk hp
  | eoi hp =>
      refine Or.inl (h.of_same h.asleep rfl ?_)
      simp [BeforeWalk, hp]

/-- The call of `sys_sleep` starts the count. -/
theorem waiting_of_sleep (hos : 0 < osTicksMs) {ms : BitVec 32} (hms : ms ≠ 0)
    {m' : Machine τ} (hc : m.sched.currTask = some c)
    (hs : step idle osTicksMs (.sleep ms) m = some m') :
    Waiting c ms.toNat 0 m' := by
  have hpos : ms.toNat ≠ 0 := fun h0 => hms (BitVec.eq_of_toNat_eq h0)
  cases step_shape idle osTicksMs hs with
  | sleep _ hp hne =>
      have hticks :
          ((sleepBlock idle osTicksMs m.sched ms).task c).sleepTicks = ms.toNat := by
        unfold sleepBlock taskSetSleep
        rw [hc]
        dsimp only
        rw [sleepTicksOf_eq hos, if_neg hpos]
        simp
      refine ⟨?_, ?_, ?_, ?_⟩
      · show c ∈ (sleepBlock idle osTicksMs m.sched ms).sleepList
        rw [mem_sleepBlock_iff hc, sleepTicksOf_eq hos]
        exact Or.inr ⟨hpos, rfl⟩
      · show 1 ≤ ((sleepBlock idle osTicksMs m.sched ms).task c).sleepTicks
        omega
      · show ((sleepBlock idle osTicksMs m.sched ms).task c).sleepTicks ≤ _
        omega
      · show ((sleepBlock idle osTicksMs m.sched ms).task c).sleepTicks + 0 = _
        rw [hticks]
        rfl

end Steps

/-- **SLEEP ACCURACY**: in a run whose steps all meet `WalkNotLeft`, a task that
    calls `sys_sleep` for `k` ticks stays on `sleep_list` until the walk of the
    `k`-th timer interrupt after that, which moves it to `ready_list`. -/
theorem sleep_accurate (hfi : first ≠ idle) (hos : 0 < osTicksMs)
    (raw : τ → Task) {ls ls' : List (Label τ)} {m₀ m₁ m : Machine τ} {c : τ}
    {ms : BitVec 32}
    (h₀ : Run (step idle osTicksMs) (WalkNotLeft idle) (boot idle first raw)
      ls m₀)
    (hc : m₀.sched.currTask = some c) (hms : ms ≠ 0)
    (hs : step idle osTicksMs (.sleep ms) m₀ = some m₁)
    (h : Run (step idle osTicksMs)
      (fun l m => WalkNotLeft idle l m ∧ c ∈ m.sched.sleepList) m₁ ls' m) :
    WakesOnTime c ms.toNat (interrupts ls') m := by
  have hinv : Inv idle m ∧ (Waiting c ms.toNat (interrupts ls') m ∨
      Woken c ms.toNat (interrupts ls') m) := by
    refine h.invariant_labels (P := fun ls m => Inv idle m ∧
      (Waiting c ms.toNat (interrupts ls) m ∨
        Woken c ms.toNat (interrupts ls) m)) ?_ ?_
    · exact ⟨step_inv (reachable_inv hfi h₀) hs,
        Or.inl (waiting_of_sleep hos hms hc hs)⟩
    · intro ls l s s' hP hok hstep
      obtain ⟨hi, hw | hw⟩ := hP
      · rw [interrupts_snoc]
        exact ⟨step_inv hi hstep, step_waiting ms.isLt hi hw hok.1 hstep⟩
      -- the run stops where the task is awake
      · exact absurd hok.2 hw.awake
  obtain ⟨-, hw | hw⟩ := hinv
  · refine ⟨fun _ => ⟨?_, hw.count⟩, fun hno => absurd hw.asleep hno⟩
    have hcount := hw.count
    have hpos := hw.pos
    by_cases hb : BeforeWalk m.point
    · rw [if_pos hb] at hcount
      by_cases hlt : interrupts ls' < ms.toNat
      · exact Or.inl hlt
      · exact Or.inr ⟨by omega, hb⟩
    · rw [if_neg hb] at hcount
      exact Or.inl (by omega)
  · exact ⟨fun hin => absurd hin hw.awake, fun _ => ⟨hw.count, hw.point, hw.ready⟩⟩

/-! ## A tick that leaves a sleeper out -/

/-- The first task makes two others and runs until one tick of its slice is
    left, then yields. -/
def beforeSleep : List (Label Nat) :=
  [.taskInit 2, .taskInit 3] ++ (List.replicate 9 quietTick).flatten
    ++ [.schedYield, .kernel]

/-- Behind the `sys_sleep` of the second task the third one yields to the
    first, whose slice the next tick ends: it hands over to the third one. -/
def afterSleep : List (Label Nat) :=
  [.kernel, .schedYield, .kernel, .kernel, .timer, .kernel, .kernel]

private theorem beforeSleep_isSome :
    (exec (step 0 10) (fun _ _ => True) beforeSleep
      (boot 0 1 blank)).isSome = true := by decide +kernel

/-- The machine with two tasks awake. -/
private def awakeTwo : Machine Nat :=
  (exec (step 0 10) (fun _ _ => True) beforeSleep (boot 0 1 blank)).get
    beforeSleep_isSome

private theorem sleepTwo_isSome :
    (step 0 10 (.sleep 1) awakeTwo).isSome = true := by decide +kernel

/-- The machine with the second one asleep. -/
private def asleepTwo : Machine Nat :=
  (step 0 10 (.sleep 1) awakeTwo).get sleepTwo_isSome

private theorem afterSleep_isSome :
    (exec (step 0 10) (fun _ m => 2 ∈ m.sched.sleepList) afterSleep
      asleepTwo).isSome = true := by decide +kernel

/-- A sleep of one tick from which the task does not wake up in time: the tick hands over
    before its walk. -/
theorem sleeps_too_long :
    ¬ ∀ (ls ls' : List (Label Nat)) (m₀ m₁ m : Machine Nat) (c : Nat)
        (ms : BitVec 32),
        Run (step 0 10) (fun _ _ => True) (boot 0 1 blank) ls m₀ →
        m₀.sched.currTask = some c → ms ≠ 0 →
        step 0 10 (.sleep ms) m₀ = some m₁ →
        Run (step 0 10) (fun _ m => c ∈ m.sched.sleepList) m₁ ls' m →
        WakesOnTime c ms.toNat (interrupts ls') m := by
  intro hall
  have hwakes := hall beforeSleep afterSleep awakeTwo asleepTwo _ 2 1
    (Run.of_isSome beforeSleep_isSome) (by decide +kernel) (by decide)
    (Option.some_get sleepTwo_isSome).symm (Run.of_isSome afterSleep_isSome)
  exact absurd hwakes (by decide +kernel)

/-! ## A sleep of two ticks -/

private theorem firstTask_isSome :
    (exec (step 0 10) (WalkNotLeft 0) [.taskInit 2]
      (boot 0 1 blank)).isSome = true := by decide +kernel

/-- The machine with the first task awake. -/
def awakeOne : Machine Nat :=
  (exec (step 0 10) (WalkNotLeft 0) [.taskInit 2] (boot 0 1 blank)).get
    firstTask_isSome

private theorem sleepOne_isSome :
    (step 0 10 (.sleep 2) awakeOne).isSome = true := by decide +kernel

/-- The first task has made a second one and called `sys_sleep(2)`. -/
def asleepOne : Machine Nat :=
  (step 0 10 (.sleep 2) awakeOne).get sleepOne_isSome

/-- The second task runs through two timer interrupts, the second of them up
    to its walk. -/
def sleepRun : List (Label Nat) := .kernel :: quietTick ++ [.timer, .kernel]

private theorem sleepRun_isSome :
    (exec (step 0 10) (fun l m => WalkNotLeft 0 l m ∧ 1 ∈ m.sched.sleepList)
      sleepRun asleepOne).isSome = true := by decide +kernel

/-- A sleep of two ticks that ends in time. -/
theorem sleep_accurate_two :
    ∃ m, exec (step 0 10) (fun l m => WalkNotLeft 0 l m ∧ 1 ∈ m.sched.sleepList)
        sleepRun asleepOne = some m ∧
      1 ∉ m.sched.sleepList ∧
      WakesOnTime 1 2 (interrupts sleepRun) m :=
  ⟨_, (Option.some_get sleepRun_isSome).symm, by decide +kernel,
    sleep_accurate (by decide) (by decide) blank
      (Run.of_isSome firstTask_isSome) (by decide +kernel) (by decide)
      (Option.some_get sleepOne_isSome).symm (Run.of_isSome sleepRun_isSome)⟩

end LittleOS.SleepAccuracy
