import LittleOS.Lib.Rounds
import LittleOS.Sched

/-! # Round-robin scheduling

    A run of `sys_sched_yield` and of the slice part of `task_time_tick`, in any
    mix, over the ready tasks `l` with the current one first.

    * `op_inRound` — one operation keeps the order or rotates it by one;
    * `turns_cyclic` — the turns follow `l` round and round;
    * `run_ticks` — a task that does not yield keeps the processor for its
      remaining slice, which is then refilled;
    * `round_robin` — the three together, for every run. -/

namespace LittleOS.RoundRobin

open Words Sched Rounds

variable {τ : Type*} [DecidableEq τ] {idle : τ}

/-- The operations that turn the ready list. -/
inductive Op where
  | schedYield
  | slice
deriving DecidableEq

section Runs

variable (idle)

/-- The scheduler after an operation. -/
def op (o : Op) (s : Manager τ) : Manager τ :=
  match o with
  | .schedYield => sysSchedYield idle s
  | .slice => taskTimeSlice idle s

/-- The scheduler after the operations, one after the other. -/
def run (ops : List Op) (s : Manager τ) : Manager τ :=
  ops.foldl (fun s o => op idle o s) s

/-- The tasks that are current one after another; a turn ends when the current
    task changes. -/
def turns : List Op → Manager τ → List (Option τ)
  | [], s => [s.currTask]
  | o :: ops, s =>
      if (op idle o s).currTask = s.currTask then turns ops (op idle o s)
      else s.currTask :: turns ops (op idle o s)

end Runs

/-- `slice_ticks` is in `1..time_ticks`, both positive `int`s. -/
def SliceInRange (c : Task) : Prop :=
  1 ≤ c.sliceTicks ∧ c.sliceTicks ≤ c.timeTicks ∧ c.timeTicks < 2 ^ 31

instance (c : Task) : Decidable (SliceInRange c) :=
  inferInstanceAs (Decidable (_ ∧ _))

/-- The ready tasks are `l`, the current one first. -/
structure InRound (idle : τ) (s : Manager τ) (l : List τ) : Prop where
  ready : s.readyList = l
  nonempty : l ≠ []
  nodup : l.Nodup
  idle_notMem : idle ∉ l
  current : s.currTask = l.head?
  slice : ∀ t ∈ l, SliceInRange (s.task t)

/-- The two counters of a time slice. -/
def counters (c : Task) : Nat × Nat := (c.sliceTicks, c.timeTicks)

/-- It depends on the counters only. -/
theorem sliceInRange_congr {c d : Task} (h : counters c = counters d) :
    SliceInRange c ↔ SliceInRange d := by
  obtain ⟨h1, h2⟩ := Prod.mk.inj h
  unfold SliceInRange
  rw [h1, h2]

/-- Moving a task to the tail and dispatching writes no counter. -/
theorem counters_requeue (s : Manager τ) (c u : τ) :
    counters ((taskDispatch idle
      (taskSetReady idle (taskSetBlock idle s c) c)).task u)
      = counters (s.task u) := by
  rw [taskDispatch_field idle _ u counters (fun _ _ => rfl),
    taskSetReady_field idle _ c u counters (fun _ _ => rfl), taskSetBlock_task]

/-- The current task moved to the tail, and the next one dispatched. -/
theorem InRound.requeue {s : Manager τ} {c : τ} {rest : List τ}
    (hr : s.readyList = c :: rest) (hnd : (c :: rest).Nodup)
    (hid : idle ∉ c :: rest) (hs : ∀ t ∈ c :: rest, SliceInRange (s.task t)) :
    InRound idle
      (taskDispatch idle (taskSetReady idle (taskSetBlock idle s c) c))
      ((c :: rest).rotate 1) := by
  have hci : c ≠ idle := fun he => hid (by simp [he])
  have hready : (taskSetReady idle (taskSetBlock idle s c) c).readyList
      = (c :: rest).rotate 1 := by
    rw [requeue_readyList idle s c hci, hr]
    simp
  constructor
  · rw [taskDispatch_readyList, hready]
  · simp
  · exact List.nodup_rotate.mpr hnd
  · exact fun hm => hid (List.mem_rotate.mp hm)
  · rw [taskDispatch_currTask, taskNextRun, hready]
    cases rest <;> simp
  · intro t ht
    rw [sliceInRange_congr (counters_requeue s c t)]
    exact hs t (List.mem_rotate.mp ht)

/-- A yield turns the list, or leaves it where the task is alone. -/
theorem InRound.sched_yield {s : Manager τ} {l : List τ} (h : InRound idle s l) :
    InRound idle (sysSchedYield idle s) l ∨
    InRound idle (sysSchedYield idle s) (l.rotate 1) := by
  unfold sysSchedYield yieldRequeue
  by_cases hl : 1 < s.readyList.length
  · right
    obtain ⟨c, rest, rfl⟩ := List.exists_cons_of_ne_nil h.nonempty
    rw [if_pos hl, h.current]
    exact InRound.requeue h.ready h.nodup h.idle_notMem h.slice
  · left
    rw [if_neg hl]
    exact h

/-! ## The slice part of a tick -/

section Slice

variable {s : Manager τ} {c : τ} {rest : List τ}

/-- A count that is left goes down by one. -/
theorem dec32_of_pos {x : Nat} (h : 1 ≤ x) (hlt : x < 2 ^ 31) :
    dec32 x = x - 1 := by
  unfold dec32
  omega

/-- **BEFORE THE LAST TICK** of its slice the current task stays. -/
theorem InRound.slice_stays (h : InRound idle s (c :: rest))
    (hk : 1 < (s.task c).sliceTicks) :
    InRound idle (taskTimeSlice idle s) (c :: rest) ∧
    ((taskTimeSlice idle s).task c).sliceTicks = (s.task c).sliceTicks - 1 ∧
    ((taskTimeSlice idle s).task c).timeTicks = (s.task c).timeTicks := by
  obtain ⟨hpos, hle, hlt⟩ := h.slice c (by simp)
  have hdec : dec32 (s.task c).sliceTicks = (s.task c).sliceTicks - 1 :=
    dec32_of_pos hpos (by omega)
  have heq : taskTimeSlice idle s
      = s.modify c (fun d => { d with sliceTicks := dec32 d.sliceTicks }) := by
    unfold taskTimeSlice sliceTick
    rw [h.current]
    simp only [List.head?_cons, modify_task_self]
    rw [if_neg (by omega)]
  rw [heq]
  refine ⟨⟨h.ready, h.nonempty, h.nodup, h.idle_notMem, h.current, ?_⟩, ?_, ?_⟩
  · intro t ht
    by_cases htc : t = c
    · subst htc
      rw [modify_task_self]
      exact ⟨by simp only [hdec]; omega, by simp only [hdec]; omega, hlt⟩
    · rw [modify_task_of_ne s c _ htc]
      exact h.slice t ht
  · rw [modify_task_self]
    exact hdec
  · rw [modify_task_self]

/-- **ON THE LAST TICK** its slice is refilled and the next task takes over. -/
theorem InRound.slice_expires (h : InRound idle s (c :: rest))
    (hk : (s.task c).sliceTicks = 1) :
    InRound idle (taskTimeSlice idle s) ((c :: rest).rotate 1) ∧
    ((taskTimeSlice idle s).task c).sliceTicks = (s.task c).timeTicks := by
  obtain ⟨-, hle, hlt⟩ := h.slice c (by simp)
  have hdec : dec32 (s.task c).sliceTicks = 0 := by rw [hk]; rfl
  obtain ⟨s₁, hs₁⟩ : ∃ s₁, s₁ = (s.modify c (fun d =>
      { d with sliceTicks := dec32 d.sliceTicks })).modify c (fun d =>
        { d with sliceTicks := d.timeTicks }) := ⟨_, rfl⟩
  have heq : taskTimeSlice idle s
      = taskDispatch idle (taskSetReady idle (taskSetBlock idle s₁ c) c) := by
    unfold taskTimeSlice sliceTick
    rw [h.current]
    simp only [List.head?_cons, modify_task_self]
    rw [if_pos hdec, hs₁]
  have hself : s₁.task c = { s.task c with sliceTicks := (s.task c).timeTicks } := by
    rw [hs₁, modify_task_self, modify_task_self]
  rw [heq]
  constructor
  · refine InRound.requeue (by rw [hs₁]; exact h.ready) h.nodup h.idle_notMem ?_
    intro t ht
    by_cases htc : t = c
    · subst htc
      rw [hself]
      exact ⟨by dsimp only; omega, le_refl _, hlt⟩
    · rw [hs₁, modify_task_of_ne _ c _ htc, modify_task_of_ne s c _ htc]
      exact h.slice t ht
  · refine (congrArg Prod.fst (counters_requeue s₁ c c)).trans ?_
    rw [hself]
    rfl

/-- A slice tick turns the list, or leaves it until the slice is used up. -/
theorem InRound.time_slice (h : InRound idle s (c :: rest)) :
    InRound idle (taskTimeSlice idle s) (c :: rest) ∨
    InRound idle (taskTimeSlice idle s) ((c :: rest).rotate 1) := by
  by_cases hk : (s.task c).sliceTicks = 1
  · exact Or.inr (h.slice_expires hk).1
  · have hpos := (h.slice c (by simp)).1
    exact Or.inl (h.slice_stays (by omega)).1

end Slice

/-! ## Runs -/

variable {s : Manager τ} {l : List τ}

/-- **ONE OPERATION** keeps the order or rotates it by one. -/
theorem op_inRound (h : InRound idle s l) (o : Op) :
    InRound idle (op idle o s) l ∨ InRound idle (op idle o s) (l.rotate 1) := by
  cases o with
  | schedYield => exact h.sched_yield
  | slice =>
      obtain ⟨c, rest, rfl⟩ := List.exists_cons_of_ne_nil h.nonempty
      exact h.time_slice

/-- Any operations keep the list a rotation of what it was. -/
theorem run_inRound (h : InRound idle s l) (ops : List Op) :
    ∃ l', l'.IsRotated l ∧ InRound idle (run idle ops s) l' := by
  induction ops generalizing s l with
  | nil => exact ⟨l, List.IsRotated.refl l, h⟩
  | cons o ops ih =>
      rcases op_inRound h o with h1 | h1
      · exact ih h1
      · obtain ⟨l', hrot, hin⟩ := ih h1
        exact ⟨l', hrot.trans (List.IsRotated.symm ⟨1, rfl⟩), hin⟩

omit [DecidableEq τ] in
/-- Without repetitions the head changes under a rotation by one unless the
    whole list stays. -/
theorem rotate_one_eq (hnd : l.Nodup) (h : (l.rotate 1).head? = l.head?) :
    l.rotate 1 = l := by
  cases l with
  | nil => rfl
  | cons c rest =>
      cases rest with
      | nil => simp
      | cons d rest =>
          simp only [List.rotate_cons_succ, List.rotate_zero, List.cons_append,
            List.head?_cons, Option.some.injEq] at h
          simp [h] at hnd

/-- **THE TURNS** follow the ready tasks round and round. -/
theorem turns_cyclic (h : InRound idle s l) (ops : List Op) :
    Cyclic (l.map some) (turns idle ops s) := by
  have hhead : ∀ {s : Manager τ} {l : List τ}, InRound idle s l →
      (l.map some).head? = some s.currTask := by
    intro s l h
    obtain ⟨c, rest, rfl⟩ := List.exists_cons_of_ne_nil h.nonempty
    rw [h.current]
    rfl
  induction ops generalizing s l with
  | nil => exact Cyclic.single (hhead h)
  | cons o ops ih =>
      unfold turns
      by_cases hc : (op idle o s).currTask = s.currTask
      · rw [if_pos hc]
        rcases op_inRound h o with h1 | h1
        · exact ih h1
        · rw [h1.current, h.current] at hc
          rw [rotate_one_eq h.nodup hc] at h1
          exact ih h1
      · rw [if_neg hc]
        rcases op_inRound h o with h1 | h1
        · exact absurd (h1.current.trans h.current.symm) hc
        · have hts := ih h1
          rw [List.map_rotate] at hts
          exact hts.cons (hhead h)

/-- **TICKS ALONE**: the current task keeps the processor until its remaining
    slice has elapsed.  Induction over the ticks that remain. -/
theorem run_ticks {c : τ} {rest : List τ} :
    ∀ (k : Nat) (s : Manager τ), InRound idle s (c :: rest) →
      (s.task c).sliceTicks = k + 1 →
      (∀ j ≤ k, (run idle (List.replicate j .slice) s).currTask = some c) ∧
      InRound idle (run idle (List.replicate (k + 1) .slice) s)
        ((c :: rest).rotate 1) ∧
      ((run idle (List.replicate (k + 1) .slice) s).task c).sliceTicks
        = (s.task c).timeTicks := by
  intro k
  induction k with
  | zero =>
      intro s h hk
      refine ⟨?_, h.slice_expires hk⟩
      intro j hj
      obtain rfl : j = 0 := by omega
      exact h.current
  | succ k ih =>
      intro s h hk
      obtain ⟨h1, hslice, htime⟩ := h.slice_stays (by omega)
      obtain ⟨hbefore, hround, hfull⟩ := ih (taskTimeSlice idle s) h1 (by omega)
      refine ⟨?_, hround, hfull.trans htime⟩
      intro j hj
      cases j with
      | zero => exact h.current
      | succ j => exact hbefore j (by omega)

/-- **ROUND ROBIN**: in every run of yields and slice ticks the ready list is a
    rotation of the first one with the current task at its head, two
    consecutive turns of a task enclose one turn of every other, and with a
    second task ready a task that only ticks is replaced when its remaining
    slice has elapsed, not before, and its slice is refilled. -/
theorem round_robin (h : InRound idle s l) (ops : List Op) :
    (run idle ops s).readyList.IsRotated l ∧
    (run idle ops s).currTask = (run idle ops s).readyList.head? ∧
    (∀ t i j, i < j → (turns idle ops s)[i]? = some (some t) →
      (turns idle ops s)[j]? = some (some t) →
      (∀ k, i < k → k < j → (turns idle ops s)[k]? ≠ some (some t)) →
      ∀ u ∈ l, u ≠ t →
        (((turns idle ops s).take j).drop (i + 1)).count (some u) = 1) ∧
    (2 ≤ l.length → ∀ c, (run idle ops s).currTask = some c →
      let s' := run idle ops s
      let ticked := fun j => run idle (List.replicate j .slice) s'
      let k := (s'.task c).sliceTicks
      (∀ j < k, (ticked j).currTask = some c) ∧
      (ticked k).currTask = s'.readyList[1]? ∧ (ticked k).currTask ≠ some c ∧
      ((ticked k).task c).sliceTicks = (s'.task c).timeTicks) := by
  obtain ⟨l', hrot, hin⟩ := run_inRound h ops
  refine ⟨by rw [hin.ready]; exact hrot, by rw [hin.ready, hin.current], ?_, ?_⟩
  · intro t i j hij hi hj hno u hu hut
    have hnd : (l.map some).Nodup := h.nodup.map (fun _ _ => Option.some.inj)
    exact (turns_cyclic h ops).count_between hnd hij hi hj hno
      (List.mem_map_of_mem hu) (by simpa using hut)
  · intro hlen c hc s' ticked k
    obtain ⟨d, rest, rfl⟩ := List.exists_cons_of_ne_nil hin.nonempty
    obtain rfl : d = c := by
      rw [hin.current] at hc
      exact Option.some.inj hc
    obtain ⟨hpos, -, -⟩ := hin.slice d (by simp)
    obtain ⟨hbefore, hround, hfull⟩ := run_ticks (k - 1) s' hin
      (Nat.sub_add_cancel hpos).symm
    rw [Nat.sub_add_cancel hpos] at hround hfull
    -- two tasks at least: `e` follows `d` in the round
    obtain ⟨e, rest, rfl⟩ : ∃ e rest', rest = e :: rest' := by
      refine List.exists_cons_of_ne_nil ?_
      rintro rfl
      rw [← hrot.perm.length_eq] at hlen
      simp at hlen
    have hnext : (ticked k).currTask = some e := by
      rw [hround.current]
      simp
    refine ⟨fun j hj => hbefore j (by omega), ?_, ?_, hfull⟩
    · rw [hnext, hin.ready]
      rfl
    · rw [hnext]
      intro he
      obtain rfl : e = d := Option.some.inj he
      exact (List.nodup_cons.mp hin.nodup).1 (by simp)

/-- Three ready tasks with slices of two ticks. -/
def three : Manager Nat where
  currTask := some 1
  readyList := [1, 2, 3]
  taskList := [0, 1, 2, 3]
  sleepList := []
  task := fun _ => ⟨.ready, 0, 2, 2⟩

/-- Three tasks that take turns. -/
theorem round_robin_three :
    let ops := [.schedYield, .slice, .slice, .schedYield, .slice]
    turns 0 ops three = [some 1, some 2, some 3, some 1] ∧
    (run 0 ops three).readyList.IsRotated [1, 2, 3] ∧
    (((turns 0 ops three).take 3).drop 1).count (some 2) = 1 := by
  have h : InRound 0 three [1, 2, 3] :=
    ⟨rfl, by decide, by decide, by decide, rfl, by decide⟩
  have hall := round_robin h [.schedYield, .slice, .slice, .schedYield, .slice]
  have hno : ∀ k, 0 < k → k < 3 →
      (turns 0 [.schedYield, .slice, .slice, .schedYield, .slice] three)[k]?
        ≠ some (some 1) := by
    intro k h1 h2
    obtain rfl | rfl : k = 1 ∨ k = 2 := by omega
    · decide
    · decide
  exact ⟨by decide, hall.1, hall.2.2.1 1 0 3 (by decide) (by decide) (by decide)
    hno 2 (by decide) (by decide)⟩

end LittleOS.RoundRobin
