import Mathlib.Data.List.Perm.Basic
import Mathlib.Data.List.Perm.Subperm
import LittleOS.SchedMachine

/-! # No task is lost or queued twice

    Every helper of `task.c` only moves tasks between `ready_list` and
    `sleep_list` (`SameQueued`), except `task_init`, which adds one, and the
    `sys_sleep` of no ticks, which drops one: the caller leaves `ready_list` in
    `task_set_block` and `task_set_sleep` returns before it joins `sleep_list`.

    * `Sound` — nothing is queued twice and only initialised tasks other than
      the idle one are queued; it holds in every reachable state
      (`reachable_inv`);
    * `Queued` — every such task is queued; `queued_of_run` has it for the runs
      without a `sys_sleep` of 0, `sleep_zero_loses_task` refutes it for the
      others. -/

namespace LittleOS.SchedQueues

open Runs Sched SchedMachine

variable {τ : Type*} [DecidableEq τ] {idle : τ}

/-- The two queues together. -/
abbrev queues (s : Manager τ) : List τ := s.readyList ++ s.sleepList

/-- The queues hold initialised tasks other than the idle one, none twice. -/
structure Sound (idle : τ) (s : Manager τ) : Prop where
  sub : (queues s).Subperm (s.taskList.filter (· ≠ idle))
  nodup : s.taskList.Nodup

/-- The queues hold all of them. -/
def Queued (idle : τ) (s : Manager τ) : Prop :=
  (queues s).Perm (s.taskList.filter (· ≠ idle))

/-- The same tasks are initialised and queued. -/
def SameQueued (s s' : Manager τ) : Prop :=
  (queues s').Perm (queues s) ∧ s'.taskList = s.taskList

namespace Sound

variable {s s' : Manager τ}

/-- No task is queued twice. -/
theorem nodup_queues (h : Sound idle s) : (queues s).Nodup := by
  obtain ⟨l, hp, hl⟩ := h.sub
  exact hp.nodup_iff.mp ((h.nodup.filter _).sublist hl)

/-- No task is ready twice. -/
theorem ready_nodup (h : Sound idle s) : s.readyList.Nodup :=
  (List.nodup_append.mp h.nodup_queues).1

/-- No task sleeps twice. -/
theorem sleep_nodup (h : Sound idle s) : s.sleepList.Nodup :=
  (List.nodup_append.mp h.nodup_queues).2.1

/-- No task is ready and asleep. -/
theorem disjoint (h : Sound idle s) {t : τ} (hr : t ∈ s.readyList)
    (hs : t ∈ s.sleepList) : False :=
  (List.nodup_append.mp h.nodup_queues).2.2 t hr t hs rfl

/-- What is queued was initialised and is not the idle task. -/
theorem mem_queues (h : Sound idle s) {t : τ} (ht : t ∈ queues s) :
    t ∈ s.taskList ∧ t ≠ idle := by
  have := h.sub.subset ht
  rwa [List.mem_filter, decide_eq_true_iff] at this

/-- The idle task is never in the ready list. -/
theorem idle_ready (h : Sound idle s) : idle ∉ s.readyList :=
  fun hm => (h.mem_queues (List.mem_append_left _ hm)).2 rfl

/-- The idle task is never in the sleep list. -/
theorem idle_sleep (h : Sound idle s) : idle ∉ s.sleepList :=
  fun hm => (h.mem_queues (List.mem_append_right _ hm)).2 rfl

/-- Soundness depends on what is queued only. -/
theorem of_same (h : Sound idle s) (hs : SameQueued s s') : Sound idle s' where
  sub := by rw [hs.2]; exact hs.1.subperm.trans h.sub
  nodup := by rw [hs.2]; exact h.nodup

end Sound

/-- So does that every task is queued. -/
theorem Queued.of_same {s s' : Manager τ} (h : Queued idle s)
    (hs : SameQueued s s') : Queued idle s' := by
  unfold Queued
  rw [hs.2]
  exact hs.1.trans h

/-- **EXACTLY ONCE**: an initialised task other than the idle one occurs once
    in the two queues together. -/
theorem Queued.count_eq_one {s : Manager τ} (h : Queued idle s)
    (hs : Sound idle s) {t : τ} (ht : t ∈ s.taskList) (hne : t ≠ idle) :
    s.readyList.count t + s.sleepList.count t = 1 := by
  rw [← List.count_append]
  refine List.count_eq_one_of_mem hs.nodup_queues ?_
  exact h.mem_iff.mpr (List.mem_filter.mpr ⟨ht, by simp [hne]⟩)

/-! ## The helpers -/

section Helpers

variable {s : Manager τ}

omit [DecidableEq τ] in
/-- The same three lists queue the same tasks. -/
theorem same_of_eq {s' : Manager τ} (h1 : s'.readyList = s.readyList)
    (h2 : s'.sleepList = s.sleepList) (h3 : s'.taskList = s.taskList) :
    SameQueued s s' := by
  refine ⟨?_, h3⟩
  rw [queues, h1, h2]

/-- A dispatch moves no task between queues. -/
theorem same_dispatch : SameQueued s (taskDispatch idle s) :=
  same_of_eq (by simp) (by simp) (by simp)

/-- Moving a queued task to the tail of `ready_list`. -/
theorem same_requeue {c : τ} (hc : c = idle ∨ c ∈ s.readyList) :
    SameQueued s (taskSetReady idle (taskSetBlock idle s c) c) := by
  by_cases hci : c = idle
  · subst hci
    exact same_of_eq (by simp [taskSetBlock_readyList]) (by simp) (by simp)
  · have hcr := hc.resolve_left hci
    refine ⟨?_, by simp⟩
    rw [queues, requeue_readyList idle s c hci]
    simp only [taskSetReady_sleepList, taskSetBlock_sleepList]
    refine List.Perm.append_right _ ?_
    exact (List.perm_append_singleton c _).trans (List.perm_cons_erase hcr).symm

/-- The slice end turns the ready list and queues the same tasks. -/
theorem same_slice {c : τ} (hcur : s.currTask = some c)
    (hc : c = idle ∨ c ∈ s.readyList) : SameQueued s (sliceTick idle s).1 := by
  unfold sliceTick
  rw [hcur]
  dsimp only
  split
  · exact same_requeue (s := (s.modify c _).modify c _) hc
  · exact same_of_eq rfl rfl rfl

/-- The walk moves tasks from one queue to the other. -/
theorem same_walk (h : Sound idle s) : SameQueued s (sleepWalk idle s) := by
  have hnd := h.sleep_nodup
  have hid := h.idle_sleep
  refine ⟨?_, sleepWalk_taskList hnd hid⟩
  rw [queues, sleepWalk_readyList hnd hid, sleepWalk_sleepList hnd hid,
    List.append_assoc]
  refine List.Perm.append_left _ ?_
  exact List.filter_append_perm (fun t => decide (Due s t)) s.sleepList

variable {osTicksMs : Nat} {ms : BitVec 32}

/-- A sleeping task leaves the ready list. -/
theorem sleepBlock_readyList {c : τ} (hcur : s.currTask = some c)
    (hci : c ≠ idle) :
    (sleepBlock idle osTicksMs s ms).readyList = s.readyList.erase c := by
  unfold sleepBlock taskSetSleep
  rw [hcur]
  dsimp only
  split <;> simp [taskSetBlock_readyList, hci]

/-- A task whose time rounds to 0 ticks is left in no list. -/
theorem sleepBlock_sleepList {c : τ} (hcur : s.currTask = some c) :
    (sleepBlock idle osTicksMs s ms).sleepList
      = if sleepTicksOf osTicksMs ms = 0 then s.sleepList
        else s.sleepList ++ [c] := by
  unfold sleepBlock taskSetSleep
  rw [hcur]
  dsimp only
  split <;> simp

/-- The sleepers are those of before, and the caller if it sleeps at all. -/
theorem mem_sleepBlock_iff {c u : τ} (hcur : s.currTask = some c) :
    u ∈ (sleepBlock idle osTicksMs s ms).sleepList ↔
      u ∈ s.sleepList ∨ (sleepTicksOf osTicksMs ms ≠ 0 ∧ u = c) := by
  rw [sleepBlock_sleepList hcur]
  split
  · next h0 => simp [h0]
  · next h0 => simp [h0]

/-- Going to sleep leaves `task_list`. -/
theorem sleepBlock_taskList :
    (sleepBlock idle osTicksMs s ms).taskList = s.taskList := by
  unfold sleepBlock taskSetSleep
  split
  · rfl
  · split <;> simp

/-- Until the dispatch the sleeping task is the current one. -/
theorem sleepBlock_currTask :
    (sleepBlock idle osTicksMs s ms).currTask = s.currTask := by
  unfold sleepBlock taskSetSleep
  split
  · rfl
  · split <;> simp

/-- Putting the current task to sleep for at least one tick. -/
theorem same_sleepBlock {c : τ} (hcur : s.currTask = some c) (hci : c ≠ idle)
    (hc : c ∈ s.readyList) (hms : sleepTicksOf osTicksMs ms ≠ 0) :
    SameQueued s (sleepBlock idle osTicksMs s ms) := by
  refine ⟨?_, sleepBlock_taskList⟩
  rw [queues, sleepBlock_readyList hcur hci, sleepBlock_sleepList hcur,
    if_neg hms]
  calc (s.readyList.erase c ++ (s.sleepList ++ [c])).Perm
        (s.readyList.erase c ++ (c :: s.sleepList)) :=
          List.Perm.append_left _ (List.perm_append_singleton c _)
    _ |>.Perm (c :: (s.readyList.erase c ++ s.sleepList)) := List.perm_middle
    _ |>.Perm (queues s) :=
          List.Perm.append_right _ (List.perm_cons_erase hc).symm

/-- Any `sys_sleep` leaves the queues sound; one of no ticks drops its
    caller. -/
theorem Sound.sleepBlock (h : Sound idle s) {c : τ} (hcur : s.currTask = some c)
    (hci : c ≠ idle) (hc : c ∈ s.readyList) :
    Sound idle (sleepBlock idle osTicksMs s ms) := by
  by_cases hms : sleepTicksOf osTicksMs ms = 0
  · constructor
    · rw [sleepBlock_taskList, queues, sleepBlock_readyList hcur hci,
        sleepBlock_sleepList hcur, if_pos hms]
      refine List.Subperm.trans ?_ h.sub
      exact (List.Sublist.append_right List.erase_sublist _).subperm
    · rw [sleepBlock_taskList]
      exact h.nodup
  · exact h.of_same (same_sleepBlock hcur hci hc hms)

/-- A new task is the last to be ready. -/
theorem taskInit_readyList {t : τ} (hti : t ≠ idle) :
    (taskInit idle s t).readyList = s.readyList ++ [t] := by
  simp [taskInit, taskSetReady_readyList, hti]

/-- A new task is awake. -/
@[simp] theorem taskInit_sleepList (t : τ) :
    (taskInit idle s t).sleepList = s.sleepList := by
  simp [taskInit]

/-- A new task is the last of all. -/
@[simp] theorem taskInit_taskList (t : τ) :
    (taskInit idle s t).taskList = s.taskList ++ [t] := by
  simp [taskInit]

/-- A new task does not run yet. -/
@[simp] theorem taskInit_currTask (t : τ) :
    (taskInit idle s t).currTask = s.currTask := by
  simp [taskInit]

/-- A new task joins the queues and the initialised tasks. -/
theorem queues_taskInit {t : τ} (hti : t ≠ idle) :
    (queues (taskInit idle s t)).Perm (queues s ++ [t]) := by
  rw [queues, taskInit_readyList hti, taskInit_sleepList, List.append_assoc,
    queues, List.append_assoc]
  exact List.Perm.append_left _ List.perm_append_comm

/-- The initialised tasks other than the idle one, with the new one at the end. -/
theorem filter_taskInit {t : τ} (hti : t ≠ idle) :
    (taskInit idle s t).taskList.filter (· ≠ idle)
      = s.taskList.filter (· ≠ idle) ++ [t] := by
  rw [taskInit_taskList, List.filter_append]
  simp [hti]

/-- The queues stay sound when a new task comes. -/
theorem Sound.taskInit (h : Sound idle s) {t : τ} (ht : t ∉ s.taskList)
    (hti : t ≠ idle) : Sound idle (taskInit idle s t) where
  sub := by
    rw [filter_taskInit hti]
    exact (queues_taskInit hti).subperm.trans
      ((List.subperm_append_right [t]).mpr h.sub)
  nodup := by
    rw [taskInit_taskList]
    exact List.nodup_append.mpr ⟨h.nodup, List.nodup_singleton t,
      fun x hx y hy hxy => ht (by rw [← List.mem_singleton.mp hy, ← hxy]; exact hx)⟩

/-- A new task is queued. -/
theorem Queued.taskInit (h : Queued idle s) {t : τ} (hti : t ≠ idle) :
    Queued idle (taskInit idle s t) := by
  unfold Queued
  rw [filter_taskInit hti]
  exact (queues_taskInit hti).trans (List.Perm.append_right [t] h)

end Helpers

/-! ## The machine -/

/-- The invariant of every run: the queues are sound and the current task is
    queued, unless it has just left the queue in `sys_sleep`. -/
structure Inv (idle : τ) (m : Machine τ) : Prop where
  sound : Sound idle m.sched
  idle_init : idle ∈ m.sched.taskList
  current : ∃ c, m.sched.currTask = some c ∧
    (c = idle ∨ c ∈ m.sched.readyList ∨ ∃ o, m.point = .dispatch (.sleep o))

/-- Only between `sys_sleep` and its dispatch is the current task on no queue. -/
theorem Inv.current_queued {m : Machine τ} (h : Inv idle m)
    (hp : ∀ k, m.point ≠ .dispatch k) :
    ∃ c, m.sched.currTask = some c ∧ (c = idle ∨ c ∈ m.sched.readyList) := by
  obtain ⟨c, hc, hor⟩ := h.current
  refine ⟨c, hc, ?_⟩
  rcases hor with h1 | h1 | ⟨o, h1⟩
  · exact Or.inl h1
  · exact Or.inr h1
  · exact absurd h1 (hp _)

/-- In user code there is a current task, idle or ready. -/
theorem Inv.current_user {m : Machine τ} (h : Inv idle m)
    (hp : m.point = .user) :
    ∃ c, m.sched.currTask = some c ∧ (c = idle ∨ c ∈ m.sched.readyList) :=
  h.current_queued (by simp [hp])

omit [DecidableEq τ] in
/-- The next task is idle or ready. -/
theorem taskNextRun_mem (s : Manager τ) :
    taskNextRun idle s = idle ∨ taskNextRun idle s ∈ s.readyList := by
  unfold taskNextRun
  cases s.readyList with
  | nil => exact Or.inl rfl
  | cons t rest => exact Or.inr (by simp)

/-- The slice end alone does not switch. -/
@[simp] theorem sliceTick_currTask (s : Manager τ) :
    (sliceTick idle s).1.currTask = s.currTask := by
  unfold sliceTick
  split
  · rfl
  · dsimp only
    split <;> simp

section Machine

variable {first : τ} {osTicksMs : Nat}

/-- Changing nothing but the place of the running task, away from the end of
    `sys_sleep`, keeps the invariant. -/
theorem Inv.of_same {m m' : Machine τ} (h : Inv idle m)
    (hs : SameQueued m.sched m'.sched) {c : τ}
    (hc : m'.sched.currTask = some c)
    (hq : c = idle ∨ c ∈ m'.sched.readyList) : Inv idle m' where
  sound := h.sound.of_same hs
  idle_init := by rw [hs.2]; exact h.idle_init
  current := ⟨c, hc, hq.imp_right Or.inl⟩

/-- The current task is queued after it was moved to the tail. -/
theorem mem_requeue (s : Manager τ) (c : τ) :
    c = idle ∨ c ∈ (taskSetReady idle (taskSetBlock idle s c) c).readyList := by
  by_cases hci : c = idle
  · exact Or.inl hci
  · right
    rw [requeue_readyList idle s c hci]
    simp

/-- The current task is still ready after its slice end. -/
theorem mem_slice {s : Manager τ} {c : τ} (hcur : s.currTask = some c)
    (hc : c = idle ∨ c ∈ s.readyList) :
    c = idle ∨ c ∈ (sliceTick idle s).1.readyList := by
  unfold sliceTick
  rw [hcur]
  dsimp only
  split
  · exact mem_requeue ((s.modify c _).modify c _) c
  · exact hc

/-- **EVERY STEP** keeps the invariant. -/
theorem step_inv {l : Label τ} {m m' : Machine τ} (h : Inv idle m)
    (hs : step idle osTicksMs l m = some m') : Inv idle m' := by
  cases step_shape idle osTicksMs hs with
  | taskInit t hp ht =>
      have hti : t ≠ idle := fun he => ht (he ▸ h.idle_init)
      obtain ⟨c, hc, hq⟩ := h.current_user hp
      refine ⟨h.sound.taskInit ht hti, ?_, c, ?_, ?_⟩
      · show idle ∈ (taskInit idle m.sched t).taskList
        rw [taskInit_taskList]
        exact List.mem_append_left _ h.idle_init
      · show (taskInit idle m.sched t).currTask = some c
        rw [taskInit_currTask, hc]
      · refine hq.imp_right (fun hr => Or.inl ?_)
        show c ∈ (taskInit idle m.sched t).readyList
        rw [taskInit_readyList hti]
        exact List.mem_append_left _ hr
  | yieldAlone hp => exact h
  | yield c hp hc hl =>
      obtain ⟨c', hc', hq⟩ := h.current_user hp
      obtain rfl : c = c' := Option.some.inj (hc.symm.trans hc')
      exact h.of_same (same_requeue hq) (c := c) (by simpa using hc)
        (mem_requeue m.sched c)
  | sleep ms hp hne =>
      obtain ⟨c, hc, hq⟩ := h.current_user hp
      have hci : c ≠ idle := fun he => hne (he ▸ hc)
      refine ⟨h.sound.sleepBlock hc hci (hq.resolve_left hci), ?_, c, ?_,
        Or.inr (Or.inr ⟨m.intr, rfl⟩)⟩
      · show idle ∈ (sleepBlock idle osTicksMs m.sched ms).taskList
        rw [sleepBlock_taskList]
        exact h.idle_init
      · show (sleepBlock idle osTicksMs m.sched ms).currTask = some c
        rw [sleepBlock_currTask, hc]
  | timer hp hi =>
      obtain ⟨c, hc, hq⟩ := h.current_user hp
      exact h.of_same (same_slice hc hq) (c := c)
        ((sliceTick_currTask m.sched).trans hc) (mem_slice hc hq)
  | stay k hp hn =>
      exact h.of_same (same_of_eq rfl rfl rfl) hn.symm (taskNextRun_mem m.sched)
  | switch k hp hn =>
      rw [dispatchStep, if_neg hn]
      exact h.of_same same_dispatch (taskDispatch_currTask idle m.sched)
        ((taskNextRun_mem m.sched).imp_right
          (fun hr => by rw [taskDispatch_readyList]; exact hr))
  | leave inner k hp =>
      obtain ⟨c, hc, hq⟩ := h.current_queued (by simp [hp])
      cases k <;> exact h.of_same (same_of_eq rfl rfl rfl) hc hq
  | walk hp =>
      obtain ⟨c, hc, hq⟩ := h.current_queued (by simp [hp])
      have hnd := h.sound.sleep_nodup
      have hid := h.sound.idle_sleep
      refine h.of_same (same_walk h.sound) (c := c) ?_ ?_
      · exact (sleepWalk_currTask hnd hid).trans hc
      · refine hq.imp_right (fun hr => ?_)
        show c ∈ (sleepWalk idle m.sched).readyList
        rw [sleepWalk_readyList hnd hid]
        exact List.mem_append_left _ hr
  | eoi hp =>
      obtain ⟨c, hc, hq⟩ := h.current_queued (by simp [hp])
      exact h.of_same (same_of_eq rfl rfl rfl) hc hq

/-- After boot the first task is ready. -/
theorem boot_readyList (hfi : first ≠ idle) (raw : τ → Task) :
    (boot idle first raw).sched.readyList = [first] := by
  simp [boot, taskFirstInit, taskManagerInit, taskInit, taskSetReady_readyList, hfi]

/-- After boot no task sleeps. -/
theorem boot_sleepList (raw : τ → Task) :
    (boot idle first raw).sched.sleepList = [] := by
  simp [boot, taskFirstInit, taskManagerInit, taskInit]

/-- After boot there are the idle task and the first one. -/
theorem boot_taskList (raw : τ → Task) :
    (boot idle first raw).sched.taskList = [idle, first] := by
  simp [boot, taskFirstInit, taskManagerInit, taskInit]

/-- The machine boots with sound queues and every task in one of them. -/
theorem boot_inv (hfi : first ≠ idle) (raw : τ → Task) :
    Inv idle (boot idle first raw) ∧ Queued idle (boot idle first raw).sched := by
  have hready := boot_readyList hfi raw
  have hlist : (boot idle first raw).sched.taskList = [idle, first] := boot_taskList raw
  have hq : Queued idle (boot idle first raw).sched := by
    simp [Queued, queues, hready, boot_sleepList, hlist, hfi]
  refine ⟨⟨⟨hq.subperm, ?_⟩, ?_, first, rfl, ?_⟩, hq⟩
  · rw [hlist]
    simp [Ne.symm hfi]
  · rw [hlist]
    simp
  · rw [hready]
    simp

/-- The invariant holds in every reachable state. -/
theorem reachable_inv (hfi : first ≠ idle) {raw : τ → Task}
    {ok : Label τ → Machine τ → Prop} {ls : List (Label τ)} {m : Machine τ}
    (h : Run (step idle osTicksMs) ok (boot idle first raw) ls m) :
    Inv idle m :=
  h.invariant (boot_inv hfi raw).1 (fun _ _ _ hi _ hs => step_inv hi hs)

/-! ## Runs without a `sys_sleep` of 0 -/

/-- No call of `sys_sleep(0)`. -/
def SleepsPositive : Label τ → Machine τ → Prop
  | .sleep ms, _ => ms ≠ 0
  | _, _ => True

instance (l : Label τ) (m : Machine τ) : Decidable (SleepsPositive l m) := by
  cases l <;> simp only [SleepsPositive] <;> infer_instance

/-- For a positive `OS_TICKS_MS` the rounding term of `sys_sleep` is 0, so a
    task sleeps for `ms` ticks. -/
theorem sleepTicksOf_eq (hos : 0 < osTicksMs) (ms : BitVec 32) :
    sleepTicksOf osTicksMs ms = ms.toNat := by
  unfold sleepTicksOf
  rw [Nat.div_eq_of_lt (by omega), Nat.add_zero, Nat.mod_eq_of_lt ms.isLt]

/-- A step with sleeps of at least a tick keeps every task queued: one case for each label. -/
theorem step_queued (hos : 0 < osTicksMs) {l : Label τ} {m m' : Machine τ}
    (hi : Inv idle m) (h : Queued idle m.sched) (hok : SleepsPositive l m)
    (hs : step idle osTicksMs l m = some m') : Queued idle m'.sched := by
  cases step_shape idle osTicksMs hs with
  | taskInit t hp ht =>
      exact h.taskInit (fun he => ht (he ▸ hi.idle_init))
  | yieldAlone hp => exact h
  | yield c hp hc hl =>
      obtain ⟨c', hc', hq⟩ := hi.current_user hp
      obtain rfl : c = c' := Option.some.inj (hc.symm.trans hc')
      exact h.of_same (same_requeue hq)
  | sleep ms hp hne =>
      obtain ⟨c, hc, hq⟩ := hi.current_user hp
      have hci : c ≠ idle := fun he => hne (he ▸ hc)
      refine h.of_same (same_sleepBlock hc hci (hq.resolve_left hci) ?_)
      rw [sleepTicksOf_eq hos]
      intro h0
      exact hok (BitVec.eq_of_toNat_eq h0)
  | timer hp hi' =>
      obtain ⟨c, hc, hq⟩ := hi.current_user hp
      exact h.of_same (same_slice hc hq)
  | stay k hp hn => exact h
  | switch k hp hn =>
      rw [dispatchStep, if_neg hn]
      exact h.of_same same_dispatch
  | leave inner k hp => cases k <;> exact h
  | walk hp => exact h.of_same (same_walk hi.sound)
  | eoi hp => exact h

/-- **NO TASK IS LOST OR QUEUED TWICE** in a run without a `sys_sleep(0)`:
    every initialised task but the idle one is on exactly one of the two
    lists, once, and the idle task is on neither. -/
theorem queued_of_run (hfi : first ≠ idle) (hos : 0 < osTicksMs)
    (raw : τ → Task) {ls : List (Label τ)} {m : Machine τ}
    (h : Run (step idle osTicksMs) SleepsPositive (boot idle first raw) ls m) :
    (∀ t ∈ m.sched.taskList, t ≠ idle →
      m.sched.readyList.count t + m.sched.sleepList.count t = 1) ∧
    idle ∉ m.sched.readyList ∧ idle ∉ m.sched.sleepList := by
  have hinv : Inv idle m ∧ Queued idle m.sched := by
    refine h.invariant (P := fun m => Inv idle m ∧ Queued idle m.sched)
      (boot_inv hfi raw) ?_
    intro l s s' hP hok hs
    exact ⟨step_inv hP.1 hs, step_queued hos hP.1 hP.2 hok hs⟩
  exact ⟨fun t ht hne => hinv.2.count_eq_one hinv.1.sound ht hne,
    hinv.1.sound.idle_ready, hinv.1.sound.idle_sleep⟩

end Machine

/-! ## A run with a `sys_sleep` of 0, and one without -/

private theorem sleepZero_isSome :
    (exec (step 0 10) (fun _ _ => True) [.sleep 0]
      (boot 0 1 blank)).isSome = true := by decide

/-- The first task, number 1, calls `sys_sleep(0)` and is on neither list. -/
theorem sleep_zero_loses_task :
    ¬ ∀ (ls : List (Label Nat)) (m : Machine Nat),
        Run (step 0 10) (fun _ _ => True) (boot 0 1 blank) ls m →
        ∀ t ∈ m.sched.taskList, t ≠ 0 →
          m.sched.readyList.count t + m.sched.sleepList.count t = 1 := by
  intro hall
  have hone := hall _ _ (Run.of_isSome sleepZero_isSome) 1 (by decide) (by decide)
  exact absurd hone (by decide)

/-- The first task makes a second one and yields to it, which sleeps for 3
    ticks. -/
def yieldSleepRun : List (Label Nat) :=
  [.taskInit 2, .schedYield, .kernel, .sleep 3, .kernel]

private theorem yieldSleep_isSome :
    (exec (step 0 10) SleepsPositive yieldSleepRun
      (boot 0 1 blank)).isSome = true := by decide

/-- A run of yields and sleeps, with its third task in one queue at the end. -/
theorem queued_of_run_yieldSleep :
    ∃ m, exec (step 0 10) SleepsPositive yieldSleepRun (boot 0 1 blank) = some m ∧
      m.sched.readyList.count 2 + m.sched.sleepList.count 2 = 1 := by
  have h := queued_of_run (by decide) (by decide) blank
    (Run.of_isSome yieldSleep_isSome)
  exact ⟨_, (Option.some_get yieldSleep_isSome).symm, h.1 2 (by decide) (by decide)⟩

end LittleOS.SchedQueues
