import Mathlib.Data.List.Nodup
import Mathlib.Data.List.Perm.Subperm
import Mathlib.Logic.Function.Iterate
import LittleOS.TssSchedule

/-! # Pids and parents

    `alloc_pid` counts, and a fork makes the current task the parent of the new
    one.  Here are the runs of `LittleOS.TssSchedule` with the tasks in the order
    they were made in.

    * `Numbered` — the pid of a task is its place in that order, and its parent
      stands before it;
    * `length_lt` — there are fewer tasks than descriptors, so no pid comes twice;
    * `family` — the parents of a task lead to one that no fork has made. -/

namespace LittleOS.ForkTree

open Memory Runs TssTasks TssSchedule
open KernelBoot (ManagedRange)
open PageTable (Frame)

/-- A `uint32_t`. -/
abbrev Word := BitVec 32

/-- Where each step from a place that is no root leads to a place of lower rank, a
    root is reached. -/
theorem iterate_reaches {τ : Type} {f : τ → τ} {S root : τ → Prop} (rank : τ → Nat)
    (h : ∀ t, S t → root t ∨ S (f t) ∧ rank (f t) < rank t) {t : τ} (ht : S t) :
    ∃ n, S (f^[n] t) ∧ root (f^[n] t) := by
  obtain ⟨k, hk⟩ : ∃ k, rank t = k := ⟨_, rfl⟩
  induction k using Nat.strongRecOn generalizing t with
  | ind k ih =>
      rcases h t ht with hroot | ⟨hstep, hlt⟩
      · exact ⟨0, ht, hroot⟩
      · obtain ⟨n, hn⟩ := ih _ (hk ▸ hlt) hstep rfl
        exact ⟨n + 1, hn⟩

/-! ## One step -/

/-- The pid and the parent. -/
def kin (c : Task) : Word × Word := (c.pid, c.parent)

section Kin

variable {m m' : Machine} {k : Kernel}

/-- A change that leaves its task's number and parent leaves all of them. -/
theorem modify_kin (k : Kernel) (task : Word) {f : Task → Task} (hf : ∀ c, kin (f c) = kin c)
    (t : Word) : kin ((k.modify task f).task t) = kin (k.task t) := by
  by_cases h : t = task
  · subst h
    rw [modify_self]
    exact hf _
  · rw [modify_other _ h]

/-- Counting a tick down leaves numbers and parents. -/
theorem counted_kin (k : Kernel) (t : Word) : kin ((counted k).task t) = kin (k.task t) := by
  unfold counted
  rw [modify_kin]
  exact fun _ => rfl

/-- The slice end leaves numbers and parents. -/
theorem ended_kin (k : Kernel) (t : Word) : kin ((ended k).task t) = kin (k.task t) := by
  unfold ended
  rw [modify_kin, taskSetReady_task, modify_kin, counted_kin]
  · exact fun _ => rfl
  · exact fun _ => rfl

/-- A switch leaves numbers and parents. -/
theorem switched_kin (m : Machine) (next t : Word) :
    kin ((switched m next).kernel.task t) = kin (m.kernel.task t) := by
  rw [switched_task, modify_kin, modify_kin]
  · exact fun _ => rfl
  · exact fun _ => rfl

/-- The same tasks, with the same pids and parents, and the same counter. -/
structure SameKin (k k' : Kernel) : Prop where
  perm : k'.readyList.Perm k.readyList
  kin : ∀ t, kin (k'.task t) = kin (k.task t)
  globalPid : k'.globalPid = k.globalPid

/-- The slice end makes no task. -/
theorem ended_sameKin (h : Scheduled m) : SameKin m.kernel (ended m.kernel) := by
  obtain ⟨rest, hq⟩ := h.readyList
  refine ⟨?_, ended_kin _, rfl⟩
  rw [ended_readyList, hq, List.erase_cons_head]
  exact List.perm_append_singleton ..

/-- **A TICK** makes and changes no relation. -/
theorem ticks_sameKin (h : Scheduled m) (ht : Ticks m m') : SameKin m.kernel m'.kernel := by
  cases ht with
  | counts => exact ⟨List.Perm.refl _, counted_kin _, rfl⟩
  | again => exact ended_sameKin h
  | @next next rest hleft hq =>
      have hended := ended_sameKin h
      exact ⟨hended.perm, fun t => (switched_kin _ _ t).trans (hended.kin t), hended.globalPid⟩

end Kin

/-! ## The order -/

/-- `made` has the tasks of `k` in the order they were made in, after a boot at
    which the counter of `alloc_pid` was `g`. -/
structure Numbered (g : Word) (k : Kernel) (made : List Word) : Prop where
  perm : made.Perm k.readyList
  pid : ∀ i (h : i < made.length), (k.task made[i]).pid = g + BitVec.ofNat 32 (i + 1)
  parent : ∀ i (h : i < made.length), (k.task made[i]).parent = 0 ∨
    ∃ j < i, made[j]? = some (k.task made[i]).parent
  globalPid : k.globalPid = g + BitVec.ofNat 32 made.length

section Order

variable {g : Word} {k k' : Kernel} {made : List Word} {t parent : Word}

/-- The numbering lasts as long as numbers and parents do. -/
theorem Numbered.same (h : Numbered g k made) (hs : SameKin k k') : Numbered g k' made := by
  have hpid : ∀ t, (k'.task t).pid = (k.task t).pid := fun t => congrArg Prod.fst (hs.kin t)
  have hparent : ∀ t, (k'.task t).parent = (k.task t).parent := fun t =>
    congrArg Prod.snd (hs.kin t)
  refine ⟨h.perm.trans hs.perm.symm, fun i hi => ?_, fun i hi => ?_, ?_⟩
  · rw [hpid]
    exact h.pid i hi
  · rw [hparent]
    exact h.parent i hi
  · rw [hs.globalPid]
    exact h.globalPid

/-- **A NEW TASK** is the last, and its parent, if any, a task already. -/
theorem Numbered.snoc (h : Numbered g k made) (hnew : t ∉ k.readyList)
    (hlist : k'.readyList = k.readyList ++ [t]) (hother : ∀ u ≠ t, k'.task u = k.task u)
    (hkin : kin (k'.task t) = (k.globalPid + 1, parent)) (hpid : k'.globalPid = k.globalPid + 1)
    (hparent : parent = 0 ∨ parent ∈ k.readyList) : Numbered g k' (made ++ [t]) := by
  have hmem : ∀ u ∈ made, u ≠ t := fun u hu hut => hnew (h.perm.mem_iff.mp (hut ▸ hu))
  have hcount : k'.globalPid = g + BitVec.ofNat 32 (made.length + 1) := by
    rw [hpid, h.globalPid, BitVec.add_assoc, BitVec.ofNat_add]
    rfl
  refine ⟨?_, fun i hi => ?_, fun i hi => ?_, ?_⟩
  · rw [hlist]
    exact h.perm.append_right [t]
  · rcases Nat.lt_or_ge i made.length with hlt | hge
    · rw [List.getElem_append_left hlt, hother _ (hmem _ (List.getElem_mem hlt))]
      exact h.pid i hlt
    · obtain rfl : i = made.length := by
        rw [List.length_append, List.length_singleton] at hi
        omega
      rw [List.getElem_concat_length rfl]
      exact (congrArg Prod.fst hkin).trans (hpid.symm.trans hcount)
  · rcases Nat.lt_or_ge i made.length with hlt | hge
    · rw [List.getElem_append_left hlt, hother _ (hmem _ (List.getElem_mem hlt))]
      refine (h.parent i hlt).imp_right fun ⟨j, hj, hjp⟩ => ⟨j, hj, ?_⟩
      rw [List.getElem?_append_left (Nat.lt_trans hj hlt)]
      exact hjp
    · obtain rfl : i = made.length := by
        rw [List.length_append, List.length_singleton] at hi
        omega
      rw [List.getElem_concat_length rfl, show (k'.task t).parent = parent from
        congrArg Prod.snd hkin]
      refine hparent.imp_right fun hin => ?_
      obtain ⟨j, hj, hjp⟩ := List.getElem_of_mem (h.perm.mem_iff.mpr hin)
      refine ⟨j, hj, ?_⟩
      rw [List.getElem?_append_left hj, List.getElem?_eq_getElem hj, hjp]
  · rw [hcount, List.length_append, List.length_singleton]

end Order

/-! ## Runs -/

section Run

variable {kernelTable : Frame} {g : Word} {m m' m₀ m₁ : Machine} {made : List Word} {l : Label}
  {ls : List Label}

/-- **ONE STEP** keeps the order, or makes one task more. -/
theorem step_numbered (h : Scheduled m) (hn : Numbered g m.kernel made) (hok : Holds l m)
    (hs : step kernelTable l m = some m') : ∃ made', Numbered g m'.kernel made' := by
  cases l with
  | exec regs =>
      obtain rfl := Option.some.inj hs
      exact ⟨made, hn⟩
  | timeTicks =>
      obtain ⟨m'', hm'', hticks⟩ := h.ticks
      have hcharged : (taskTimeTicks m).map (charged m) = some (charged m m'') := by
        rw [hm'']
        rfl
      obtain rfl := Option.some.inj (hs.symm.trans hcharged)
      have hsame := ticks_sameKin h hticks
      exact ⟨made, hn.same ⟨hsame.perm, hsame.kin, hsame.globalPid⟩⟩
  | initTask entry =>
      obtain rfl := Option.some.inj hs
      have hm := initTask_made kernelTable m.kernel entry
      obtain ⟨hnew, -⟩ := h.made hm (hok trivial)
      refine ⟨made ++ [_], hn.snoc hnew ?_ hm.other ?_ rfl (.inl rfl)⟩
      · rw [hm.readyList, List.erase_of_not_mem hnew]
      · simp [kin, TssTasks.initTask, initTss, taskSetReady, taskSetGeneral]
  | sysFork eflags f =>
      obtain rfl := Option.some.inj hs
      have hm := sysFork_made kernelTable eflags m.kernel f
      obtain ⟨hnew, -⟩ := h.made hm (hok trivial)
      refine ⟨made ++ [_], hn.snoc hnew ?_ hm.other ?_ rfl (.inr h.cur)⟩
      · rw [hm.readyList, List.erase_of_not_mem hnew]
      · simp [kin, Fork.sysFork, TssTasks.initTask, initTss, taskSetReady, taskSetGeneral]

/-- At boot the first task has the first number. -/
theorem boot_numbered (hboot : tssTaskInit kernelTable m₀ = some m₁) :
    Numbered m₀.kernel.globalPid m₁.kernel [(kallocPages m₀.kernel.mmu.alloc 1).1] := by
  obtain ⟨desc, -, rfl⟩ := Option.map_eq_some_iff.mp hboot
  have hkin : kin ((TssTasks.tssTaskInit kernelTable m₀.kernel).task
      (kallocPages m₀.kernel.mmu.alloc 1).1) = (m₀.kernel.globalPid + 1, 0) := by
    simp [kin, TssTasks.tssTaskInit, initTss, taskSetReady, taskSetGeneral]
  refine ⟨List.Perm.refl _, fun i hi => ?_, fun i hi => ?_, rfl⟩
  · obtain rfl : i = 0 := Nat.lt_one_iff.mp hi
    exact congrArg Prod.fst hkin
  · obtain rfl : i = 0 := Nat.lt_one_iff.mp hi
    exact .inl (congrArg Prod.snd hkin)

/-- **EVERY TASK HAS A DESCRIPTOR** of its own, and entry 0 is none. -/
theorem length_lt (h : Scheduled m) : m.kernel.readyList.length < Gdt.gdtSize := by
  have hsome : ∀ t, ∃ i, t ∈ m.kernel.readyList → Described m.kernel t i := fun t => by
    by_cases ht : t ∈ m.kernel.readyList
    · obtain ⟨i, hi⟩ := h.described t ht
      exact ⟨i, fun _ => hi⟩
    · exact ⟨0, fun hin => absurd hin ht⟩
  choose f hf using hsome
  have hnodup : (m.kernel.readyList.map f).Nodup := h.nodup.map_on fun t ht u hu heq =>
    (hf t ht).inj (heq ▸ hf u hu)
  have hsub : m.kernel.readyList.map f ⊆ List.range' 1 (Gdt.gdtSize - 1) := by
    intro i hi
    obtain ⟨t, ht, rfl⟩ := List.mem_map.mp hi
    have hpos := (hf t ht).pos
    have hlt := (hf t ht).lt
    exact List.mem_range'_1.mpr ⟨hpos, by omega⟩
  have hle := (hnodup.subperm hsub).length_le
  rw [List.length_map, List.length_range'] at hle
  have hsize : Gdt.gdtSize = 256 := rfl
  omega

/-- A run keeps the tasks numbered in the order they were made. -/
theorem run_numbered (hrange : ManagedRange m₀.kernel.mmu.alloc) (ha : Asserted m₀.kernel)
    (hboot : tssTaskInit kernelTable m₀ = some m₁)
    (hrun : Run (step kernelTable) Holds m₁ ls m) :
    Scheduled m ∧ ∃ made, Numbered m₀.kernel.globalPid m.kernel made := by
  obtain ⟨m', hm', h⟩ := tssTaskInit_scheduled kernelTable hrange ha
  obtain rfl := Option.some.inj (hboot.symm.trans hm')
  refine hrun.invariant (P := fun s => Scheduled s ∧
    ∃ made, Numbered m₀.kernel.globalPid s.kernel made) ⟨h, _, boot_numbered hboot⟩ ?_
  rintro l s s' ⟨hs, made, hmade⟩ hok hstep
  exact ⟨(step_rota hs hok hstep).choose, step_numbered hs hmade hok hstep⟩

/-- The pid, counted from the boot on. -/
def serial (m₀ m : Machine) (t : Word) : Nat :=
  ((m.kernel.task t).pid - m₀.kernel.globalPid).toNat

/-- **THE FAMILY**: no two tasks have the same pid, the parent of a task is 0 or a
    task that was made before it, and the parents lead to a task without one. -/
theorem family (hrange : ManagedRange m₀.kernel.mmu.alloc) (ha : Asserted m₀.kernel)
    (hboot : tssTaskInit kernelTable m₀ = some m₁)
    (hrun : Run (step kernelTable) Holds m₁ ls m) :
    (∀ t ∈ m.kernel.readyList, ∀ u ∈ m.kernel.readyList,
      (m.kernel.task t).pid = (m.kernel.task u).pid → t = u) ∧
    (∀ t ∈ m.kernel.readyList, (m.kernel.task t).parent = 0 ∨
      (m.kernel.task t).parent ∈ m.kernel.readyList ∧
        serial m₀ m (m.kernel.task t).parent < serial m₀ m t) ∧
    (∀ t ∈ m.kernel.readyList, ∃ n,
      (fun u => (m.kernel.task u).parent)^[n] t ∈ m.kernel.readyList ∧
      (m.kernel.task ((fun u => (m.kernel.task u).parent)^[n] t)).parent = 0) := by
  obtain ⟨h, made, hn⟩ := run_numbered hrange ha hboot hrun
  have hlen : made.length < 256 := by
    rw [hn.perm.length_eq]
    exact length_lt h
  have hserial : ∀ i (hi : i < made.length), serial m₀ m made[i] = i + 1 := fun i hi => by
    unfold serial
    rw [hn.pid i hi, BitVec.add_comm, BitVec.add_sub_cancel, BitVec.toNat_ofNat]
    exact Nat.mod_eq_of_lt (by omega)
  have hplace : ∀ t ∈ m.kernel.readyList, ∃ i, ∃ hi : i < made.length, made[i] = t :=
    fun t ht => List.getElem_of_mem (hn.perm.mem_iff.mpr ht)
  have holder : ∀ t ∈ m.kernel.readyList, (m.kernel.task t).parent = 0 ∨
      (m.kernel.task t).parent ∈ m.kernel.readyList ∧
        serial m₀ m (m.kernel.task t).parent < serial m₀ m t := by
    intro t ht
    obtain ⟨i, hi, rfl⟩ := hplace t ht
    refine (hn.parent i hi).imp_right fun ⟨j, hj, hjp⟩ => ?_
    obtain ⟨hj', hjp⟩ := List.getElem?_eq_some_iff.mp hjp
    rw [← hjp]
    refine ⟨hn.perm.mem_iff.mp (List.getElem_mem hj'), ?_⟩
    rw [hserial i hi, hserial j hj']
    exact Nat.succ_lt_succ hj
  refine ⟨fun t ht u hu hpid => ?_, holder, fun t ht => ?_⟩
  · obtain ⟨i, hi, rfl⟩ := hplace t ht
    obtain ⟨j, hj, rfl⟩ := hplace u hu
    have hsame : serial m₀ m made[i] = serial m₀ m made[j] := by
      unfold serial
      rw [hpid]
    rw [hserial i hi, hserial j hj] at hsame
    obtain rfl : i = j := by omega
    rfl
  · exact iterate_reaches (S := fun t => t ∈ m.kernel.readyList) (serial m₀ m) holder ht

end Run

/-! ## Three generations -/

/-- The frame of a call, with the same word everywhere. -/
def atFork : SyscallEntry.SyscallFrame := SyscallEntry.frameAt (fun _ => 0x11000) 0

/-- The first task forks, and its child forks in its turn. -/
def generations : List Label :=
  [.sysFork 0x202 atFork] ++ List.replicate 5 .timeTicks ++ [.sysFork 0x202 atFork]

private theorem generations_isSome :
    (exec (step 0x20) Holds generations firstTask).isSome = true := by decide +kernel

/-- A run with a child and a grandchild. -/
def threeTasks : Machine := (exec (step 0x20) Holds generations firstTask).get generations_isSome

private theorem run_threeTasks : Run (step 0x20) Holds firstTask generations threeTasks :=
  Run.of_isSome generations_isSome

private theorem boot_range : ManagedRange fresh.kernel.mmu.alloc :=
  (KernelBoot.memoryInit_range _ (by decide)).1

private theorem boot_task : tssTaskInit 0x20 fresh = some firstTask :=
  (Option.some_get _).symm

/-- The grandchild runs last, and its parents lead to the first task. -/
theorem family_generations :
    threeTasks.kernel.readyList = [0x103000, 0x100000, 0x105000] ∧
    (threeTasks.kernel.task 0x105000).parent = 0x103000 ∧
    ∃ n, (fun u => (threeTasks.kernel.task u).parent)^[n] 0x105000 ∈ threeTasks.kernel.readyList ∧
      (threeTasks.kernel.task
        ((fun u => (threeTasks.kernel.task u).parent)^[n] 0x105000)).parent = 0 :=
  ⟨by decide +kernel, by decide +kernel,
    (family boot_range (by decide +kernel) boot_task run_threeTasks).2.2 _ (by decide +kernel)⟩

end LittleOS.ForkTree
