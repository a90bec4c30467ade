import Mathlib.Data.List.Induction
import LittleOS.Gdt
import LittleOS.SchedQueues

/-! # Descriptors for tasks

    `tss_init` of `core/task.c`, read with the argument it lacks and with
    `gdt_alloc_seg` for `gdt_alloc_desc`.  A task is its address, and its TSS
    lies 64 bytes behind it.

    * `Filled` — the calls so far have taken entry 3 and those from 6 upwards,
      one each, and the tasks have the selectors of theirs;
    * `selectors_iff` — that is as it should be for 251 calls.  The table is
      full then, `tss_init` answers -1, and `task_init` does not look. -/

namespace LittleOS.TssInit

open Sched SchedQueues Gdt

/-- A `uint32_t`. -/
abbrev Word := BitVec 32

/-- `tss_t`. -/
structure Tss where
  preLink : Word
  esp0 : Word
  ss0 : Word
  esp1 : Word
  ss1 : Word
  esp2 : Word
  ss2 : Word
  cr3 : Word
  eip : Word
  eflags : Word
  eax : Word
  ecx : Word
  edx : Word
  ebx : Word
  esp : Word
  ebp : Word
  esi : Word
  edi : Word
  es : Word
  cs : Word
  ss : Word
  ds : Word
  fs : Word
  gs : Word
  ldt : Word
  iomap : Word
deriving DecidableEq, Repr

/-- What `kmemset` leaves. -/
def Tss.zero : Tss :=
  ⟨0, 0, 0, 0, 0, 0, 0, 0, 0, 0, 0, 0, 0, 0, 0, 0, 0, 0, 0, 0, 0, 0, 0, 0, 0, 0⟩

/-- `sizeof(tss_t)`. -/
def sizeofTss : Word := 104

def eflagsDefault : Word := 1 <<< 1
def eflagsIf : Word := 1 <<< 9

/-- The table and the tasks. -/
structure Kernel where
  gdtTable : GdtTable
  tss : Word → Tss
  tssSel : Word → Int
  sched : Manager Word

/-- `&task->tss`. -/
def tssAddr (task : Word) : Word := task + 64

/-- `tss_init`: `-1` where there is no free entry. -/
def tssInit (k : Kernel) (task : Word) (_flag : Int) (entry esp : Word) : Kernel × Int :=
  let k := { k with tss := Function.update k.tss task Tss.zero }
  let tss_sel := gdtAllocSeg k.gdtTable
  if tss_sel < 0 then (k, -1)
  else
    let tss := { k.tss task with
      eip := entry
      esp := esp
      esp0 := esp
      ss := kernelSelectorDs.zeroExtend 32
      ss0 := kernelSelectorDs.zeroExtend 32
      es := kernelSelectorCs.zeroExtend 32
      ds := kernelSelectorCs.zeroExtend 32
      fs := kernelSelectorCs.zeroExtend 32
      gs := kernelSelectorCs.zeroExtend 32
      cs := kernelSelectorCs.zeroExtend 32
      eflags := eflagsDefault ||| eflagsIf }
    ({ k with
       gdtTable := gdtSegmentSet k.gdtTable (BitVec.ofInt 16 tss_sel) sizeofTss
         (tssAddr task) (segSSystem ||| segTypeTss ||| segDpl0 ||| segPPresent)
       tss := Function.update k.tss task tss
       tssSel := Function.update k.tssSel task tss_sel }, 0)

/-- The arguments of one call. -/
structure Call where
  task : Word
  entry : Word
  esp : Word
deriving DecidableEq, Repr

section Source

variable (idle : Word)

/-- The answer of `tss_init` is not looked at. -/
def taskInit (k : Kernel) (c : Call) : Kernel × Int :=
  let k := (tssInit k c.task 0 c.entry c.esp).1
  ({ k with sched := Sched.taskInit idle k.sched c.task }, 0)

/-- The kernel after the calls. -/
def afterCalls (k : Kernel) (cs : List Call) : Kernel :=
  cs.foldl (fun k c => (taskInit idle k c).1) k

end Source

/-- `gdt_init` and the `klist_init` of `task_manager_init`. -/
def started (table : GdtTable) (tss : Word → Tss) (tssSel : Word → Int)
    (task : Word → Task) : Kernel where
  gdtTable := gdtInit table
  tss := tss
  tssSel := tssSel
  sched := { currTask := none, readyList := [], taskList := [], sleepList := [],
             task := task }

/-! ## What the selectors are for -/

/-- A present TSS descriptor with this base. -/
structure TssDescriptor (e : GdtEntry) (base : Word) : Prop where
  present : e.attributes &&& segPPresent ≠ 0
  kind : e.attributes &&& 0x1F = segSSystem ||| segTypeTss
  base : baseOf e = base

/-- Every ready task can be switched to, through a descriptor of its own. -/
structure Dispatchable (k : Kernel) : Prop where
  descriptor : ∀ t ∈ k.sched.readyList, ∃ i < gdtSize, k.tssSel t = i * 8 ∧
    TssDescriptor (k.gdtTable i) (tssAddr t)
  distinct : ∀ t ∈ k.sched.taskList, ∀ u ∈ k.sched.taskList, t ≠ u →
    k.tssSel t ≠ k.tssSel u
  apart : ∀ t ∈ k.sched.taskList, ∀ i ∈ segments, k.tssSel t ≠ i * 8

/-- A call that finds no descriptor says so and readies nothing. -/
def Reports (idle : Word) (k : Kernel) (c : Call) : Prop :=
  gdtAllocSeg k.gdtTable < 0 →
    (taskInit idle k c).1.sched.readyList = k.sched.readyList ∧ (taskInit idle k c).2 ≠ 0

/-- Every call of a run leaves dispatchable tasks and reports its failure. -/
def SelectorsCorrect (idle : Word) (k : Kernel) (cs : List Call) : Prop :=
  ∀ pre c post, cs = pre ++ c :: post →
    Dispatchable (afterCalls idle k (pre ++ [c])) ∧
      Reports idle (afterCalls idle k pre) c

/-! ## The order of allocation -/

/-- The entry that call number `n` takes. -/
def slotOf (n : Nat) : Nat := if n = 0 then 3 else n + 5

/-- The entries of tasks are not those of segments. -/
theorem slotOf_pos (n : Nat) : 3 ≤ slotOf n ∧ slotOf n ≠ 4 ∧ slotOf n ≠ 5 := by
  unfold slotOf
  split <;> omega

/-- Later tasks have later entries. -/
theorem slotOf_lt {j n : Nat} (h : j < n) : slotOf j < slotOf n := by
  unfold slotOf
  split <;> split <;> omega

/-- There is room for 251 tasks. -/
theorem slotOf_le {n : Nat} : slotOf n < gdtSize ↔ n < 251 := by
  unfold slotOf gdtSize
  split <;> omega

/-- The entries still free after one more task. -/
theorem slotOf_succ {n i : Nat} :
    slotOf (n + 1) ≤ i ∧ i ≠ 4 ∧ i ≠ 5 ↔
      (slotOf n ≤ i ∧ i ≠ 4 ∧ i ≠ 5) ∧ i ≠ slotOf n := by
  unfold slotOf
  split <;> split <;> omega

/-- The state of the table after `n` calls. -/
structure Filled (n : Nat) (k : Kernel) : Prop where
  free : ∀ i, 1 ≤ i → i < gdtSize →
    ((k.gdtTable i).attributes = 0 ↔ slotOf n ≤ i ∧ i ≠ 4 ∧ i ≠ 5)
  taken : ∀ t ∈ k.sched.taskList, ∃ j < n, slotOf j < gdtSize ∧
    k.tssSel t = slotOf j * 8 ∧ TssDescriptor (k.gdtTable (slotOf j)) (tssAddr t)
  ready : ∀ t ∈ k.sched.readyList, t ∈ k.sched.taskList

section Run

variable {idle : Word} {k : Kernel} {n : Nat}

/-- A TSS is no part of the scheduler. -/
@[simp] theorem tssInit_sched (k : Kernel) (task : Word) (flag : Int)
    (entry esp : Word) : (tssInit k task flag entry esp).1.sched = k.sched := by
  unfold tssInit
  dsimp only
  split <;> rfl

/-- A call queues its task, with or without a descriptor. -/
@[simp] theorem taskInit_sched (k : Kernel) (c : Call) :
    (taskInit idle k c).1.sched = Sched.taskInit idle k.sched c.task := by
  unfold taskInit
  simp

/-- The next task gets the next entry. -/
theorem Filled.alloc (h : Filled n k) (hn : n < 251) :
    gdtAllocSeg k.gdtTable = slotOf n * 8 := by
  have hpos := slotOf_pos n
  have hlt := slotOf_le.mpr hn
  refine gdtAllocSeg_first (by omega) hlt ?_ ?_
  · exact (h.free _ (by omega) hlt).mpr ⟨Nat.le_refl _, hpos.2⟩
  · intro j h1 hj he
    have := (h.free j h1 (by omega)).mp he
    omega

/-- There is no entry for the 252nd. -/
theorem Filled.full (h : Filled n k) (hn : 251 ≤ n) : gdtAllocSeg k.gdtTable = -1 := by
  refine gdtAllocSeg_none ?_
  intro j h1 hj he
  have := (h.free j h1 hj).mp he
  have hge : ¬ slotOf n < gdtSize := fun hlt => by
    have := slotOf_le.mp hlt
    omega
  omega

/-- The entry and the selector that a call sets. -/
theorem Filled.tssInit (h : Filled n k) (hn : n < 251) (task : Word) (flag : Int)
    (entry esp : Word) :
    (tssInit k task flag entry esp).1.gdtTable
        = gdtSegmentSet k.gdtTable (BitVec.ofNat 16 (slotOf n * 8)) sizeofTss
          (tssAddr task) (segSSystem ||| segTypeTss ||| segDpl0 ||| segPPresent) ∧
      (tssInit k task flag entry esp).1.tssSel
        = Function.update k.tssSel task (slotOf n * 8) := by
  have hsel : ¬ ((slotOf n : Int) * 8 < 0) := by omega
  unfold TssInit.tssInit
  dsimp only
  rw [h.alloc hn, if_neg hsel, ofInt_selector]
  exact ⟨rfl, rfl⟩

/-- What `tss_init` puts into the table is a TSS descriptor. -/
theorem tssDescriptor_set (table : GdtTable) (selector : BitVec 16) (base : Word) :
    TssDescriptor (gdtSegmentSet table selector sizeofTss base
      (segSSystem ||| segTypeTss ||| segDpl0 ||| segPPresent) (indexOf selector)) base := by
  have hattr : (gdtSegmentSet table selector sizeofTss base
      (segSSystem ||| segTypeTss ||| segDpl0 ||| segPPresent)
      (indexOf selector)).attributes = 0x89 := by
    unfold gdtSegmentSet
    rw [Function.update_self]
    dsimp only
    decide
  refine ⟨?_, ?_, baseOf_gdtSegmentSet ..⟩
  · rw [hattr]
    decide
  · rw [hattr]
    decide

/-- Only the new task is newly ready. -/
theorem taskInit_ready {s : Manager Word} {t u : Word}
    (h : u ∈ (Sched.taskInit idle s t).readyList) : u ∈ s.readyList ∨ u = t := by
  by_cases ht : t = idle
  · subst ht
    left
    simpa [Sched.taskInit] using h
  · rw [taskInit_readyList ht] at h
    exact (List.mem_append.mp h).imp_right List.mem_singleton.mp

/-- **ONE CALL** takes the next entry. -/
theorem Filled.taskInit (h : Filled n k) (hn : n < 251) (c : Call) :
    Filled (n + 1) (taskInit idle k c).1 := by
  obtain ⟨htable, hsel⟩ := h.tssInit hn c.task 0 c.entry c.esp
  have hslot := slotOf_le.mpr hn
  have hindex : indexOf (BitVec.ofNat 16 (slotOf n * 8)) = slotOf n := by
    refine indexOf_ofNat (Nat.lt_trans hslot ?_)
    decide
  have hdesc := tssDescriptor_set k.gdtTable (BitVec.ofNat 16 (slotOf n * 8))
    (tssAddr c.task)
  rw [hindex] at hdesc
  -- only the entry of the new task is written
  have hother : ∀ i, i ≠ slotOf n →
      (TssInit.tssInit k c.task 0 c.entry c.esp).1.gdtTable i = k.gdtTable i := by
    intro i hi
    rw [htable, gdtSegmentSet_other (by rw [hindex]; exact hi)]
  refine ⟨?_, ?_, ?_⟩
  · intro i h1 hi
    show ((TssInit.tssInit k c.task 0 c.entry c.esp).1.gdtTable i).attributes = 0 ↔ _
    rw [slotOf_succ]
    -- its attributes are not 0 any more, so the next task takes another one
    by_cases his : i = slotOf n
    · subst his
      rw [htable]
      refine iff_of_false ?_ (fun hc => hc.2 rfl)
      intro h0
      have hpresent := hdesc.present
      rw [h0] at hpresent
      exact hpresent (by decide)
    · rw [hother i his, h.free i h1 hi]
      exact ⟨fun hc => ⟨hc, his⟩, fun hc => hc.1⟩
  · intro t ht
    rw [taskInit_sched, taskInit_taskList] at ht
    show ∃ j < n + 1, slotOf j < gdtSize ∧
      (TssInit.tssInit k c.task 0 c.entry c.esp).1.tssSel t = slotOf j * 8 ∧
      TssDescriptor ((TssInit.tssInit k c.task 0 c.entry c.esp).1.gdtTable (slotOf j))
        (tssAddr t)
    rw [hsel]
    by_cases htc : t = c.task
    · subst htc
      exact ⟨n, Nat.lt_succ_self n, hslot, Function.update_self .., by
        rw [htable]; exact hdesc⟩
    · have ht' := (List.mem_append.mp ht).resolve_right
        (fun hm => htc (List.mem_singleton.mp hm))
      obtain ⟨j, hj, hlt, hs, hd⟩ := h.taken t ht'
      refine ⟨j, by omega, hlt, ?_, ?_⟩
      · rw [Function.update_of_ne htc]
        exact hs
      · rw [hother _ (Nat.ne_of_lt (slotOf_lt hj))]
        exact hd
  · intro t ht
    rw [taskInit_sched] at ht
    rw [taskInit_sched, taskInit_taskList]
    rcases taskInit_ready ht with hr | rfl
    · exact List.mem_append_left _ (h.ready t hr)
    · simp

/-- While the table is not full, the selectors are as they should be. -/
theorem Filled.dispatchable (h : Filled n k) : Dispatchable k := by
  refine ⟨?_, ?_, ?_⟩
  · intro t ht
    obtain ⟨j, -, hlt, hs, hd⟩ := h.taken t (h.ready t ht)
    exact ⟨slotOf j, hlt, hs, hd⟩
  · intro t ht u hu hne he
    obtain ⟨j, -, -, hs, hd⟩ := h.taken t ht
    obtain ⟨j', -, -, hs', hd'⟩ := h.taken u hu
    have hslot : slotOf j = slotOf j' := by omega
    rw [hslot] at hd
    have haddr : tssAddr t = tssAddr u := hd.base.symm.trans hd'.base
    exact hne ((BitVec.add_left_inj 64).mp haddr)
  · intro t ht i hi he
    obtain ⟨j, -, -, hs, -⟩ := h.taken t ht
    have hpos := slotOf_pos j
    rw [mem_segments] at hi
    omega

/-- At the start only the segments have entries. -/
theorem started_filled (table : GdtTable) (tss : Word → Tss) (tssSel : Word → Int)
    (task : Word → Task) : Filled 0 (started table tss tssSel task) where
  free := by
    intro i h1 hi
    rw [show (started table tss tssSel task).gdtTable = gdtInit table from rfl,
      gdtInit_free table hi, mem_segments]
    unfold slotOf
    rw [if_pos rfl]
    omega
  taken := by
    intro t ht
    exact nomatch ht
  ready := by
    intro t ht
    exact nomatch ht

variable (idle) in
/-- Runs of at most 251 calls. -/
theorem afterCalls_filled (h : Filled 0 k) :
    ∀ cs : List Call, cs.length ≤ 251 → Filled cs.length (afterCalls idle k cs) := by
  intro cs
  induction cs using List.reverseRecOn with
  | nil => intro _; exact h
  | append_singleton cs c ih =>
      intro hlen
      rw [List.length_append, List.length_singleton] at hlen ⊢
      unfold afterCalls
      rw [List.foldl_append, List.foldl_cons, List.foldl_nil]
      exact (ih (by omega)).taskInit (by omega) c

/-- A call that finds the table full readies its task all the same. -/
theorem not_correct_of_long (h : Filled 0 k) {cs : List Call} (hlen : 251 < cs.length) :
    ¬ SelectorsCorrect idle k cs := by
  intro hall
  have hsplit : cs = cs.take 251 ++ cs[251] :: cs.drop 252 := by
    rw [List.getElem_cons_drop, List.take_append_drop]
  obtain ⟨-, hreports⟩ := hall _ _ _ hsplit
  have hfilled := afterCalls_filled idle h (cs.take 251) (by simp)
  rw [List.length_take, Nat.min_eq_left (by omega)] at hfilled
  have hfull := hfilled.full (Nat.le_refl _)
  exact (hreports (by rw [hfull]; decide)).2 rfl

/-- **EVERY RUN** of `task_init` behind `gdt_init`: the selectors are as they
    should be, and failures reported, exactly for 251 calls or fewer. -/
theorem selectors_iff (idle : Word) (table : GdtTable) (tss : Word → Tss)
    (tssSel : Word → Int) (task : Word → Task) (cs : List Call) :
    SelectorsCorrect idle (started table tss tssSel task) cs ↔ cs.length ≤ 251 := by
  have h0 := started_filled table tss tssSel task
  constructor
  · intro hall
    by_contra hlen
    exact not_correct_of_long h0 (by omega) hall
  · rintro hlen pre c post rfl
    rw [List.length_append, List.length_cons] at hlen
    have hpre := afterCalls_filled idle h0 pre (by omega)
    have hall := afterCalls_filled idle h0 (pre ++ [c]) (by
      rw [List.length_append, List.length_singleton]
      omega)
    refine ⟨hall.dispatchable, fun hneg => ?_⟩
    rw [hpre.alloc (by omega)] at hneg
    omega

end Run

/-- 252 tasks one behind the other. -/
def manyCalls : List Call :=
  (List.range 252).map (fun i => ⟨0x200000 + BitVec.ofNat 32 (172 * i), 0, 0⟩)

/-- The last of them gets no descriptor and is readied. -/
theorem table_full_readies :
    ¬ SelectorsCorrect 0x100000
      (started (fun _ => ⟨0, 0, 0, 0, 0⟩) (fun _ => Tss.zero) (fun _ => 0)
        (fun _ => ⟨.created, 0, 0, 0⟩)) manyCalls :=
  not_correct_of_long (started_filled ..) (by simp [manyCalls])

end LittleOS.TssInit
