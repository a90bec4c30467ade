import Mathlib.Data.List.Basic
import LittleOS.ThreadQueues

/-! # Permits and wake-ups of a semaphore

    `thread_sem_post` wakes the first waiting thread and raises `value`, but
    does not hand the permit over: another thread may take it before the woken
    one tests again, and the woken one then goes back to the end of the wait
    list.

    * `permits_conserved` — `value` and the permits held add up to the value
      `sem_init` was given;
    * `no_lost_wakeup` — while a thread sleeps, every free permit has a woken
      thread on its way to it. -/

namespace LittleOS.Semaphores

open Runs Threads

variable {τ σ : Type*} [DecidableEq τ] [DecidableEq σ]

/-! ## Conditions on the steps -/

/-- A thread that blocks leaves another one on the ready list. -/
def BlocksWell : Label τ σ → Machine τ σ → Prop
  | .semWait sem, m => (m.sem sem).value = 0 → OtherReady m.toManager
  | .retest, m =>
      match m.point m.curThread with
      | .user => True
      | .wait sem => (m.sem sem).value = 0 → OtherReady m.toManager
  | _, _ => True

/-- A post is made by a thread with a completed wait of its own. -/
def PostsOwn : Label τ σ → Machine τ σ → Prop
  | .semPost sem, m => m.curThread ∈ m.holders sem
  | _, _ => True

/-- A post finds `value` below the top of `uint8_t`. -/
def Room : Label τ σ → Machine τ σ → Prop
  | .semPost sem, m => (m.sem sem).value.toNat < 255
  | _, _ => True

instance (m : Manager τ σ) : Decidable (OtherReady m) :=
  inferInstanceAs (Decidable (∃ t ∈ m.readyList, t ≠ m.curThread))

instance : ∀ (l : Label τ σ) (m : Machine τ σ), Decidable (BlocksWell l m)
  | .semWait sem, m =>
      inferInstanceAs (Decidable ((m.sem sem).value = 0 → OtherReady m.toManager))
  | .retest, m =>
      match h : m.point m.curThread with
      | .user => .isTrue (by simp only [BlocksWell, h])
      | .wait sem =>
          decidable_of_iff ((m.sem sem).value = 0 → OtherReady m.toManager)
            (by simp only [BlocksWell, h])
  | .threadStart _, _ => .isTrue trivial
  | .semPost _, _ => .isTrue trivial
  | .timeTicks, _ => .isTrue trivial

instance : ∀ (l : Label τ σ) (m : Machine τ σ), Decidable (PostsOwn l m)
  | .semPost sem, m => inferInstanceAs (Decidable (m.curThread ∈ m.holders sem))
  | .threadStart _, _ => .isTrue trivial
  | .semWait _, _ => .isTrue trivial
  | .timeTicks, _ => .isTrue trivial
  | .retest, _ => .isTrue trivial

instance : ∀ (l : Label τ σ) (m : Machine τ σ), Decidable (Room l m)
  | .semPost sem, m => inferInstanceAs (Decidable ((m.sem sem).value.toNat < 255))
  | .threadStart _, _ => .isTrue trivial
  | .semWait _, _ => .isTrue trivial
  | .timeTicks, _ => .isTrue trivial
  | .retest, _ => .isTrue trivial

/-! ## What a step does -/

/-- **A TEST** of `value` completes the wait or parks the thread. -/
theorem testStep_cases {m m' : Machine τ σ} {s : σ} (h : testStep m s = some m') :
    ((m.sem s).value ≠ 0 ∧
      m' = completed m s
        (m.modifySem s (fun c => { c with value := c.value - 1 }))) ∨
    ((m.sem s).value = 0 ∧
      ∃ r, threadDispatch (semBlock m.toManager s) = some r ∧ m' = parked m s r) := by
  obtain ⟨⟨r, b⟩, hr, hm⟩ := Option.map_eq_some_iff.mp h
  unfold threadSemTest at hr
  by_cases h0 : (m.sem s).value = 0
  · rw [if_pos h0] at hr
    obtain ⟨r', hd, he⟩ := Option.map_eq_some_iff.mp hr
    obtain ⟨rfl, rfl⟩ := Prod.mk.inj he
    exact Or.inr ⟨h0, r', hd, hm.symm⟩
  · rw [if_neg h0] at hr
    obtain ⟨rfl, rfl⟩ := Prod.mk.inj (Option.some.inj hr)
    exact Or.inl ⟨h0, hm.symm⟩

/-- **A STEP** is a start, a test, a post or a tick. -/
theorem step_cases {l : Label τ σ} {m m' : Machine τ σ} (h : step l m = some m') :
    (∃ t, l = .threadStart t ∧ t ∉ m.generalList ∧ m' = startStep m t) ∨
    (∃ s, (m.point m.curThread = .user ∨ m.point m.curThread = .wait s) ∧
      (BlocksWell l m → (m.sem s).value = 0 → OtherReady m.toManager) ∧
      testStep m s = some m') ∨
    (∃ s, l = .semPost s ∧ m' = postStep m s) ∨
    (l = .timeTicks ∧
      ∃ r, threadTimeTicks m.toManager = some r ∧ m' = { m with toManager := r }) := by
  unfold step at h
  cases hp : m.point m.curThread with
  | user =>
      rw [hp] at h
      cases l with
      | threadStart t =>
          dsimp only at h
          split at h
          · exact nomatch h
          · next ht => exact Or.inl ⟨t, rfl, ht, (Option.some.inj h).symm⟩
      -- `thread_sem_wait` makes its first test
      | semWait s => exact Or.inr (Or.inl ⟨s, Or.inl rfl, id, h⟩)
      | semPost s =>
          exact Or.inr (Or.inr (Or.inl ⟨s, rfl, (Option.some.inj h).symm⟩))
      | timeTicks =>
          obtain ⟨r, hr, he⟩ := Option.map_eq_some_iff.mp h
          exact Or.inr (Or.inr (Or.inr ⟨rfl, r, hr, he.symm⟩))
      | retest => exact nomatch h
  -- in the loop only another test comes next
  | wait s =>
      rw [hp] at h
      cases l with
      | retest =>
          refine Or.inr (Or.inl ⟨s, Or.inr rfl, ?_, h⟩)
          intro hb
          simpa only [BlocksWell, hp] using hb
      | threadStart t => exact nomatch h
      | semWait s' => exact nomatch h
      | semPost s' => exact nomatch h
      | timeTicks => exact nomatch h

/-! ## Permits -/

/-- `value` and the permits held add up. -/
def Conserved (value : σ → BitVec 8) (m : Machine τ σ) : Prop :=
  ∀ s, (m.sem s).value.toNat + (m.holders s).length = (value s).toNat

/-- The permits of one semaphore change by what its value does. -/
theorem Conserved.congr {τ σ : Type*} {value : σ → BitVec 8} {m m' : Machine τ σ}
    (h : Conserved value m) (hh : m'.holders = m.holders)
    (hv : ∀ s, (m'.sem s).value = (m.sem s).value) : Conserved value m' := by
  intro s
  rw [hh, hv]
  exact h s

/-- A wait that takes a permit gives it to the waiter. -/
theorem Conserved.completed {value : σ → BitVec 8} {m : Machine τ σ}
    (h : Conserved value m) {s : σ} (h0 : (m.sem s).value ≠ 0) :
    Conserved value (completed m s
      (m.modifySem s (fun c => { c with value := c.value - 1 }))) := by
  intro u
  have hu := h u
  dsimp only [Threads.completed]
  rw [modifySem_sem]
  by_cases hus : u = s
  · rw [if_pos hus, hus, Function.update_self, List.length_cons]
    dsimp only
    rw [hus] at hu
    have hpos : 0 < (m.sem s).value.toNat :=
      Nat.pos_of_ne_zero (fun hz => h0 (BitVec.eq_of_toNat_eq hz))
    have hsub : ((m.sem s).value - 1).toNat = (m.sem s).value.toNat - 1 := by
      bv_omega
    omega
  · rw [if_neg hus, Function.update_of_ne hus]
    exact hu

/-- A post adds one to its counter. -/
theorem threadSemPost_value (m : Manager τ σ) (s u : σ) :
    ((threadSemPost m s).sem u).value
      = if u = s then (m.sem s).value + 1 else (m.sem u).value := by
  unfold threadSemPost
  rw [modifySem_sem]
  split
  · rw [semWake_value]
  · exact semWake_value s u

/-- A post by a holder gives its permit back. -/
theorem Conserved.post {value : σ → BitVec 8} {m : Machine τ σ}
    (h : Conserved value m) {s : σ} (hown : m.curThread ∈ m.holders s) :
    Conserved value (postStep m s) := by
  intro u
  have hu := h u
  dsimp only [postStep]
  rw [threadSemPost_value]
  by_cases hus : u = s
  · rw [if_pos hus, hus, Function.update_self, List.length_erase_of_mem hown]
    rw [hus] at hu
    -- a held permit keeps `value` below its start
    have hlen := List.length_pos_of_mem hown
    have hlt := (value s).isLt
    have hadd : ((m.sem s).value + 1).toNat = (m.sem s).value.toNat + 1 := by
      bv_omega
    omega
  · rw [if_neg hus, Function.update_of_ne hus]
    exact hu

/-- **ONE STEP** keeps the sum. -/
theorem Conserved.step {value : σ → BitVec 8} {l : Label τ σ} {m m' : Machine τ σ}
    (h : Conserved value m) (hown : PostsOwn l m) (hs : step l m = some m') :
    Conserved value m' := by
  rcases step_cases hs with ⟨t, -, -, rfl⟩ | ⟨s, -, -, htest⟩ | ⟨s, rfl, rfl⟩ |
    ⟨-, r, hr, rfl⟩
  · exact h.congr rfl (fun _ => rfl)
  · rcases testStep_cases htest with ⟨h0, rfl⟩ | ⟨-, r, hd, rfl⟩
    · exact h.completed h0
    · refine h.congr rfl (fun u => ?_)
      show (r.sem u).value = _
      rw [threadDispatch_sem hd, semBlock_value]
  · exact h.post hown
  · refine h.congr rfl (fun u => ?_)
    show (r.sem u).value = _
    rw [(threadTimeTicks_some hr).1]

/-- At boot nobody holds a permit. -/
theorem init_conserved {τ σ : Type*} [DecidableEq τ] (pcb : τ → ThreadPcb) (main : τ)
    (value : σ → BitVec 8) : Conserved value (init pcb main value) := fun _ => rfl

/-- **PERMITS** are conserved along every run whose posts match their own
    waits: `value` and the permits held add up to the value the semaphore
    started with, so no more threads than that hold one, and where no thread
    holds two, `value` and the number of holders add up to it. -/
theorem permits_conserved (pcb : τ → ThreadPcb) (main : τ) (value : σ → BitVec 8)
    {ls : List (Label τ σ)} {m : Machine τ σ}
    (h : Run step (fun l m => PostsOwn l m ∧ BlocksWell l m)
      (init pcb main value) ls m) (s : σ) :
    (m.sem s).value.toNat + (m.holders s).length = (value s).toNat ∧
      (m.holders s).toFinset.card ≤ (value s).toNat ∧
      ((m.holders s).Nodup →
        (m.sem s).value.toNat + (m.holders s).toFinset.card = (value s).toNat) := by
  have hc : Conserved value m :=
    h.invariant (init_conserved pcb main value)
      (fun l m m' hm hok hs => hm.step hok.1 hs)
  have hsum := hc s
  have hcard := List.toFinset_card_le (m.holders s)
  refine ⟨hsum, by omega, ?_⟩
  intro hnd
  rw [List.toFinset_card_of_nodup hnd]
  exact hsum

/-- Two threads that take turns at one permit. -/
def turnsRun : List (Label Nat Unit) :=
  [.threadStart 1, .semWait ()] ++ List.replicate 5 .timeTicks
    ++ [.semWait (), .semPost ()] ++ List.replicate 5 .timeTicks ++ [.retest]

/-- The main thread is `0`, and the semaphore starts at `v`. -/
def small (v : BitVec 8) : Machine Nat Unit :=
  init (fun _ => { status := .created, ticks := 0 }) 0 (fun _ => v)

private theorem turnsRun_isSome :
    (exec step (fun l m => PostsOwn l m ∧ BlocksWell l m) turnsRun
      (small 1)).isSome = true := by decide +kernel

/-- A run in which two threads take turns. -/
theorem permits_conserved_turns :
    ∃ m : Machine Nat Unit,
      Run step (fun l m => PostsOwn l m ∧ BlocksWell l m) (small 1) turnsRun m ∧
      m.curThread = 1 ∧ m.holders () = [1] ∧
      (m.sem ()).value.toNat + (m.holders ()).length = 1 := by
  have hrun := Run.of_isSome turnsRun_isSome
  refine ⟨_, hrun, by decide +kernel, by decide +kernel, ?_⟩
  exact (permits_conserved _ _ _ hrun ()).1

/-- A thread that waits twice on a semaphore of value 2 holds two permits. -/
def twiceRun : List (Label Nat Unit) := [.semWait (), .semWait ()]

private theorem twiceRun_isSome :
    (exec step (fun l m => PostsOwn l m ∧ BlocksWell l m) twiceRun
      (small 2)).isSome = true := by decide +kernel

/-- `value` and the number of threads that hold a permit need not add up. -/
theorem two_permits_one_thread :
    ¬ ∀ (v : BitVec 8) (ls : List (Label Nat Unit)) (m : Machine Nat Unit),
      Run step (fun l m => PostsOwn l m ∧ BlocksWell l m) (small v) ls m →
      (m.sem ()).value.toNat + (m.holders ()).toFinset.card = v.toNat := by
  intro h
  exact absurd (h 2 _ _ (Run.of_isSome twiceRun_isSome)) (by decide +kernel)

/-! ## Wake-ups -/

/-- Waiting and woken threads are in the loop of their wait, the woken ones on
    the ready list; while a thread sleeps, the woken ones cover `value`. -/
structure Awake (m : Machine τ σ) : Prop where
  queues : Queues m.toManager
  wait_point : ∀ s, ∀ t ∈ (m.sem s).waitList, m.point t = .wait s
  woken_ready : ∀ s, ∀ t ∈ m.woken s, t ∈ m.readyList
  woken_point : ∀ s, ∀ t ∈ m.woken s, m.point t = .wait s
  enough : ∀ s, (m.sem s).waitList ≠ [] → (m.sem s).value.toNat ≤ (m.woken s).card

section Steps

variable {m : Machine τ σ}

/-- A waiting thread does not run. -/
theorem Awake.wait_ne_cur {τ σ : Type*} {m : Machine τ σ} (h : Awake m) {s : σ} {t : τ}
    (ht : t ∈ (m.sem s).waitList) : t ≠ m.curThread := by
  rintro rfl
  exact h.queues.wait_ready s _ ht h.queues.cur_ready

/-- Of the woken threads that remain after a test of `s`, none is the one that
    tests. -/
theorem Awake.woken_erase (h : Awake m) {s u : σ} {t : τ}
    (hp : m.point m.curThread = .user ∨ m.point m.curThread = .wait s)
    (ht : t ∈ Function.update m.woken s ((m.woken s).erase m.curThread) u) :
    t ∈ m.woken u ∧ t ≠ m.curThread := by
  by_cases hu : u = s
  · subst hu
    rw [Function.update_self] at ht
    exact ⟨Finset.mem_of_mem_erase ht, Finset.ne_of_mem_erase ht⟩
  · rw [Function.update_of_ne hu] at ht
    refine ⟨ht, ?_⟩
    rintro rfl
    have hw := h.woken_point u _ ht
    rcases hp with hp | hp
    · exact nomatch hw.symm.trans hp
    · exact hu (Point.wait.inj (hw.symm.trans hp))

/-- A new thread is awake. -/
theorem Awake.start {σ : Type*} {m : Machine τ σ} (h : Awake m) {t : τ}
    (ht : t ∉ m.generalList) : Awake (startStep m t) := by
  have hne : ∀ u ∈ m.generalList, u ≠ t := by
    rintro u hu rfl
    exact ht hu
  have hpoint : ∀ u ∈ m.generalList, (startStep m t).point u = m.point u :=
    fun u hu => Function.update_of_ne (hne u hu) ..
  constructor
  · exact h.queues.start ht
  · intro s u hu
    rw [hpoint u (h.queues.wait_general s u hu)]
    exact h.wait_point s u hu
  · intro s u hu
    have hur := h.woken_ready s u hu
    have hut := hne u (h.queues.ready_general u hur)
    exact List.mem_append_left _ ((List.mem_erase_of_ne hut).mpr hur)
  · intro s u hu
    rw [hpoint u (h.queues.ready_general u (h.woken_ready s u hu))]
    exact h.woken_point s u hu
  · exact h.enough

/-- A completed wait takes one permit and one woken thread at most. -/
theorem Awake.completed (h : Awake m) {s : σ}
    (hp : m.point m.curThread = .user ∨ m.point m.curThread = .wait s)
    (h0 : (m.sem s).value ≠ 0) :
    Awake (completed m s
      (m.modifySem s (fun c => { c with value := c.value - 1 }))) := by
  have hwait : ∀ u, ((m.modifySem s
      (fun c => { c with value := c.value - 1 })).sem u).waitList
        = (m.sem u).waitList :=
    modifySem_field m.toManager s _ Semaphore.waitList (fun _ => rfl)
  constructor
  · exact h.queues.value s (· - 1)
  · intro u t ht
    dsimp only [Threads.completed] at ht ⊢
    rw [hwait] at ht
    rw [Function.update_of_ne (h.wait_ne_cur ht)]
    exact h.wait_point u t ht
  · exact fun u t ht => h.woken_ready u t (h.woken_erase hp ht).1
  · intro u t ht
    obtain ⟨htw, hne⟩ := h.woken_erase hp ht
    dsimp only [Threads.completed]
    rw [Function.update_of_ne hne]
    exact h.woken_point u t htw
  · intro u hu
    dsimp only [Threads.completed] at hu ⊢
    rw [hwait] at hu
    have hle := h.enough u hu
    rw [modifySem_sem]
    by_cases hus : u = s
    · subst hus
      rw [if_pos rfl, Function.update_self]
      have hpred : (m.woken u).card - 1 ≤ ((m.woken u).erase m.curThread).card :=
        Finset.pred_card_le_card_erase
      have hpos : 0 < (m.sem u).value.toNat :=
        Nat.pos_of_ne_zero (fun hz => h0 (BitVec.eq_of_toNat_eq hz))
      have hsub : ((m.sem u).value - 1).toNat = (m.sem u).value.toNat - 1 := by
        bv_omega
      dsimp only
      omega
    · rw [if_neg hus, Function.update_of_ne hus]
      exact hle

/-- A thread parks only when `value` is 0. -/
theorem Awake.parked (h : Awake m) {s : σ}
    (hp : m.point m.curThread = .user ∨ m.point m.curThread = .wait s)
    (h0 : (m.sem s).value = 0) (ho : OtherReady m.toManager) {r : Manager τ σ}
    (hr : threadDispatch (semBlock m.toManager s) = some r) :
    Awake (parked m s r) := by
  obtain ⟨next, -, hd, hq⟩ := h.queues.block_dispatch ho s
  obtain rfl := Option.some.inj (hr.symm.trans hd)
  constructor
  · exact hq
  · intro u t ht
    dsimp only [Threads.parked] at ht ⊢
    rw [switchTo_sem] at ht
    rcases mem_semBlock_waitList.mp ht with ht | ⟨rfl, rfl⟩
    · rw [Function.update_of_ne (h.wait_ne_cur ht)]
      exact h.wait_point u t ht
    · exact Function.update_self ..
  · intro u t ht
    obtain ⟨htw, hne⟩ := h.woken_erase hp ht
    dsimp only [Threads.parked]
    rw [switchTo_readyList]
    exact (List.mem_erase_of_ne hne).mpr (h.woken_ready u t htw)
  · intro u t ht
    obtain ⟨htw, hne⟩ := h.woken_erase hp ht
    dsimp only [Threads.parked]
    rw [Function.update_of_ne hne]
    exact h.woken_point u t htw
  · intro u hu
    dsimp only [Threads.parked] at hu ⊢
    rw [switchTo_sem] at hu ⊢
    rw [semBlock_value]
    by_cases hus : u = s
    · rw [hus, h0]
      exact Nat.zero_le _
    · rw [semBlock_waitList, if_neg hus] at hu
      rw [Function.update_of_ne hus]
      exact h.enough u hu

/-- A post takes the first waiter off its list. -/
theorem threadSemPost_waitList (m : Manager τ σ) (s u : σ) :
    ((threadSemPost m s).sem u).waitList
      = if u = s then (m.sem s).waitList.tail else (m.sem u).waitList := by
  rw [← semWake_waitList]
  exact modifySem_field (semWake m s) s (fun c => { c with value := c.value + 1 })
    Semaphore.waitList (fun _ => rfl) u

/-- A post puts nobody on a list. -/
theorem mem_threadSemPost_waitList {m : Manager τ σ} {s u : σ} {t : τ}
    (ht : t ∈ ((threadSemPost m s).sem u).waitList) : t ∈ (m.sem u).waitList := by
  rw [threadSemPost_waitList] at ht
  split at ht
  · next hu =>
      rw [hu]
      exact List.mem_of_mem_tail ht
  · exact ht

/-- With no thread waiting a post only adds to `value`. -/
theorem Awake.post_nil (h : Awake m) {s : σ} (hw : (m.sem s).waitList = []) :
    Awake (postStep m s) := by
  have hready : (threadSemPost m.toManager s).readyList = m.readyList := by
    unfold threadSemPost
    rw [semWake_nil hw]
    rfl
  have hwoken : (postStep m s).woken = m.woken := by
    dsimp only [postStep]
    rw [hw, List.take_nil, List.toFinset_nil, Finset.empty_union, Function.update_eq_self]
  constructor
  · exact h.queues.post s
  · exact fun u t ht => h.wait_point u t (mem_threadSemPost_waitList ht)
  · rw [hwoken]
    intro u t ht
    dsimp only [postStep]
    rw [hready]
    exact h.woken_ready u t ht
  · rw [hwoken]
    exact h.woken_point
  · rw [hwoken]
    intro u hu
    dsimp only [postStep] at hu ⊢
    rw [threadSemPost_waitList] at hu
    by_cases hus : u = s
    -- `value` may wrap here, but nobody waits on this semaphore
    · rw [if_pos hus, hw] at hu
      exact absurd rfl hu
    · rw [if_neg hus] at hu
      rw [threadSemPost_value, if_neg hus]
      exact h.enough u hu

/-- The thread a post wakes is one more for the permit it adds. -/
theorem Awake.post_cons (h : Awake m) {s : σ} {t : τ} {rest : List τ}
    (hw : (m.sem s).waitList = t :: rest) : Awake (postStep m s) := by
  have htw : t ∈ (m.sem s).waitList := by
    rw [hw]
    exact List.mem_cons_self
  have htr : t ∉ m.readyList := h.queues.wait_ready s t htw
  have hready : (threadSemPost m.toManager s).readyList = t :: m.readyList := by
    rw [← h.queues.semWake_readyList hw]
    rfl
  have hwoken : (postStep m s).woken
      = Function.update m.woken s (insert t (m.woken s)) := by
    dsimp only [postStep]
    rw [hw, List.take_succ_cons, List.take_zero, Finset.insert_eq]
    rfl
  have hmem : ∀ u v, v ∈ (postStep m s).woken u → u = s ∧ v = t ∨ v ∈ m.woken u := by
    intro u v hv
    rw [hwoken] at hv
    by_cases hus : u = s
    · subst hus
      rw [Function.update_self] at hv
      rcases Finset.mem_insert.mp hv with rfl | hv
      · exact Or.inl ⟨rfl, rfl⟩
      · exact Or.inr hv
    · rw [Function.update_of_ne hus] at hv
      exact Or.inr hv
  constructor
  · exact h.queues.post s
  · exact fun u v hv => h.wait_point u v (mem_threadSemPost_waitList hv)
  · intro u v hv
    dsimp only [postStep]
    rw [hready]
    rcases hmem u v hv with ⟨-, rfl⟩ | hv
    · exact List.mem_cons_self
    · exact List.mem_cons_of_mem _ (h.woken_ready u v hv)
  · intro u v hv
    rcases hmem u v hv with ⟨rfl, rfl⟩ | hv
    · exact h.wait_point u v htw
    · exact h.woken_point u v hv
  · intro u hu
    rw [hwoken]
    dsimp only [postStep] at hu ⊢
    rw [threadSemPost_value]
    by_cases hus : u = s
    -- a woken thread is ready, a waiting one is not: `t` is new among the woken
    · subst hus
      have hle := h.enough u (List.ne_nil_of_mem htw)
      have hfresh : t ∉ m.woken u := fun hin => htr (h.woken_ready u t hin)
      have hvalue : ((m.sem u).value + 1).toNat ≤ (m.sem u).value.toNat + 1 := by
        bv_omega
      rw [if_pos rfl, Function.update_self, Finset.card_insert_of_notMem hfresh]
      omega
    · rw [threadSemPost_waitList, if_neg hus] at hu
      rw [if_neg hus, Function.update_of_ne hus]
      exact h.enough u hu

/-- A post wakes up whom it takes off the list. -/
theorem Awake.post (h : Awake m) (s : σ) : Awake (postStep m s) := by
  cases hw : (m.sem s).waitList with
  | nil => exact h.post_nil hw
  | cons t rest => exact h.post_cons hw

/-- A tick leaves every waiter where it is: only the current thread moves, and it waits
    for nothing. -/
theorem Awake.tick {σ : Type*} {m : Machine τ σ} (h : Awake m) {r : Manager τ σ}
    (hr : threadTimeTicks m.toManager = some r) :
    Awake { m with toManager := r } := by
  obtain ⟨r', hr', hq, -, hsem, hready⟩ := h.queues.tick
  obtain rfl := Option.some.inj (hr.symm.trans hr')
  constructor
  · exact hq
  · rw [hsem]
    exact h.wait_point
  · exact fun s t ht => (hready t).mpr (h.woken_ready s t ht)
  · exact h.woken_point
  · rw [hsem]
    exact h.enough

/-- **ONE STEP** loses no wake-up. -/
theorem Awake.step {l : Label τ σ} {m' : Machine τ σ} (h : Awake m)
    (hb : BlocksWell l m) (hs : step l m = some m') : Awake m' := by
  rcases step_cases hs with ⟨t, -, ht, rfl⟩ | ⟨s, hp, hother, htest⟩ | ⟨s, -, rfl⟩ |
    ⟨-, r, hr, rfl⟩
  · exact h.start ht
  · rcases testStep_cases htest with ⟨h0, rfl⟩ | ⟨h0, r, hd, rfl⟩
    · exact h.completed hp h0
    · exact h.parked hp h0 (hother hb h0) hd
  · exact h.post s
  · exact h.tick hr

end Steps

/-- At boot nobody waits. -/
theorem init_awake {τ σ : Type*} [DecidableEq τ] (pcb : τ → ThreadPcb) (main : τ)
    (value : σ → BitVec 8) : Awake (init pcb main value) where
  queues := boot_queues pcb main value
  wait_point := fun _ _ ht => nomatch ht
  woken_ready := fun _ _ ht => nomatch ht
  woken_point := fun _ _ ht => nomatch ht
  enough := fun _ hw => absurd rfl hw

/-- While a thread sleeps on a semaphore, `value` is at most the number of
    threads that a post has woken and that have not tested it since, and these
    are on the ready list with the test still to make. -/
theorem no_lost_wakeup (pcb : τ → ThreadPcb) (main : τ) (value : σ → BitVec 8)
    {ls : List (Label τ σ)} {m : Machine τ σ}
    (h : Run step (fun l m => Room l m ∧ BlocksWell l m)
      (init pcb main value) ls m) (s : σ) (hw : (m.sem s).waitList ≠ []) :
    (m.sem s).value.toNat ≤ (m.woken s).card ∧
      ∀ t ∈ m.woken s, t ∈ m.readyList ∧ m.point t = .wait s := by
  have ha : Awake m := h.invariant (init_awake pcb main value)
    (fun l m m' hm hok hs => hm.step hok.2 hs)
  exact ⟨ha.enough s hw, fun t ht => ⟨ha.woken_ready s t ht, ha.woken_point s t ht⟩⟩

/-- Two threads wait for the permit of the main thread, which then posts. -/
def queueRun : List (Label Nat Unit) :=
  [.threadStart 1, .threadStart 2, .semWait ()] ++ List.replicate 5 .timeTicks
    ++ [.semWait (), .semWait (), .semPost ()]

private theorem queueRun_isSome :
    (exec step (fun l m => Room l m ∧ BlocksWell l m) queueRun
      (small 1)).isSome = true := by decide +kernel

/-- A run with a thread that waits and one that was woken. -/
theorem no_lost_wakeup_queue :
    ∃ m : Machine Nat Unit,
      Run step (fun l m => Room l m ∧ BlocksWell l m) (small 1) queueRun m ∧
      (m.sem ()).waitList = [2] ∧ m.woken () = {1} ∧
      (m.sem ()).value.toNat ≤ (m.woken ()).card := by
  have hrun := Run.of_isSome queueRun_isSome
  refine ⟨_, hrun, by decide +kernel, by decide +kernel, ?_⟩
  exact (no_lost_wakeup _ _ _ hrun () (by decide +kernel)).1

end LittleOS.Semaphores
