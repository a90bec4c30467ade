import LittleOS.Semaphores
import LittleOS.ThreadMemory

/-! # Runs of threads in memory

    The machine of `LittleOS.Threads` with the functions of
    `LittleOS.ThreadMemory` and the page allocator under `thread_start`.  The
    three lists, the semaphores and the main thread are set up as `klist_init`,
    `sem_init` and `main_thread_init` do.

    `thread_dispatch` does not look whether the ready list is empty, and
    `thread_start` does not look at the answer of `kalloc_pages`.  As long as
    neither shows:

    * `refines` — a run in memory is a run of `LittleOS.Threads`;
    * `wellLinked_of_run` — every `state_node` is on at most one list, the lists
      are well formed and the current thread is a created one.

    When the last ready thread blocks, `thread_dispatch` takes the tail sentinel
    of the ready list for a thread; its `status` is the word `general_list.len`,
    which is `TASK_READY` when there are two threads. -/

namespace LittleOS.ThreadRun

open Runs Words Klist KlistRun Memory Threads ThreadMemory Semaphores

/-! ## The machine -/

/-- The memory, the page allocator, where each thread goes on, and the threads
    created so far. -/
structure Machine where
  mem : Mem
  alloc : AddrAlloc
  point : Nat → Point Nat
  created : List Nat

/-- What can happen next. -/
inductive Event where
  | threadStart
  | semWait (sem : Nat)
  | semPost (sem : Nat)
  | timeTicks
  | retest
deriving DecidableEq, Repr

section Source

variable (fuel tm : Nat) (sems : List Nat)

/-- The thread that runs. -/
def Machine.cur (M : Machine) : Nat := M.mem (curThread tm)

/-- The page `thread_start` gets from `kalloc_pages(1)`. -/
def Machine.page (M : Machine) : Nat := (kallocPages M.alloc 1).1.toNat

/-- A thread started on a page of its own. -/
def startStep (M : Machine) : Option Machine :=
  (threadStart fuel tm M.mem M.page).map (fun m =>
    { mem := m
      alloc := (kallocPages M.alloc 1).2
      point := Function.update M.point M.page .user
      created := M.created ++ [M.page] })

/-- A wait up to its test, and the next test of a thread that was woken. -/
def testStep (M : Machine) (sem : Nat) : Option Machine :=
  (threadSemTest fuel tm M.mem sem).map (fun r =>
    { M with
      mem := r.1
      point := Function.update M.point (M.cur tm)
        (if r.2 then .user else .wait sem) })

/-- A post by the current thread. -/
def postStep (M : Machine) (sem : Nat) : Option Machine :=
  (threadSemPost fuel tm M.mem sem).map (fun m => { M with mem := m })

/-- A timer tick. -/
def tickStep (M : Machine) : Option Machine :=
  (threadTimeTicks fuel tm M.mem).map (fun m => { M with mem := m })

/-- The current thread can make the call from where it is. -/
def callable (e : Event) (M : Machine) : Bool :=
  match M.point (M.cur tm), e with
  | .user, .threadStart => true
  | .user, .semWait sem => decide (sem ∈ sems)
  | .user, .semPost sem => decide (sem ∈ sems)
  | .user, .timeTicks => true
  | .wait sem, .retest => decide (sem ∈ sems)
  | _, _ => false

/-- What the call does. -/
def call (e : Event) (M : Machine) : Option Machine :=
  match e with
  | .threadStart => startStep fuel tm M
  | .semWait sem => testStep fuel tm M sem
  | .semPost sem => postStep fuel tm M sem
  | .timeTicks => tickStep fuel tm M
  | .retest =>
      match M.point (M.cur tm) with
      | .user => none
      | .wait sem => testStep fuel tm M sem

/-- An event, where the current thread can cause it. -/
def step (e : Event) (M : Machine) : Option Machine :=
  if callable tm sems e M then call fuel tm e M else none

/-- `klist_init` of the lists of the manager and `sem_init` of every
    semaphore. -/
def initLists (v : Nat → BitVec 8) (m : Mem) : Mem :=
  let m := klistInit m (readyList tm)
  let m := klistInit m (sleepList tm)
  let m := klistInit m (generalList tm)
  sems.foldl (fun m sem => semInit m sem (v sem)) m

/-- The machine after its lists were made and the main thread was started. -/
def boot (v : Nat → BitVec 8) (m : Mem) (alloc : AddrAlloc) : Option Machine :=
  (mainThreadInit fuel tm (initLists tm sems v m)).map (fun m =>
    { mem := m, alloc := alloc, point := fun _ => .user
      created := [mainThread tm] })

/-! ## The condition and the property -/

/-- `klist_find` finds another thread on the ready list. -/
def FindsOther (M : Machine) : Prop :=
  ∃ t ∈ M.created, t ≠ M.cur tm ∧
    klistFind fuel M.mem (readyList tm) (stateNode t) = some (stateNode t)

/-- A thread that finds `value` 0 leaves another one on the ready list. -/
def TestsWell (sem : Nat) (M : Machine) : Prop :=
  readByte M.mem (value sem) = 0 → FindsOther fuel tm M

/-- A thread blocks only while another is ready, and the page of a new thread is
    not that of an old one. -/
def Guarded (e : Event) (M : Machine) : Prop :=
  match e with
  | .threadStart => M.page ∉ M.created
  | .semWait sem => TestsWell fuel tm sem M
  | .retest =>
      match M.point (M.cur tm) with
      | .user => True
      | .wait sem => TestsWell fuel tm sem M
  | _ => True

instance (M : Machine) : Decidable (FindsOther fuel tm M) :=
  inferInstanceAs (Decidable (∃ t ∈ M.created, _))

instance (sem : Nat) (M : Machine) : Decidable (TestsWell fuel tm sem M) :=
  inferInstanceAs (Decidable (_ → _))

instance (e : Event) (M : Machine) : Decidable (Guarded fuel tm e M) :=
  match e with
  | .threadStart => inferInstanceAs (Decidable (M.page ∉ M.created))
  | .semWait sem => inferInstanceAs (Decidable (TestsWell fuel tm sem M))
  | .semPost _ => .isTrue trivial
  | .timeTicks => .isTrue trivial
  | .retest =>
      match h : M.point (M.cur tm) with
      | .user => .isTrue (by simp only [Guarded, h])
      | .wait sem =>
          decidable_of_iff (TestsWell fuel tm sem M) (by simp only [Guarded, h])

/-- The lists a `state_node` may be on. -/
def stateLists : List Nat := readyList tm :: sleepList tm :: sems.map waitList

/-- Every list shows a sequence of `state_node`s of created threads, no node
    twice and none on two lists, and a created thread runs. -/
structure WellLinked (M : Machine) : Prop where
  lists : ∃ σ : Contents,
    (∀ l ∈ stateLists tm sems, Shows fuel M.mem l (σ l) ∧
      ∀ n ∈ σ l, ∃ t ∈ M.created, n = stateNode t) ∧
    ∀ l ∈ stateLists tm sems, ∀ l' ∈ stateLists tm sems, l ≠ l' →
      List.Disjoint (σ l) (σ l')
  cur : M.cur tm ∈ M.created

end Source

/-- Where threads may be: the main thread in the manager, a page that is free,
    and 0, the answer of `kalloc_pages` without one. -/
def threadPages (tm : Nat) (alloc : AddrAlloc) : Set Nat :=
  {t | t = mainThread tm ∨ t = 0 ∨
    ∃ i < 1023, ¬ Marked alloc i ∧ t = (pageAddr alloc i).toNat}

variable {fuel tm : Nat} {sems : List Nat}

/-- The next page is one of those threads can have. -/
theorem kalloc_mem_threadPages {alloc a : AddrAlloc} (h : Grows alloc a) :
    (kallocPages a 1).1.toNat ∈ threadPages tm alloc := by
  rcases kallocPages_spec a (Nat.le_refl 1) with he | ⟨i, hfit, he⟩
  · rw [he]
    exact Or.inr (Or.inl rfl)
  · rw [he]
    dsimp only
    by_cases hi : 1023 ≤ i
    · rw [if_pos hi]
      exact Or.inr (Or.inl rfl)
    · rw [if_neg hi]
      have hfree := hfit.fits i ⟨Nat.le_refl i, Nat.lt_succ_self i⟩ hfit.lt_bound
      refine Or.inr (Or.inr ⟨i, by omega, fun hm => hfree (h.marked i hm), ?_⟩)
      rw [pageAddr, pageAddr, h.range.2.2]

/-! ## Every step has its counterpart -/

/-- The machine in memory holds the machine on sequences. -/
structure Holds (tm : Nat) (sems : List Nat) (alloc : AddrAlloc) (M : Machine)
    (S : Threads.Machine Nat Nat) : Prop where
  memory : Represents tm sems (threadPages tm alloc) M.mem S.toManager
  point : M.point = S.point
  created : M.created = S.generalList
  grows : Grows alloc M.alloc

/-- The step of the machine on sequences. -/
def label (M : Machine) : Event → Label Nat Nat
  | .threadStart => .threadStart M.page
  | .semWait sem => .semWait sem
  | .semPost sem => .semPost sem
  | .timeTicks => .timeTicks
  | .retest => .retest

section Steps

variable {alloc : AddrAlloc} {M : Machine} {S : Threads.Machine Nat Nat}

/-- What is found in memory by walking the ready list is ready. -/
theorem Holds.findsOther (h : Holds tm sems alloc M S)
    (ho : Objects tm sems (threadPages tm alloc)) (hf : 2 ^ 29 + 2 ≤ fuel)
    (hother : FindsOther fuel tm M) : OtherReady S.toManager := by
  obtain ⟨t, ht, hne, hfind⟩ := hother
  rw [h.created] at ht
  rw [h.memory.find ho hf (mem_lists.mpr (by simp)) (h.memory.created t ht)] at hfind
  have hmem : stateNode t ∈ contents tm S.toManager (readyList tm) := by
    by_contra hn
    rw [if_neg hn] at hfind
    exact absurd (Option.some.inj hfind) (by simp)
  rw [contents_ready, stateNode_mem_map] at hmem
  exact ⟨t, hmem, fun he => hne (he.trans h.memory.cur.symm)⟩

/-- So a test in memory blocks well. -/
theorem Holds.testsWell (h : Holds tm sems alloc M S)
    (ho : Objects tm sems (threadPages tm alloc)) (hf : 2 ^ 29 + 2 ≤ fuel)
    {x : Nat} (hx : x ∈ sems) (ht : TestsWell fuel tm x M) :
    (S.sem x).value = 0 → OtherReady S.toManager := by
  intro h0
  refine h.findsOther ho hf (ht ?_)
  rw [value, h.memory.values x hx]
  exact h0

/-- A test in memory comes back and is one over lists, on either side of its branch. -/
theorem Holds.test (h : Holds tm sems alloc M S)
    (ho : Objects tm sems (threadPages tm alloc)) (hf : 2 ^ 29 + 2 ≤ fuel)
    (hq : Queues S.toManager) {x : Nat} (hx : x ∈ sems)
    (ht : TestsWell fuel tm x M) :
    ∃ M' S', testStep fuel tm M x = some M' ∧ Threads.testStep S x = some S' ∧
      Holds tm sems alloc M' S' := by
  obtain ⟨m', r, b, hm, hs, hr⟩ :=
    h.memory.threadSemTest ho hf hq hx (h.testsWell ho hf hx ht)
  refine ⟨_, _, by rw [testStep, hm]; rfl, by rw [Threads.testStep, hs]; rfl, ?_⟩
  have hcur : M.cur tm = S.curThread := h.memory.cur
  have hgen : r.generalList = S.generalList := threadSemTest_generalList hs
  cases b with
  | true =>
      refine ⟨hr, ?_, h.created.trans hgen.symm, h.grows⟩
      dsimp only [completed]
      rw [h.point, hcur]
      rfl
  | false =>
      refine ⟨hr, ?_, h.created.trans hgen.symm, h.grows⟩
      dsimp only [parked]
      rw [h.point, hcur]
      rfl

/-- A start in memory comes back and is one over lists, for a page without a thread. -/
theorem Holds.start (h : Holds tm sems alloc M S)
    (ho : Objects tm sems (threadPages tm alloc)) (hf : 2 ^ 29 + 2 ≤ fuel)
    (hq : Queues S.toManager) (hnew : M.page ∉ S.generalList) :
    ∃ M', startStep fuel tm M = some M' ∧
      Holds tm sems alloc M' (Threads.startStep S M.page) := by
  have hT : M.page ∈ threadPages tm alloc := kalloc_mem_threadPages h.grows
  obtain ⟨m', hm, hr⟩ := h.memory.threadStart ho hf hq hT hnew
  refine ⟨_, by rw [startStep, hm]; rfl, hr, ?_, ?_, ?_⟩
  · dsimp only [Threads.startStep]
    rw [h.point]
  · dsimp only
    rw [h.created]
    rfl
  · exact h.grows.trans (kallocPages_grows M.alloc (Nat.le_refl 1))

/-- A post in memory comes back and is one over lists. -/
theorem Holds.post (h : Holds tm sems alloc M S)
    (ho : Objects tm sems (threadPages tm alloc)) (hf : 2 ^ 29 + 2 ≤ fuel)
    (hq : Queues S.toManager) {x : Nat} (hx : x ∈ sems) :
    ∃ M', postStep fuel tm M x = some M' ∧
      Holds tm sems alloc M' (Threads.postStep S x) := by
  obtain ⟨m', hm, hr⟩ := h.memory.threadSemPost ho hf hq hx
  refine ⟨{ M with mem := m' }, by rw [postStep, hm]; rfl, hr, h.point, ?_, h.grows⟩
  exact h.created.trans (threadSemPost_generalList S.toManager x).symm

/-- A tick in memory comes back and is one over lists. -/
theorem Holds.tick (h : Holds tm sems alloc M S)
    (ho : Objects tm sems (threadPages tm alloc)) (hf : 2 ^ 29 + 2 ≤ fuel)
    (hq : Queues S.toManager) :
    ∃ M' r, tickStep fuel tm M = some M' ∧
      Threads.threadTimeTicks S.toManager = some r ∧
      Holds tm sems alloc M' { S with toManager := r } := by
  obtain ⟨m', r, hm, hs, hr⟩ := h.memory.threadTimeTicks ho hf hq
  refine ⟨{ M with mem := m' }, r, by rw [tickStep, hm]; rfl, hs, hr, h.point, ?_,
    h.grows⟩
  exact h.created.trans (threadTimeTicks_some hs).2.symm

/-- **EVERY STEP** that is guarded returns, and the machine on sequences makes
    it too. -/
theorem Holds.step (h : Holds tm sems alloc M S)
    (ho : Objects tm sems (threadPages tm alloc)) (hf : 2 ^ 29 + 2 ≤ fuel)
    (hq : Queues S.toManager) {e : Event} (hc : callable tm sems e M = true)
    (hg : Guarded fuel tm e M) :
    ∃ M' S', step fuel tm sems e M = some M' ∧
      Threads.step (label M e) S = some S' ∧ BlocksWell (label M e) S ∧
      Holds tm sems alloc M' S' := by
  have hpoint : M.point (M.cur tm) = S.point S.curThread := by
    have hcur : M.cur tm = S.curThread := h.memory.cur
    rw [h.point, hcur]
  unfold ThreadRun.step
  rw [if_pos hc]
  cases hp : S.point S.curThread with
  | user =>
      rw [hp] at hpoint
      cases e with
      | threadStart =>
          have hnew : M.page ∉ S.generalList := by
            rw [← h.created]
            exact hg
          obtain ⟨M', hM, hh⟩ := h.start ho hf hq hnew
          refine ⟨M', Threads.startStep S M.page, hM, ?_, trivial, hh⟩
          simp only [Threads.step, label, hp, if_neg hnew]
      | semWait x =>
          have hx : x ∈ sems := by
            simpa only [callable, hpoint, decide_eq_true_eq] using hc
          obtain ⟨M', S', hM, hS, hh⟩ := h.test ho hf hq hx hg
          refine ⟨M', S', hM, ?_, h.testsWell ho hf hx hg, hh⟩
          simp only [Threads.step, label, hp, hS]
      | semPost x =>
          have hx : x ∈ sems := by
            simpa only [callable, hpoint, decide_eq_true_eq] using hc
          obtain ⟨M', hM, hh⟩ := h.post ho hf hq hx
          refine ⟨M', Threads.postStep S x, hM, ?_, trivial, hh⟩
          simp only [Threads.step, label, hp]
      | timeTicks =>
          obtain ⟨M', r, hM, hs, hh⟩ := h.tick ho hf hq
          refine ⟨M', { S with toManager := r }, hM, ?_, trivial, hh⟩
          simp only [Threads.step, label, hp, hs, Option.map_some]
      | retest => simp only [callable, hpoint, Bool.false_eq_true] at hc
  -- in the loop of a wait a thread can only test again
  | wait x =>
      rw [hp] at hpoint
      cases e with
      | retest =>
          have hx : x ∈ sems := by
            simpa only [callable, hpoint, decide_eq_true_eq] using hc
          have ht : TestsWell fuel tm x M := by
            simpa only [Guarded, hpoint] using hg
          obtain ⟨M', S', hM, hS, hh⟩ := h.test ho hf hq hx ht
          refine ⟨M', S', ?_, ?_, ?_, hh⟩
          · simp only [call, hpoint, hM]
          · simp only [Threads.step, label, hp, hS]
          · simp only [BlocksWell, label, hp]
            exact h.testsWell ho hf hx ht
      | threadStart => simp only [callable, hpoint, Bool.false_eq_true] at hc
      | semWait y => simp only [callable, hpoint, Bool.false_eq_true] at hc
      | semPost y => simp only [callable, hpoint, Bool.false_eq_true] at hc
      | timeTicks => simp only [callable, hpoint, Bool.false_eq_true] at hc

end Steps

/-! ## The start -/

section Boot

variable {T : Set Nat} {v : Nat → BitVec 8} {m : Mem}

/-- `klist_init` of one list keeps the other empty ones. -/
theorem klistInit_keeps (ho : Objects tm sems T) {l k : Nat} (hl : l ∈ lists tm sems)
    (hk : k ∈ lists tm sems) (h : l = k ∨ IsList m l []) :
    IsList (klistInit m k) l [] := by
  by_cases hlk : l = k
  · rw [hlk]
    exact klistInit_isList m k
  · refine (h.resolve_left hlk).frame ?_
    intro w hw
    have hap := ho.layout.lists_apart l hl k hk hlk
    refine klistInit_frame ?_
    rcases hw with hw | ⟨c, hc, hw⟩
    · omega
    · rcases mem_cells.mp hc with hc | hc | hc
      · omega
      · exact nomatch hc
      · omega

/-- Initialising a semaphore empties its list and keeps the others empty. -/
theorem semInit_keeps (ho : Objects tm sems T) {l x : Nat} (hl : l ∈ lists tm sems)
    (hx : x ∈ sems) (b : BitVec 8) (h : l = waitList x ∨ IsList m l []) :
    IsList (semInit m x b) l [] := by
  refine klistInit_keeps ho hl (mem_lists.mpr (by simp [hx])) (h.imp_right ?_)
  intro hr
  have ha : Apart (lists tm sems) (nodes T) x := Field.apart (Or.inr (Or.inr hx)) ho
  have hnot : ¬ Covers l [] x := ha.not_covers hl (fun y hy => nomatch hy)
  refine hr.frame (fun w hw => Mem.write_other ?_)
  intro hwx
  rw [hwx] at hw
  exact hnot hw

/-- It sets its own counter only. -/
theorem readByte_semInit (ho : Objects tm sems T) {x y : Nat} (hx : x ∈ sems)
    (hy : y ∈ sems) (b : BitVec 8) :
    readByte (semInit m x b) y = if y = x then b else readByte m y := by
  have hoff : y < waitList x ∨ waitList x + 20 ≤ y := by
    simp only [waitList]
    by_cases hyx : y = x
    · omega
    · have := ho.sem_apart x hx y hy (Ne.symm hyx)
      omega
  rw [readByte, semInit, klistInit_frame hoff]
  by_cases hyx : y = x
  · rw [if_pos hyx, hyx]
    exact readByte_writeByte m x b
  · rw [if_neg hyx, writeByte, Mem.write_other hyx]
    rfl

/-- `sem_init` of one semaphore after another. -/
theorem semInits (ho : Objects tm sems T) :
    ∀ (xs : List Nat) (m : Mem), (∀ x ∈ xs, x ∈ sems) →
      (∀ l ∈ lists tm sems, (∃ x ∈ xs, l = waitList x) ∨ IsList m l [] →
        IsList (xs.foldl (fun m x => semInit m x (v x)) m) l []) ∧
      ∀ y ∈ sems, y ∈ xs ∨ readByte m y = v y →
        readByte (xs.foldl (fun m x => semInit m x (v x)) m) y = v y := by
  intro xs
  induction xs with
  | nil =>
      intro m _
      refine ⟨fun l _ h => h.resolve_left (by simp), fun y _ h => h.resolve_left (by simp)⟩
  | cons x xs ih =>
      intro m hxs
      have hx := hxs x List.mem_cons_self
      obtain ⟨hlist, hval⟩ := ih (semInit m x (v x))
        (fun y hy => hxs y (List.mem_cons_of_mem _ hy))
      constructor
      · intro l hl h
        refine hlist l hl ?_
        rcases h with ⟨y, hy, rfl⟩ | hr
        · rcases List.mem_cons.mp hy with rfl | hy
          · exact Or.inr (semInit_keeps ho hl hx _ (Or.inl rfl))
          · exact Or.inl ⟨y, hy, rfl⟩
        · exact Or.inr (semInit_keeps ho hl hx _ (Or.inr hr))
      · intro y hy h
        refine hval y hy ?_
        rw [readByte_semInit ho hx hy]
        by_cases hyx : y = x
        · exact Or.inr (by rw [if_pos hyx, hyx])
        · rw [if_neg hyx]
          exact h.imp_left (fun hm => (List.mem_cons.mp hm).resolve_left hyx)

/-- Whatever memory held, all lists are empty and every counter has its value. -/
theorem initLists_holds (ho : Objects tm sems T) (v : Nat → BitVec 8) (m : Mem) :
    KlistRun.Holds (lists tm sems) (nodes T) (fun _ => []) (initLists tm sems v m) ∧
      ∀ x ∈ sems, readByte (initLists tm sems v m) x = v x := by
  have hmem : ∀ l, l = generalList tm ∨ l = readyList tm ∨ l = sleepList tm →
      l ∈ lists tm sems := by
    intro l hl
    exact mem_lists.mpr (by tauto)
  have hr := hmem (readyList tm) (by simp)
  have hs := hmem (sleepList tm) (by simp)
  have hg := hmem (generalList tm) (by simp)
  obtain ⟨hlist, hval⟩ := semInits (v := v) ho sems
    (klistInit (klistInit (klistInit m (readyList tm)) (sleepList tm)) (generalList tm))
    (fun _ hx => hx)
  refine ⟨⟨?_, fun _ _ _ hx => (nomatch hx), fun _ _ => List.nodup_nil,
    fun _ _ _ _ _ => List.disjoint_nil_left _⟩, fun x hx => hval x hx (Or.inl hx)⟩
  intro l hl
  refine hlist l hl ?_
  rcases mem_lists.mp hl with rfl | rfl | rfl | ⟨x, hx, rfl⟩
  · exact Or.inr (klistInit_keeps ho hl hg (Or.inl rfl))
  · exact Or.inr (klistInit_keeps ho hl hg (Or.inr
      (klistInit_keeps ho hl hs (Or.inr (klistInit_keeps ho hl hr (Or.inl rfl))))))
  · exact Or.inr (klistInit_keeps ho hl hg (Or.inr
      (klistInit_keeps ho hl hs (Or.inl rfl))))
  · exact Or.inl ⟨x, hx, rfl⟩

/-- **THE START** returns and holds the start of the machine on sequences. -/
theorem boot_holds {alloc : AddrAlloc} (ho : Objects tm sems (threadPages tm alloc))
    (hf : 2 ^ 29 + 2 ≤ fuel) (v : Nat → BitVec 8) (m : Mem) :
    ∃ M pcb, boot fuel tm sems v m alloc = some M ∧
      Holds tm sems alloc M (init pcb (mainThread tm) v) := by
  obtain ⟨hlists, hvalues⟩ := initLists_holds ho v m
  generalize hm₀ : initLists tm sems v m = m₀ at hlists hvalues
  -- no thread is created yet
  let pcb : Nat → ThreadPcb := fun t =>
    { status := .created, ticks := BitVec.ofNat 32 (m₀ (ticks t)) }
  let s : Manager Nat Nat :=
    { curThread := m₀ (curThread tm), generalList := [], readyList := []
      sleepList := [], pcb := pcb, sem := fun x => { value := v x, waitList := [] } }
  have hcontents : ∀ l ∈ lists tm sems, contents tm s l = [] :=
    contents_eq ho rfl rfl rfl (fun _ _ => rfl)
  have h₀ : Represents tm sems (threadPages tm alloc) m₀ s :=
    { holds := hlists.congr hcontents
      cur := rfl
      created := fun _ ht => nomatch ht
      pcb := fun _ ht => nomatch ht
      values := hvalues }
  have hmain := ho.main
  have h₁ := (h₀.set_cur ho (mainThread tm)).set_status ho hmain .created
  have hpcb : HasPcb ((m₀.write (curThread tm) (mainThread tm)).write
      (status (mainThread tm)) (statusWord .created)) (mainThread tm)
      (pcb (mainThread tm)) := by
    constructor
    · exact Mem.write_same ..
    · rw [Mem.write_other (by simp only [status, ticks]; omega),
        Mem.write_other (by simp only [ticks, mainThread, curThread]; omega)]
  have hempty : ∀ l ∈ lists tm sems, l ≠ generalList tm →
      ∀ n ∈ contents tm s l, ∃ u ∈ threadPages tm alloc, n = stateNode u := by
    intro l hl _ n hn
    rw [hcontents l hl] at hn
    exact nomatch hn
  have h₂ := h₁.append_general ho hempty hmain (fun hc => nomatch hc) (by
    rw [modify_pcb, if_pos rfl]
    exact hpcb)
  obtain ⟨m₃, hm₃, h₃⟩ := h₂.threadSetReady ho hf hmain List.nodup_nil
    (fun hc => nomatch hc) (fun _ _ hc => nomatch hc)
  have h₄ := (h₃.set_ticks ho hmain taskTicksDefault).set_status ho hmain .running
  rw [modify_modify] at h₄
  have hboot : boot fuel tm sems v m alloc = some
      { mem := (m₃.write (ticks (mainThread tm)) taskTicksDefault.toNat).write
          (status (mainThread tm)) (statusWord .running)
        alloc := alloc, point := fun _ => .user, created := [mainThread tm] } := by
    unfold boot mainThreadInit
    rw [hm₀]
    dsimp only
    rw [hm₃]
    rfl
  exact ⟨_, _, hboot, h₄, rfl, rfl, Grows.refl alloc⟩

end Boot

/-! ## Runs -/

section Runs

variable {alloc : AddrAlloc} {v : Nat → BitVec 8} {m₀ : Mem} {M₀ M : Machine}
  {es : List Event}

/-- A step is made where it can be. -/
theorem callable_of_step {e : Event} {M' : Machine}
    (hs : step fuel tm sems e M = some M') : callable tm sems e M = true := by
  unfold step at hs
  by_contra hc
  rw [if_neg hc] at hs
  exact nomatch hs

/-- **REFINEMENT**: a guarded run in memory holds a run of the machine on
    sequences in which every thread that blocks leaves another one ready. -/
theorem refines (ho : Objects tm sems (threadPages tm alloc))
    (hf : 2 ^ 29 + 2 ≤ fuel) (hboot : boot fuel tm sems v m₀ alloc = some M₀)
    (h : Run (step fuel tm sems) (Guarded fuel tm) M₀ es M) :
    ∃ pcb ls S, Run Threads.step BlocksWell (init pcb (mainThread tm) v) ls S ∧
      Holds tm sems alloc M S := by
  obtain ⟨M₁, pcb, hM₁, hh₁⟩ := boot_holds ho hf v m₀
  obtain rfl := Option.some.inj (hboot.symm.trans hM₁)
  refine ⟨pcb, h.invariant (P := fun M => ∃ ls S,
    Run Threads.step BlocksWell (init pcb (mainThread tm) v) ls S ∧
      Holds tm sems alloc M S) ⟨[], _, Run.nil _, hh₁⟩ ?_⟩
  rintro e M M' ⟨ls, S, hrun, hh⟩ hg hs
  have ha := hrun.invariant (init_awake pcb (mainThread tm) v)
    (fun _ _ _ hm hb hs => hm.step hb hs)
  obtain ⟨M₂, S', hM₂, hS, hb, hh'⟩ :=
    hh.step ho hf ha.queues (callable_of_step hs) hg
  obtain rfl := Option.some.inj (hs.symm.trans hM₂)
  exact ⟨_, S', hrun.snoc hb hS, hh'⟩

/-- What the lists and `cur_thread` show where the queues are in order. -/
theorem Holds.wellLinked {S : Threads.Machine Nat Nat} (h : Holds tm sems alloc M S)
    (ho : Objects tm sems (threadPages tm alloc)) (hf : 2 ^ 29 + 2 ≤ fuel)
    (hq : Queues S.toManager) : WellLinked fuel tm sems M := by
  have hsub : ∀ l ∈ stateLists tm sems, l ∈ lists tm sems :=
    fun l hl => List.mem_cons_of_mem _ hl
  have hmap : ∀ ts : List Nat, (∀ t ∈ ts, t ∈ S.generalList) →
      ∀ n ∈ ts.map stateNode, ∃ t ∈ M.created, n = stateNode t := by
    intro ts hts n hn
    obtain ⟨t, ht, rfl⟩ := List.mem_map.mp hn
    rw [h.created]
    exact ⟨t, hts t ht, rfl⟩
  refine ⟨⟨contents tm S.toManager, ?_, ?_⟩, ?_⟩
  · intro l hl
    refine ⟨h.memory.holds.shows ho.layout (hsub l hl) hf, ?_⟩
    simp only [stateLists, List.mem_cons, List.mem_map] at hl
    rcases hl with rfl | rfl | ⟨x, hx, rfl⟩
    · rw [contents_ready]
      exact hmap _ hq.ready_general
    · rw [contents_sleep, hq.sleep_nil]
      exact fun n hn => nomatch hn
    · rw [contents_wait ho S.toManager hx]
      exact hmap _ (hq.wait_general x)
  · exact fun l hl l' hl' =>
      h.memory.holds.disjoint l (hsub l hl) l' (hsub l' hl')
  · rw [h.created, Machine.cur, h.memory.cur]
    exact hq.ready_general _ hq.cur_ready

end Runs

/-- From the start on, every run whose threads block only while another one is
    ready, and whose new threads get new pages, keeps every `state_node` on at
    most one list, the lists well formed and a created thread running; its next
    call returns, too. -/
theorem wellLinked_of_run {alloc : AddrAlloc}
    (ho : Objects tm sems (threadPages tm alloc)) (hf : 2 ^ 29 + 2 ≤ fuel)
    (v : Nat → BitVec 8) (m₀ : Mem) :
    ∃ M₀, boot fuel tm sems v m₀ alloc = some M₀ ∧
      ∀ es M, Run (step fuel tm sems) (Guarded fuel tm) M₀ es M →
        WellLinked fuel tm sems M ∧
        ∀ e, callable tm sems e M = true → Guarded fuel tm e M →
          ∃ M', step fuel tm sems e M = some M' := by
  obtain ⟨M₀, pcb, hboot, -⟩ := boot_holds ho hf v m₀
  refine ⟨M₀, hboot, fun es M hrun => ?_⟩
  obtain ⟨pcb, ls, S, hS, hh⟩ := refines ho hf hboot hrun
  have ha := hS.invariant (init_awake pcb (mainThread tm) v)
    (fun _ _ _ hm hb hs => hm.step hb hs)
  refine ⟨hh.wellLinked ho hf ha.queues, fun e hc hg => ?_⟩
  obtain ⟨M', -, hM', -⟩ := hh.step ho hf ha.queues hc hg
  exact ⟨M', hM'⟩

/-! ## Two threads -/

/-- The manager and the semaphores in the kernel below 1 MB. -/
theorem objects_of_low {alloc : AddrAlloc} (ha : FromOneMb alloc) (hlow : 56 ≤ tm)
    (htm : tm + 120 ≤ 2 ^ 20)
    (hsems : ∀ x ∈ sems, 56 ≤ x ∧ x + 24 ≤ 2 ^ 20 ∧ (x + 24 ≤ tm ∨ tm + 120 ≤ x))
    (hap : ∀ x ∈ sems, ∀ y ∈ sems, x ≠ y → x + 24 ≤ y ∨ y + 24 ≤ x) :
    Objects tm sems (threadPages tm alloc) := by
  -- a thread is the main one, at 0 or in a page from 1 MB on
  have hcases : ∀ t ∈ threadPages tm alloc, t = tm + 64 ∨ t = 0 ∨
      ∃ i < 1023, t = 4096 * (256 + i) := by
    rintro t (ht | ht | ⟨i, hi, -, ht⟩)
    · exact Or.inl ht
    · exact Or.inr (Or.inl ht)
    · refine Or.inr (Or.inr ⟨i, hi, ?_⟩)
      rw [ht, ha.addr_toNat, Nat.mod_eq_of_lt (by omega)]
  constructor
  · exact Or.inl rfl
  · intro t ht
    rcases hcases t ht with rfl | rfl | ⟨i, hi, rfl⟩ <;> omega
  · intro t ht
    rcases hcases t ht with rfl | rfl | ⟨i, hi, rfl⟩ <;> omega
  · intro t ht u hu hne
    rcases hcases t ht with rfl | rfl | ⟨i, hi, rfl⟩ <;>
      rcases hcases u hu with rfl | rfl | ⟨j, hj, rfl⟩ <;> omega
  · intro x hx
    have := hsems x hx
    omega
  · exact hap
  · intro x hx t ht
    have := hsems x hx
    rcases hcases t ht with rfl | rfl | ⟨i, hi, rfl⟩ <;> omega

/-- A manager, a semaphore and eight free pages. -/
def smallManager : Nat := 0x20000

/-- One semaphore. -/
def smallSems : List Nat := [0x21000]

/-- An allocator of eight pages. -/
def smallAlloc : AddrAlloc :=
  allocInit (fun _ => 0) (8 * memPageSize) memKernelfreeStart memUserfreeStart memPageSize

/-- The manager, the semaphore and the pages are apart in memory. -/
theorem small_objects :
    Objects smallManager smallSems (threadPages smallManager smallAlloc) := by
  refine objects_of_low ⟨rfl, allocInit_count_lt _ _ _ _⟩ (by decide) (by decide) ?_ ?_
  · decide
  · decide

/-- The start with the semaphore at 0. -/
def smallBoot : Option Machine :=
  boot (2 ^ 29 + 2) smallManager smallSems (fun _ => 0) (fun _ => 0) smallAlloc

/-- The main thread waits, the other one posts and hands over. -/
def handOverRun : List Event :=
  [.threadStart, .semWait 0x21000, .semPost 0x21000] ++ List.replicate 5 .timeTicks
    ++ [.retest]

private theorem handOverRun_isSome :
    (smallBoot.bind (exec (step (2 ^ 29 + 2) smallManager smallSems)
      (Guarded (2 ^ 29 + 2) smallManager) handOverRun)).isSome = true := by
  decide +kernel

/-- A run in which a permit is handed over, with its lists well linked. -/
theorem wellLinked_of_handOverRun :
    ∃ M₀ M, smallBoot = some M₀ ∧
      Run (step (2 ^ 29 + 2) smallManager smallSems) (Guarded (2 ^ 29 + 2) smallManager)
        M₀ handOverRun M ∧
      WellLinked (2 ^ 29 + 2) smallManager smallSems M := by
  obtain ⟨M₀, hboot, hall⟩ := wellLinked_of_run small_objects
    (Nat.le_refl (2 ^ 29 + 2)) (fun _ => 0) (fun _ => 0)
  have hsome := handOverRun_isSome
  rw [smallBoot, hboot, Option.bind_some] at hsome
  have hrun := Run.of_isSome hsome
  exact ⟨M₀, _, hboot, hrun, (hall _ _ hrun).1⟩

/-- Both threads wait. -/
def bothWaitRun : List Event := [.threadStart, .semWait 0x21000, .semWait 0x21000]

private theorem bothWaitRun_cur :
    (smallBoot.bind (exec (step (2 ^ 29 + 2) smallManager smallSems)
      (fun _ _ => True) bothWaitRun)).map
        (fun M => (M.cur smallManager, M.created))
      = some (smallManager - 8, [smallManager + 64, 0x100000]) := by
  decide +kernel

/-- When both of two threads wait, `thread_dispatch` makes the tail sentinel of
    the ready list the current thread. -/
theorem sentinel_runs :
    ¬ ∀ (fuel tm : Nat) (sems : List Nat) (alloc : AddrAlloc) (v : Nat → BitVec 8)
        (m₀ : Mem) (M₀ M : Machine) (es : List Event),
      Objects tm sems (threadPages tm alloc) → 2 ^ 29 + 2 ≤ fuel →
      boot fuel tm sems v m₀ alloc = some M₀ →
      Run (step fuel tm sems) (fun _ _ => True) M₀ es M →
      WellLinked fuel tm sems M := by
  intro hall
  obtain ⟨M, hM, hcur⟩ := Option.map_eq_some_iff.mp bothWaitRun_cur
  obtain ⟨M₀, hboot, hexec⟩ := Option.bind_eq_some_iff.mp hM
  have hwell := hall _ _ _ _ _ _ M₀ M _ small_objects (Nat.le_refl (2 ^ 29 + 2)) hboot
    (Run.of_exec hexec)
  obtain ⟨hc, hcreated⟩ := Prod.mk.inj hcur
  have hmem := hwell.cur
  rw [hc, hcreated] at hmem
  exact absurd hmem (by decide)

end LittleOS.ThreadRun
