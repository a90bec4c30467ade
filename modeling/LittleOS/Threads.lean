import Mathlib.Data.Finset.Card
import Mathlib.Data.List.Nodup
import LittleOS.Lib.Runs

/-! # Threads and semaphores on sequences

    `task_old.c` keeps the threads of `thread_manager` on a ready list whose
    first member `thread_dispatch` runs next; `sync.c` builds counting
    semaphores on it.  Here a list is the sequence of the threads it holds, a
    thread is named by its address and a semaphore by its own, any types with
    decidable equality.

    * `thread_sem_wait` gives up the processor in the middle of its loop.  A
      thread in the loop is at `Point.wait`; the test of `value` it makes when
      it runs again is the step `retest`.
    * Both calls run with interrupts off, so a tick falls only on a thread in
      its own code.
    * The current thread stays on the ready list while it runs.
    * `thread_FIFO` of an empty ready list reads the tail sentinel, which is no
      thread: there `threadDispatch` has no answer.  `LittleOS.ThreadMemory`
      has what the code does.

    `holders` and `woken` are history: the threads with a completed wait that
    no post has matched, one entry for each such wait, and the threads a post
    has taken from the wait list that have not tested `value` since. -/

namespace LittleOS.Threads

open Runs

/-- `task_status`. -/
inductive TaskStatus where
  | running
  | created
  | ready
  | blocked
  | waiting
  | hanging
  | sleep
  | died
deriving DecidableEq, Repr

/-- The scheduling fields of `thread_pcb_t`. -/
structure ThreadPcb where
  status : TaskStatus
  ticks : BitVec 32
deriving DecidableEq

/-- `semaphore_t`. -/
structure Semaphore (τ : Type*) where
  value : BitVec 8
  waitList : List τ

/-- `TASK_TICKS_DEFAULT`. -/
def taskTicksDefault : BitVec 32 := 5

/-- `thread_manager_t` with the threads it manages and the semaphores. -/
structure Manager (τ σ : Type*) where
  curThread : τ
  generalList : List τ
  readyList : List τ
  sleepList : List τ
  pcb : τ → ThreadPcb
  sem : σ → Semaphore τ

variable {τ σ : Type*} [DecidableEq τ] [DecidableEq σ]

/-- Change the fields of one thread. -/
def Manager.modify (m : Manager τ σ) (pcb : τ) (f : ThreadPcb → ThreadPcb) :
    Manager τ σ :=
  { m with pcb := Function.update m.pcb pcb (f (m.pcb pcb)) }

/-- Change one semaphore. -/
def Manager.modifySem (m : Manager τ σ) (sem : σ)
    (f : Semaphore τ → Semaphore τ) : Manager τ σ :=
  { m with sem := Function.update m.sem sem (f (m.sem sem)) }

/-! ## The functions -/

/-- `thread_push_ready`: the thread comes first. -/
def threadPushReady (m : Manager τ σ) (pcb : τ) : Manager τ σ :=
  { m with readyList := pcb :: m.readyList.erase pcb }.modify pcb
    (fun c => { c with status := .ready })

/-- `thread_set_ready`: the thread comes last. -/
def threadSetReady (m : Manager τ σ) (pcb : τ) : Manager τ σ :=
  { m with readyList := m.readyList.erase pcb ++ [pcb] }.modify pcb
    (fun c => { c with status := .ready })

/-- `thread_dispatch`, up to the switch: it does not return where no thread is ready. -/
def threadDispatch (m : Manager τ σ) : Option (Manager τ σ) :=
  match m.readyList with
  | [] => none
  | next :: _ =>
      if next ≠ m.curThread ∧ (m.pcb next).status = .ready then
        some ({ m with curThread := next }.modify next
          (fun c => { c with status := .running }))
      else some m

/-- The body of the loop of `thread_sem_wait` up to `thread_dispatch`. -/
def semBlock (m : Manager τ σ) (sem : σ) : Manager τ σ :=
  let cur := m.curThread
  let m := { m with readyList := m.readyList.erase cur
                    sleepList := m.sleepList.erase cur }
  let m := m.modifySem sem (fun c => { c with waitList := c.waitList ++ [cur] })
  m.modify cur (fun c => { c with status := .blocked })

/-- `thread_sem_wait` from a test of its loop on: the wait is complete, or the
    thread has given up the processor. -/
def threadSemTest (m : Manager τ σ) (sem : σ) : Option (Manager τ σ × Bool) :=
  if (m.sem sem).value = 0 then
    (threadDispatch (semBlock m sem)).map (fun m => (m, false))
  else
    some (m.modifySem sem (fun c => { c with value := c.value - 1 }), true)

/-- The part of `thread_sem_post` that wakes the first waiting thread. -/
def semWake (m : Manager τ σ) (sem : σ) : Manager τ σ :=
  match (m.sem sem).waitList with
  | [] => m
  | pcb :: rest =>
      threadPushReady (m.modifySem sem (fun c => { c with waitList := rest })) pcb

/-- `thread_sem_post` -/
def threadSemPost (m : Manager τ σ) (sem : σ) : Manager τ σ :=
  (semWake m sem).modifySem sem (fun c => { c with value := c.value + 1 })

/-- The branch of `thread_time_ticks` at the end of a slice, before its
    `thread_dispatch`. -/
def sliceEnd (m : Manager τ σ) : Manager τ σ :=
  (threadSetReady m m.curThread).modify m.curThread
    (fun c => { c with ticks := taskTicksDefault })

/-- `thread_time_ticks`: the slice is counted down before it is tested. -/
def threadTimeTicks (m : Manager τ σ) : Option (Manager τ σ) :=
  let m := m.modify m.curThread (fun c => { c with ticks := c.ticks - 1 })
  if (m.pcb m.curThread).ticks.toInt ≤ 0 then threadDispatch (sliceEnd m)
  else some m

/-- `thread_start` with the page it was given. -/
def threadStart (m : Manager τ σ) (thread : τ) : Manager τ σ :=
  let m := m.modify thread
    (fun _ => { status := .created, ticks := taskTicksDefault })
  threadSetReady { m with generalList := m.generalList ++ [thread] } thread

/-- `main_thread_init` after `klist_init` of the three lists and `sem_init` of
    every semaphore. -/
def boot (pcb : τ → ThreadPcb) (main : τ) (value : σ → BitVec 8) : Manager τ σ :=
  (threadSetReady
    { curThread := main, generalList := [main], readyList := [], sleepList := []
      pcb := pcb, sem := fun s => { value := value s, waitList := [] } } main).modify
    main (fun _ => { status := .running, ticks := taskTicksDefault })

/-! ## The machine -/

/-- Where a thread goes on: in its own code, or in the loop of
    `thread_sem_wait`. -/
inductive Point (σ : Type*) where
  | user
  | wait (sem : σ)
deriving DecidableEq, Repr

/-- The manager with where each thread stands, who holds each semaphore's permits and
    who was woken. -/
structure Machine (τ σ : Type*) extends Manager τ σ where
  point : τ → Point σ
  holders : σ → List τ
  woken : σ → Finset τ

/-- What can happen next. -/
inductive Label (τ σ : Type*) where
  | threadStart (thread : τ)
  | semWait (sem : σ)
  | semPost (sem : σ)
  | timeTicks
  | retest
deriving DecidableEq, Repr

/-- The current thread has its permit and returns to its own code. -/
def completed (m : Machine τ σ) (sem : σ) (r : Manager τ σ) : Machine τ σ where
  toManager := r
  point := Function.update m.point m.curThread .user
  holders := Function.update m.holders sem (m.curThread :: m.holders sem)
  woken := Function.update m.woken sem ((m.woken sem).erase m.curThread)

/-- The current thread is on the wait list and will test again. -/
def parked (m : Machine τ σ) (sem : σ) (r : Manager τ σ) : Machine τ σ where
  toManager := r
  point := Function.update m.point m.curThread (.wait sem)
  holders := m.holders
  woken := Function.update m.woken sem ((m.woken sem).erase m.curThread)

/-- The current thread tests `value`. -/
def testStep (m : Machine τ σ) (sem : σ) : Option (Machine τ σ) :=
  (threadSemTest m.toManager sem).map (fun r =>
    if r.2 then completed m sem r.1 else parked m sem r.1)

/-- A post: the poster gives a permit back and the first waiter is woken. -/
def postStep (m : Machine τ σ) (sem : σ) : Machine τ σ :=
  { toManager := threadSemPost m.toManager sem
    point := m.point
    holders := Function.update m.holders sem ((m.holders sem).erase m.curThread)
    woken := Function.update m.woken sem
      (((m.sem sem).waitList.take 1).toFinset ∪ m.woken sem) }

/-- A thread started from another one. -/
def startStep (m : Machine τ σ) (thread : τ) : Machine τ σ :=
  { m with toManager := threadStart m.toManager thread
           point := Function.update m.point thread .user }

/-- The threads run one at a time, each from where it is. -/
def step (l : Label τ σ) (m : Machine τ σ) : Option (Machine τ σ) :=
  match m.point m.curThread, l with
  | .user, .threadStart thread =>
      if thread ∈ m.generalList then none else some (startStep m thread)
  | .user, .semWait sem => testStep m sem
  | .user, .semPost sem => some (postStep m sem)
  | .user, .timeTicks =>
      (threadTimeTicks m.toManager).map (fun r => { m with toManager := r })
  | .wait sem, .retest => testStep m sem
  | _, _ => none

/-- The machine after boot, with the main thread alone. -/
def init (pcb : τ → ThreadPcb) (main : τ) (value : σ → BitVec 8) : Machine τ σ where
  toManager := boot pcb main value
  point := fun _ => .user
  holders := fun _ => []
  woken := fun _ => ∅

/-! ## What each function changes -/

section Modify

variable {τ σ : Type*} [DecidableEq τ] (m : Manager τ σ) (t : τ)
  (f : ThreadPcb → ThreadPcb)

@[simp] theorem modify_curThread : (m.modify t f).curThread = m.curThread := rfl
@[simp] theorem modify_generalList : (m.modify t f).generalList = m.generalList := rfl
@[simp] theorem modify_readyList : (m.modify t f).readyList = m.readyList := rfl
@[simp] theorem modify_sleepList : (m.modify t f).sleepList = m.sleepList := rfl
@[simp] theorem modify_sem : (m.modify t f).sem = m.sem := rfl

/-- A change of a thread is seen at that thread. -/
theorem modify_pcb (u : τ) :
    (m.modify t f).pcb u = if u = t then f (m.pcb t) else m.pcb u :=
  Function.update_apply ..

/-- Two changes of one thread are one change. -/
theorem modify_modify (g : ThreadPcb → ThreadPcb) :
    (m.modify t f).modify t g = m.modify t (fun c => g (f c)) := by
  simp [Manager.modify]

/-- Making ready touches no semaphore. -/
@[simp] theorem threadPushReady_sem : (threadPushReady m t).sem = m.sem := rfl

end Modify

section ModifySem

variable {τ σ : Type*} [DecidableEq σ] (m : Manager τ σ) (s : σ)
  (g : Semaphore τ → Semaphore τ)

/-- A change of a semaphore leaves the rest of the manager. -/
@[simp] theorem modifySem_curThread :
    (m.modifySem s g).curThread = m.curThread := rfl
@[simp] theorem modifySem_generalList :
    (m.modifySem s g).generalList = m.generalList := rfl
@[simp] theorem modifySem_readyList :
    (m.modifySem s g).readyList = m.readyList := rfl
@[simp] theorem modifySem_sleepList :
    (m.modifySem s g).sleepList = m.sleepList := rfl
@[simp] theorem modifySem_pcb : (m.modifySem s g).pcb = m.pcb := rfl

/-- A change of a semaphore is seen at that semaphore. -/
theorem modifySem_sem (u : σ) :
    (m.modifySem s g).sem u = if u = s then g (m.sem s) else m.sem u :=
  Function.update_apply ..

/-- A change that keeps one field of a semaphore keeps it of all. -/
theorem modifySem_field {β : Type*} (p : Semaphore τ → β) (hg : ∀ c, p (g c) = p c)
    (u : σ) : p ((m.modifySem s g).sem u) = p (m.sem u) := by
  rw [modifySem_sem]
  split
  · next hu => rw [hg, hu]
  · rfl

end ModifySem

section Dispatch

variable {τ σ : Type*} [DecidableEq τ]

/-- The switch of `thread_dispatch` to `next`, unless it runs already. -/
def switchTo (m : Manager τ σ) (next : τ) : Manager τ σ :=
  if next = m.curThread then m
  else { m with curThread := next }.modify next (fun c => { c with status := .running })

section Switch

variable (m : Manager τ σ) (next : τ)

/-- After a switch the next thread is the current one. -/
@[simp] theorem switchTo_curThread : (switchTo m next).curThread = next := by
  unfold switchTo
  split
  · next h => exact h.symm
  · rfl

/-- A switch leaves the list of all threads. -/
@[simp] theorem switchTo_generalList :
    (switchTo m next).generalList = m.generalList := by
  unfold switchTo
  split <;> rfl

/-- A switch leaves the ready list. -/
@[simp] theorem switchTo_readyList :
    (switchTo m next).readyList = m.readyList := by
  unfold switchTo
  split <;> rfl

/-- A switch leaves the sleep list. -/
@[simp] theorem switchTo_sleepList :
    (switchTo m next).sleepList = m.sleepList := by
  unfold switchTo
  split <;> rfl

/-- A switch leaves the semaphores. -/
@[simp] theorem switchTo_sem : (switchTo m next).sem = m.sem := by
  unfold switchTo
  split <;> rfl

/-- A switch changes only the thread it goes to. -/
theorem switchTo_pcb_of_ne {t : τ} (h : t ≠ next) :
    (switchTo m next).pcb t = m.pcb t := by
  unfold switchTo
  split
  · rfl
  · rw [modify_pcb, if_neg h]

end Switch

/-- What a dispatch does where a thread is ready: it switches to the first one if that
    is not the current one and is marked ready. -/
theorem threadDispatch_cons {m : Manager τ σ} {next : τ} {rest : List τ}
    (hr : m.readyList = next :: rest) :
    threadDispatch m
      = if next ≠ m.curThread ∧ (m.pcb next).status = .ready then
          some ({ m with curThread := next }.modify next
            (fun c => { c with status := .running }))
        else some m := by
  unfold threadDispatch
  split
  · next h => exact nomatch h.symm.trans hr
  · next h =>
      obtain ⟨rfl, rfl⟩ := List.cons.inj (h.symm.trans hr)
      rfl

/-- Where the first thread of the ready list is `TASK_READY` or runs already,
    `thread_dispatch` runs it next. -/
theorem threadDispatch_eq {m : Manager τ σ} {next : τ} {rest : List τ}
    (hr : m.readyList = next :: rest)
    (hs : next ≠ m.curThread → (m.pcb next).status = .ready) :
    threadDispatch m = some (switchTo m next) := by
  rw [threadDispatch_cons hr]
  unfold switchTo
  by_cases hc : next = m.curThread
  · rw [if_neg (fun h => h.1 hc), if_pos hc]
  · rw [if_pos ⟨hc, hs hc⟩, if_neg hc]

/-- `thread_dispatch` switches to some thread, or to the current one. -/
theorem threadDispatch_some {m r : Manager τ σ} (h : threadDispatch m = some r) :
    ∃ next, r = switchTo m next := by
  unfold threadDispatch at h
  split at h
  · exact nomatch h
  · next next rest hr =>
      split at h
      · next hc =>
          refine ⟨next, ?_⟩
          rw [switchTo, if_neg hc.1]
          exact (Option.some.inj h).symm
      · refine ⟨m.curThread, ?_⟩
        rw [switchTo, if_pos rfl]
        exact (Option.some.inj h).symm

/-- A dispatch leaves the semaphores. -/
theorem threadDispatch_sem {m r : Manager τ σ} (h : threadDispatch m = some r) :
    r.sem = m.sem := by
  obtain ⟨next, rfl⟩ := threadDispatch_some h
  exact switchTo_sem m next

/-- A dispatch leaves the list of all threads. -/
theorem threadDispatch_generalList {m r : Manager τ σ}
    (h : threadDispatch m = some r) : r.generalList = m.generalList := by
  obtain ⟨next, rfl⟩ := threadDispatch_some h
  exact switchTo_generalList m next

/-- A tick leaves the semaphores and the list of all threads. -/
theorem threadTimeTicks_some {m r : Manager τ σ} (h : threadTimeTicks m = some r) :
    r.sem = m.sem ∧ r.generalList = m.generalList := by
  unfold threadTimeTicks at h
  dsimp only at h
  split at h
  · exact ⟨(threadDispatch_sem h).trans rfl, (threadDispatch_generalList h).trans rfl⟩
  · rw [← Option.some.inj h]
    exact ⟨rfl, rfl⟩

/-- A post leaves the list of all threads. -/
theorem threadSemPost_generalList [DecidableEq σ] (m : Manager τ σ) (sem : σ) :
    (threadSemPost m sem).generalList = m.generalList := by
  unfold threadSemPost semWake
  split <;> rfl

/-- A wait leaves the list of all threads, whichever way its test goes. -/
theorem threadSemTest_generalList [DecidableEq σ] {m r : Manager τ σ} {sem : σ}
    {b : Bool} (h : threadSemTest m sem = some (r, b)) :
    r.generalList = m.generalList := by
  unfold threadSemTest at h
  split at h
  · obtain ⟨r', hd, he⟩ := Option.map_eq_some_iff.mp h
    rw [← (Prod.mk.inj he).1]
    exact (threadDispatch_generalList hd).trans rfl
  · rw [← (Prod.mk.inj (Option.some.inj h)).1]
    rfl

end Dispatch

end LittleOS.Threads
