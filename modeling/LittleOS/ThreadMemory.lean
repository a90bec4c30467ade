import LittleOS.KlistRun
import LittleOS.Memory
import LittleOS.ThreadQueues

/-! # Threads and semaphores in memory

    The functions of `LittleOS.Threads` over the word memory of
    `LittleOS.Klist`, with the layouts of `task_old.h` and `sync.h`; a thread
    and a semaphore are their addresses:

        thread_pcb_t + 0   kstack       thread_manager_t + 0   cur_thread
        thread_pcb_t + 4   name         thread_manager_t + 4   general_list
        thread_pcb_t + 24  priority     thread_manager_t + 24  ready_list
        thread_pcb_t + 28  status       thread_manager_t + 44  sleep_list
        thread_pcb_t + 32  stack_magic  thread_manager_t + 64  main_thread
        thread_pcb_t + 36  ticks        thread_manager_t + 120
        thread_pcb_t + 40  state_node   semaphore_t + 0        value
        thread_pcb_t + 48  general_node semaphore_t + 4        wait_list
        thread_pcb_t + 56               semaphore_t + 24

    `KERNEL_DEBUG` is not defined, so `ASSERT` is empty.  The name, priority,
    magic number and stack that `thread_start` writes are read by none of these
    functions and left out; a thread switch is the write of `cur_thread`.

    * `Represents` — the memory holds the lists, statuses, ticks and values of a
      manager of `LittleOS.Threads`;
    * one theorem for each function: it keeps this, with the function of
      `LittleOS.Threads` on the other side. -/

namespace LittleOS.ThreadMemory

open Words Klist KlistRun Threads

/-! ## Layouts -/

abbrev status (pcb : Nat) : Nat := pcb + 28
abbrev ticks (pcb : Nat) : Nat := pcb + 36
abbrev stateNode (pcb : Nat) : Nat := pcb + 40
abbrev generalNode (pcb : Nat) : Nat := pcb + 48

abbrev curThread (tm : Nat) : Nat := tm
abbrev generalList (tm : Nat) : Nat := tm + 4
abbrev readyList (tm : Nat) : Nat := tm + 24
abbrev sleepList (tm : Nat) : Nat := tm + 44
abbrev mainThread (tm : Nat) : Nat := tm + 64

abbrev value (sem : Nat) : Nat := sem
abbrev waitList (sem : Nat) : Nat := sem + 4

/-- The values of `task_status`. -/
def statusWord : TaskStatus → Nat
  | .running => 0
  | .created => 1
  | .ready => 2
  | .blocked => 3
  | .waiting => 4
  | .hanging => 5
  | .sleep => 6
  | .died => 7

/-- `KLIST_STRUCT_ADDR(node, thread_pcb_t, state_node)`. -/
def klistStructAddr (node : Nat) : Nat :=
  if node ≠ 0 then (node + (2 ^ 32 - 40)) % 2 ^ 32 else 0

/-- The byte at `a`, the lowest of its word. -/
def readByte (m : Mem) (a : Nat) : BitVec 8 := BitVec.ofNat 8 (m a)

/-- A byte stored in the low byte of its word. -/
def writeByte (m : Mem) (a : Nat) (v : BitVec 8) : Mem :=
  m.write a (m a / 256 * 256 + v.toNat)

/-- The byte that was stored is read back. -/
@[simp] theorem readByte_writeByte (m : Mem) (a : Nat) (v : BitVec 8) :
    readByte (writeByte m a v) a = v := by
  apply BitVec.eq_of_toNat_eq
  have hv := v.isLt
  rw [readByte, writeByte, Mem.write_same, BitVec.toNat_ofNat]
  omega

/-! ## The functions -/

section Source

variable (fuel tm : Nat)

/-- `thread_push_ready` -/
def threadPushReady (m : Mem) (pcb : Nat) : Option Mem :=
  (klistRemove fuel m (readyList tm) (stateNode pcb)).map (fun r =>
    klistPush (r.1.write (status pcb) (statusWord .ready)) (readyList tm)
      (stateNode pcb))

/-- `thread_set_ready` -/
def threadSetReady (m : Mem) (pcb : Nat) : Option Mem :=
  (klistRemove fuel m (readyList tm) (stateNode pcb)).map (fun r =>
    klistAppend (r.1.write (status pcb) (statusWord .ready)) (readyList tm)
      (stateNode pcb))

/-- `thread_FIFO`: of an empty list it is the structure around the tail sentinel. -/
def threadFIFO (m : Mem) : Nat :=
  klistStructAddr (klistGetFirstNode m (readyList tm))

/-- `thread_dispatch`, up to the switch. -/
def threadDispatch (m : Mem) : Mem :=
  let cur := m (curThread tm)
  let next := threadFIFO tm m
  if next ≠ cur ∧ m (status next) = statusWord .ready then
    (m.write (curThread tm) next).write (status next) (statusWord .running)
  else m

/-- `thread_set_block` -/
def threadSetBlock (m : Mem) (pcb : Nat) : Mem :=
  threadDispatch tm (m.write (status pcb) (statusWord .blocked))

/-- `thread_sem_wait` from a test of its loop on, with the answer whether the
    wait is complete. -/
def threadSemTest (m : Mem) (sem : Nat) : Option (Mem × Bool) :=
  let cur := m (curThread tm)
  if readByte m (value sem) = 0 then
    (klistFind fuel m (waitList sem) (stateNode cur)).bind (fun _ =>
      (klistRemove fuel m (readyList tm) (stateNode cur)).bind (fun r =>
        (klistRemove fuel r.1 (sleepList tm) (stateNode cur)).map (fun r =>
          (threadSetBlock tm (klistAppend r.1 (waitList sem) (stateNode cur)) cur,
            false))))
  else some (writeByte m (value sem) (readByte m (value sem) - 1), true)

/-- The part of `thread_sem_post` that wakes the first waiting thread. -/
def semWake (m : Mem) (sem : Nat) : Option Mem :=
  if klistLen m (waitList sem) = 0 then some m
  else
    let node := klistGetFirstNode m (waitList sem)
    let pcb := klistStructAddr node
    (klistRemove fuel m (waitList sem) node).bind
      (fun r => threadPushReady fuel tm r.1 pcb)

/-- `thread_sem_post` -/
def threadSemPost (m : Mem) (sem : Nat) : Option Mem :=
  (semWake fuel tm m sem).map (fun m =>
    writeByte m (value sem) (readByte m (value sem) + 1))

/-- `thread_time_ticks` -/
def threadTimeTicks (m : Mem) : Option Mem :=
  let cur := m (curThread tm)
  let left := BitVec.ofNat 32 (m (ticks cur)) - 1
  let m := m.write (ticks cur) left.toNat
  if left.toInt ≤ 0 then
    (threadSetReady fuel tm m cur).map (fun m =>
      threadDispatch tm (m.write (ticks cur) taskTicksDefault.toNat))
  else some m

/-- `thread_start` from `kthread_init` on. -/
def threadStart (m : Mem) (thread : Nat) : Option Mem :=
  let m := m.write (status thread) (statusWord .created)
  let m := m.write (ticks thread) taskTicksDefault.toNat
  threadSetReady fuel tm (klistAppend m (generalList tm) (generalNode thread)) thread

/-- `sem_init` -/
def semInit (m : Mem) (sem : Nat) (v : BitVec 8) : Mem :=
  klistInit (writeByte m (value sem) v) (waitList sem)

/-- `main_thread_init`. -/
def mainThreadInit (m : Mem) : Option Mem :=
  let m := m.write (curThread tm) (mainThread tm)
  let m := m.write (status (mainThread tm)) (statusWord .created)
  let m := klistAppend m (generalList tm) (generalNode (mainThread tm))
  (threadSetReady fuel tm m (mainThread tm)).map (fun m =>
    (m.write (ticks (mainThread tm)) taskTicksDefault.toNat).write
      (status (mainThread tm)) (statusWord .running))

end Source

/-! ## Threads and semaphores in memory -/

/-- The manager, the threads and the semaphores are disjoint objects of a
    32-bit memory. -/
structure Objects (tm : Nat) (sems : List Nat) (T : Set Nat) : Prop where
  main : mainThread tm ∈ T
  bound : ∀ t ∈ T, t + 56 ≤ 2 ^ 32
  off_manager : ∀ t ∈ T, t + 56 ≤ tm ∨ tm + 64 ≤ t
  apart : ∀ t ∈ T, ∀ u ∈ T, t ≠ u → t + 56 ≤ u ∨ u + 56 ≤ t
  sem_manager : ∀ x ∈ sems, x + 24 ≤ tm ∨ tm + 64 ≤ x
  sem_apart : ∀ x ∈ sems, ∀ y ∈ sems, x ≠ y → x + 24 ≤ y ∨ y + 24 ≤ x
  sem_thread : ∀ x ∈ sems, ∀ t ∈ T, x + 24 ≤ t ∨ t + 56 ≤ x

/-- Every list of the manager and of the semaphores. -/
def lists (tm : Nat) (sems : List Nat) : List Nat :=
  generalList tm :: readyList tm :: sleepList tm :: sems.map waitList

/-- Both nodes of every thread. -/
def nodes (T : Set Nat) : Set Nat := {n | ∃ t ∈ T, n = stateNode t ∨ n = generalNode t}

/-- The nodes on each list. -/
def contents (tm : Nat) (s : Manager Nat Nat) : Contents := fun l =>
  if l = generalList tm then s.generalList.map generalNode
  else if l = readyList tm then s.readyList.map stateNode
  else if l = sleepList tm then s.sleepList.map stateNode
  else (s.sem (l - 4)).waitList.map stateNode

/-- The lists are the manager's three and one for each semaphore. -/
theorem mem_lists {tm l : Nat} {sems : List Nat} :
    l ∈ lists tm sems ↔ l = generalList tm ∨ l = readyList tm ∨ l = sleepList tm ∨
      ∃ x ∈ sems, l = waitList x := by
  simp only [lists, List.mem_cons, List.mem_map, eq_comm (a := l)]

variable {tm : Nat} {sems : List Nat} {T : Set Nat}

/-- Each thread has a state node of its own. -/
theorem stateNode_injective : Function.Injective stateNode := by
  intro t u h
  simp only [stateNode] at h
  omega

/-- Each thread has a general node of its own. -/
theorem generalNode_injective : Function.Injective generalNode := by
  intro t u h
  simp only [generalNode] at h
  omega

/-- The status can be read off its word. -/
theorem statusWord_injective : Function.Injective statusWord := by
  intro a b h
  cases a <;> cases b <;> first | rfl | exact absurd h (by decide)

namespace Objects

/-- The two nodes of threads are different ones. -/
theorem stateNode_ne (ho : Objects tm sems T) {t u : Nat} (ht : t ∈ T)
    (hu : u ∈ T) : stateNode t ≠ generalNode u := by
  intro he
  simp only [stateNode, generalNode] at he
  have := ho.apart t ht u hu (by omega)
  omega

/-- The lists and the nodes of all threads are apart in memory. -/
theorem layout (ho : Objects tm sems T) : Layout (lists tm sems) (nodes T) where
  list_pos := by
    intro l hl
    rcases mem_lists.mp hl with rfl | rfl | rfl | ⟨x, -, rfl⟩ <;> simp
  node_pos := by
    rintro n ⟨t, -, rfl | rfl⟩ <;> simp
  node_end := by
    rintro n ⟨t, ht, hn⟩
    have := ho.bound t ht
    simp only [stateNode, generalNode] at hn
    omega
  lists_apart := by
    intro l hl l' hl' hne
    -- the lists of the manager lie within its first 64 bytes
    have hsplit : ∀ k ∈ lists tm sems,
        (k = tm + 4 ∨ k = tm + 24 ∨ k = tm + 44) ∨ ∃ x ∈ sems, k = x + 4 := by
      intro k hk
      have := mem_lists.mp hk
      tauto
    rcases hsplit l hl with hm | ⟨x, hx, hx4⟩ <;>
      rcases hsplit l' hl' with hm' | ⟨y, hy, hy4⟩
    · omega
    · have := ho.sem_manager y hy
      omega
    · have := ho.sem_manager x hx
      omega
    · have := ho.sem_apart x hx y hy (by omega)
      omega
  nodes_apart := by
    rintro n ⟨t, ht, hn⟩ n' ⟨u, hu, hn'⟩ hne
    simp only [stateNode, generalNode] at hn hn'
    by_cases htu : t = u
    · omega
    · have := ho.apart t ht u hu htu
      omega
  off_lists := by
    rintro n ⟨t, ht, hn⟩ l hl
    have hoff := ho.off_manager t ht
    simp only [stateNode, generalNode] at hn
    simp only [mem_lists, generalList, readyList, sleepList, waitList] at hl
    rcases hl with hl | hl | hl | ⟨x, hx, hl⟩
    · omega
    · omega
    · omega
    · have := ho.sem_thread x hx t ht
      omega

/-- `KLIST_STRUCT_ADDR` of the `state_node` of a thread is the thread. -/
theorem klistStructAddr_stateNode (ho : Objects tm sems T) {t : Nat} (ht : t ∈ T) :
    klistStructAddr (stateNode t) = t := by
  have := ho.bound t ht
  unfold klistStructAddr stateNode
  rw [if_pos (by omega)]
  omega

end Objects

/-- The words these functions use besides the lists: `cur_thread`, a `status`
    or `ticks`, a `value`. -/
def Field (tm : Nat) (sems : List Nat) (T : Set Nat) (w : Nat) : Prop :=
  w = curThread tm ∨ (∃ t ∈ T, w = status t ∨ w = ticks t) ∨ w ∈ sems

/-- The fields of threads, semaphores and the manager are in no list and no node. -/
theorem Field.apart {w : Nat} (hw : Field tm sems T w) (ho : Objects tm sems T) :
    Apart (lists tm sems) (nodes T) w := by
  -- `cur_thread`, a field of a thread, or the value of a semaphore
  constructor
  · intro l hl
    simp only [mem_lists, generalList, readyList, sleepList, waitList] at hl
    rcases hw with rfl | ⟨t, ht, hw⟩ | hw
    · rcases hl with hl | hl | hl | ⟨x, hx, hl⟩
      · omega
      · omega
      · omega
      · have := ho.sem_manager x hx
        omega
    · simp only [status, ticks] at hw
      have hoff := ho.off_manager t ht
      rcases hl with hl | hl | hl | ⟨x, hx, hl⟩
      · omega
      · omega
      · omega
      · have := ho.sem_thread x hx t ht
        omega
    · have hoff := ho.sem_manager w hw
      rcases hl with hl | hl | hl | ⟨x, hx, hl⟩
      · omega
      · omega
      · omega
      · by_cases hxw : x = w
        · omega
        · have := ho.sem_apart x hx w hw hxw
          omega
  · rintro n ⟨u, hu, hn⟩
    simp only [stateNode, generalNode] at hn
    rcases hw with rfl | ⟨t, ht, hw⟩ | hw
    · have := ho.off_manager u hu
      omega
    · simp only [status, ticks] at hw
      by_cases htu : t = u
      · omega
      · have := ho.apart t ht u hu htu
        omega
    · have := ho.sem_thread w hw u hu
      omega

/-! ## The manager in memory -/

/-- The memory holds the fields `c` of the thread at `t`. -/
structure HasPcb (m : Mem) (t : Nat) (c : ThreadPcb) : Prop where
  status : m (status t) = statusWord c.status
  ticks : BitVec.ofNat 32 (m (ticks t)) = c.ticks

/-- The memory holds the manager `s`. -/
structure Represents (tm : Nat) (sems : List Nat) (T : Set Nat) (m : Mem)
    (s : Manager Nat Nat) : Prop where
  holds : Holds (lists tm sems) (nodes T) (contents tm s) m
  cur : m (curThread tm) = s.curThread
  created : ∀ t ∈ s.generalList, t ∈ T
  pcb : ∀ t ∈ s.generalList, HasPcb m t (s.pcb t)
  values : ∀ x ∈ sems, readByte m x = (s.sem x).value

/-- What stands in the list of all threads. -/
theorem contents_general (s : Manager Nat Nat) :
    contents tm s (generalList tm) = s.generalList.map generalNode := if_pos rfl

/-- What stands in the ready list. -/
theorem contents_ready (s : Manager Nat Nat) :
    contents tm s (readyList tm) = s.readyList.map stateNode := by
  unfold contents
  rw [if_neg (by simp), if_pos rfl]

/-- What stands in the sleep list. -/
theorem contents_sleep (s : Manager Nat Nat) :
    contents tm s (sleepList tm) = s.sleepList.map stateNode := by
  unfold contents
  rw [if_neg (by simp), if_neg (by simp), if_pos rfl]

/-- What stands in the wait list of a semaphore. -/
theorem contents_wait (ho : Objects tm sems T) (s : Manager Nat Nat) {x : Nat}
    (hx : x ∈ sems) :
    contents tm s (waitList x) = (s.sem x).waitList.map stateNode := by
  have hsem := ho.sem_manager x hx
  unfold contents
  simp only [generalList, readyList, sleepList, waitList]
  rw [if_neg (by omega), if_neg (by omega), if_neg (by omega), Nat.add_sub_cancel]

/-- Contents are given by the four kinds of list. -/
theorem contents_eq (ho : Objects tm sems T) {s : Manager Nat Nat} {σ : Contents}
    (hg : σ (generalList tm) = s.generalList.map generalNode)
    (hr : σ (readyList tm) = s.readyList.map stateNode)
    (hs : σ (sleepList tm) = s.sleepList.map stateNode)
    (hw : ∀ x ∈ sems, σ (waitList x) = (s.sem x).waitList.map stateNode) :
    ∀ l ∈ lists tm sems, contents tm s l = σ l := by
  intro l hl
  rcases mem_lists.mp hl with rfl | rfl | rfl | ⟨x, hx, rfl⟩
  · rw [contents_general, hg]
  · rw [contents_ready, hr]
  · rw [contents_sleep, hs]
  · rw [contents_wait ho s hx, hw x hx]

/-- Replacing the list of all threads changes its contents only. -/
theorem contents_setGeneral (s : Manager Nat Nat) (ts : List Nat) :
    contents tm { s with generalList := ts }
      = Function.update (contents tm s) (generalList tm) (ts.map generalNode) := by
  funext l
  by_cases hl : l = generalList tm
  · subst hl
    rw [Function.update_self, contents_general]
  · rw [Function.update_of_ne hl]
    simp only [contents, if_neg hl]

/-- Replacing the ready list changes its contents only. -/
theorem contents_setReady (s : Manager Nat Nat) (ts : List Nat) :
    contents tm { s with readyList := ts }
      = Function.update (contents tm s) (readyList tm) (ts.map stateNode) := by
  funext l
  by_cases hl : l = readyList tm
  · subst hl
    rw [Function.update_self, contents_ready]
  · rw [Function.update_of_ne hl]
    simp only [contents, if_neg hl]

/-- Replacing the sleep list changes its contents only. -/
theorem contents_setSleep (s : Manager Nat Nat) (ts : List Nat) :
    contents tm { s with sleepList := ts }
      = Function.update (contents tm s) (sleepList tm) (ts.map stateNode) := by
  funext l
  by_cases hl : l = sleepList tm
  · subst hl
    rw [Function.update_self, contents_sleep]
  · rw [Function.update_of_ne hl]
    simp only [contents, if_neg hl]

/-- Changing a semaphore changes the contents of its wait list only. -/
theorem contents_modifySem (ho : Objects tm sems T) (s : Manager Nat Nat) {x : Nat}
    (hx : x ∈ sems) (f : Semaphore Nat → Semaphore Nat) :
    ∀ l ∈ lists tm sems, contents tm (s.modifySem x f) l
      = Function.update (contents tm s) (waitList x)
        ((f (s.sem x)).waitList.map stateNode) l := by
  have hsem := ho.sem_manager x hx
  refine contents_eq ho ?_ ?_ ?_ ?_
  · rw [Function.update_of_ne (by simp only [generalList, waitList]; omega)]
    exact contents_general s
  · rw [Function.update_of_ne (by simp only [readyList, waitList]; omega)]
    exact contents_ready s
  · rw [Function.update_of_ne (by simp only [sleepList, waitList]; omega)]
    exact contents_sleep s
  · intro y hy
    rw [modifySem_sem]
    by_cases hyx : y = x
    · rw [hyx, Function.update_self, if_pos rfl]
    · rw [Function.update_of_ne (by simp only [waitList]; omega), if_neg hyx]
      exact contents_wait ho s hy

/-- A node of a thread is no sentinel. -/
theorem Objects.not_sentinel (ho : Objects tm sems T) {n : Nat} (hn : n ∈ nodes T) :
    ∀ l ∈ lists tm sems, n ≠ head l ∧ n ≠ tail l := by
  intro l hl
  have := ho.layout.off_lists n hn l hl
  simp only [head, tail]
  omega

/-- The state node of a thread is one of the nodes. -/
theorem stateNode_mem {t : Nat} (ht : t ∈ T) : stateNode t ∈ nodes T :=
  ⟨t, ht, Or.inl rfl⟩

/-- The general node of a thread is one of the nodes. -/
theorem generalNode_mem {t : Nat} (ht : t ∈ T) : generalNode t ∈ nodes T :=
  ⟨t, ht, Or.inr rfl⟩

/-- A list of state nodes has the node of a thread where the list of threads has the thread. -/
theorem stateNode_mem_map {t : Nat} {ts : List Nat} :
    stateNode t ∈ ts.map stateNode ↔ t ∈ ts :=
  List.mem_map_of_injective stateNode_injective

namespace Represents

variable {m : Mem} {s s' : Manager Nat Nat}

/-- **A LIST OPERATION** leads to any manager with the new contents. -/
theorem exec (h : Represents tm sems T m s) (ho : Objects tm sems T) {fuel : Nat}
    (hf : 2 ^ 29 + 2 ≤ fuel) {op : Op}
    (ha : op.Allowed (lists tm sems) (nodes T) (contents tm s))
    (hσ : ∀ l ∈ lists tm sems, contents tm s' l = (op.spec (contents tm s)).1 l)
    (hcur : s'.curThread = s.curThread)
    (hpcb : ∀ t ∈ s'.generalList, t ∈ T ∧ HasPcb m t (s'.pcb t))
    (hval : ∀ x, (s'.sem x).value = (s.sem x).value) :
    ∃ m', op.exec fuel m = some (m', (op.spec (contents tm s)).2) ∧
      Represents tm sems T m' s' := by
  obtain ⟨m', hex, hh, hm⟩ := exec_apart ho.layout h.holds ha hf
  have hfield : ∀ w, Field tm sems T w → m' w = m w :=
    fun w hw => hm w (hw.apart ho)
  refine ⟨m', hex, ?_, ?_, fun t ht => (hpcb t ht).1, ?_, ?_⟩
  · exact hh.congr hσ
  · rw [hfield _ (Or.inl rfl), hcur]
    exact h.cur
  · intro t ht
    obtain ⟨htT, hst, htk⟩ := hpcb t ht
    constructor
    · rw [hfield _ (Or.inr (Or.inl ⟨t, htT, Or.inl rfl⟩))]
      exact hst
    · rw [hfield _ (Or.inr (Or.inl ⟨t, htT, Or.inr rfl⟩))]
      exact htk
  · intro x hx
    rw [readByte, hfield x (Or.inr (Or.inr hx)), hval]
    exact h.values x hx

/-- The fields of the created threads, where the manager keeps them. -/
theorem fields (h : Represents tm sems T m s) (hg : s'.generalList = s.generalList)
    (hp : s'.pcb = s.pcb) :
    ∀ t ∈ s'.generalList, t ∈ T ∧ HasPcb m t (s'.pcb t) := by
  rw [hg, hp]
  exact fun t ht => ⟨h.created t ht, h.pcb t ht⟩

/-- `klist_remove` of a `state_node`, on the list or not. -/
theorem remove (h : Represents tm sems T m s) (ho : Objects tm sems T) {fuel : Nat}
    (hf : 2 ^ 29 + 2 ≤ fuel) {l t : Nat} (hl : l ∈ lists tm sems) (ht : t ∈ T)
    (hσ : ∀ k ∈ lists tm sems, contents tm s' k
      = Function.update (contents tm s) l ((contents tm s l).erase (stateNode t)) k)
    (hcur : s'.curThread = s.curThread) (hg : s'.generalList = s.generalList)
    (hp : s'.pcb = s.pcb) (hval : ∀ x, (s'.sem x).value = (s.sem x).value) :
    ∃ r, klistRemove fuel m l (stateNode t) = some r ∧
      Represents tm sems T r.1 s' := by
  have ha : (Op.remove l (stateNode t)).Allowed (lists tm sems) (nodes T)
      (contents tm s) := ⟨hl, ho.not_sentinel (stateNode_mem ht)⟩
  obtain ⟨m', hex, h'⟩ := h.exec ho hf ha
    (fun k hk => by rw [hσ k hk, Op.spec_remove]) hcur (h.fields hg hp) hval
  obtain ⟨r, hr, he⟩ := Option.map_eq_some_iff.mp hex
  refine ⟨r, hr, ?_⟩
  rw [(Prod.mk.inj he).1]
  exact h'

/-- Unlinking from the ready list. -/
theorem remove_ready (h : Represents tm sems T m s) (ho : Objects tm sems T)
    {fuel : Nat} (hf : 2 ^ 29 + 2 ≤ fuel) {t : Nat} (ht : t ∈ T) :
    ∃ r, klistRemove fuel m (readyList tm) (stateNode t) = some r ∧
      Represents tm sems T r.1 { s with readyList := s.readyList.erase t } := by
  refine h.remove ho hf (mem_lists.mpr (by simp)) ht (fun k _ => ?_) rfl rfl rfl
    (fun _ => rfl)
  rw [contents_setReady, contents_ready, List.map_erase stateNode_injective]

/-- Unlinking from the sleep list. -/
theorem remove_sleep (h : Represents tm sems T m s) (ho : Objects tm sems T)
    {fuel : Nat} (hf : 2 ^ 29 + 2 ≤ fuel) {t : Nat} (ht : t ∈ T) :
    ∃ r, klistRemove fuel m (sleepList tm) (stateNode t) = some r ∧
      Represents tm sems T r.1 { s with sleepList := s.sleepList.erase t } := by
  refine h.remove ho hf (mem_lists.mpr (by simp)) ht (fun k _ => ?_) rfl rfl rfl
    (fun _ => rfl)
  rw [contents_setSleep, contents_sleep, List.map_erase stateNode_injective]

/-- Unlinking from a wait list. -/
theorem remove_wait (h : Represents tm sems T m s) (ho : Objects tm sems T)
    {fuel : Nat} (hf : 2 ^ 29 + 2 ≤ fuel) {x t : Nat} (hx : x ∈ sems) (ht : t ∈ T) :
    ∃ r, klistRemove fuel m (waitList x) (stateNode t) = some r ∧
      Represents tm sems T r.1
        (s.modifySem x (fun c => { c with waitList := c.waitList.erase t })) := by
  refine h.remove ho hf (mem_lists.mpr (by simp [hx])) ht (fun k hk => ?_) rfl rfl rfl
    (modifySem_field s x _ Semaphore.value (fun _ => rfl))
  rw [contents_modifySem ho s hx _ k hk, contents_wait ho s hx,
    List.map_erase stateNode_injective]

/-- `klist_find` of a `state_node`. -/
theorem find (h : Represents tm sems T m s) (ho : Objects tm sems T) {fuel : Nat}
    (hf : 2 ^ 29 + 2 ≤ fuel) {l t : Nat} (hl : l ∈ lists tm sems) (ht : t ∈ T) :
    klistFind fuel m l (stateNode t)
      = some (if stateNode t ∈ contents tm s l then stateNode t else 0) := by
  have ha : (Op.find l (stateNode t)).Allowed (lists tm sems) (nodes T)
      (contents tm s) := ⟨hl, ho.not_sentinel (stateNode_mem ht)⟩
  obtain ⟨m', hex, -⟩ := h.exec ho hf ha (fun k _ => rfl) rfl (h.fields rfl rfl)
    (fun _ => rfl)
  obtain ⟨r, hr, he⟩ := Option.map_eq_some_iff.mp hex
  rw [hr, Option.some.inj (Prod.mk.inj he).2]

/-- A thread on none of the lists. -/
structure Loose (sems : List Nat) (s : Manager Nat Nat) (t : Nat) : Prop where
  ready : t ∉ s.readyList
  sleep : t ∉ s.sleepList
  wait : ∀ x ∈ sems, t ∉ (s.sem x).waitList

/-- The state node of a loose thread is in no list. -/
theorem loose_fresh (h : Represents tm sems T m s) (ho : Objects tm sems T) {t : Nat}
    (ht : t ∈ T) (hl : Loose sems s t) :
    ∀ l ∈ lists tm sems, stateNode t ∉ contents tm s l := by
  intro l hmem
  rcases mem_lists.mp hmem with rfl | rfl | rfl | ⟨x, hx, rfl⟩
  · rw [contents_general]
    intro hm
    obtain ⟨u, hu, he⟩ := List.mem_map.mp hm
    exact ho.stateNode_ne ht (h.created u hu) he.symm
  · rw [contents_ready, stateNode_mem_map]
    exact hl.ready
  · rw [contents_sleep, stateNode_mem_map]
    exact hl.sleep
  · rw [contents_wait ho s hx, stateNode_mem_map]
    exact hl.wait x hx

/-- `klist_append` of a node that is on no list. -/
theorem append (h : Represents tm sems T m s) (ho : Objects tm sems T) {l n : Nat}
    (hl : l ∈ lists tm sems) (hn : n ∈ nodes T)
    (hfresh : ∀ k ∈ lists tm sems, n ∉ contents tm s k)
    (hσ : ∀ k ∈ lists tm sems, contents tm s' k
      = Function.update (contents tm s) l (contents tm s l ++ [n]) k)
    (hcur : s'.curThread = s.curThread)
    (hpcb : ∀ t ∈ s'.generalList, t ∈ T ∧ HasPcb m t (s'.pcb t))
    (hval : ∀ x, (s'.sem x).value = (s.sem x).value) :
    Represents tm sems T (klistAppend m l n) s' := by
  have ha : (Op.append l n).Allowed (lists tm sems) (nodes T) (contents tm s) :=
    ⟨hl, hn, hfresh⟩
  obtain ⟨m', hex, h'⟩ := h.exec ho (Nat.le_refl _) ha hσ hcur hpcb hval
  rw [(Prod.mk.inj (Option.some.inj hex)).1]
  exact h'

/-- Appending to the ready list. -/
theorem append_ready (h : Represents tm sems T m s) (ho : Objects tm sems T) {t : Nat}
    (ht : t ∈ T) (hl : Loose sems s t) :
    Represents tm sems T (klistAppend m (readyList tm) (stateNode t))
      { s with readyList := s.readyList ++ [t] } := by
  refine h.append ho (mem_lists.mpr (by simp)) (stateNode_mem ht)
    (h.loose_fresh ho ht hl) (fun k _ => ?_) rfl (h.fields rfl rfl) (fun _ => rfl)
  rw [contents_setReady, contents_ready, List.map_append, List.map_singleton]

/-- Appending to a wait list. -/
theorem append_wait (h : Represents tm sems T m s) (ho : Objects tm sems T) {x t : Nat}
    (hx : x ∈ sems) (ht : t ∈ T) (hl : Loose sems s t) :
    Represents tm sems T (klistAppend m (waitList x) (stateNode t))
      (s.modifySem x (fun c => { c with waitList := c.waitList ++ [t] })) := by
  refine h.append ho (mem_lists.mpr (by simp [hx])) (stateNode_mem ht)
    (h.loose_fresh ho ht hl) (fun k hk => ?_) rfl (h.fields rfl rfl)
    (modifySem_field s x _ Semaphore.value (fun _ => rfl))
  rw [contents_modifySem ho s hx _ k hk, contents_wait ho s hx, List.map_append,
    List.map_singleton]

/-- `thread_set_general` of a thread that is not created yet. -/
theorem append_general (h : Represents tm sems T m s) (ho : Objects tm sems T)
    (hq : ∀ l ∈ lists tm sems, l ≠ generalList tm →
      ∀ n ∈ contents tm s l, ∃ u ∈ T, n = stateNode u)
    {t : Nat} (ht : t ∈ T) (hnew : t ∉ s.generalList) (hc : HasPcb m t (s.pcb t)) :
    Represents tm sems T (klistAppend m (generalList tm) (generalNode t))
      { s with generalList := s.generalList ++ [t] } := by
  refine h.append ho (mem_lists.mpr (by simp)) (generalNode_mem ht) ?_ (fun k _ => ?_)
    rfl ?_ (fun _ => rfl)
  · intro l hl hm
    by_cases hlg : l = generalList tm
    · rw [hlg, contents_general, List.mem_map_of_injective generalNode_injective] at hm
      exact hnew hm
    · obtain ⟨u, hu, he⟩ := hq l hl hlg _ hm
      exact ho.stateNode_ne hu ht he.symm
  · rw [contents_setGeneral, contents_general, List.map_append, List.map_singleton]
  · intro u hu
    rcases List.mem_append.mp hu with hu | hu
    · exact ⟨h.created u hu, h.pcb u hu⟩
    · rw [List.mem_singleton.mp hu]
      exact ⟨ht, hc⟩

/-- Pushing onto the ready list. -/
theorem push_ready (h : Represents tm sems T m s) (ho : Objects tm sems T) {t : Nat}
    (ht : t ∈ T) (hl : Loose sems s t) :
    Represents tm sems T (klistPush m (readyList tm) (stateNode t))
      { s with readyList := t :: s.readyList } := by
  have ha : (Op.push (readyList tm) (stateNode t)).Allowed (lists tm sems) (nodes T)
      (contents tm s) :=
    ⟨mem_lists.mpr (by simp), stateNode_mem ht, h.loose_fresh ho ht hl⟩
  have hσ : ∀ k ∈ lists tm sems, contents tm { s with readyList := t :: s.readyList } k
      = ((Op.push (readyList tm) (stateNode t)).spec (contents tm s)).1 k := by
    intro k _
    rw [contents_setReady]
    simp only [Op.spec, contents_ready, List.map_cons]
  obtain ⟨m', hex, h'⟩ := h.exec ho (Nat.le_refl _) ha hσ rfl (h.fields rfl rfl)
    (fun _ => rfl)
  rw [(Prod.mk.inj (Option.some.inj hex)).1]
  exact h'

/-! Writes of fields. -/

/-- **A WRITE** of a field leads to any manager with the same lists. -/
theorem write (h : Represents tm sems T m s) (ho : Objects tm sems T) {a v : Nat}
    (ha : Field tm sems T a)
    (hσ : ∀ l ∈ lists tm sems, contents tm s' l = contents tm s l)
    (hcur : m.write a v (curThread tm) = s'.curThread)
    (hpcb : ∀ t ∈ s'.generalList, t ∈ T ∧ HasPcb (m.write a v) t (s'.pcb t))
    (hval : ∀ x ∈ sems, readByte (m.write a v) x = (s'.sem x).value) :
    Represents tm sems T (m.write a v) s' where
  holds := by
    refine (h.holds.frame ?_).congr hσ
    intro l hl w hw
    refine Mem.write_other ?_
    rintro rfl
    exact (ha.apart ho).not_covers hl (h.holds.mem_nodes l hl) hw
  cur := hcur
  created := fun t ht => (hpcb t ht).1
  pcb := fun t ht => (hpcb t ht).2
  values := hval

/-- A write of a field of one thread. -/
theorem write_pcb (h : Represents tm sems T m s) (ho : Objects tm sems T) {t a v : Nat}
    (ht : t ∈ T) (ha : a = status t ∨ a = ticks t) {f : ThreadPcb → ThreadPcb}
    (hc : t ∈ s.generalList → HasPcb (m.write a v) t (f (s.pcb t))) :
    Represents tm sems T (m.write a v) (s.modify t f) := by
  have hoff := ho.off_manager t ht
  have hat : t ≤ a ∧ a < t + 56 := by
    simp only [status, ticks] at ha
    omega
  refine h.write ho (Or.inr (Or.inl ⟨t, ht, ha⟩)) (fun _ _ => rfl) ?_ ?_ ?_
  · rw [Mem.write_other (by simp only [curThread]; omega)]
    exact h.cur
  · intro u hu
    have huT := h.created u hu
    refine ⟨huT, ?_⟩
    rw [modify_pcb]
    by_cases hut : u = t
    · rw [if_pos hut, hut]
      exact hc (hut ▸ hu)
    · rw [if_neg hut]
      have hap := ho.apart u huT t ht hut
      obtain ⟨hst, htk⟩ := h.pcb u hu
      constructor
      · rw [Mem.write_other (by simp only [status]; omega)]
        exact hst
      · rw [Mem.write_other (by simp only [ticks]; omega)]
        exact htk
  · intro x hx
    have hap := ho.sem_thread x hx t ht
    rw [readByte, Mem.write_other (by omega)]
    exact h.values x hx

/-- A store to `status`. -/
theorem set_status (h : Represents tm sems T m s) (ho : Objects tm sems T) {t : Nat}
    (ht : t ∈ T) (st : TaskStatus) :
    Represents tm sems T (m.write (status t) (statusWord st))
      (s.modify t (fun c => { c with status := st })) := by
  refine h.write_pcb ho ht (Or.inl rfl) ?_
  intro hg
  constructor
  · exact Mem.write_same ..
  · rw [Mem.write_other (by simp only [status, ticks]; omega)]
    exact (h.pcb t hg).ticks

/-- A store to `ticks`. -/
theorem set_ticks (h : Represents tm sems T m s) (ho : Objects tm sems T) {t : Nat}
    (ht : t ∈ T) (v : BitVec 32) :
    Represents tm sems T (m.write (ticks t) v.toNat)
      (s.modify t (fun c => { c with ticks := v })) := by
  refine h.write_pcb ho ht (Or.inr rfl) ?_
  intro hg
  constructor
  · rw [Mem.write_other (by simp only [status, ticks]; omega)]
    exact (h.pcb t hg).status
  · rw [Mem.write_same, BitVec.ofNat_toNat, BitVec.setWidth_eq]

/-- A store to `cur_thread`. -/
theorem set_cur (h : Represents tm sems T m s) (ho : Objects tm sems T) (t : Nat) :
    Represents tm sems T (m.write (curThread tm) t) { s with curThread := t } := by
  refine h.write ho (Or.inl rfl) (fun _ _ => rfl) (Mem.write_same ..) ?_ ?_
  · intro u hu
    have huT := h.created u hu
    have hoff := ho.off_manager u huT
    obtain ⟨hst, htk⟩ := h.pcb u hu
    refine ⟨huT, ?_, ?_⟩
    · rw [Mem.write_other (by simp only [status, curThread]; omega)]
      exact hst
    · rw [Mem.write_other (by simp only [ticks, curThread]; omega)]
      exact htk
  · intro x hx
    have hoff := ho.sem_manager x hx
    rw [readByte, Mem.write_other (by simp only [curThread]; omega)]
    exact h.values x hx

/-- A store to the counter of a semaphore, which leaves the other bytes of its word. -/
theorem set_value (h : Represents tm sems T m s) (ho : Objects tm sems T) {x : Nat}
    (hx : x ∈ sems) (f : BitVec 8 → BitVec 8) :
    Represents tm sems T (writeByte m x (f (readByte m x)))
      (s.modifySem x (fun c => { c with value := f c.value })) := by
  have hoff := ho.sem_manager x hx
  refine h.write ho (Or.inr (Or.inr hx)) ?_ ?_ ?_ ?_
  · intro l hl
    rw [contents_modifySem ho s hx _ l hl, ← contents_wait ho s hx,
      Function.update_eq_self]
  · rw [Mem.write_other (by simp only [curThread]; omega)]
    exact h.cur
  · intro u hu
    have huT := h.created u hu
    have hap := ho.sem_thread x hx u huT
    obtain ⟨hst, htk⟩ := h.pcb u hu
    refine ⟨huT, ?_, ?_⟩
    · rw [Mem.write_other (by simp only [status]; omega)]
      exact hst
    · rw [Mem.write_other (by simp only [ticks]; omega)]
      exact htk
  · intro y hy
    rw [modifySem_sem]
    by_cases hyx : y = x
    · rw [if_pos hyx, hyx]
      show readByte (writeByte m x (f (readByte m x))) x = f (s.sem x).value
      rw [readByte_writeByte, h.values x hx]
    · have hap := ho.sem_apart y hy x hx hyx
      rw [if_neg hyx, readByte, Mem.write_other hyx]
      exact h.values y hy

end Represents

/-! ## Each function -/

namespace Represents

variable {m : Mem} {s : Manager Nat Nat} {fuel : Nat}

/-- Making a thread ready in memory comes back and is making it ready, for a thread that
    no other list has. -/
theorem threadSetReady (h : Represents tm sems T m s) (ho : Objects tm sems T)
    (hf : 2 ^ 29 + 2 ≤ fuel) {t : Nat} (ht : t ∈ T) (hnd : s.readyList.Nodup)
    (hs : t ∉ s.sleepList) (hw : ∀ x ∈ sems, t ∉ (s.sem x).waitList) :
    ∃ m', ThreadMemory.threadSetReady fuel tm m t = some m' ∧
      Represents tm sems T m' (Threads.threadSetReady s t) := by
  obtain ⟨r, hr, h₁⟩ := h.remove_ready ho hf ht
  refine ⟨_, by rw [ThreadMemory.threadSetReady, hr]; rfl, ?_⟩
  exact (h₁.set_status ho ht .ready).append_ready ho ht ⟨hnd.not_mem_erase, hs, hw⟩

/-- Likewise where it is put first. -/
theorem threadPushReady (h : Represents tm sems T m s) (ho : Objects tm sems T)
    (hf : 2 ^ 29 + 2 ≤ fuel) {t : Nat} (ht : t ∈ T) (hnd : s.readyList.Nodup)
    (hs : t ∉ s.sleepList) (hw : ∀ x ∈ sems, t ∉ (s.sem x).waitList) :
    ∃ m', ThreadMemory.threadPushReady fuel tm m t = some m' ∧
      Represents tm sems T m' (Threads.threadPushReady s t) := by
  obtain ⟨r, hr, h₁⟩ := h.remove_ready ho hf ht
  refine ⟨_, by rw [ThreadMemory.threadPushReady, hr]; rfl, ?_⟩
  exact (h₁.set_status ho ht .ready).push_ready ho ht ⟨hnd.not_mem_erase, hs, hw⟩

/-- The first node of a list is that of its first thread. -/
theorem first_node (h : Represents tm sems T m s) {l t : Nat} {rest : List Nat}
    (hl : l ∈ lists tm sems) (hc : contents tm s l = (t :: rest).map stateNode) :
    klistGetFirstNode m l = stateNode t := by
  have hlist := h.holds.isList l hl
  rw [hc, List.map_cons] at hlist
  exact hlist.first (List.cons_append ..)

/-- **DISPATCH** from a ready list that is not empty. -/
theorem threadDispatch (h : Represents tm sems T m s) (ho : Objects tm sems T)
    {next : Nat} {rest : List Nat} (hr : s.readyList = next :: rest)
    (hnext : next ∈ s.generalList) :
    ∃ r, Threads.threadDispatch s = some r ∧
      Represents tm sems T (ThreadMemory.threadDispatch tm m) r := by
  have hfifo : threadFIFO tm m = next := by
    have hfirst := h.first_node (mem_lists.mpr (by simp))
      (by rw [contents_ready, hr] : contents tm s (readyList tm) = _)
    rw [threadFIFO, hfirst]
    exact ho.klistStructAddr_stateNode (h.created next hnext)
  have hiff : m (status next) = statusWord .ready ↔ (s.pcb next).status = .ready := by
    rw [(h.pcb next hnext).status]
    exact statusWord_injective.eq_iff
  unfold ThreadMemory.threadDispatch
  dsimp only
  rw [threadDispatch_cons hr, hfifo, h.cur]
  by_cases hc : next ≠ s.curThread ∧ (s.pcb next).status = .ready
  · rw [if_pos hc, if_pos ⟨hc.1, hiff.mpr hc.2⟩]
    exact ⟨_, rfl, (h.set_cur ho next).set_status ho (h.created next hnext) .running⟩
  · rw [if_neg hc, if_neg (fun hm => hc ⟨hm.1, hiff.mp hm.2⟩)]
    exact ⟨_, rfl, h⟩

/-- **A TEST** of `value` while another thread is ready. -/
theorem threadSemTest (h : Represents tm sems T m s) (ho : Objects tm sems T)
    (hf : 2 ^ 29 + 2 ≤ fuel) (hq : Queues s) {x : Nat} (hx : x ∈ sems)
    (hother : (s.sem x).value = 0 → OtherReady s) :
    ∃ m' r b, ThreadMemory.threadSemTest fuel tm m x = some (m', b) ∧
      Threads.threadSemTest s x = some (r, b) ∧ Represents tm sems T m' r := by
  unfold ThreadMemory.threadSemTest Threads.threadSemTest
  dsimp only
  rw [h.cur, value, h.values x hx]
  by_cases h0 : (s.sem x).value = 0
  · rw [if_pos h0, if_pos h0]
    -- the wait: off the ready list, onto the wait list, then another thread
    have hcur := hq.ready_general _ hq.cur_ready
    have ht := h.created _ hcur
    have hwait : ∀ y ∈ sems, s.curThread ∉ (s.sem y).waitList :=
      fun y _ hm => hq.wait_ready y _ hm hq.cur_ready
    rw [h.find ho hf (mem_lists.mpr (by simp [hx])) ht]
    obtain ⟨r₁, hr₁, h₁⟩ := h.remove_ready ho hf ht
    obtain ⟨r₂, hr₂, h₂⟩ := h₁.remove_sleep ho hf ht
    have h₃ := (h₂.append_wait ho hx ht
      ⟨hq.ready_nodup.not_mem_erase, by simp [hq.sleep_nil], hwait⟩).set_status ho ht
      .blocked
    obtain ⟨next, hnext, hd, -⟩ := hq.block_dispatch (hother h0) x
    -- the ready list is not empty, so `thread_dispatch` finds a thread and no sentinel
    obtain ⟨first, rest, hlist⟩ := List.exists_cons_of_ne_nil (List.ne_nil_of_mem hnext)
    have hfirst : first ∈ s.generalList :=
      hq.ready_general _ (List.mem_of_mem_erase (by rw [hlist]; exact List.mem_cons_self))
    obtain ⟨r, hr, h₄⟩ := h₃.threadDispatch ho hlist hfirst
    refine ⟨_, r, false, ?_, ?_, h₄⟩
    · rw [Option.bind_some, hr₁, Option.bind_some, hr₂]
      rfl
    · have hr' : Threads.threadDispatch (semBlock s x) = some r := hr
      rw [hr']
      rfl
  · rw [if_neg h0, if_neg h0]
    refine ⟨_, _, true, rfl, rfl, ?_⟩
    rw [← h.values x hx]
    exact h.set_value ho hx (· - 1)

/-- The length of a wait list is read off its `len`. -/
theorem wait_length (h : Represents tm sems T m s) (ho : Objects tm sems T) {x : Nat}
    (hx : x ∈ sems) : klistLen m (waitList x) = (s.sem x).waitList.length := by
  have hl : waitList x ∈ lists tm sems := mem_lists.mpr (by simp [hx])
  have hle := ho.layout.length_le (h.holds.mem_nodes _ hl) (h.holds.nodup _ hl)
  have hlen := (h.holds.isList _ hl).len_eq
  rw [contents_wait ho s hx, List.length_map] at hle hlen
  rw [klistLen, hlen]
  omega

/-- The part of a post that wakes the first waiting thread. -/
theorem semWake (h : Represents tm sems T m s) (ho : Objects tm sems T)
    (hf : 2 ^ 29 + 2 ≤ fuel) (hq : Queues s) {x : Nat} (hx : x ∈ sems) :
    ∃ m', ThreadMemory.semWake fuel tm m x = some m' ∧
      Represents tm sems T m' (Threads.semWake s x) := by
  unfold ThreadMemory.semWake
  rw [h.wait_length ho hx]
  cases hw : (s.sem x).waitList with
  | nil =>
      rw [List.length_nil, if_pos rfl, semWake_nil hw]
      exact ⟨m, rfl, h⟩
  | cons t rest =>
      have hmem : t ∈ (s.sem x).waitList := by
        rw [hw]
        exact List.mem_cons_self
      have ht := h.created t (hq.wait_general x t hmem)
      rw [List.length_cons, if_neg (Nat.succ_ne_zero _),
        h.first_node (mem_lists.mpr (by simp [hx]))
          (by rw [contents_wait ho s hx, hw] : contents tm s (waitList x) = _)]
      dsimp only
      rw [ho.klistStructAddr_stateNode ht, semWake_cons hw]
      obtain ⟨r, hr, h₁⟩ := h.remove_wait ho hf hx ht
      -- the thread is first on its list, so removing it leaves the rest
      have herase : (s.modifySem x
          (fun c => { c with waitList := c.waitList.erase t }))
          = s.modifySem x (fun c => { c with waitList := rest }) := by
        unfold Manager.modifySem
        dsimp only
        rw [hw, List.erase_cons_head]
      rw [herase] at h₁
      have hgone : ∀ y ∈ sems, t ∉ ((s.modifySem x
          (fun c => { c with waitList := rest })).sem y).waitList := by
        intro y _ hm
        rw [modifySem_sem] at hm
        by_cases hyx : y = x
        · rw [if_pos hyx] at hm
          have hnd := hq.wait_nodup x
          rw [hw] at hnd
          exact (List.nodup_cons.mp hnd).1 hm
        · rw [if_neg hyx] at hm
          exact hyx (hq.wait_apart y x t hm hmem)
      obtain ⟨m', hm', h₂⟩ := h₁.threadPushReady ho hf ht hq.ready_nodup
        (by simp [hq.sleep_nil]) hgone
      exact ⟨m', by rw [hr, Option.bind_some]; exact hm', h₂⟩

/-- **A POST** wakes a thread and adds to `value`. -/
theorem threadSemPost (h : Represents tm sems T m s) (ho : Objects tm sems T)
    (hf : 2 ^ 29 + 2 ≤ fuel) (hq : Queues s) {x : Nat} (hx : x ∈ sems) :
    ∃ m', ThreadMemory.threadSemPost fuel tm m x = some m' ∧
      Represents tm sems T m' (Threads.threadSemPost s x) := by
  obtain ⟨m', hm', h'⟩ := h.semWake ho hf hq hx
  exact ⟨_, by rw [ThreadMemory.threadSemPost, hm']; rfl, h'.set_value ho hx (· + 1)⟩

/-- **A TICK.** -/
theorem threadTimeTicks (h : Represents tm sems T m s) (ho : Objects tm sems T)
    (hf : 2 ^ 29 + 2 ≤ fuel) (hq : Queues s) :
    ∃ m' r, ThreadMemory.threadTimeTicks fuel tm m = some m' ∧
      Threads.threadTimeTicks s = some r ∧ Represents tm sems T m' r := by
  have hcur := hq.ready_general _ hq.cur_ready
  have ht := h.created _ hcur
  have htk := (h.pcb _ hcur).ticks
  have h₁ := h.set_ticks ho ht ((s.pcb s.curThread).ticks - 1)
  have hq₁ := hq.ticks s.curThread (· - 1)
  have hleft : ((s.modify s.curThread
      (fun c => { c with ticks := c.ticks - 1 })).pcb s.curThread).ticks
      = (s.pcb s.curThread).ticks - 1 := by
    rw [modify_pcb, if_pos rfl]
  unfold ThreadMemory.threadTimeTicks Threads.threadTimeTicks
  dsimp only
  rw [h.cur, htk, modify_curThread, hleft]
  split
  · obtain ⟨m', hm', h₂⟩ := h₁.threadSetReady ho hf ht hq.ready_nodup
      (by simp [hq.sleep_nil]) (fun y _ hm => hq.wait_ready y _ hm hq.cur_ready)
    have h₃ := h₂.set_ticks ho ht taskTicksDefault
    have hmem := (mem_sliceEnd_readyList hq₁).mpr hq₁.cur_ready
    obtain ⟨first, rest, hlist⟩ := List.exists_cons_of_ne_nil (List.ne_nil_of_mem hmem)
    have hfirst : first ∈ s.generalList := by
      refine hq₁.ready_general _ ((mem_sliceEnd_readyList hq₁).mp ?_)
      rw [hlist]
      exact List.mem_cons_self
    obtain ⟨r, hr, h₄⟩ := h₃.threadDispatch ho hlist hfirst
    exact ⟨_, r, by rw [hm']; rfl, hr, h₄⟩
  · exact ⟨_, _, rfl, rfl, h₁⟩

/-- **A START** in a page that is not a thread yet. -/
theorem threadStart (h : Represents tm sems T m s) (ho : Objects tm sems T)
    (hf : 2 ^ 29 + 2 ≤ fuel) (hq : Queues s) {t : Nat} (ht : t ∈ T)
    (hnew : t ∉ s.generalList) :
    ∃ m', ThreadMemory.threadStart fuel tm m t = some m' ∧
      Represents tm sems T m' (Threads.threadStart s t) := by
  have h₁ := (h.set_status ho ht .created).set_ticks ho ht taskTicksDefault
  rw [modify_modify] at h₁
  have hpcb : HasPcb ((m.write (status t) (statusWord .created)).write (ticks t)
      taskTicksDefault.toNat) t { status := .created, ticks := taskTicksDefault } := by
    constructor
    · rw [Mem.write_other (by simp only [status, ticks]; omega)]
      exact Mem.write_same ..
    · rw [Mem.write_same]
      rfl
  -- the other lists hold created threads
  have hstate : ∀ l ∈ lists tm sems, l ≠ generalList tm →
      ∀ n ∈ contents tm s l, ∃ u ∈ T, n = stateNode u := by
    have hmap : ∀ ts : List Nat, (∀ u ∈ ts, u ∈ s.generalList) →
        ∀ n ∈ ts.map stateNode, ∃ u ∈ T, n = stateNode u := by
      intro ts hts n hn
      obtain ⟨u, hu, rfl⟩ := List.mem_map.mp hn
      exact ⟨u, h.created u (hts u hu), rfl⟩
    intro l hl hne
    rcases mem_lists.mp hl with rfl | rfl | rfl | ⟨x, hx, rfl⟩
    · exact absurd rfl hne
    · rw [contents_ready]
      exact hmap _ hq.ready_general
    · rw [contents_sleep, hq.sleep_nil]
      exact fun n hn => nomatch hn
    · rw [contents_wait ho s hx]
      exact hmap _ (hq.wait_general x)
  have h₂ := h₁.append_general ho hstate ht hnew (by
    rw [modify_pcb, if_pos rfl]
    exact hpcb)
  exact h₂.threadSetReady ho hf ht hq.ready_nodup (by simp [hq.sleep_nil])
    (fun x _ hm => hnew (hq.wait_general x t hm))

end Represents

end LittleOS.ThreadMemory
