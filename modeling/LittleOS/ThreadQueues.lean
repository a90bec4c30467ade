import LittleOS.Threads

/-! # The queues of the threads

    Between two calls every thread is on at most one list, the current one on
    the ready list, and the others there are `TASK_READY`; so `thread_dispatch`
    always runs the first of them.

    * `Queued`, `Queues` — the invariant, without and with the current thread;
    * one theorem for each call: `Queues.tick`, `Queues.start`,
      `Queues.block_dispatch`, `Queues.wake`;
    * `boot_queues` — `main_thread_init` sets it up. -/

namespace LittleOS.Threads

variable {τ σ : Type*} [DecidableEq τ] [DecidableEq σ]

/-! ## The queues -/

section Queues

variable {τ σ : Type*}

/-- The lists of the manager and of the semaphores hold every thread at most
    once, created threads only. -/
structure Queued (m : Manager τ σ) : Prop where
  general_nodup : m.generalList.Nodup
  ready_nodup : m.readyList.Nodup
  ready_general : ∀ t ∈ m.readyList, t ∈ m.generalList
  sleep_nil : m.sleepList = []
  wait_nodup : ∀ s, (m.sem s).waitList.Nodup
  wait_general : ∀ s, ∀ t ∈ (m.sem s).waitList, t ∈ m.generalList
  wait_ready : ∀ s, ∀ t ∈ (m.sem s).waitList, t ∉ m.readyList
  wait_apart : ∀ s s', ∀ t ∈ (m.sem s).waitList, t ∈ (m.sem s').waitList → s = s'

/-- Between two calls the current thread is on the ready list, and the others
    on it are `TASK_READY`. -/
structure Queues (m : Manager τ σ) : Prop extends Queued m where
  cur_ready : m.curThread ∈ m.readyList
  status : ∀ t ∈ m.readyList, t ≠ m.curThread → (m.pcb t).status = .ready

/-- The lists alone decide. -/
theorem Queued.congr {m m' : Manager τ σ} (h : Queued m)
    (hg : m'.generalList = m.generalList) (hr : m'.readyList = m.readyList)
    (hs : m'.sleepList = m.sleepList)
    (hw : ∀ s, (m'.sem s).waitList = (m.sem s).waitList) : Queued m' where
  general_nodup := hg ▸ h.general_nodup
  ready_nodup := hr ▸ h.ready_nodup
  ready_general := by
    rw [hg, hr]
    exact h.ready_general
  sleep_nil := hs.trans h.sleep_nil
  wait_nodup := fun s => hw s ▸ h.wait_nodup s
  wait_general := fun s => by
    rw [hw s, hg]
    exact h.wait_general s
  wait_ready := fun s => by
    rw [hw s, hr]
    exact h.wait_ready s
  wait_apart := fun s s' => by
    rw [hw s, hw s']
    exact h.wait_apart s s'

variable [DecidableEq τ]

/-- **DISPATCH** from a ready list of `TASK_READY` threads. -/
theorem Queued.dispatch {m : Manager τ σ} (h : Queued m)
    (hall : ∀ t ∈ m.readyList, (m.pcb t).status = .ready)
    (hne : m.readyList ≠ []) :
    ∃ next ∈ m.readyList, threadDispatch m = some (switchTo m next) ∧
      Queues (switchTo m next) := by
  obtain ⟨next, rest, hr⟩ := List.exists_cons_of_ne_nil hne
  have hnext : next ∈ m.readyList := by
    rw [hr]
    exact List.mem_cons_self
  refine ⟨next, hnext, threadDispatch_eq hr (fun _ => hall next hnext), ?_⟩
  constructor
  · exact h.congr (by simp) (by simp) (by simp) (by simp)
  · rw [switchTo_curThread, switchTo_readyList]
    exact hnext
  · intro t ht htc
    rw [switchTo_readyList] at ht
    rw [switchTo_curThread] at htc
    rw [switchTo_pcb_of_ne m next htc]
    exact hall t ht

end Queues

/-! ## Each function keeps the queues -/

/-- Changes of other fields than the lists and the statuses. -/
theorem Queues.congr {τ σ : Type*} {m m' : Manager τ σ} (h : Queues m)
    (hc : m'.curThread = m.curThread) (hg : m'.generalList = m.generalList)
    (hr : m'.readyList = m.readyList) (hs : m'.sleepList = m.sleepList)
    (hw : ∀ s, (m'.sem s).waitList = (m.sem s).waitList)
    (hp : ∀ t, (m'.pcb t).status = (m.pcb t).status) : Queues m' where
  toQueued := h.toQueued.congr hg hr hs hw
  cur_ready := by
    rw [hc, hr]
    exact h.cur_ready
  status := fun t ht htc => by
    rw [hr] at ht
    rw [hc] at htc
    rw [hp]
    exact h.status t ht htc

/-- A counter is no list. -/
theorem Queues.value {τ σ : Type*} [DecidableEq σ] {m : Manager τ σ}
    (h : Queues m) (s : σ) (f : BitVec 8 → BitVec 8) :
    Queues (m.modifySem s (fun c => { c with value := f c.value })) :=
  h.congr rfl rfl rfl rfl
    (modifySem_field m s _ Semaphore.waitList (fun _ => rfl)) (fun _ => rfl)

section Slices

variable {τ σ : Type*} [DecidableEq τ] {m : Manager τ σ}

/-- A slice is no list. -/
theorem Queues.ticks (h : Queues m) (t : τ) (f : BitVec 32 → BitVec 32) :
    Queues (m.modify t (fun c => { c with ticks := f c.ticks })) := by
  refine h.congr rfl rfl rfl rfl (fun _ => rfl) ?_
  intro u
  rw [modify_pcb]
  split
  · next hu => rw [hu]
  · rfl

/-- The slice end makes nobody ready who was not. -/
theorem mem_sliceEnd_readyList (h : Queues m) {t : τ} :
    t ∈ (sliceEnd m).readyList ↔ t ∈ m.readyList := by
  have hperm := (List.perm_append_singleton m.curThread
    (m.readyList.erase m.curThread)).trans
    (List.perm_cons_erase h.cur_ready).symm
  exact hperm.mem_iff

/-- **THE END OF A SLICE** moves the current thread to the end of the ready
    list. -/
theorem Queues.sliceEnd (h : Queues m) : Queued (sliceEnd m) where
  general_nodup := h.general_nodup
  ready_nodup := by
    have hperm := (List.perm_append_singleton m.curThread
      (m.readyList.erase m.curThread)).trans
      (List.perm_cons_erase h.cur_ready).symm
    exact hperm.nodup_iff.mpr h.ready_nodup
  ready_general := fun t ht =>
    h.ready_general t ((mem_sliceEnd_readyList h).mp ht)
  sleep_nil := h.sleep_nil
  wait_nodup := h.wait_nodup
  wait_general := h.wait_general
  wait_ready := fun s t ht htr =>
    h.wait_ready s t ht ((mem_sliceEnd_readyList h).mp htr)
  wait_apart := h.wait_apart

/-- After the slice end all that is ready is marked so. -/
theorem Queues.sliceEnd_status (h : Queues m) :
    ∀ t ∈ (Threads.sliceEnd m).readyList,
      ((Threads.sliceEnd m).pcb t).status = .ready := by
  intro t ht
  rw [mem_sliceEnd_readyList h] at ht
  unfold Threads.sliceEnd threadSetReady
  rw [modify_pcb]
  by_cases hc : t = m.curThread
  · rw [if_pos hc, modify_pcb, if_pos rfl]
  · rw [if_neg hc, modify_pcb, if_neg hc]
    exact h.status t ht hc

/-- **A TICK** dispatches at the end of a slice. -/
theorem Queues.tick (h : Queues m) :
    ∃ m', threadTimeTicks m = some m' ∧ Queues m' ∧
      m'.generalList = m.generalList ∧ m'.sem = m.sem ∧
      ∀ t, t ∈ m'.readyList ↔ t ∈ m.readyList := by
  have h₁ := h.ticks m.curThread (· - 1)
  unfold threadTimeTicks
  dsimp only
  split
  · have hne : (Threads.sliceEnd (m.modify m.curThread
        (fun c => { c with ticks := c.ticks - 1 }))).readyList ≠ [] := by
      have := (mem_sliceEnd_readyList h₁).mpr h₁.cur_ready
      exact List.ne_nil_of_mem this
    obtain ⟨next, -, hd, hq⟩ := h₁.sliceEnd.dispatch h₁.sliceEnd_status hne
    refine ⟨_, hd, hq, by rw [switchTo_generalList]; rfl, by rw [switchTo_sem]; rfl, ?_⟩
    intro t
    rw [switchTo_readyList]
    exact mem_sliceEnd_readyList h₁
  · exact ⟨_, rfl, h₁, rfl, rfl, fun _ => Iff.rfl⟩

/-- **A START** adds a thread that was not there. -/
theorem Queues.start (h : Queues m) {thread : τ} (ht : thread ∉ m.generalList) :
    Queues (threadStart m thread) := by
  have hready : thread ∉ m.readyList := fun hr => ht (h.ready_general _ hr)
  have hlist : (threadStart m thread).readyList = m.readyList ++ [thread] := by
    show m.readyList.erase thread ++ [thread] = _
    rw [List.erase_of_not_mem hready]
  have hgen : (threadStart m thread).generalList = m.generalList ++ [thread] := rfl
  have hmem : ∀ {l : List τ} {t : τ}, t ∈ l ++ [thread] ↔ t ∈ l ∨ t = thread := by
    intro l t
    rw [List.mem_append, List.mem_singleton]
  have hnd : ∀ {l : List τ}, l.Nodup → thread ∉ l → (l ++ [thread]).Nodup :=
    fun hl hn => (List.perm_append_singleton thread _).nodup_iff.mpr
      (List.nodup_cons.mpr ⟨hn, hl⟩)
  constructor
  · constructor
    · rw [hgen]
      exact hnd h.general_nodup ht
    · rw [hlist]
      exact hnd h.ready_nodup hready
    · rw [hgen, hlist]
      intro t htr
      rcases hmem.mp htr with htr | rfl
      · exact hmem.mpr (Or.inl (h.ready_general t htr))
      · exact hmem.mpr (Or.inr rfl)
    · exact h.sleep_nil
    · exact h.wait_nodup
    · rw [hgen]
      exact fun s t htw => hmem.mpr (Or.inl (h.wait_general s t htw))
    · rw [hlist]
      intro s t htw htr
      rcases hmem.mp htr with htr | rfl
      · exact h.wait_ready s t htw htr
      · exact ht (h.wait_general s t htw)
    · exact h.wait_apart
  · rw [hlist]
    exact hmem.mpr (Or.inl h.cur_ready)
  · rw [hlist]
    intro t htr htc
    unfold threadStart threadSetReady
    dsimp only
    rw [modify_pcb]
    -- the new thread was readied, the others keep their status
    by_cases hth : t = thread
    · rw [if_pos hth]
    · rw [if_neg hth]
      have hold : t ∈ m.readyList := (hmem.mp htr).resolve_right hth
      dsimp only
      rw [modify_pcb, if_neg hth]
      exact h.status t hold htc

end Slices

section Waits

variable {m : Manager τ σ}

/-- The current thread goes to the end of the semaphore's list. -/
theorem semBlock_waitList (s u : σ) :
    ((semBlock m s).sem u).waitList
      = if u = s then (m.sem s).waitList ++ [m.curThread]
        else (m.sem u).waitList := by
  unfold semBlock
  rw [modify_sem, modifySem_sem]
  split <;> rfl

/-- Waiting takes no permit. -/
theorem semBlock_value (s u : σ) :
    ((semBlock m s).sem u).value = (m.sem u).value := by
  unfold semBlock
  rw [modify_sem, modifySem_sem]
  split
  · next hu => rw [hu]
  · rfl

/-- Who waits after a thread began to. -/
theorem mem_semBlock_waitList {s u : σ} {t : τ} :
    t ∈ ((semBlock m s).sem u).waitList
      ↔ t ∈ (m.sem u).waitList ∨ u = s ∧ t = m.curThread := by
  rw [semBlock_waitList]
  by_cases hu : u = s
  · subst hu
    simp
  · simp [hu]

/-- **BLOCKING** moves the current thread to the end of the wait list. -/
theorem Queues.block (h : Queues m) (s : σ) : Queued (semBlock m s) where
  general_nodup := h.general_nodup
  ready_nodup := h.ready_nodup.erase _
  ready_general := fun t ht => h.ready_general t (List.mem_of_mem_erase ht)
  sleep_nil := by
    show m.sleepList.erase m.curThread = []
    rw [h.sleep_nil]
    rfl
  wait_nodup := fun u => by
    rw [semBlock_waitList]
    split
    · refine (List.perm_append_singleton _ _).nodup_iff.mpr ?_
      exact List.nodup_cons.mpr
        ⟨fun hm => h.wait_ready s _ hm h.cur_ready, h.wait_nodup s⟩
    · exact h.wait_nodup u
  wait_general := fun u t ht => by
    rcases mem_semBlock_waitList.mp ht with ht | ⟨-, rfl⟩
    · exact h.wait_general u t ht
    · exact h.ready_general _ h.cur_ready
  wait_ready := fun u t ht htr => by
    rcases mem_semBlock_waitList.mp ht with ht | ⟨-, rfl⟩
    · exact h.wait_ready u t ht (List.mem_of_mem_erase htr)
    · exact h.ready_nodup.not_mem_erase htr
  wait_apart := fun u u' t ht ht' => by
    rcases mem_semBlock_waitList.mp ht with ht | ⟨hu, hc⟩ <;>
      rcases mem_semBlock_waitList.mp ht' with ht' | ⟨hu', hc'⟩
    · exact h.wait_apart u u' t ht ht'
    · exact absurd (hc' ▸ h.cur_ready) (h.wait_ready u t ht)
    · exact absurd (hc ▸ h.cur_ready) (h.wait_ready u' t ht')
    · exact hu.trans hu'.symm

/-- The threads left on the ready list when the current one blocks. -/
theorem Queues.block_status (h : Queues m) (s : σ) :
    ∀ t ∈ (semBlock m s).readyList, ((semBlock m s).pcb t).status = .ready := by
  intro t ht
  have hne : t ≠ m.curThread := by
    rintro rfl
    exact h.ready_nodup.not_mem_erase ht
  have hpcb : (semBlock m s).pcb t = m.pcb t := by
    unfold semBlock
    rw [modify_pcb, if_neg hne]
    rfl
  rw [hpcb]
  exact h.status t (List.mem_of_mem_erase ht) hne

/-- Some other thread is on the ready list. -/
def OtherReady (m : Manager τ σ) : Prop := ∃ t ∈ m.readyList, t ≠ m.curThread

/-- A thread that blocks while another is ready gives up the processor. -/
theorem Queues.block_dispatch (h : Queues m) (ho : OtherReady m) (s : σ) :
    ∃ next ∈ m.readyList.erase m.curThread,
      threadDispatch (semBlock m s) = some (switchTo (semBlock m s) next) ∧
      Queues (switchTo (semBlock m s) next) := by
  obtain ⟨t, ht, hne⟩ := ho
  have hmem : t ∈ (semBlock m s).readyList := (List.mem_erase_of_ne hne).mpr ht
  exact (h.block s).dispatch (h.block_status s) (List.ne_nil_of_mem hmem)

/-- Where nobody waits nobody is woken. -/
theorem semWake_nil {s : σ} (hw : (m.sem s).waitList = []) : semWake m s = m := by
  unfold semWake
  rw [hw]

/-- The first waiter is woken. -/
theorem semWake_cons {s : σ} {t : τ} {rest : List τ}
    (hw : (m.sem s).waitList = t :: rest) :
    semWake m s
      = threadPushReady (m.modifySem s (fun c => { c with waitList := rest })) t := by
  unfold semWake
  rw [hw]

/-- It leaves the list. -/
theorem semWake_waitList (s u : σ) :
    ((semWake m s).sem u).waitList
      = if u = s then (m.sem s).waitList.tail else (m.sem u).waitList := by
  cases hw : (m.sem s).waitList with
  | nil =>
      rw [semWake_nil hw]
      split
      · next hu => rw [hu, hw]; rfl
      · rfl
  | cons t rest =>
      rw [semWake_cons hw, threadPushReady_sem, modifySem_sem]
      split <;> rfl

/-- Waking gives no permit. -/
theorem semWake_value (s u : σ) :
    ((semWake m s).sem u).value = (m.sem u).value := by
  cases hw : (m.sem s).waitList with
  | nil => rw [semWake_nil hw]
  | cons t rest =>
      rw [semWake_cons hw, threadPushReady_sem]
      exact modifySem_field m s (fun c => { c with waitList := rest })
        Semaphore.value (fun _ => rfl) u

/-- The woken thread was on no ready list, so it is there once. -/
theorem Queues.semWake_readyList (h : Queues m) {s : σ} {t : τ} {rest : List τ}
    (hw : (m.sem s).waitList = t :: rest) :
    (semWake m s).readyList = t :: m.readyList := by
  have ht : t ∈ (m.sem s).waitList := by
    rw [hw]
    exact List.mem_cons_self
  rw [semWake_cons hw]
  show t :: m.readyList.erase t = _
  rw [List.erase_of_not_mem (h.wait_ready s t ht)]

/-- It is on no wait list any more. -/
theorem Queues.mem_semWake_waitList (h : Queues m) {s u : σ} {t v : τ} {rest : List τ}
    (hw : (m.sem s).waitList = t :: rest) (hv : v ∈ ((semWake m s).sem u).waitList) :
    v ∈ (m.sem u).waitList ∧ v ≠ t := by
  rw [semWake_waitList] at hv
  split at hv
  · next hu =>
      have hnd : (t :: rest).Nodup := hw ▸ h.wait_nodup s
      rw [hw] at hv
      rw [hu, hw]
      refine ⟨List.mem_cons_of_mem _ hv, ?_⟩
      rintro rfl
      exact (List.nodup_cons.mp hnd).1 hv
  -- no thread waits on two semaphores
  · next hu =>
      refine ⟨hv, ?_⟩
      rintro rfl
      refine hu (h.wait_apart u s v hv ?_)
      rw [hw]
      exact List.mem_cons_self

/-- **WAKING** moves the first waiting thread to the head of the ready list. -/
theorem Queues.wake (h : Queues m) (s : σ) : Queues (semWake m s) := by
  cases hw : (m.sem s).waitList with
  | nil =>
      rw [semWake_nil hw]
      exact h
  | cons t rest =>
      have ht : t ∈ (m.sem s).waitList := by
        rw [hw]
        exact List.mem_cons_self
      have hlist : (semWake m s).readyList = t :: m.readyList := h.semWake_readyList hw
      have hgen : (semWake m s).generalList = m.generalList := by
        rw [semWake_cons hw]
        rfl
      have hcur : (semWake m s).curThread = m.curThread := by
        rw [semWake_cons hw]
        rfl
      have hpcb : ∀ v, (semWake m s).pcb v
          = if v = t then { m.pcb t with status := .ready } else m.pcb v := by
        intro v
        rw [semWake_cons hw]
        exact modify_pcb _ _ _ _
      constructor
      · constructor
        · rw [hgen]
          exact h.general_nodup
        · rw [hlist]
          exact List.nodup_cons.mpr ⟨h.wait_ready s t ht, h.ready_nodup⟩
        · rw [hlist, hgen]
          intro v hv
          rcases List.mem_cons.mp hv with rfl | hv
          · exact h.wait_general s v ht
          · exact h.ready_general v hv
        · rw [semWake_cons hw]
          exact h.sleep_nil
        · intro u
          rw [semWake_waitList]
          split
          · exact (h.wait_nodup s).tail
          · exact h.wait_nodup u
        · rw [hgen]
          exact fun u v hv => h.wait_general u v (h.mem_semWake_waitList hw hv).1
        · rw [hlist]
          intro u v hv hvr
          obtain ⟨hv', hne⟩ := h.mem_semWake_waitList hw hv
          exact h.wait_ready u v hv' ((List.mem_cons.mp hvr).resolve_left hne)
        · intro u u' v hv hv'
          exact h.wait_apart u u' v (h.mem_semWake_waitList hw hv).1
            (h.mem_semWake_waitList hw hv').1
      · rw [hlist, hcur]
        exact List.mem_cons_of_mem _ h.cur_ready
      · rw [hlist, hcur]
        intro v hv hvc
        rw [hpcb]
        split
        · rfl
        · next hne =>
            exact h.status v ((List.mem_cons.mp hv).resolve_left hne) hvc

/-- A post keeps every thread in at most one list. -/
theorem Queues.post (h : Queues m) (s : σ) : Queues (threadSemPost m s) :=
  (h.wake s).value s (· + 1)

end Waits

/-- At boot the main thread is in no queue but its own. -/
theorem boot_queues {τ σ : Type*} [DecidableEq τ] (pcb : τ → ThreadPcb) (main : τ)
    (value : σ → BitVec 8) : Queues (boot pcb main value) where
  general_nodup := List.nodup_singleton main
  ready_nodup := List.nodup_singleton main
  ready_general := fun _ ht => ht
  sleep_nil := rfl
  wait_nodup := fun _ => List.nodup_nil
  wait_general := fun _ _ ht => nomatch ht
  wait_ready := fun _ _ ht => nomatch ht
  wait_apart := fun _ _ _ ht => nomatch ht
  cur_ready := List.mem_singleton_self main
  status := fun _ ht hne => absurd (List.mem_singleton.mp ht) hne

end LittleOS.Threads
