import LittleOS.Semaphores

/-! # Permits over any scheduling

    `thread_sem_wait` and `thread_sem_post` called by any threads in any order.
    What happens elsewhere between two calls, `thread_dispatch` included, may
    leave anything but the values of the semaphores.  `value` is a `uint8_t`
    and neither call looks at its end.

    * `Kept.step` — below 255 a post keeps the balance;
    * `blocks_without_permit` — so a thread that blocks finds no permit, up to
      the first post at 255, behind which it finds 256;
    * `run_of_machine` — the runs of `LittleOS.Threads` are among these. -/

namespace LittleOS.Permits

open Runs Threads

variable {τ σ : Type*} [DecidableEq τ] [DecidableEq σ]

/-- The threads and semaphores, with the calls so far: `waits` are the completed
    ones. -/
structure Counted (τ σ : Type*) extends Manager τ σ where
  posts : σ → Nat
  waits : σ → Nat

/-- What can happen next, anywhere in the kernel. -/
inductive Label (τ σ : Type*) where
  | post (sem : σ)
  /-- A test in the loop of `thread_sem_wait`. -/
  | wait (sem : σ)
  | elsewhere (m : Manager τ σ)

/-- The manager with the semaphore values of another. -/
def withValues (m old : Manager τ σ) : Manager τ σ :=
  { m with sem := fun s => { m.sem s with value := (old.sem s).value } }

/-- One more for a semaphore. -/
def count (counts : σ → Nat) (sem : σ) : σ → Nat :=
  Function.update counts sem (counts sem + 1)

/-- A step, with the posts and the waits that took a permit counted. -/
def step : Label τ σ → Counted τ σ → Option (Counted τ σ)
  | .post sem, c =>
      some { c with toManager := threadSemPost c.toManager sem, posts := count c.posts sem }
  | .wait sem, c =>
      if (c.sem sem).value = 0 then some { c with toManager := semBlock c.toManager sem }
      else
        some { c with
          toManager := c.modifySem sem (fun d => { d with value := d.value - 1 })
          waits := count c.waits sem }
  | .elsewhere m, c => some { c with toManager := withValues m c.toManager }

/-- A post finds `value` below the top of `uint8_t`. -/
def Room : Label τ σ → Counted τ σ → Prop
  | .post sem, c => (c.sem sem).value.toNat < 255
  | _, _ => True

instance : ∀ (l : Label τ σ) (c : Counted τ σ), Decidable (Room l c)
  | .post sem, c => inferInstanceAs (Decidable ((c.sem sem).value.toNat < 255))
  | .wait _, _ => .isTrue trivial
  | .elsewhere _, _ => .isTrue trivial

/-- Nothing counted yet. -/
def start (m : Manager τ σ) : Counted τ σ where
  toManager := m
  posts := fun _ => 0
  waits := fun _ => 0

/-! ## The balance -/

/-- A permit is in `value` or was taken by a completed wait. -/
def Kept (m : Manager τ σ) (c : Counted τ σ) : Prop :=
  ∀ s, (c.sem s).value.toNat + c.waits s = (m.sem s).value.toNat + c.posts s

/-- The semaphore has one more. -/
theorem count_self (counts : σ → Nat) (s : σ) : count counts s s = counts s + 1 :=
  Function.update_self ..

/-- The others have not. -/
theorem count_of_ne (counts : σ → Nat) {s u : σ} (h : u ≠ s) : count counts s u = counts u :=
  Function.update_of_ne h ..

/-- A post with room for its permit keeps the count. -/
theorem Kept.post {m : Manager τ σ} {c : Counted τ σ} (h : Kept m c) {s : σ}
    (hroom : (c.sem s).value.toNat < 255) :
    Kept m { c with toManager := threadSemPost c.toManager s, posts := count c.posts s } := by
  intro u
  have hu := h u
  dsimp only
  rw [Semaphores.threadSemPost_value]
  by_cases hus : u = s
  · subst hus
    have hadd : ((c.sem u).value + 1).toNat = (c.sem u).value.toNat + 1 := by
      bv_omega
    rw [if_pos rfl, count_self]
    omega
  · rw [if_neg hus, count_of_ne _ hus]
    exact hu

/-- So does a wait that takes one. -/
theorem Kept.wait {τ σ : Type*} [DecidableEq σ] {m : Manager τ σ} {c : Counted τ σ}
    (h : Kept m c) {s : σ} (h0 : (c.sem s).value ≠ 0) :
    Kept m { c with
      toManager := c.modifySem s (fun d => { d with value := d.value - 1 })
      waits := count c.waits s } := by
  intro u
  have hu := h u
  dsimp only
  rw [modifySem_sem]
  by_cases hus : u = s
  · subst hus
    have hpos : 0 < (c.sem u).value.toNat :=
      Nat.pos_of_ne_zero (fun hz => h0 (BitVec.eq_of_toNat_eq hz))
    have hsub : ((c.sem u).value - 1).toNat = (c.sem u).value.toNat - 1 := by
      bv_omega
    rw [if_pos rfl, count_self]
    dsimp only
    omega
  · rw [if_neg hus, count_of_ne _ hus]
    exact hu

/-- **ONE STEP** keeps the balance. -/
theorem Kept.step {m : Manager τ σ} {l : Label τ σ} {c c' : Counted τ σ} (h : Kept m c)
    (hroom : Room l c) (hs : step l c = some c') : Kept m c' := by
  cases l with
  | post sem =>
      obtain rfl := Option.some.inj hs
      exact h.post hroom
  | wait sem =>
      by_cases h0 : (c.sem sem).value = 0
      · obtain rfl := Option.some.inj ((if_pos h0).symm.trans hs)
        intro u
        dsimp only
        rw [semBlock_value]
        exact h u
      · obtain rfl := Option.some.inj ((if_neg h0).symm.trans hs)
        exact h.wait h0
  | elsewhere m' =>
      obtain rfl := Option.some.inj hs
      exact fun u => h u

/-- And any run whose posts have room. -/
theorem kept_of_run {m : Manager τ σ} {ls : List (Label τ σ)} {c : Counted τ σ}
    (h : Run step Room (start m) ls c) : Kept m c :=
  h.invariant (fun _ => rfl) (fun _ _ _ hc hroom hs => hc.step hroom hs)

/-- **NO PERMIT IS DESTROYED** by posts below 255: a thread that blocks finds all
    of them taken.  A post at 255 destroys all 256. -/
theorem blocks_without_permit (m : Manager τ σ) {ls : List (Label τ σ)} {c : Counted τ σ}
    (h : Run step Room (start m) ls c) (sem : σ) :
    ((c.sem sem).value = 0 → c.waits sem = (m.sem sem).value.toNat + c.posts sem) ∧
    (¬ Room (.post sem) c → ∀ c', step (.post sem) c = some c' →
      (c'.sem sem).value = 0 ∧
        c'.waits sem + 256 = (m.sem sem).value.toNat + c'.posts sem) := by
  have hkept := kept_of_run h sem
  constructor
  · intro h0
    rw [h0] at hkept
    simpa using hkept
  · intro hfull c' hs
    obtain rfl := Option.some.inj hs
    have h255 : (c.sem sem).value.toNat = 255 := by
      have hlt := (c.sem sem).value.isLt
      have hge : ¬ (c.sem sem).value.toNat < 255 := hfull
      omega
    dsimp only
    rw [Semaphores.threadSemPost_value, if_pos rfl, count_self]
    refine ⟨?_, by omega⟩
    apply BitVec.eq_of_toNat_eq
    rw [BitVec.toNat_add, h255]
    rfl

/-- One semaphore of a value, and the thread 0. -/
def single (v : BitVec 8) : Manager Nat Unit :=
  boot (fun _ => { status := .created, ticks := 0 }) 0 (fun _ => v)

private theorem postThenWait_isSome :
    (exec step Room [.post (), .wait (), .wait ()] (start (single 1))).isSome = true := by
  decide +kernel

/-- Two permits are taken, and the next thread would block. -/
theorem blocks_without_permit_two :
    ∃ c : Counted Nat Unit,
      Run step Room (start (single 1)) [.post (), .wait (), .wait ()] c ∧
      (c.sem ()).value = 0 ∧ c.waits () = 1 + c.posts () := by
  have hrun := Run.of_isSome postThenWait_isSome
  have hzero : (((exec step Room [.post (), .wait (), .wait ()] (start (single 1))).get
      postThenWait_isSome).sem ()).value = 0 := by decide +kernel
  exact ⟨_, hrun, hzero, (blocks_without_permit _ hrun ()).1 hzero⟩

private theorem fullPost_isSome :
    (exec step (fun _ _ => True) [.post ()] (start (single 255))).isSome = true := by
  decide +kernel

/-- A post at 255 leaves 0. -/
theorem full_post_blocks :
    ¬ ∀ (m : Manager Nat Unit) (ls : List (Label Nat Unit)) (c : Counted Nat Unit),
      Run step (fun _ _ => True) (start m) ls c → ∀ sem, (c.sem sem).value = 0 →
        c.waits sem = (m.sem sem).value.toNat + c.posts sem := by
  intro h
  have hrun := Run.of_isSome fullPost_isSome
  exact absurd (h _ _ _ hrun () (by decide +kernel)) (by decide +kernel)

/-! ## The threads of `thread_manager` -/

/-- Code that leaves the counters is code elsewhere. -/
theorem withValues_eq {τ σ : Type*} {m old : Manager τ σ}
    (h : ∀ s, (m.sem s).value = (old.sem s).value) :
    withValues m old = m := by
  have hsem : (fun s => { m.sem s with value := (old.sem s).value }) = m.sem := by
    funext s
    rw [← h s]
  unfold withValues
  rw [hsem]

/-- What leaves the values alone is one step. -/
theorem elsewhere_run {m : Manager τ σ} {c : Counted τ σ}
    (h : ∀ s, (m.sem s).value = (c.sem s).value) :
    Run step Room c [.elsewhere m] { c with toManager := m } := by
  refine Run.single trivial ?_
  show some _ = some _
  rw [withValues_eq h]

/-- **A STEP** of a thread is one call or none, and a switch behind it. -/
theorem run_of_step {l : Threads.Label τ σ} {x x' : Machine τ σ}
    (hroom : Semaphores.Room l x) (hs : Threads.step l x = some x') {c : Counted τ σ}
    (hc : c.toManager = x.toManager) :
    ∃ ls c', Run step Room c ls c' ∧ c'.toManager = x'.toManager := by
  obtain ⟨m, posts, waits⟩ := c
  obtain rfl : m = x.toManager := hc
  rcases Semaphores.step_cases hs with ⟨t, -, -, rfl⟩ | ⟨s, -, -, htest⟩ | ⟨s, rfl, rfl⟩ |
    ⟨-, r, hr, rfl⟩
  · exact ⟨_, _, elsewhere_run (m := (startStep x t).toManager) (fun _ => rfl), rfl⟩
  · rcases Semaphores.testStep_cases htest with ⟨h0, rfl⟩ | ⟨h0, r, hd, rfl⟩
    · exact ⟨[.wait s], _, Run.single trivial (if_neg h0), rfl⟩
    · -- the thread blocks, and `thread_dispatch` takes the next one
      have hblock : Run step Room ⟨x.toManager, posts, waits⟩ [.wait s]
          ⟨semBlock x.toManager s, posts, waits⟩ := Run.single trivial (if_pos h0)
      have hvalues : ∀ u, (r.sem u).value = ((semBlock x.toManager s).sem u).value := by
        intro u
        rw [threadDispatch_sem hd]
      exact ⟨_, _, hblock.append (elsewhere_run hvalues), rfl⟩
  · exact ⟨[.post s], _, Run.single hroom rfl, rfl⟩
  · have hvalues : ∀ u, (r.sem u).value = (x.sem u).value := by
      intro u
      rw [(threadTimeTicks_some hr).1]
    exact ⟨_, _, elsewhere_run hvalues, rfl⟩

/-- **THE RUNS** of the threads are runs of calls. -/
theorem run_of_machine {pcb : τ → ThreadPcb} {main : τ} {value : σ → BitVec 8}
    {ls : List (Threads.Label τ σ)} {x : Machine τ σ}
    (h : Run Threads.step Semaphores.Room (Threads.init pcb main value) ls x) :
    ∃ ls' c, Run step Room (start (boot pcb main value)) ls' c ∧
      c.toManager = x.toManager := by
  induction h with
  | nil => exact ⟨[], _, Run.nil _, rfl⟩
  | snoc _ hroom hs ih =>
      obtain ⟨ls, c, hrun, hc⟩ := ih
      obtain ⟨ls', c', hrun', hc'⟩ := run_of_step hroom hs hc
      exact ⟨ls ++ ls', c', hrun.append hrun', hc'⟩

end LittleOS.Permits
