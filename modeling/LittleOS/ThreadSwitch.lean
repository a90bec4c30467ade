import LittleOS.Lib.Coroutines
import LittleOS.Lib.Runs

/-! # Switching threads

    `simple_switch` of `start.S` and what `task_old.c` builds around it.  A thread
    is known by its `thread_pcb_t`, whose first word is `kstack`; its stack is the
    rest of the page, and that of the main thread is `stack` of `start.S`.

    `thread_dispatch` calls `switch_thread_from_to` from whatever code the
    current thread is in.  That code is any change of the machine that leaves the
    stacks and stack pointers of the other threads alone, and so are the lists
    that `thread_start` and `thread_dispatch` keep, which have their own model in
    `LittleOS.ThreadMemory`.

    * `thread_resumes` — a thread goes on where it was, whatever ran in between;
    * `thread_begins` — a new one enters `kthread` with its function and `NULL`. -/

namespace LittleOS.ThreadSwitch

open X86 Coroutines Runs

/-- `MEM_PAGE_SIZE`. -/
def memPageSize : Word := 4096

/-- `TASK_TICKS_DEFAULT`. -/
def taskTicksDefault : Word := 5

/-- `TASK_STACK_MAGIC`. -/
def taskStackMagic : Word := 0x19870916

/-- `TASK_CREATED`. -/
def taskCreated : Word := 1

/-! ## The functions -/

section Source

variable {κ : Type*}

/-- `simple_switch`, from its first instruction to behind its `ret`. -/
def simpleSwitch (s : State κ) : State κ :=
  let s := s.loadFrom .eax 4 .esp
  let s := s.loadFrom .edx 8 .esp
  let s := (((s.pushReg .esi).pushReg .edi).pushReg .ebx).pushReg .ebp
  let s := s.storeTo .esp .eax
  let s := s.move .edx .esp
  let s := (((s.pop .ebp).pop .ebx).pop .edi).pop .esi
  s.ret

/-- `switch_thread_from_to` up to the point where a thread goes on; `next` is the
    address behind its call. -/
def switchThreadFromTo (fromPcb toPcb next : Word) (s : State κ) : State κ :=
  simpleSwitch (s.callWith [fromPcb, s.mem toPcb] next)

/-- One write after another. -/
def writes (mem : Word → Word) (ws : List (Word × Word)) : Word → Word :=
  ws.foldl (fun m w => Function.update m w.1 w.2) mem

/-- `kthread_init`.  `kmemset` clears the size of a pointer.  The name, which
    `kstrcpy` writes from `pthread + 4` on, is left out: it stays in its page, where
    every word that a switch reads is written after it. -/
def kthreadInit (mem : Word → Word) (pthread prio : Word) : Word → Word :=
  writes mem
    [(pthread, 0), (pthread + 28, taskCreated), (pthread + 24, prio),
      (pthread, pthread + memPageSize), (pthread + 32, taskStackMagic)]

/-- `kthread_create`.  `kstack` points to words, so the two sizes count words;
    `kthread` is the address of that function. -/
def kthreadCreate (kthread : Word) (mem : Word → Word) (pthread func args : Word) :
    Word → Word :=
  let mem := Function.update mem pthread (mem pthread - 4 * 72)
  let mem := Function.update mem pthread (mem pthread - 4 * 32)
  let kthreadStack := mem pthread
  writes mem
    [(kthreadStack + 16, kthread), (kthreadStack + 24, func), (kthreadStack + 28, args),
      (kthreadStack + 8, 0), (kthreadStack + 12, 0), (kthreadStack + 4, 0),
      (kthreadStack, 0)]

/-- `thread_start` with the page it was given, up to the lists.  It passes `NULL`
    where it was given arguments. -/
def threadStart (kthread : Word) (mem : Word → Word) (thread prio func _args : Word) :
    Word → Word :=
  let mem := kthreadCreate kthread (kthreadInit mem thread prio) thread func 0
  writes mem [(thread + 36, taskTicksDefault)]

end Source

/-! ## What a new thread finds -/

/-- The stores change their addresses only. -/
theorem writes_of_ne {mem : Word → Word} {ws : List (Word × Word)} {a : Word}
    (h : ∀ w ∈ ws, a ≠ w.1) : writes mem ws a = mem a := by
  induction ws generalizing mem with
  | nil => rfl
  | cons w ws ih =>
      refine (ih fun w' hw => h w' (List.mem_cons_of_mem w hw)).trans ?_
      exact Function.update_of_ne (h w List.mem_cons_self) ..

/-- A thread's stack begins at the end of its page. -/
theorem kthreadInit_kstack (mem : Word → Word) (pthread prio : Word) :
    kthreadInit mem pthread prio pthread = pthread + memPageSize := by
  simp [kthreadInit, writes]

/-- All words that `thread_start` writes, over the page. -/
theorem threadStart_eq (kthread : Word) (mem : Word → Word) (p prio func args : Word) :
    threadStart kthread mem p prio func args
      = writes (kthreadInit mem p prio)
          [(p, p + 3808), (p, p + 3680),
            (p + 3696, kthread), (p + 3704, func), (p + 3708, 0), (p + 3688, 0),
            (p + 3692, 0), (p + 3684, 0), (p + 3680, 0), (p + 36, taskTicksDefault)] := by
  have h1 : p + memPageSize - 4 * 72 = p + 3808 := by
    unfold memPageSize
    bv_omega
  have h2 : p + 3808 - 4 * 32 = p + 3680 := by
    bv_omega
  unfold threadStart kthreadCreate
  dsimp only
  rw [kthreadInit_kstack, h1, Function.update_self, h2, Function.update_self]
  simp [writes, BitVec.add_assoc]

/-- They are words of the page. -/
theorem threadStart_page (kthread : Word) (mem : Word → Word) {p a : Word} (prio func args : Word)
    (ha : ¬ (a - p).toNat < 4096) : threadStart kthread mem p prio func args a = mem a := by
  have hne : ∀ n : Nat, n < 4096 → a ≠ p + BitVec.ofNat 32 n := by
    rintro n hn rfl
    refine ha ?_
    rw [BitVec.add_comm, BitVec.add_sub_cancel, BitVec.toNat_ofNat]
    omega
  have hp : a ≠ p := by simpa using hne 0 (by decide)
  rw [threadStart_eq, writes_of_ne, kthreadInit, writes_of_ne]
  · simpa [hp] using ⟨hne 28 (by decide), hne 24 (by decide), hne 32 (by decide)⟩
  · simpa [hp] using ⟨hne 3696 (by decide), hne 3704 (by decide), hne 3708 (by decide),
      hne 3688 (by decide), hne 3692 (by decide), hne 3684 (by decide), hne 3680 (by decide),
      hne 36 (by decide)⟩

/-- The stack a new thread starts with. -/
theorem threadStart_stack (kthread : Word) (mem : Word → Word) (p prio func args : Word) :
    threadStart kthread mem p prio func args p = p + 3680 ∧
    Holds (threadStart kthread mem p prio func args) (p + 3680) [0, 0, 0, 0, kthread] ∧
    Holds (threadStart kthread mem p prio func args) (slot (p + 3680) 6) [func, 0] := by
  rw [threadStart_eq]
  refine ⟨?_, ?_, ?_⟩
  · simp [writes]
  · simp [writes, Holds, BitVec.add_assoc]
  · simp [writes, Holds, slot, BitVec.add_assoc]

/-! ## The threads -/

/-- `main_thread`, `stack` of `start.S`, and the pages that `kalloc_pages` hands
    out, away from both. -/
structure Layout where
  mainThread : Word
  stack : Word
  pages : Set Word
  aligned : ∀ p ∈ pages, p.toNat % 4096 = 0
  mainThread_stack : ¬ (mainThread - stack).toNat < 8 * 1024
  mainThread_pages : ∀ p ∈ pages, ¬ (mainThread - p).toNat < 4096
  stack_pages : ∀ p ∈ pages, ∀ a : Word, (a - p).toNat < 4096 →
    ¬ (a - stack).toNat < 8 * 1024

namespace Layout

variable (L : Layout)

/-- The main thread, or the one of a page. -/
abbrev Thread := Option L.pages

/-- Its `thread_pcb_t`, and so the address of its `kstack`. -/
def pcb : L.Thread → Word
  | none => L.mainThread
  | some p => p

/-- The addresses of a thread's stack: a region of its own for the main thread, the page
    above the structure for any other. -/
def stackOf : L.Thread → Set Word
  | none => {a | (a - L.stack).toNat < 8 * 1024}
  | some p => {a | 56 ≤ (a - p.1).toNat ∧ (a - p.1).toNat < 4096}

/-- All that belongs to a thread. -/
def own : L.Thread → Set Word
  | none => {a | a = L.mainThread ∨ (a - L.stack).toNat < 8 * 1024}
  | some p => {a | (a - p.1).toNat < 4096}

/-- Threads have nothing in common. -/
theorem own_apart : ∀ t u : L.Thread, t ≠ u → Disjoint (L.own t) (L.own u) := by
  have hmain : ∀ p : L.pages, Disjoint (L.own none) (L.own (some p)) := by
    intro p
    refine Set.disjoint_left.mpr fun a ha hp => ?_
    rcases ha with rfl | ha
    · exact L.mainThread_pages p p.2 hp
    · exact L.stack_pages p p.2 a hp ha
  have hpages : ∀ p q : L.pages, p ≠ q → Disjoint (L.own (some p)) (L.own (some q)) := by
    rintro ⟨p, hp⟩ ⟨q, hq⟩ hne
    refine Set.disjoint_left.mpr fun a hap haq => hne (Subtype.ext ?_)
    have h1 : (a - p).toNat < 4096 := hap
    have h2 : (a - q).toNat < 4096 := haq
    have hpa := L.aligned p hp
    have hqa := L.aligned q hq
    show p = q
    bv_omega
  intro t u hne
  cases t with
  | none =>
      cases u with
      | none => exact absurd rfl hne
      | some q => exact hmain q
  | some p =>
      cases u with
      | none => exact (hmain p).symm
      | some q => exact hpages p q fun he => hne (congrArg some he)

/-- The threads as coroutines. -/
def coroutines : Stacks L.Thread where
  own := L.own
  slot := L.pcb
  stack := L.stackOf
  slot_own := by
    rintro (_ | p)
    · exact Or.inl rfl
    · show (p.1 - p.1).toNat < 4096
      simp
  stack_own := by
    rintro (_ | p) a ha
    · exact Or.inr ha
    · exact ha.2
  slot_stack := by
    rintro (_ | p) ha
    · exact L.mainThread_stack ha
    · have hlow : 56 ≤ (p.1 - p.1).toNat := ha.1
      simp at hlow
  apart := L.own_apart

end Layout

/-- `simple_switch` saves these, in this order. -/
def saved : List Reg := [.esi, .edi, .ebx, .ebp]

/-- The switch saves registers that can be popped again. -/
theorem saved_saveable : Saveable saved :=
  ⟨by decide, by decide, by decide, by decide, by decide⟩

/-- The function `simple_switch` is a switch routine with these registers. -/
theorem simpleSwitch_eq {κ : Type*} (s : State κ) :
    simpleSwitch s = switchRoutine saved s := rfl

/-! ## The machine -/

/-- The processor, the current thread and the threads there are. -/
structure Machine (κ : Type*) (L : Layout) where
  cpu : State κ
  cur : L.Thread
  created : List L.Thread

/-- What can happen next. -/
inductive Label (κ : Type*) (L : Layout) where
  /-- The current thread's own code runs as far as `s`. -/
  | run (s : State κ)
  | threadStart (page : L.pages) (prio func args : Word)
  /-- `switch_thread_from_to`, with the address behind its call of
      `simple_switch`. -/
  | switch (thread : L.Thread) (next : Word)

section Machine

variable {κ : Type*} {L : Layout} (kthread : Word)

/-- A step: a thread is started on a page without one, and a switch goes to another thread. -/
def step : Label κ L → Machine κ L → Option (Machine κ L)
  | .run s, m => some { m with cpu := s }
  | .threadStart page prio func args, m =>
      if some page ∈ m.created then none
      else some { m with
        cpu := { m.cpu with mem := threadStart kthread m.cpu.mem page prio func args }
        created := m.created ++ [some page] }
  | .switch thread next, m =>
      if thread ∈ m.created ∧ thread ≠ m.cur then
        some { m with
          cpu := switchThreadFromTo (L.pcb m.cur) (L.pcb thread) next m.cpu
          cur := thread }
      else none

/-- The one of the seven words that a switch pushes with this place. -/
def pushed (s : State κ) (i : Nat) : Word := slot (s.reg .esp - 28) i

/-- A thread's own code keeps off the other threads, and it has room on its stack
    for a switch. -/
def Proper : Label κ L → Machine κ L → Prop
  | .run s, m => ∀ t ∈ m.created, t ≠ m.cur → Kept L.coroutines t m.cpu.mem s.mem
  | .threadStart _ _ _ _, _ => True
  | .switch _ _, m => ∀ i < 7, pushed m.cpu i ∈ L.stackOf m.cur

/-- The main thread, anywhere in its code. -/
def boot (cpu : State κ) : Machine κ L := ⟨cpu, none, [none]⟩

/-! ## The call -/

section Call

variable {s : State κ} {x y next : Word}

/-- A call changes no register but `esp`. -/
theorem callWith_reg {r : Reg} (h : r ≠ .esp) :
    (s.callWith [x, y] next).reg r = s.reg r := by
  simp [State.callWith, h]

/-- A call with two arguments takes three words. -/
theorem callWith_esp (s : State κ) (x y next : Word) :
    (s.callWith [x, y] next).reg .esp = s.reg .esp - 12 := by
  simp [State.callWith]
  bv_omega

/-- The return address is on top of the arguments. -/
theorem callWith_top (s : State κ) (x y next : Word) :
    Top (s.callWith [x, y] next) [next, x, y] := by
  have hnone : Top s [] := trivial
  exact ((hnone.push (by simp) y).push (by simp) x).push (by simp) next

/-- A call and the pushes of the switch write seven words. -/
theorem callWith_mem {a : Word} (h : ∀ i < 7, a ≠ pushed s i) :
    (s.callWith [x, y] next).mem a = s.mem a := by
  have hne : ∀ (i : Nat) {b : Word}, i < 7 → pushed s i = b → a ≠ b := by
    rintro i b hi rfl
    exact h i hi
  refine (Function.update_of_ne (hne 4 (by decide) ?_) ..).trans
    ((Function.update_of_ne (hne 5 (by decide) ?_) ..).trans
      (Function.update_of_ne (hne 6 (by decide) ?_) ..))
  all_goals
    simp [pushed, slot]
    bv_omega

/-- What `simple_switch` pushes lies below what the call does. -/
theorem place_pushed (s : State κ) (x y next : Word) (i : Nat) :
    place ((s.callWith [x, y] next).reg .esp) saved.length i = pushed s i := by
  rw [callWith_esp]
  unfold place pushed
  congr 1
  simp [saved]
  bv_omega

end Call

variable {m m' : Machine κ L} {t : L.Thread} {next : Word}

/-- The state in which `switch_thread_from_to` enters `simple_switch`. -/
def entry (m : Machine κ L) (thread : L.Thread) (next : Word) : State κ :=
  m.cpu.callWith [L.pcb m.cur, m.cpu.mem (L.pcb thread)] next

/-- The call writes on the stack of the current thread. -/
theorem entry_keeps {u : L.Thread} (hok : ∀ i < 7, pushed m.cpu i ∈ L.stackOf m.cur)
    (hne : t ≠ m.cur) : Kept L.coroutines t m.cpu.mem (entry m u next).mem := by
  refine Kept.of_own (fun a ha => callWith_mem fun i hi he => ha ?_) hne
  rw [he]
  exact L.coroutines.stack_own _ (hok i hi)

/-- The call enters the routine with its saved registers on the thread's own stack. -/
theorem entry_enters (hok : ∀ i < 7, pushed m.cpu i ∈ L.stackOf m.cur) (hne : t ≠ m.cur) :
    Enters L.coroutines saved m.cur t (entry m t next) := by
  have htop := holds_iff.mp (callWith_top m.cpu (L.pcb m.cur) (m.cpu.mem (L.pcb t)) next)
  refine ⟨htop 1 (by simp), ?_, fun i hi => ?_⟩
  · exact (htop 2 (by simp)).trans (entry_keeps hok hne).slot.symm
  · show place (State.reg (State.callWith ..) .esp) saved.length i ∈ _
    rw [place_pushed]
    exact hok i (hi.trans_lt (by decide))

/-! ## Runs -/

variable {e : State κ} {l : Label κ L} {kthread}

/-- What starting a thread changes. -/
theorem threadStart_some {page : L.pages} {prio func args : Word}
    (hs : step kthread (.threadStart page prio func args) m = some m') :
    some page ∉ m.created ∧ m'.cur = m.cur ∧ m'.created = m.created ++ [some page] ∧
      m'.cpu = { m.cpu with mem := threadStart kthread m.cpu.mem page prio func args } := by
  unfold step at hs
  dsimp only at hs
  split at hs
  · cases hs
  · next hnew =>
      rw [← Option.some.inj hs]
      exact ⟨hnew, rfl, rfl, rfl⟩

/-- What a switch changes. -/
theorem switch_some (hs : step kthread (.switch t next) m = some m') :
    t ∈ m.created ∧ t ≠ m.cur ∧ m'.cur = t ∧ m'.created = m.created ∧
      m'.cpu = simpleSwitch (entry m t next) := by
  unfold step at hs
  dsimp only at hs
  split at hs
  · next ht =>
      rw [← Option.some.inj hs]
      exact ⟨ht.1, ht.2, rfl, rfl, rfl⟩
  · cases hs

/-- **EVERY STEP** of another thread keeps what `t` needs. -/
theorem step_keeps (hok : Proper l m) (ht : t ∈ m.created) (hne : t ≠ m.cur)
    (hs : step kthread l m = some m') : Kept L.coroutines t m.cpu.mem m'.cpu.mem := by
  cases l with
  | run s =>
      rw [← Option.some.inj hs]
      exact hok t ht hne
  | threadStart page prio func args =>
      obtain ⟨hnew, -, -, hcpu⟩ := threadStart_some hs
      have hpage : t ≠ some page := fun he => hnew (he ▸ ht)
      rw [hcpu]
      refine Kept.of_own (fun a ha => ?_) hpage
      exact threadStart_page kthread m.cpu.mem prio func args ha
  | switch u next =>
      obtain ⟨-, hu, -, -, hcpu⟩ := switch_some hs
      rw [hcpu, simpleSwitch_eq]
      exact (entry_keeps hok hne).trans (switch_keeps (entry_enters hok hu) hne)

/-- No thread is forgotten. -/
theorem step_created (hs : step kthread l m = some m') : m.created ⊆ m'.created := by
  cases l with
  | run s =>
      rw [← Option.some.inj hs]
      exact List.Subset.refl _
  | threadStart page prio func args =>
      rw [(threadStart_some hs).2.2.1]
      exact List.subset_append_left ..
  | switch u next =>
      rw [(switch_some hs).2.2.2.1]
      exact List.Subset.refl _

/-- The current thread has been created. -/
theorem step_cur (h : m.cur ∈ m.created) (hs : step kthread l m = some m') :
    m'.cur ∈ m'.created := by
  cases l with
  | run s =>
      rw [← Option.some.inj hs]
      exact h
  | threadStart page prio func args =>
      rw [(threadStart_some hs).2.1]
      exact step_created hs h
  | switch u next =>
      obtain ⟨hu, -, hcur, hcreated, -⟩ := switch_some hs
      rw [hcur, hcreated]
      exact hu

/-- A parked thread stays so until it runs.  Induction over the run. -/
theorem run_parked {ls : List (Label κ L)} (ht : t ∈ m.created)
    (hp : Parked L.coroutines saved t e m.cpu.mem)
    (h : Run (step kthread) (fun l m => Proper l m ∧ m.cur ≠ t) m ls m') :
    Parked L.coroutines saved t e m'.cpu.mem := by
  have hend : t ∈ m'.created ∧ Parked L.coroutines saved t e m'.cpu.mem := by
    refine h.invariant (P := fun m => t ∈ m.created ∧ Parked L.coroutines saved t e m.cpu.mem)
      ⟨ht, hp⟩ ?_
    rintro l s s' ⟨hs, hparked⟩ ⟨hok, hcur⟩ hstep
    exact ⟨step_created hstep hs, hparked.kept (step_keeps hok hs hcur.symm hstep)⟩
  exact hend.2

/-- Who is switched to goes on as it was parked. -/
theorem step_resumes (hp : Parked L.coroutines saved t e m.cpu.mem)
    (hok : Proper (.switch t next) m) (hs : step kthread (.switch t next) m = some m') :
    Resumed L.coroutines saved t e m'.cpu := by
  obtain ⟨-, hne, -, -, hcpu⟩ := switch_some hs
  rw [hcpu, simpleSwitch_eq]
  exact switch_resumes saved_saveable (entry_enters hok hne) hne (hp.kept (entry_keeps hok hne))

/-- **A THREAD GOES ON** where it was.  In every run, whatever threads are created
    and run from its call of `switch_thread_from_to` on, the thread that is
    switched back to finds itself behind that call, with its registers, its stack
    pointer and all of its stack as they were. -/
theorem thread_resumes {cpu : State κ} {ls ls' : List (Label κ L)}
    {m₁ m₂ m₃ m₄ : Machine κ L} {u : L.Thread} {next' : Word}
    (h₁ : Run (step kthread) Proper (boot cpu) ls m₁)
    (hok₁ : Proper (.switch u next) m₁)
    (hs₁ : step kthread (.switch u next) m₁ = some m₂)
    (h₂ : Run (step kthread) (fun l m => Proper l m ∧ m.cur ≠ m₁.cur) m₂ ls' m₃)
    (hok₃ : Proper (.switch m₁.cur next') m₃)
    (hs₃ : step kthread (.switch m₁.cur next') m₃ = some m₄) :
    m₄.cpu.eip = next ∧ m₄.cpu.reg .esp = m₁.cpu.reg .esp - 8 ∧
    (∀ r ∈ saved, m₄.cpu.reg r = m₁.cpu.reg r) ∧
    ∀ a ∈ L.stackOf m₁.cur, (∀ i < 7, a ≠ pushed m₁.cpu i) →
      m₄.cpu.mem a = m₁.cpu.mem a := by
  have hcur : m₁.cur ∈ m₁.created :=
    h₁.invariant (P := fun m => m.cur ∈ m.created) List.mem_cons_self
      fun _ _ _ hm _ hs => step_cur hm hs
  obtain ⟨-, hne, -, hcreated, hcpu⟩ := switch_some hs₁
  have hparked : Parked L.coroutines saved m₁.cur (entry m₁ u next) m₂.cpu.mem := by
    rw [hcpu, simpleSwitch_eq]
    exact switch_parks saved_saveable (entry_enters hok₁ hne)
  have hres := step_resumes (run_parked (hcreated ▸ hcur) hparked h₂) hok₃ hs₃
  refine ⟨hres.eip.trans (callWith_top ..).1, ?_, fun r hr => ?_, fun a ha hfree => ?_⟩
  · rw [hres.esp, entry, callWith_esp]
    bv_omega
  · exact (hres.reg r hr).trans (callWith_reg fun he => saved_saveable.esp (he ▸ hr))
  · refine (hres.stack a ha fun i hi => ?_).trans (callWith_mem hfree)
    rw [entry, place_pushed]
    exact hfree i (hi.trans (by decide))

/-- The state that a new thread is made to look as if it had left. -/
def born (page : Word) (s : State κ) : State κ :=
  { s with reg := fun r => if r = .esp then page + 3696 else 0 }

/-- Where the first words of a new thread stand. -/
theorem born_place (page : Word) (s : State κ) (i : Nat) :
    place ((born page s).reg .esp) saved.length i = slot (page + 3680) i := by
  refine place_of_slot ?_ i
  simp [born, saved, slot, BitVec.add_assoc]

/-- The thread's first words are on its stack. -/
theorem page_stack (page : L.pages) {i : Nat} (hi : i < 104) :
    slot (page + 3680) i ∈ L.stackOf (some page) := by
  have hoff : (slot (page + 3680) i - page.1).toNat = 3680 + 4 * i := by
    unfold slot
    bv_omega
  show 56 ≤ (slot (page + 3680) i - page.1).toNat ∧ _
  rw [hoff]
  omega

/-- What `thread_start` leaves is a parked thread. -/
theorem threadStart_parked {page : L.pages} {prio func args : Word} {s : State κ}
    (hs : s.mem = threadStart kthread m.cpu.mem page prio func args) :
    Parked L.coroutines saved (some page) (born page s) s.mem := by
  obtain ⟨hkstack, hstack, -⟩ := threadStart_stack kthread m.cpu.mem page prio func args
  have hword := holds_iff.mp hstack
  refine ⟨?_, fun r hr => ?_, fun _ _ _ => rfl, fun i hi => ?_⟩
  · rw [born_place, slot_zero, hs]
    exact hkstack
  · have hesp : r ≠ .esp := fun he => saved_saveable.esp (he ▸ hr)
    have hzero : (born page s).reg r = 0 := if_neg hesp
    rw [born_place, hs, hzero]
    cases r with
    | esi => exact hword 3 (by simp)
    | edi => exact hword 2 (by simp)
    | ebx => exact hword 1 (by simp)
    | ebp => exact hword 0 (by simp)
    | eax | ecx | edx | esp => exact absurd hr (by decide)
  · have hi4 : i ≤ 4 := hi
    rw [born_place]
    exact page_stack page (by omega)

/-- **A NEW THREAD BEGINS** in `kthread`: whatever ran since its `thread_start`, it
    has the function as the first argument and `NULL` as the second, whatever
    arguments `thread_start` was given, and zeros in the registers. -/
theorem thread_begins {ls' : List (Label κ L)} {m₁ m₂ m₃ m₄ : Machine κ L}
    {page : L.pages} {prio func args next' : Word}
    (hs₁ : step kthread (.threadStart page prio func args) m₁ = some m₂)
    (h₂ : Run (step kthread) (fun l m => Proper l m ∧ m.cur ≠ some page) m₂ ls' m₃)
    (hok₃ : Proper (.switch (some page) next') m₃)
    (hs₃ : step kthread (.switch (some page) next') m₃ = some m₄) :
    m₄.cpu.eip = kthread ∧ (∀ r ∈ saved, m₄.cpu.reg r = 0) ∧
    m₄.cpu.reg .esp = page + 3700 ∧
    m₄.cpu.mem (m₄.cpu.reg .esp + 4) = func ∧ m₄.cpu.mem (m₄.cpu.reg .esp + 8) = 0 := by
  obtain ⟨hnew, -, hcreated, hcpu⟩ := threadStart_some hs₁
  have hmem : m₂.cpu.mem = threadStart kthread m₁.cpu.mem page prio func args := by rw [hcpu]
  have hin : some page ∈ m₂.created := by
    rw [hcreated]
    exact List.mem_append_right _ List.mem_cons_self
  have hres := step_resumes (run_parked hin (threadStart_parked hmem) h₂) hok₃ hs₃
  have hesp : m₄.cpu.reg .esp = page + 3700 := by
    rw [hres.esp]
    show page.1 + 3696 + 4 = page.1 + 3700
    rw [BitVec.add_assoc]
    rfl
  obtain ⟨-, hstack, hargs⟩ := threadStart_stack kthread m₁.cpu.mem page prio func args
  -- the words above the return address are not the block's
  have habove : Holds m₄.cpu.mem (slot (page + 3680) 6) [func, 0] := by
    rw [← hmem] at hargs
    refine hargs.congr fun i hi => ?_
    have hi2 : i < 2 := hi
    rw [slot_slot]
    refine hres.stack _ (page_stack page (by omega)) fun j hj he => ?_
    have hj4 : j < 4 := hj
    rw [born_place] at he
    have hij := slot_inj (by omega) (by omega) he
    omega
  have hfirst : m₄.cpu.reg .esp + 4 = slot (page + 3680) 6 := by
    rw [hesp]
    unfold slot
    rw [BitVec.add_assoc, BitVec.add_assoc]
    rfl
  refine ⟨?_, fun r hr => ?_, hesp, ?_, ?_⟩
  · rw [hres.eip, ← place_top ((born page m₂.cpu).reg .esp) saved.length, born_place]
    show m₂.cpu.mem _ = _
    rw [hmem]
    exact holds_iff.mp hstack 4 (by simp)
  · rw [hres.reg r hr]
    exact if_neg fun he : r = .esp => saved_saveable.esp (he ▸ hr)
  · rw [hfirst]
    exact habove.1
  · show m₄.cpu.mem (m₄.cpu.reg .esp + (4 + 4)) = 0
    rw [← BitVec.add_assoc, hfirst]
    exact habove.2.1

end Machine

/-! ## Two threads -/

/-- One page, far from the kernel. -/
def twoThreads : Layout where
  mainThread := 0x20000
  stack := 0x30000
  pages := {0x100000}
  aligned := by
    rintro p rfl
    decide
  mainThread_stack := by decide
  mainThread_pages := by
    rintro p rfl
    decide
  stack_pages := by
    rintro p rfl a ha
    bv_omega

/-- The second thread's page. -/
def secondPage : twoThreads.pages := ⟨0x100000, rfl⟩

/-- The main thread, with its number in every register. -/
def mainCpu : State Unit where
  reg := fun r => match r with
    | .eax => 10
    | .ecx => 11
    | .edx => 12
    | .ebx => 13
    | .esp => 0x31f00
    | .ebp => 15
    | .esi => 16
    | .edi => 17
  seg := fun _ => 0
  eip := 0
  eflags := 0
  mem := fun a => a
  rest := ()

def startSecond : Label Unit twoThreads := .threadStart secondPage 31 0x2000 77
def toSecond : Label Unit twoThreads := .switch (some secondPage) 0x1234
def toMain : Label Unit twoThreads := .switch none 0x5678

private theorem started_isSome :
    (step 0x1000 startSecond (boot mainCpu)).isSome = true := by decide +kernel

/-- The machine with the second thread started. -/
def started : Machine Unit twoThreads :=
  (step 0x1000 startSecond (boot mainCpu)).get started_isSome

private theorem second_isSome : (step 0x1000 toSecond started).isSome = true := by
  decide +kernel

/-- The second thread's first turn. -/
def second : Machine Unit twoThreads := (step 0x1000 toSecond started).get second_isSome

private theorem back_isSome : (step 0x1000 toMain second).isSome = true := by decide +kernel

/-- The main thread again. -/
def back : Machine Unit twoThreads := (step 0x1000 toMain second).get back_isSome

private theorem start_proper : Proper startSecond (boot mainCpu) := trivial

private theorem started_proper : Proper toSecond started := by
  show ∀ i < 7, (pushed started.cpu i - 0x30000).toNat < 8 * 1024
  decide +kernel

private theorem second_proper : Proper toMain second := by
  show ∀ i < 7, 56 ≤ (pushed second.cpu i - 0x100000).toNat ∧
    (pushed second.cpu i - 0x100000).toNat < 4096
  decide +kernel

/-- The main thread goes on behind its call with its registers. -/
theorem thread_resumes_main :
    back.cpu.eip = 0x1234 ∧ back.cpu.reg .esp = 0x31ef8 ∧ back.cpu.reg .ebx = 13 := by
  have hstart := (Option.some_get started_isSome).symm
  have hmain := thread_resumes (Run.single start_proper hstart) started_proper
    (Option.some_get second_isSome).symm (Run.nil _) second_proper
    (Option.some_get back_isSome).symm
  exact ⟨hmain.1, hmain.2.1, hmain.2.2.1 .ebx (by decide)⟩

/-- The second thread begins at its wrapper with its function and `NULL`. -/
theorem thread_begins_second :
    second.cpu.eip = 0x1000 ∧ second.cpu.reg .esp = 0x100e74 ∧
    second.cpu.mem 0x100e78 = 0x2000 ∧ second.cpu.mem 0x100e7c = 0 := by
  obtain ⟨heip, -, hesp, hfunc, hargs⟩ := thread_begins
    (Option.some_get started_isSome).symm (Run.nil _) started_proper
    (Option.some_get second_isSome).symm
  have hesp' : second.cpu.reg .esp = 0x100e74 := hesp
  rw [show (step 0x1000 toSecond started).get _ = second from rfl, hesp'] at hfunc hargs
  exact ⟨heip, hesp', hfunc, hargs⟩

end LittleOS.ThreadSwitch
