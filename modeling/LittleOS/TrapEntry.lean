import LittleOS.SyscallEntry

/-! # The exception stubs of `start.S`

    The macro `exception_handler`, with the frame `trap_frame_t` it builds and
    its instances, and both kinds of entry together.  A handler is any function
    that keeps to cdecl and leaves the frame and its argument alone; it may load
    the data selectors.

    * `exceptionEnter_spec`, `exceptionLeave_spec` — the two halves of a stub;
    * `trap_transparent` — what the handlers see, and the registers at the
      `iret`. -/

namespace LittleOS.TrapEntry

open X86 SyscallEntry

/-- `trap_frame_t`. -/
structure TrapFrame where
  gs : Word
  fs : Word
  es : Word
  ds : Word
  edi : Word
  esi : Word
  ebp : Word
  esp : Word
  ebx : Word
  edx : Word
  ecx : Word
  eax : Word
  num : Word
  erroCode : Word
  eip : Word
  cs : Word
  eflags : Word
deriving DecidableEq, Repr

/-- The frame at an address. -/
def trapFrameAt (mem : Word → Word) (p : Word) : TrapFrame where
  gs := mem p
  fs := mem (slot p 1)
  es := mem (slot p 2)
  ds := mem (slot p 3)
  edi := mem (slot p 4)
  esi := mem (slot p 5)
  ebp := mem (slot p 6)
  esp := mem (slot p 7)
  ebx := mem (slot p 8)
  edx := mem (slot p 9)
  ecx := mem (slot p 10)
  eax := mem (slot p 11)
  num := mem (slot p 12)
  erroCode := mem (slot p 13)
  eip := mem (slot p 14)
  cs := mem (slot p 15)
  eflags := mem (slot p 16)

/-- The words of a frame, the lowest first. -/
def TrapFrame.words (f : TrapFrame) : List Word :=
  [f.gs, f.fs, f.es, f.ds, f.edi, f.esi, f.ebp, f.esp, f.ebx, f.edx, f.ecx, f.eax, f.num,
    f.erroCode, f.eip, f.cs, f.eflags]

section Source

variable {κ : Type*} (cpu : Cpu) (irqNum : Word) (erroCode : Nat)

/-- The macro up to the call. -/
def exceptionEnter : List Instr :=
  (if erroCode = 0 then [.pushImm 0] else []) ++
  [.pushImm irqNum, .pusha,
    .pushSeg .ds, .pushSeg .es, .pushSeg .fs, .pushSeg .gs,
    .push .esp]

/-- From the call to the `iret`. -/
def exceptionLeave : List Instr :=
  [.pop .esp,
    .popSeg .gs, .popSeg .fs, .popSeg .es, .popSeg .ds,
    .popa, .addImm .esp 0x8]

/-- The state the handler starts in; `next` is the address behind the call. -/
def atHandler (irqHandler : State κ → State κ) (next : Word) (s : State κ) : State κ :=
  (run cpu (fun _ => irqHandler) (exceptionEnter irqNum erroCode) s).push next

/-- `exception_handler`, up to its `iret`. -/
def exceptionHandler (irqHandler : State κ → State κ) (next : Word) (s : State κ) : State κ :=
  run cpu (fun _ => irqHandler) exceptionLeave
    (irqHandler (atHandler cpu irqNum erroCode irqHandler next s)).drop

end Source

section Instances

variable {κ : Type*} (cpu : Cpu) (irqHandler : State κ → State κ) (next : Word)
  (s : State κ)

def exceptionHandlerUnknown : State κ := exceptionHandler cpu (-1) 0 irqHandler next s
def exceptionHandlerDivider : State κ := exceptionHandler cpu 0 0 irqHandler next s
def exceptionHandlerDebug : State κ := exceptionHandler cpu 1 0 irqHandler next s
def exceptionHandlerNMI : State κ := exceptionHandler cpu 2 0 irqHandler next s
def exceptionHandlerBreakpoint : State κ := exceptionHandler cpu 3 0 irqHandler next s
def exceptionHandlerOverflow : State κ := exceptionHandler cpu 4 0 irqHandler next s
def exceptionHandlerBoundRange : State κ := exceptionHandler cpu 5 0 irqHandler next s
def exceptionHandlerInvalidOpcode : State κ := exceptionHandler cpu 6 0 irqHandler next s
def exceptionHandlerDeviceUnfound : State κ := exceptionHandler cpu 7 0 irqHandler next s
def exceptionHandlerDoubleFault : State κ := exceptionHandler cpu 8 1 irqHandler next s
def exceptionHandlerInvalidTss : State κ := exceptionHandler cpu 10 1 irqHandler next s
def exceptionHandlerSegmentNotPresent : State κ :=
  exceptionHandler cpu 11 1 irqHandler next s
def exceptionHandlerStackSegmentFault : State κ :=
  exceptionHandler cpu 12 1 irqHandler next s
def exceptionHandlerGeneralProtection : State κ :=
  exceptionHandler cpu 13 1 irqHandler next s
def exceptionHandlerPageFault : State κ := exceptionHandler cpu 14 1 irqHandler next s
def exceptionHandlerFloatPointError : State κ := exceptionHandler cpu 16 0 irqHandler next s
def exceptionHandlerAligmentCheck : State κ := exceptionHandler cpu 17 1 irqHandler next s
def exceptionHandlerMachineCheck : State κ := exceptionHandler cpu 18 0 irqHandler next s
def exceptionHandlerSIMD : State κ := exceptionHandler cpu 19 0 irqHandler next s
def exceptionHandlerVirtualException : State κ :=
  exceptionHandler cpu 20 0 irqHandler next s
def exceptionHandlerTimer : State κ := exceptionHandler cpu 0x20 0 irqHandler next s

end Instances

/-- The frame of an interrupted `s`, with the stack pointer of the kernel. -/
structure Shows (f : TrapFrame) {κ : Type*} (s : State κ) (sp : Word) : Prop where
  gs : f.gs.setWidth 16 = s.seg .gs
  fs : f.fs.setWidth 16 = s.seg .fs
  es : f.es.setWidth 16 = s.seg .es
  ds : f.ds.setWidth 16 = s.seg .ds
  edi : f.edi = s.reg .edi
  esi : f.esi = s.reg .esi
  ebp : f.ebp = s.reg .ebp
  esp : f.esp = sp
  ebx : f.ebx = s.reg .ebx
  edx : f.edx = s.reg .edx
  ecx : f.ecx = s.reg .ecx
  eax : f.eax = s.reg .eax

/-- The frame behind the argument of a handler. -/
def argTrapFrame {κ : Type*} (s : State κ) : TrapFrame :=
  trapFrameAt s.mem (s.mem (slot (s.reg .esp) 1))

section Stub

variable {κ : Type*} (cpu : Cpu) {irqNum : Word} {erroCode : Nat}
  {irqHandler : State κ → State κ} {next : Word} {s : State κ} {e ip c fl : Word}

/-- The frame on the stack is read as its words. -/
theorem trapFrameAt_of_holds {mem : Word → Word} {p : Word} {f : TrapFrame}
    (h : Holds mem p f.words) : trapFrameAt mem p = f := by
  have hword := holds_iff.mp h
  have hlen : 17 ≤ f.words.length := by simp [TrapFrame.words]
  cases f
  simp only [trapFrameAt, TrapFrame.mk.injEq]
  refine ⟨(congrArg mem (slot_zero p)).symm.trans (hword 0 (by omega)),
    hword 1 (by omega), hword 2 (by omega), hword 3 (by omega), hword 4 (by omega),
    hword 5 (by omega), hword 6 (by omega), hword 7 (by omega), hword 8 (by omega),
    hword 9 (by omega), hword 10 (by omega), hword 11 (by omega), hword 12 (by omega),
    hword 13 (by omega), hword 14 (by omega), hword 15 (by omega), hword 16 (by omega)⟩

/-- How many words the processor pushes below `eip`. -/
def errWords (erroCode : Nat) : Nat := if erroCode = 0 then 0 else 1

/-- The error code the handler is to see. -/
def errCode (s : State κ) (erroCode : Nat) : Word :=
  if erroCode = 0 then 0 else s.mem (s.reg .esp)

/-- The word `i` of what the processor has pushed, from `eip` upwards. -/
def pushedWord (s : State κ) (erroCode i : Nat) : Word :=
  s.mem (slot (s.reg .esp) (errWords erroCode + i))

/-- **THE NUMBER AND THE ERROR CODE** are on the stack whoever pushed the second. -/
theorem numbered (irqNum : Word) (erroCode : Nat) (irqHandler : State κ → State κ)
    (s : State κ) :
    ∃ t : State κ, run cpu (fun _ => irqHandler) (exceptionEnter irqNum erroCode) s
        = exec cpu (fun _ => irqHandler) (.push .esp) (run cpu (fun _ => irqHandler) saveAll t) ∧
      Pushed s t (2 - errWords erroCode)
        [irqNum, errCode s erroCode, pushedWord s erroCode 0, pushedWord s erroCode 1,
          pushedWord s erroCode 2] := by
  by_cases h0 : erroCode = 0
  · subst h0
    have htop : Top s [pushedWord s 0 0, pushedWord s 0 1, pushedWord s 0 2] :=
      holds_range s.mem (s.reg .esp) 3
    refine ⟨run cpu (fun _ => irqHandler) [.pushImm 0, .pushImm irqNum] s, ?_, ?_⟩
    · simp only [run, exceptionEnter, saveAll, if_pos, List.foldl_append, List.foldl_cons,
        List.foldl_nil]
    · have herr := (Pushed.refl htop).pushImm cpu (fun _ => irqHandler) (by simp) 0
      exact herr.pushImm cpu (fun _ => irqHandler) (by simp) irqNum
  · have hone : errWords erroCode = 1 := if_neg h0
    have htop : Top s [errCode s erroCode, pushedWord s erroCode 0, pushedWord s erroCode 1,
        pushedWord s erroCode 2] := by
      have herr : errCode s erroCode = s.mem (slot (s.reg .esp) 0) := by
        rw [slot_zero]
        exact if_neg h0
      unfold pushedWord
      rw [herr, hone]
      exact holds_range s.mem (s.reg .esp) 4
    refine ⟨run cpu (fun _ => irqHandler) [.pushImm irqNum] s, ?_, ?_⟩
    · simp only [run, exceptionEnter, saveAll, if_neg h0, List.foldl_append, List.foldl_cons,
        List.foldl_nil]
    · rw [hone]
      exact (Pushed.refl htop).pushImm cpu (fun _ => irqHandler) (by simp) irqNum

/-- **WHAT THE HANDLER SEES** and what it has to leave as it is. -/
theorem exceptionEnter_spec (irqNum : Word) (erroCode : Nat)
    (irqHandler : State κ → State κ) (next : Word) (s : State κ) :
    ∃ f : TrapFrame, argTrapFrame (atHandler cpu irqNum erroCode irqHandler next s) = f ∧
      Shows f s (s.reg .esp - BitVec.ofNat 32 (4 * (2 - errWords erroCode))) ∧
      f.num = irqNum ∧ f.erroCode = errCode s erroCode ∧
      f.eip = pushedWord s erroCode 0 ∧ f.cs = pushedWord s erroCode 1 ∧
      f.eflags = pushedWord s erroCode 2 ∧
      Top (atHandler cpu irqNum erroCode irqHandler next s)
        (next :: slot ((atHandler cpu irqNum erroCode irqHandler next s).reg .esp) 2 ::
          f.words) ∧
      slot ((atHandler cpu irqNum erroCode irqHandler next s).reg .esp)
        (16 - errWords erroCode) = s.reg .esp ∧
      (atHandler cpu irqNum erroCode irqHandler next s).seg = s.seg := by
  obtain ⟨t, ht, hnum⟩ := numbered cpu irqNum erroCode irqHandler s
  obtain ⟨gs, fs, es, ds, hgs, hfs, hes, hds, hall⟩ :=
    hnum.saveAll cpu (fun _ => irqHandler) (by simp)
  have hframe := (hall.pushEsp cpu (fun _ => irqHandler) (by simp)).word (by simp) next
  have hsp : t.reg .esp = s.reg .esp - BitVec.ofNat 32 (4 * (2 - errWords erroCode)) := by
    rw [← hnum.esp]
    exact (BitVec.add_sub_cancel ..).symm
  have hat : atHandler cpu irqNum erroCode irqHandler next s
      = (exec cpu (fun _ => irqHandler) (.push .esp)
          (run cpu (fun _ => irqHandler) saveAll t)).push next :=
    congrArg (fun u => u.push next) ht
  -- the argument is the address of the word above it
  have harg : (exec cpu (fun _ => irqHandler) (.push .esp)
      (run cpu (fun _ => irqHandler) saveAll t)).reg .esp + 4
        = slot ((atHandler cpu irqNum erroCode irqHandler next s).reg .esp) 2 := by
    rw [hat, push_esp, ← slot_succ, BitVec.sub_add_cancel]
    rfl
  rw [harg, ← hat] at hframe
  obtain ⟨f, hf⟩ : ∃ f : TrapFrame, f = ⟨gs, fs, es, ds, s.reg .edi, s.reg .esi, s.reg .ebp,
    t.reg .esp, s.reg .ebx, s.reg .edx, s.reg .ecx, s.reg .eax, irqNum, errCode s erroCode,
    pushedWord s erroCode 0, pushedWord s erroCode 1, pushedWord s erroCode 2⟩ := ⟨_, rfl⟩
  have htop : Top (atHandler cpu irqNum erroCode irqHandler next s)
      (next :: slot ((atHandler cpu irqNum erroCode irqHandler next s).reg .esp) 2 ::
        f.words) := by
    rw [hf]
    exact hframe.top
  have hcount : 2 - errWords erroCode + 12 + 1 + 1 = 16 - errWords erroCode := by
    unfold errWords
    split <;> rfl
  have hesp := hframe.esp
  rw [hcount] at hesp
  refine ⟨f, ?_, ?_, by rw [hf], by rw [hf], by rw [hf], by rw [hf], by rw [hf], htop, hesp,
    hframe.seg⟩
  · have hword : (atHandler cpu irqNum erroCode irqHandler next s).mem
        (slot ((atHandler cpu irqNum erroCode irqHandler next s).reg .esp) 1)
          = slot ((atHandler cpu irqNum erroCode irqHandler next s).reg .esp) 2 :=
      holds_iff.mp htop 1 (by simp)
    unfold argTrapFrame
    rw [hword]
    exact trapFrameAt_of_holds (Holds.drop htop 2)
  · rw [hf]
    exact ⟨hgs, hfs, hes, hds, rfl, rfl, rfl, hsp, rfl, rfl, rfl, rfl⟩

/-- **AT THE `iret`** everything is as it was, and the stack is at `eip`. -/
theorem exceptionHandler_spec (irqNum : Word) (erroCode : Nat)
    (irqHandler : State κ → State κ) (next : Word) (s : State κ)
    (hr : Returns 18 (atHandler cpu irqNum erroCode irqHandler next s)
      (irqHandler (atHandler cpu irqNum erroCode irqHandler next s))) :
    Top (exceptionHandler cpu irqNum erroCode irqHandler next s)
        [pushedWord s erroCode 0, pushedWord s erroCode 1, pushedWord s erroCode 2] ∧
      (exceptionHandler cpu irqNum erroCode irqHandler next s).reg
        = Function.update s.reg .esp (slot (s.reg .esp) (errWords erroCode)) ∧
      (exceptionHandler cpu irqNum erroCode irqHandler next s).seg = s.seg := by
  obtain ⟨f, -, hf, -, -, hip, hcs, hfl, htop, hesp, hseg⟩ :=
    exceptionEnter_spec cpu irqNum erroCode irqHandler next s
  obtain ⟨t, ht⟩ : ∃ t, irqHandler (atHandler cpu irqNum erroCode irqHandler next s) = t :=
    ⟨_, rfl⟩
  rw [ht] at hr
  have hback : t.reg .esp = (atHandler cpu irqNum erroCode irqHandler next s).reg .esp :=
    hr.reg .esp (by decide)
  have hdrop := hr.top htop (by simp [TrapFrame.words])
  -- the argument, the selectors and the registers come off
  have hsegs := Passed.popSegs cpu (fun _ => irqHandler)
    ((Passed.refl hdrop).popEsp cpu (fun _ => irqHandler) (by
      rw [drop_esp, hback, ← slot_add_four, ← slot_add_four, slot_zero]))
  obtain ⟨hend, hreg, hsegs', -⟩ := hsegs.top.popaSkip cpu (fun _ => irqHandler)
  have hrun : exceptionHandler cpu irqNum erroCode irqHandler next s
      = run cpu (fun _ => irqHandler) [.popa, .addImm .esp 0x8]
          (run cpu (fun _ => irqHandler) [.popSeg .gs, .popSeg .fs, .popSeg .es, .popSeg .ds]
            (exec cpu (fun _ => irqHandler) (.pop .esp) t.drop)) := by
    unfold exceptionHandler
    rw [ht]
    simp only [run, exceptionLeave, List.foldl_cons, List.foldl_nil]
  rw [hrun]
  refine ⟨?_, ?_, ?_⟩
  · rw [← hip, ← hcs, ← hfl]
    exact hend
  · have hend : slot (t.drop.reg .esp) 15 = slot (s.reg .esp) (errWords erroCode) := by
      have hsum : 16 - errWords erroCode + errWords erroCode = 16 := by
        unfold errWords
        split <;> rfl
      rw [drop_esp, hback, slot_succ, ← hesp, slot_slot, hsum]
    rw [hreg, hsegs.esp, slot_slot, hend]
    funext r
    cases r with
    | esp =>
        rw [Function.update_self]
        rfl
    | eax => exact hf.eax
    | ecx => exact hf.ecx
    | edx => exact hf.edx
    | ebx => exact hf.ebx
    | ebp => exact hf.ebp
    | esi => exact hf.esi
    | edi => exact hf.edi
  · rw [hsegs', hsegs.seg]
    funext q
    cases q with
    | es => exact hf.es
    | cs => exact hr.cs.trans (congrFun hseg .cs)
    | ss => exact hr.ss.trans (congrFun hseg .ss)
    | ds => exact hf.ds
    | fs => exact hf.fs
    | gs => exact hf.gs

end Stub

/-! ## The function of a system call -/

section Called

variable {κ : Type*} {s t : State κ} {n : Nat}

/-- `n` pushes on, nothing but the `n` words below has been written. -/
structure Below (s t : State κ) (n : Nat) : Prop where
  esp : slot (t.reg .esp) n = s.reg .esp
  reg : ∀ r, r ≠ .esp → t.reg r = s.reg r
  mem : ∀ a, (∀ k, 1 ≤ k → k ≤ n → slot a k ≠ s.reg .esp) → t.mem a = s.mem a

/-- Nothing written yet. -/
theorem Below.refl (s : State κ) : Below s s 0 :=
  ⟨slot_zero _, fun _ _ => rfl, fun _ _ => rfl⟩

/-- A push writes one word further down. -/
theorem Below.push (h : Below s t n) (v : Word) : Below s (t.push v) (n + 1) where
  esp := by
    rw [push_esp, ← slot_succ, BitVec.sub_add_cancel]
    exact h.esp
  reg := by
    intro r hr
    rw [push_reg t v hr]
    exact h.reg r hr
  mem := by
    intro a ha
    have hne : a ≠ t.reg .esp - 4 := by
      rintro rfl
      refine ha (n + 1) (Nat.succ_pos n) (Nat.le_refl _) ?_
      rw [← slot_succ, BitVec.sub_add_cancel]
      exact h.esp
    refine (Function.update_of_ne hne ..).trans (h.mem a fun k h1 hk => ?_)
    exact ha k h1 (Nat.le_succ_of_le hk)

variable (cpu : Cpu) (callee : Word → State κ → State κ)

/-- So does the push of a register. -/
theorem Below.pushReg (h : Below s t n) (r : Reg) :
    Below s (exec cpu callee (.push r) t) (n + 1) := h.push _

/-- And that of a segment register. -/
theorem Below.pushSeg (h : Below s t n) (q : Seg) :
    Below s (exec cpu callee (.pushSeg q) t) (n + 1) := h.push _

/-- **THE REGISTERED FUNCTION** is called where the stack is not on the table. -/
theorem called_registered (syscallTable : Word) (s : State κ)
    (ha : ∀ k, 1 ≤ k → k ≤ 18 → slot (syscallTable + 4 * s.reg .eax) k ≠ s.reg .esp) :
    (atCall cpu callee syscallTable s).reg .eax = s.mem (syscallTable + 4 * s.reg .eax) := by
  have hconsts := ((Below.refl s).push 0).push 0x80
  have hregs : Below s (((s.push 0).push 0x80).pusha) 10 :=
    (((((((hconsts.push _).push _).push _).push _).push _).push _).push _).push _
  have hsegs := (((hregs.pushSeg cpu callee .ds).pushSeg cpu callee .es).pushSeg cpu callee
    .fs).pushSeg cpu callee .gs
  have hargs := (((hsegs.pushReg cpu callee .edx).pushReg cpu callee .ecx).pushReg cpu callee
    .ebx).pushReg cpu callee .esp
  obtain ⟨u, hu, hbelow⟩ : ∃ u : State κ, atCall cpu callee syscallTable s
      = exec cpu callee (.load .eax .ebx .eax) (exec cpu callee (.movImm .ebx syscallTable) u) ∧
      Below s u 18 := by
    refine ⟨run cpu callee [.pushImm 0, .pushImm 0x80, .pusha, .pushSeg .ds, .pushSeg .es,
      .pushSeg .fs, .pushSeg .gs, .push .edx, .push .ecx, .push .ebx, .push .esp] s, ?_, hargs⟩
    simp only [atCall, run, enter, List.foldl_cons, List.foldl_nil]
  have hload : (atCall cpu callee syscallTable s).reg .eax
      = u.mem (syscallTable + 4 * u.reg .eax) := by
    rw [hu]
    simp [exec, State.set]
  rw [hload, hbelow.reg .eax (by decide)]
  exact hbelow.mem _ ha

end Called

/-! ## Both kinds of entry -/

section Transparent

variable {κ : Type*} (cpu : Cpu) (next : Word) (s : State κ)

/-- **TRAPS ARE TRANSPARENT.**  The handler that the stub goes on from sees the
    interrupted registers, and at the `iret` they are back with the stack at the
    pushed `eip`; a system call leaves its answer in `eax`. -/
theorem trap_transparent :
    (∀ (irqNum : Word) (erroCode : Nat) (irqHandler : State κ → State κ),
      Returns 18 (atHandler cpu irqNum erroCode irqHandler next s)
        (irqHandler (atHandler cpu irqNum erroCode irqHandler next s)) →
      exceptionHandler cpu irqNum erroCode irqHandler next s
        = run cpu (fun _ => irqHandler) exceptionLeave
          (irqHandler (atHandler cpu irqNum erroCode irqHandler next s)).drop ∧
      (∃ f, argTrapFrame (atHandler cpu irqNum erroCode irqHandler next s) = f ∧
        Shows f s (s.reg .esp - BitVec.ofNat 32 (4 * (2 - errWords erroCode))) ∧
        f.num = irqNum ∧ f.erroCode = errCode s erroCode ∧
        f.eip = pushedWord s erroCode 0 ∧ f.cs = pushedWord s erroCode 1 ∧
        f.eflags = pushedWord s erroCode 2) ∧
      (exceptionHandler cpu irqNum erroCode irqHandler next s).reg
        = Function.update s.reg .esp (slot (s.reg .esp) (errWords erroCode)) ∧
      (exceptionHandler cpu irqNum erroCode irqHandler next s).seg = s.seg ∧
      Top (exceptionHandler cpu irqNum erroCode irqHandler next s)
        [pushedWord s erroCode 0, pushedWord s erroCode 1, pushedWord s erroCode 2]) ∧
    (∀ (syscallTable : Word) (callee : Word → State κ → State κ) (t : State κ),
      callee ((atCall cpu callee syscallTable s).reg .eax)
        (atEntry cpu callee syscallTable next s) = t →
      Returns 21 (atEntry cpu callee syscallTable next s) t →
      ((∀ k, 1 ≤ k → k ≤ 18 → slot (syscallTable + 4 * s.reg .eax) k ≠ s.reg .esp) →
        (atCall cpu callee syscallTable s).reg .eax
          = s.mem (syscallTable + 4 * s.reg .eax)) ∧
      (∃ f, argFrame (atEntry cpu callee syscallTable next s) = f ∧
        SyscallEntry.Shows f s ∧
        f.eip = pushedWord s 0 0 ∧ f.cs = pushedWord s 0 1 ∧ f.eflags = pushedWord s 0 2) ∧
      (run cpu callee (syscallHandler syscallTable next) s).reg
        = Function.update s.reg .eax (t.reg .eax) ∧
      (run cpu callee (syscallHandler syscallTable next) s).seg = s.seg ∧
      Top (run cpu callee (syscallHandler syscallTable next) s)
        [pushedWord s 0 0, pushedWord s 0 1, pushedWord s 0 2]) := by
  constructor
  · intro irqNum erroCode irqHandler hr
    obtain ⟨f, hf, hshows, hnum, herr, hip, hcs, hfl, -⟩ :=
      exceptionEnter_spec cpu irqNum erroCode irqHandler next s
    obtain ⟨htop, hreg, hseg⟩ := exceptionHandler_spec cpu irqNum erroCode irqHandler next s hr
    exact ⟨rfl, ⟨f, hf, hshows, hnum, herr, hip, hcs, hfl⟩, hreg, hseg, htop⟩
  · intro syscallTable callee t ht hr
    have hstack : Top s [pushedWord s 0 0, pushedWord s 0 1, pushedWord s 0 2] :=
      holds_range s.mem (s.reg .esp) 3
    obtain ⟨f, hf, hshows, hip, hcs, hfl, -⟩ :=
      entry_spec cpu callee syscallTable next hstack (by simp)
    obtain ⟨htop, hreg, hseg, -⟩ :=
      syscallHandler_spec cpu callee syscallTable next hstack (by simp) ht hr
    exact ⟨called_registered cpu callee syscallTable s, ⟨f, hf, hshows, hip, hcs, hfl⟩, hreg,
      hseg, htop⟩

/-- A processor that clears the upper half of a pushed selector. -/
def plainCpu : Cpu where
  addFlags := fun fl _ _ => fl
  widen := fun sel _ => sel.setWidth 32
  widen_low := by
    intro sel _
    rw [BitVec.setWidth_setWidth_of_le _ (by decide), BitVec.setWidth_eq]

/-- A state with `esp` at 4096. -/
def interrupted : State Unit where
  reg
    | .eax => 11
    | .ecx => 12
    | .edx => 13
    | .ebx => 14
    | .esp => 4096
    | .ebp => 15
    | .esi => 16
    | .edi => 17
  seg
    | .es => 0x18
    | .cs => 0x8
    | .ss => 0x10
    | .ds => 0x20
    | .fs => 0x28
    | .gs => 0x30
  eip := 0
  eflags := 2
  mem := fun a => a
  rest := ()

/-- A function that changes whatever it may: `eax`, `ecx`, `edx`, the data selectors
    and its stack. -/
def clobber (t : State κ) : State κ :=
  { t with
    reg := fun r => if r ∈ calleeSaved then t.reg r else 0xAA
    seg := fun q => if q = .cs ∨ q = .ss then t.seg q else 0x33
    mem := Function.update t.mem (t.reg .esp - 4) 0xBB }

/-- The handler of the example comes back. -/
theorem clobber_returns {n : Nat} (hn : n ≤ 21) (t : State κ) : Returns n t (clobber t) where
  reg := fun _ hr => if_pos hr
  cs := rfl
  ss := rfl
  mem := by
    intro i _ hi
    refine Function.update_of_ne (fun hc => ?_) ..
    have hslot : slot (t.reg .esp - 4) (i + 1) = slot (t.reg .esp - 4) 0 := by
      rw [slot_zero, ← slot_succ, BitVec.sub_add_cancel]
      exact hc
    exact absurd (slot_inj (by omega) (by omega) hslot) (Nat.succ_ne_zero i)

/-- A page fault and a system call whose functions do that. -/
theorem trap_transparent_clobber :
    ((exceptionHandler plainCpu 14 1 clobber 0 interrupted).reg
        = Function.update interrupted.reg .esp 4100 ∧
      (exceptionHandler plainCpu 14 1 clobber 0 interrupted).seg = interrupted.seg) ∧
    (run plainCpu (fun _ => clobber) (syscallHandler 0x8000 0) interrupted).reg
        = Function.update interrupted.reg .eax 0xAA ∧
      (run plainCpu (fun _ => clobber) (syscallHandler 0x8000 0) interrupted).seg
        = interrupted.seg := by
  obtain ⟨-, -, hreg, hseg, -⟩ :=
    (trap_transparent plainCpu 0 interrupted).1 14 1 clobber (clobber_returns (by omega) _)
  obtain ⟨-, -, hreg', hseg', -⟩ := (trap_transparent plainCpu 0 interrupted).2 0x8000
    (fun _ => clobber) _ rfl (clobber_returns (by omega) _)
  exact ⟨⟨hreg, hseg⟩, hreg', hseg'⟩

end Transparent

end LittleOS.TrapEntry
