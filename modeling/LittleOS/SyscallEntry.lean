import LittleOS.Lib.X86

/-! # The system call entry of `start.S`

    `syscall_handler` as the instructions of `LittleOS.Lib.X86`, and the frame
    `syscall_frame_t` it builds: three arguments, the selectors, the eight
    registers of `pusha`, two words it pushes itself and three that the
    processor has pushed.  The function behind the entry of `syscall_table` is
    any that keeps to cdecl and leaves the frame and its argument alone.

    * `entry_spec` — the function gets the address of a frame that shows the
      interrupted registers, `esp` as it was before `pusha`;
    * `syscallHandler_spec` — and at the `iret` they are back, with its answer
      in `eax`. -/

namespace LittleOS.SyscallEntry

open X86

/-- `syscall_frame_t`. -/
structure SyscallFrame where
  arg1 : Word
  arg2 : Word
  arg3 : Word
  gs : Word
  fs : Word
  es : Word
  ds : Word
  edi : Word
  esi : Word
  ebp : Word
  esp : Word
  ebx : Word
  edx : Word
  ecx : Word
  eax : Word
  num : Word
  erroCode : Word
  eip : Word
  cs : Word
  eflags : Word
deriving DecidableEq, Repr

/-- The frame at an address. -/
def frameAt (mem : Word → Word) (p : Word) : SyscallFrame where
  arg1 := mem p
  arg2 := mem (slot p 1)
  arg3 := mem (slot p 2)
  gs := mem (slot p 3)
  fs := mem (slot p 4)
  es := mem (slot p 5)
  ds := mem (slot p 6)
  edi := mem (slot p 7)
  esi := mem (slot p 8)
  ebp := mem (slot p 9)
  esp := mem (slot p 10)
  ebx := mem (slot p 11)
  edx := mem (slot p 12)
  ecx := mem (slot p 13)
  eax := mem (slot p 14)
  num := mem (slot p 15)
  erroCode := mem (slot p 16)
  eip := mem (slot p 17)
  cs := mem (slot p 18)
  eflags := mem (slot p 19)

section Source

variable (syscallTable next : Word)

/-- Up to the call. -/
def enter : List Instr :=
  [.pushImm 0, .pushImm 0x80, .pusha,
    .pushSeg .ds, .pushSeg .es, .pushSeg .fs, .pushSeg .gs,
    .push .edx, .push .ecx, .push .ebx, .push .esp,
    .movImm .ebx syscallTable, .load .eax .ebx .eax]

/-- From the call to the `iret`. -/
def leave : List Instr :=
  [.pop .esp, .addImm .esp 0xC,
    .popSeg .gs, .popSeg .fs, .popSeg .es, .popSeg .ds,
    .store .eax 0x1C .esp, .popa, .addImm .esp 0x8]

/-- `syscall_handler`: up to the call, the call, and back. -/
def syscallHandler : List Instr := enter syscallTable ++ .call .eax next :: leave

end Source

/-- The words of a frame, the lowest first. -/
def SyscallFrame.words (f : SyscallFrame) : List Word :=
  [f.arg1, f.arg2, f.arg3, f.gs, f.fs, f.es, f.ds, f.edi, f.esi, f.ebp, f.esp, f.ebx,
    f.edx, f.ecx, f.eax, f.num, f.erroCode, f.eip, f.cs, f.eflags]

/-- The frame of an interrupted `s`. -/
structure Shows (f : SyscallFrame) {κ : Type*} (s : State κ) : Prop where
  arg1 : f.arg1 = s.reg .ebx
  arg2 : f.arg2 = s.reg .ecx
  arg3 : f.arg3 = s.reg .edx
  gs : f.gs.setWidth 16 = s.seg .gs
  fs : f.fs.setWidth 16 = s.seg .fs
  es : f.es.setWidth 16 = s.seg .es
  ds : f.ds.setWidth 16 = s.seg .ds
  edi : f.edi = s.reg .edi
  esi : f.esi = s.reg .esi
  ebp : f.ebp = s.reg .ebp
  esp : f.esp = s.reg .esp - 8
  ebx : f.ebx = s.reg .ebx
  edx : f.edx = s.reg .edx
  ecx : f.ecx = s.reg .ecx
  eax : f.eax = s.reg .eax
  num : f.num = 0x80
  erroCode : f.erroCode = 0

section Entry

variable {κ : Type*} (cpu : Cpu) (callee : Word → State κ → State κ)
  (syscallTable next : Word) {s : State κ} {ip c fl : Word} {ws : List Word}

/-- The frame on the stack is read as its words. -/
theorem frameAt_of_holds {mem : Word → Word} {p : Word} {f : SyscallFrame}
    (h : Holds mem p (f.words ++ ws)) : frameAt mem p = f := by
  have hword := holds_iff.mp h
  have hlen : 20 ≤ (f.words ++ ws).length := by simp [SyscallFrame.words]
  cases f
  simp only [frameAt, SyscallFrame.mk.injEq]
  refine ⟨(congrArg mem (slot_zero p)).symm.trans (hword 0 (by omega)),
    hword 1 (by omega), hword 2 (by omega), hword 3 (by omega), hword 4 (by omega),
    hword 5 (by omega), hword 6 (by omega), hword 7 (by omega), hword 8 (by omega),
    hword 9 (by omega), hword 10 (by omega),
    hword 11 (by omega), hword 12 (by omega), hword 13 (by omega), hword 14 (by omega),
    hword 15 (by omega), hword 16 (by omega), hword 17 (by omega), hword 18 (by omega),
    hword 19 (by omega)⟩

/-- The state that the function is called from. -/
def atCall (s : State κ) : State κ := run cpu callee (enter syscallTable) s

/-- Up to the call: the registers of the caller and its selectors stand on the stack as
    a frame, with its address on top as the argument, and the caller's stack pointer is
    found behind it. -/
theorem enter_spec (h : Top s (ip :: c :: fl :: ws)) (hlen : ws.length + 21 ≤ 2 ^ 30) :
    ∃ f : SyscallFrame, Shows f s ∧ f.eip = ip ∧ f.cs = c ∧ f.eflags = fl ∧
      Top (atCall cpu callee syscallTable s)
        (((atCall cpu callee syscallTable s).reg .esp + 4) :: (f.words ++ ws)) ∧
      slot ((atCall cpu callee syscallTable s).reg .esp) 18 = s.reg .esp ∧
      (atCall cpu callee syscallTable s).seg = s.seg ∧
      (atCall cpu callee syscallTable s).rest = s.rest := by
  -- the two constants, all registers and the four arguments
  have herr := (Pushed.refl h).pushImm cpu callee (by simp; omega) 0
  have hnum := herr.pushImm cpu callee (by simp; omega) 0x80
  have hesp : (exec cpu callee (.pushImm 0x80) (exec cpu callee (.pushImm 0) s)).reg .esp
      = s.reg .esp - 8 := by
    rw [← hnum.esp]
    exact (BitVec.add_sub_cancel ..).symm
  obtain ⟨gs, fs, es, ds, hgs, hfs, hes, hds, hall⟩ := hnum.saveAll cpu callee (by simp; omega)
  rw [hesp] at hall
  have harg3 := hall.push cpu callee (by simp; omega) (r := .edx) (by decide)
  have harg2 := harg3.push cpu callee (by simp; omega) (r := .ecx) (by decide)
  have harg1 := harg2.push cpu callee (by simp; omega) (r := .ebx) (by decide)
  -- the last two instructions load the function and touch no stack
  obtain ⟨u, hu, hframe⟩ : ∃ u : State κ,
      atCall cpu callee syscallTable s = exec cpu callee (.load .eax .ebx .eax)
        (exec cpu callee (.movImm .ebx syscallTable) u) ∧
      Pushed s u 18 ((u.reg .esp + 4) :: s.reg .ebx :: s.reg .ecx :: s.reg .edx :: gs ::
        fs :: es :: ds :: s.reg .edi :: s.reg .esi :: s.reg .ebp :: (s.reg .esp - 8) ::
        s.reg .ebx :: s.reg .edx :: s.reg .ecx :: s.reg .eax :: 0x80 :: 0 :: ip :: c ::
        fl :: ws) := by
    refine ⟨_, ?_, harg1.pushEsp cpu callee (by simp; omega)⟩
    rfl
  have hreg : (atCall cpu callee syscallTable s).reg .esp = u.reg .esp := by
    rw [hu]
    simp [exec, State.set]
  refine ⟨⟨s.reg .ebx, s.reg .ecx, s.reg .edx, gs, fs, es, ds, s.reg .edi, s.reg .esi,
    s.reg .ebp, s.reg .esp - 8, s.reg .ebx, s.reg .edx, s.reg .ecx, s.reg .eax, 0x80, 0,
    ip, c, fl⟩, ?_, rfl, rfl, rfl, ?_, ?_, ?_, ?_⟩
  · exact ⟨rfl, rfl, rfl, hgs, hfs, hes, hds, rfl, rfl, rfl, rfl, rfl, rfl, rfl, rfl, rfl,
      rfl⟩
  · show Holds (atCall cpu callee syscallTable s).mem _ _
    rw [hreg, hu]
    exact hframe.top
  · rw [hreg]
    exact hframe.esp
  · rw [hu]
    exact hframe.seg
  · rw [hu]
    exact hframe.rest

/-- Behind the call: the registers are those of the frame, but for the result in `eax`,
    the selectors are loaded from it, and what the interrupt pushed is on top again. -/
theorem leave_spec {f : SyscallFrame} {p : Word} (h : Top s (p :: (f.words ++ ws)))
    (hp : p = s.reg .esp + 4) (hlen : ws.length + 21 ≤ 2 ^ 30) :
    Top (run cpu callee leave s) (f.eip :: f.cs :: f.eflags :: ws) ∧
      (run cpu callee leave s).reg = restored (slot (s.reg .esp) 18) f.edi f.esi f.ebp f.ebx
        f.edx f.ecx (s.reg .eax) ∧
      (run cpu callee leave s).seg = loaded s.seg f.gs f.fs f.es f.ds ∧
      (run cpu callee leave s).rest = s.rest := by
  -- the arguments and the segment registers come off
  have hargs := ((Passed.refl h).popEsp cpu callee hp).addEsp cpu callee 3 (v := 0xC)
    (by decide)
  have hsegs := Passed.popSegs cpu callee hargs
  -- the answer in `eax` goes to the slot that `popa` takes `eax` from
  obtain ⟨u, hu, hresult⟩ : ∃ u : State κ,
      run cpu callee leave s = run cpu callee [.popa, .addImm .esp 0x8] u ∧
      Passed s u 8 (loaded s.seg f.gs f.fs f.es f.ds)
        (f.edi :: f.esi :: f.ebp :: f.esp :: f.ebx :: f.edx :: f.ecx :: s.reg .eax ::
          f.num :: f.erroCode :: f.eip :: f.cs :: f.eflags :: ws) := by
    refine ⟨_, ?_, hsegs.storeEsp cpu callee (k := 7) (v := 0x1C) (by simp)
      (by simp; omega) (by decide) (r := .eax) (by decide)⟩
    simp only [run, leave, List.foldl_cons, List.foldl_nil]
  obtain ⟨htop, hreg, hseg, hrest⟩ := hresult.top.popaSkip cpu callee
  rw [hu]
  refine ⟨htop, ?_, hseg.trans hresult.seg, hrest.trans hresult.rest⟩
  rw [hreg, hresult.esp, slot_slot]

/-- The state the function starts in. -/
def atEntry (s : State κ) : State κ := (atCall cpu callee syscallTable s).push next

/-- The frame behind its argument. -/
def argFrame (s : State κ) : SyscallFrame := frameAt s.mem (s.mem (slot (s.reg .esp) 1))

/-- The function finds the frame by its argument. -/
theorem argFrame_of_top {p v : Word} {f : SyscallFrame}
    (h : Top s (v :: p :: (f.words ++ ws))) (hp : p = slot (s.reg .esp) 2) :
    argFrame s = f := by
  have harg : s.mem (slot (s.reg .esp) 1) = p := holds_iff.mp h 1 (by simp)
  have hframe : Holds s.mem (slot (s.reg .esp) 2) (f.words ++ ws) := Holds.drop h 2
  unfold argFrame
  rw [harg, hp]
  exact frameAt_of_holds hframe

/-- **WHAT THE FUNCTION SEES** and what it has to leave as it is. -/
theorem entry_spec (h : Top s (ip :: c :: fl :: ws)) (hlen : ws.length + 22 ≤ 2 ^ 30) :
    ∃ f : SyscallFrame,
      argFrame (atEntry cpu callee syscallTable next s) = f ∧ Shows f s ∧
      f.eip = ip ∧ f.cs = c ∧ f.eflags = fl ∧
      Top (atEntry cpu callee syscallTable next s)
        (next :: slot ((atEntry cpu callee syscallTable next s).reg .esp) 2 ::
          (f.words ++ ws)) ∧
      slot ((atEntry cpu callee syscallTable next s).reg .esp) 19 = s.reg .esp ∧
      (atEntry cpu callee syscallTable next s).seg = s.seg ∧
      (atEntry cpu callee syscallTable next s).rest = s.rest := by
  obtain ⟨f, hf, hip, hcs, hfl, htop, hesp, hseg, hrest⟩ :=
    enter_spec cpu callee syscallTable h (by omega)
  have hpush := htop.push (by simp [SyscallFrame.words]; omega) next
  have hback : (atEntry cpu callee syscallTable next s).reg .esp + 4
      = (atCall cpu callee syscallTable s).reg .esp := by
    unfold atEntry
    rw [push_esp, BitVec.sub_add_cancel]
  have haddr : slot ((atEntry cpu callee syscallTable next s).reg .esp) 2
      = (atCall cpu callee syscallTable s).reg .esp + 4 := by
    rw [← slot_succ, hback]
    rfl
  rw [← haddr] at hpush
  refine ⟨f, argFrame_of_top hpush rfl, hf, hip, hcs, hfl, hpush, ?_, ?_, ?_⟩
  · rw [← slot_succ, hback]
    exact hesp
  · unfold atEntry
    exact (push_seg _ _).trans hseg
  · unfold atEntry
    exact (push_rest _ _).trans hrest

/-- **AT THE `iret`** everything is as it was but `eax`. -/
theorem syscallHandler_spec (h : Top s (ip :: c :: fl :: ws))
    (hlen : ws.length + 22 ≤ 2 ^ 30) {t : State κ}
    (ht : callee ((atCall cpu callee syscallTable s).reg .eax)
      (atEntry cpu callee syscallTable next s) = t)
    (hc : Returns (ws.length + 21) (atEntry cpu callee syscallTable next s) t) :
    Top (run cpu callee (syscallHandler syscallTable next) s) (ip :: c :: fl :: ws) ∧
      (run cpu callee (syscallHandler syscallTable next) s).reg
        = Function.update s.reg .eax (t.reg .eax) ∧
      (run cpu callee (syscallHandler syscallTable next) s).seg = s.seg ∧
      (run cpu callee (syscallHandler syscallTable next) s).rest = t.rest := by
  obtain ⟨f, -, hf, rfl, rfl, rfl, htop, hesp, hseg, -⟩ :=
    entry_spec cpu callee syscallTable next h hlen
  have hrun : run cpu callee (syscallHandler syscallTable next) s
      = run cpu callee leave t.drop := by
    unfold syscallHandler run
    rw [List.foldl_append, List.foldl_cons, ← ht]
    rfl
  -- cdecl: the function gives back its stack and leaves the frame there
  have hback : t.reg .esp = (atEntry cpu callee syscallTable next s).reg .esp :=
    hc.reg .esp (by decide)
  have hdrop := hc.top htop (by simp [SyscallFrame.words])
  obtain ⟨hend, hreg, hsegs, hrest⟩ := leave_spec cpu callee hdrop
    (by rw [drop_esp, hback, ← slot_add_four, ← slot_add_four, slot_zero]) (by omega)
  rw [hrun]
  refine ⟨hend, ?_, ?_, hrest⟩
  · rw [hreg]
    funext r
    cases r with
    | eax => exact drop_reg t (by decide)
    | ecx => exact hf.ecx
    | edx => exact hf.edx
    | ebx => exact hf.ebx
    | esp =>
        show slot (t.drop.reg .esp) 18 = s.reg .esp
        rw [drop_esp, hback, slot_succ]
        exact hesp
    | ebp => exact hf.ebp
    | esi => exact hf.esi
    | edi => exact hf.edi
  · rw [hsegs]
    funext q
    cases q with
    | es => exact hf.es
    | cs => exact hc.cs.trans (congrFun hseg .cs)
    | ss => exact hc.ss.trans (congrFun hseg .ss)
    | ds => exact hf.ds
    | fs => exact hf.fs
    | gs => exact hf.gs

end Entry

end LittleOS.SyscallEntry
