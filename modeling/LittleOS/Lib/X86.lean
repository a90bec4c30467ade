import Mathlib.Algebra.Order.Ring.Int
import Mathlib.Logic.Function.Basic

/-! # Entry code of 32-bit x86

    Registers, selectors and a memory of words, with the instructions that the
    entry code of a kernel is made of: pushes, pops, one load and one store, a
    call, and the interrupt and `iret` around them.  The memory has a word for
    every address; code that keeps `esp` modulo 4 reaches no address between
    two of them.  The segments are flat, paging is left out.

    * `Holds`, `Top` — the words from an address, or from `esp`, upwards;
    * `Top.push` to `Top.call` — what each instruction makes of them;
    * `interrupt_top`, `iret_outer` — the words that change hands with a ring. -/

namespace X86

/-- A 32-bit register or memory cell. -/
abbrev Word := BitVec 32

/-- The general purpose registers. -/
inductive Reg where
  | eax | ecx | edx | ebx | esp | ebp | esi | edi
deriving DecidableEq, Repr

/-- The segment registers. -/
inductive Seg where
  | es | cs | ss | ds | fs | gs
deriving DecidableEq, Repr

/-- The processor and the memory; `rest` is whatever the called functions have
    besides. -/
structure State (κ : Type*) where
  reg : Reg → Word
  seg : Seg → BitVec 16
  eip : Word
  eflags : Word
  mem : Word → Word
  rest : κ

/-- What the architecture leaves to the processor: the flags after an addition,
    and the word a pushed selector becomes over the word that was there. -/
structure Cpu where
  addFlags : Word → Word → Word → Word
  widen : BitVec 16 → Word → Word
  widen_low : ∀ sel old, (widen sel old).setWidth 16 = sel

/-- The instructions that the stubs are made of. -/
inductive Instr where
  | push (r : Reg)
  | pushImm (v : Word)
  | pushSeg (r : Seg)
  | pusha
  | pop (r : Reg)
  | popSeg (r : Seg)
  | popa
  | movImm (r : Reg) (v : Word)
  /-- `mov (base, index, 4), dst` -/
  | load (dst base index : Reg)
  /-- `mov src, offset(base)` -/
  | store (src : Reg) (offset : Word) (base : Reg)
  | addImm (r : Reg) (v : Word)
  /-- `call *r`, with the address of the next instruction. -/
  | call (r : Reg) (next : Word)
deriving DecidableEq, Repr

variable {κ : Type*}

namespace State

/-- Write a general purpose register. -/
def set (s : State κ) (r : Reg) (v : Word) : State κ :=
  { s with reg := Function.update s.reg r v }

/-- Push a word: `esp` goes down by four and the word stands where it points. -/
def push (s : State κ) (v : Word) : State κ :=
  let esp := s.reg .esp - 4
  { s with reg := Function.update s.reg .esp esp
           mem := Function.update s.mem esp v }

/-- Push a segment register: the upper half of the slot is the processor's choice. -/
def pushSelector (cpu : Cpu) (s : State κ) (sel : BitVec 16) : State κ :=
  s.push (cpu.widen sel (s.mem (s.reg .esp - 4)))

/-- The word on top is passed over. -/
def drop (s : State κ) : State κ := s.set .esp (s.reg .esp + 4)

/-- Pop the word on top into a register. -/
def pop (s : State κ) (r : Reg) : State κ := s.drop.set r (s.mem (s.reg .esp))

/-- Pop the low half of the word on top into a segment register. -/
def popSeg (s : State κ) (r : Seg) : State κ :=
  { s.drop with seg := Function.update s.seg r ((s.mem (s.reg .esp)).setWidth 16) }

/-- All eight registers, `esp` as it was before. -/
def pusha (s : State κ) : State κ :=
  [Reg.eax, .ecx, .edx, .ebx, .esp, .ebp, .esi, .edi].foldl
    (fun t r => t.push (s.reg r)) s

/-- The word for `esp` is passed over. -/
def popa (s : State κ) : State κ :=
  [Reg.ebx, .edx, .ecx, .eax].foldl pop
    ([Reg.edi, .esi, .ebp].foldl pop s).drop

end State

section Exec

variable (cpu : Cpu) (callee : Word → State κ → State κ)

/-- One instruction, with `callee` in the place of a called function. -/
def exec : Instr → State κ → State κ
  | .push r, s => s.push (s.reg r)
  | .pushImm v, s => s.push v
  | .pushSeg r, s => s.pushSelector cpu (s.seg r)
  | .pusha, s => s.pusha
  | .pop r, s => s.pop r
  | .popSeg r, s => s.popSeg r
  | .popa, s => s.popa
  | .movImm r v, s => s.set r v
  | .load dst base index, s => s.set dst (s.mem (s.reg base + 4 * s.reg index))
  | .store src offset base, s =>
      { s with mem := Function.update s.mem (s.reg base + offset) (s.reg src) }
  | .addImm r v, s =>
      { s.set r (s.reg r + v) with eflags := cpu.addFlags s.eflags (s.reg r) v }
  | .call r next, s => (callee (s.reg r) (s.push next)).drop

/-- A sequence of instructions, without jumps. -/
def run (is : List Instr) (s : State κ) : State κ :=
  is.foldl (fun s i => exec cpu callee i s) s

end Exec

/-- An interrupt gate and the stack of its ring. -/
structure Gate where
  cs : BitVec 16
  offset : Word
  ss0 : BitVec 16
  esp0 : Word

/-- `IF`, `TF`, `NT`, `RF` and `VM`. -/
def gateFlags : Word := 0x34300

/-- The ring a selector asks for. -/
def ring (sel : BitVec 16) : BitVec 2 := sel.setWidth 2

/-- From an outer ring the stack is switched, and the old one pushed first. -/
def interrupt (cpu : Cpu) (g : Gate) (s : State κ) : State κ :=
  let t := if ring (s.seg .cs) = ring g.cs then s else
    (({ s.set .esp g.esp0 with seg := Function.update s.seg .ss g.ss0 }
      : State κ).pushSelector cpu (s.seg .ss)).push (s.reg .esp)
  let t := ((t.push s.eflags).pushSelector cpu (s.seg .cs)).push s.eip
  { t with seg := Function.update t.seg .cs g.cs
           eip := g.offset
           eflags := s.eflags &&& ~~~gateFlags }

/-- To an outer ring the stack is switched back. -/
def iret (s : State κ) : State κ :=
  let word (i : Nat) := s.mem (s.reg .esp + BitVec.ofNat 32 (4 * i))
  let cs := (word 1).setWidth 16
  let t := if ring cs = ring (s.seg .cs) then s.set .esp (s.reg .esp + 12) else
    { s.set .esp (word 3) with seg := Function.update s.seg .ss ((word 4).setWidth 16) }
  { t with seg := Function.update t.seg .cs cs
           eip := word 0
           eflags := word 2 }

/-! ## Words in memory -/

/-- The address `i` words further on. -/
def slot (a : Word) (i : Nat) : Word := a + BitVec.ofNat 32 (4 * i)

/-- The first slot of a stack is the one at its pointer. -/
@[simp] theorem slot_zero (a : Word) : slot a 0 = a := by
  simp [slot]

/-- The slots seen from four bytes up are those from the second on. -/
theorem slot_succ (a : Word) (i : Nat) : slot (a + 4) i = slot a (i + 1) := by
  unfold slot
  rw [BitVec.add_assoc, Nat.mul_succ, Nat.add_comm (4 * i) 4, BitVec.ofNat_add]
  rfl

/-- Slots of slots are slots. -/
theorem slot_slot (a : Word) (i j : Nat) : slot (slot a i) j = slot a (i + j) := by
  unfold slot
  rw [BitVec.add_assoc, ← BitVec.ofNat_add, Nat.mul_add]

/-- The next slot is four bytes up. -/
theorem slot_add_four (a : Word) (i : Nat) : slot a i + 4 = slot a (i + 1) := by
  rw [← slot_slot]
  rfl

/-- Fewer than `2 ^ 30` words lie apart. -/
theorem slot_inj {a : Word} {i j : Nat} (hi : i < 2 ^ 30) (hj : j < 2 ^ 30)
    (h : slot a i = slot a j) : i = j := by
  have hoff := congrArg BitVec.toNat ((BitVec.add_right_inj a).mp h)
  rw [BitVec.toNat_ofNat, BitVec.toNat_ofNat] at hoff
  omega

/-- The words of a list lie from an address upwards. -/
def Holds (mem : Word → Word) : Word → List Word → Prop
  | _, [] => True
  | a, w :: ws => mem a = w ∧ Holds mem (a + 4) ws

/-- The words held one after the other are those of the slots, each in its place. -/
theorem holds_iff {mem : Word → Word} {ws : List Word} :
    ∀ {a : Word}, Holds mem a ws ↔
      ∀ i (h : i < ws.length), mem (slot a i) = ws[i] := by
  induction ws with
  | nil =>
      intro a
      exact iff_of_true trivial (fun i h => absurd h (Nat.not_lt_zero i))
  | cons w ws ih =>
      intro a
      constructor
      · rintro ⟨hw, hws⟩ i hi
        cases i with
        | zero => simpa using hw
        | succ i =>
            have hi' : i < ws.length := Nat.lt_of_succ_lt_succ hi
            rw [← slot_succ]
            exact ih.mp hws i hi'
      · intro h
        refine ⟨by simpa using h 0 (Nat.succ_pos _), ih.mpr ?_⟩
        intro i hi
        rw [slot_succ]
        exact h (i + 1) (Nat.succ_lt_succ hi)

/-- What lies there. -/
theorem holds_range (mem : Word → Word) (a : Word) (k : Nat) :
    Holds mem a ((List.range k).map fun i => mem (slot a i)) := by
  rw [holds_iff]
  intro i hi
  rw [List.getElem_map, List.getElem_range]

/-- Only the slots of the words matter. -/
theorem Holds.congr {mem mem' : Word → Word} {a : Word} {ws : List Word}
    (h : Holds mem a ws) (hm : ∀ i < ws.length, mem' (slot a i) = mem (slot a i)) :
    Holds mem' a ws := by
  rw [holds_iff] at h ⊢
  intro i hi
  rw [hm i hi]
  exact h i hi

/-- A store into one of the slots replaces its word and no other. -/
theorem Holds.set {mem : Word → Word} {a : Word} {ws : List Word}
    (h : Holds mem a ws) {i : Nat} (hlen : ws.length ≤ 2 ^ 30) (hi : i < ws.length)
    (v : Word) : Holds (Function.update mem (slot a i) v) a (ws.set i v) := by
  rw [holds_iff] at h ⊢
  intro j hj
  rw [List.length_set] at hj
  by_cases hij : i = j
  · subst hij
    rw [Function.update_self, List.getElem_set_self]
  · have hne : slot a j ≠ slot a i := fun he => hij (slot_inj (by omega) (by omega) he).symm
    rw [Function.update_of_ne hne, List.getElem_set_ne hij]
    exact h j hj

/-- The words on the stack, the top first. -/
abbrev Top (s : State κ) (ws : List Word) : Prop := Holds s.mem (s.reg .esp) ws

/-! ## What the instructions make of the stack -/

section Stack

variable {s : State κ} {ws : List Word}

/-- A push changes no register but `esp`. -/
@[simp] theorem push_reg (s : State κ) (v : Word) {r : Reg} (h : r ≠ .esp) :
    (s.push v).reg r = s.reg r := Function.update_of_ne h ..

/-- A push moves `esp` down by a word. -/
@[simp] theorem push_esp (s : State κ) (v : Word) :
    (s.push v).reg .esp = s.reg .esp - 4 := by
  simp [State.push]

/-- A push leaves the segment registers. -/
@[simp] theorem push_seg (s : State κ) (v : Word) : (s.push v).seg = s.seg := rfl

/-- A push leaves the rest of the machine. -/
@[simp] theorem push_rest (s : State κ) (v : Word) : (s.push v).rest = s.rest := rfl

/-- A push puts its word on top of those that were there. -/
theorem Top.push (h : Top s ws) (hlen : ws.length < 2 ^ 30) (v : Word) :
    Top (s.push v) (v :: ws) := by
  have hesp : s.reg .esp - 4 + 4 = s.reg .esp := BitVec.sub_add_cancel ..
  constructor
  · rw [push_esp]
    show Function.update s.mem (s.reg .esp - 4) v (s.reg .esp - 4) = v
    rw [Function.update_self]
  · rw [push_esp, hesp]
    refine h.congr ?_
    intro i hi
    have hne : slot (s.reg .esp) i ≠ s.reg .esp - 4 := by
      intro he
      rw [← hesp, slot_succ, hesp] at he
      have hi0 := slot_inj (by omega) (by omega) (he.trans (slot_zero _).symm)
      exact Nat.succ_ne_zero i hi0
    exact Function.update_of_ne hne ..

/-- What `widen` puts on the stack holds the selector. -/
theorem Top.pushSelector (h : Top s ws) (hlen : ws.length < 2 ^ 30) (cpu : Cpu)
    (sel : BitVec 16) :
    ∃ w : Word, w.setWidth 16 = sel ∧ Top (s.pushSelector cpu sel) (w :: ws) :=
  ⟨_, cpu.widen_low .., h.push hlen _⟩

/-- Dropping a word moves `esp` up by four. -/
@[simp] theorem drop_esp (s : State κ) : s.drop.reg .esp = s.reg .esp + 4 := by
  simp [State.drop, State.set]

/-- Dropping a word changes no other register. -/
@[simp] theorem drop_reg (s : State κ) {r : Reg} (h : r ≠ .esp) :
    s.drop.reg r = s.reg r := Function.update_of_ne h ..

/-- Under the dropped word stand the others. -/
theorem Top.drop {w : Word} (h : Top s (w :: ws)) : Top s.drop ws := by
  show Holds s.mem (s.drop.reg .esp) ws
  rw [drop_esp]
  exact h.2

/-- A pop changes only its register and `esp`. -/
@[simp] theorem pop_reg_of_ne (s : State κ) {r q : Reg} (hr : q ≠ r) (h : q ≠ .esp) :
    (s.pop r).reg q = s.reg q := by
  show Function.update s.drop.reg r _ q = s.reg q
  rw [Function.update_of_ne hr, drop_reg s h]

/-- A pop moves `esp` up by a word. -/
@[simp] theorem pop_esp (s : State κ) {r : Reg} (h : r ≠ .esp) :
    (s.pop r).reg .esp = s.reg .esp + 4 := by
  show Function.update s.drop.reg r _ .esp = _
  rw [Function.update_of_ne h.symm, drop_esp]

/-- A pop loads the word on top. -/
theorem Top.pop_self {w : Word} (h : Top s (w :: ws)) (r : Reg) : (s.pop r).reg r = w := by
  show Function.update s.drop.reg r (s.mem (s.reg .esp)) r = w
  rw [Function.update_self]
  exact h.1

/-- Under the popped word stand the others. -/
theorem Top.pop {w : Word} (h : Top s (w :: ws)) {r : Reg} (hr : r ≠ .esp) :
    Top (s.pop r) ws := by
  show Holds s.mem ((s.pop r).reg .esp) ws
  rw [pop_esp s hr]
  exact h.2

/-- The word of the stack's own address. -/
theorem Top.pop_esp {w : Word} (h : Top s (w :: ws)) (hw : w = s.reg .esp + 4) :
    s.pop .esp = s.drop := by
  have htop : s.mem (s.reg .esp) = s.reg .esp + 4 := h.1.trans hw
  unfold State.pop State.drop State.set
  rw [htop, Function.update_idem]

/-- A pop into a segment register loads the low half of the word on top. -/
theorem Top.popSeg {w : Word} (h : Top s (w :: ws)) (r : Seg) :
    s.popSeg r = { s.drop with seg := Function.update s.seg r (w.setWidth 16) } := by
  unfold State.popSeg
  rw [h.1]

/-- Without its first words a stack still holds the others, further up. -/
theorem Holds.drop {mem : Word → Word} {a : Word} (h : Holds mem a ws) (n : Nat) :
    Holds mem (slot a n) (ws.drop n) := by
  induction n generalizing a ws with
  | zero => simpa using h
  | succ n ih =>
      cases ws with
      | nil => exact trivial
      | cons w ws =>
          rw [← slot_succ]
          exact ih h.2

/-- All registers but `esp` are popped. -/
theorem Top.popa {di si bp sp bx dx cx ax : Word}
    (h : Top s (di :: si :: bp :: sp :: bx :: dx :: cx :: ax :: ws)) :
    Top s.popa ws ∧
      s.popa.reg .edi = di ∧ s.popa.reg .esi = si ∧ s.popa.reg .ebp = bp ∧
      s.popa.reg .ebx = bx ∧ s.popa.reg .edx = dx ∧ s.popa.reg .ecx = cx ∧
      s.popa.reg .eax = ax := by
  have hdi := h.pop (r := .edi) (by decide)
  have hsi := hdi.pop (r := .esi) (by decide)
  have hbp := hsi.pop (r := .ebp) (by decide)
  have hsp := hbp.drop
  have hbx := hsp.pop (r := .ebx) (by decide)
  have hdx := hbx.pop (r := .edx) (by decide)
  have hcx := hdx.pop (r := .ecx) (by decide)
  have hax := hcx.pop (r := .eax) (by decide)
  refine ⟨hax, ?_, ?_, ?_, ?_, ?_, ?_, ?_⟩
  · simpa [State.popa] using h.pop_self .edi
  · simpa [State.popa] using hdi.pop_self .esi
  · simpa [State.popa] using hsi.pop_self .ebp
  · simpa [State.popa] using hsp.pop_self .ebx
  · simpa [State.popa] using hbx.pop_self .edx
  · simpa [State.popa] using hdx.pop_self .ecx
  · exact hcx.pop_self .eax

/-- The eight words of `popa` are gone from the stack. -/
theorem popa_esp (s : State κ) : s.popa.reg .esp = slot (s.reg .esp) 8 := by
  simp [State.popa, slot]
  bv_omega

/-- The instruction `popa` loads no segment register. -/
@[simp] theorem popa_seg (s : State κ) : s.popa.seg = s.seg := rfl

/-! ### Calls -/

/-- The registers a C function gives back as they were. -/
def calleeSaved : List Reg := [.ebx, .esp, .ebp, .esi, .edi]

/-- What a C function entered with `s` may change when it comes to its `ret`: no
    register of its caller, and none of the `n` words above the return address. -/
structure Cdecl (n : Nat) (s t : State κ) : Prop where
  reg : ∀ r ∈ calleeSaved, t.reg r = s.reg r
  seg : t.seg = s.seg
  mem : ∀ i, 1 ≤ i → i ≤ n → t.mem (slot (s.reg .esp) i) = s.mem (slot (s.reg .esp) i)

/-- The same where the function may load the selectors that it can. -/
structure Returns (n : Nat) (s t : State κ) : Prop where
  reg : ∀ r ∈ calleeSaved, t.reg r = s.reg r
  cs : t.seg .cs = s.seg .cs
  ss : t.seg .ss = s.seg .ss
  mem : ∀ i, 1 ≤ i → i ≤ n → t.mem (slot (s.reg .esp) i) = s.mem (slot (s.reg .esp) i)

/-- A function that keeps the calling convention comes back to its caller. -/
theorem Cdecl.returns {n : Nat} {t : State κ} (hc : Cdecl n s t) : Returns n s t :=
  ⟨hc.reg, congrFun hc.seg .cs, congrFun hc.seg .ss, hc.mem⟩

/-- What the caller had on its stack under the return address is still there. -/
theorem Returns.top {n : Nat} {t : State κ} (hc : Returns n s t) {w : Word}
    (h : Top s (w :: ws)) (hn : ws.length ≤ n) : Top t.drop ws := by
  show Holds t.mem (t.drop.reg .esp) ws
  rw [drop_esp, hc.reg .esp (by decide)]
  refine h.2.congr ?_
  intro i hi
  rw [slot_succ]
  exact hc.mem (i + 1) (Nat.succ_pos i) (by omega)

end Stack

/-! ## Blocks of pushes and pops -/

section Blocks

variable {cpu : Cpu} {callee : Word → State κ → State κ} {s t : State κ} {n : Nat}
  {ws : List Word}

/-- From `s` on `n` words have been pushed and nothing else has happened. -/
structure Pushed (s t : State κ) (n : Nat) (ws : List Word) : Prop where
  top : Top t ws
  esp : slot (t.reg .esp) n = s.reg .esp
  reg : ∀ r, r ≠ .esp → t.reg r = s.reg r
  seg : t.seg = s.seg
  rest : t.rest = s.rest

/-- Before anything is pushed. -/
theorem Pushed.refl (h : Top s ws) : Pushed s s 0 ws :=
  ⟨h, slot_zero _, fun _ _ => rfl, rfl, rfl⟩

/-- One more word pushed, whatever it is. -/
theorem Pushed.word (h : Pushed s t n ws) (hlen : ws.length < 2 ^ 30) (v : Word) :
    Pushed s (t.push v) (n + 1) (v :: ws) where
  top := h.top.push hlen v
  esp := by
    rw [X86.push_esp, ← slot_succ, BitVec.sub_add_cancel]
    exact h.esp
  reg := by
    intro r hr
    rw [push_reg t v hr]
    exact h.reg r hr
  seg := h.seg
  rest := h.rest

variable (cpu callee) in
/-- One more register pushed, with the value it had at the start. -/
theorem Pushed.push (h : Pushed s t n ws) (hlen : ws.length < 2 ^ 30) {r : Reg}
    (hr : r ≠ .esp) : Pushed s (exec cpu callee (.push r) t) (n + 1) (s.reg r :: ws) := by
  rw [← h.reg r hr]
  exact h.word hlen _

variable (cpu callee) in
/-- `push esp` leaves the address of the words below it. -/
theorem Pushed.pushEsp (h : Pushed s t n ws) (hlen : ws.length < 2 ^ 30) :
    Pushed s (exec cpu callee (.push .esp) t) (n + 1)
      (((exec cpu callee (.push .esp) t).reg .esp + 4) :: ws) := by
  show Pushed s (t.push (t.reg .esp)) (n + 1) (((t.push (t.reg .esp)).reg .esp + 4) :: ws)
  rw [X86.push_esp, BitVec.sub_add_cancel]
  exact h.word hlen _

variable (cpu callee) in
/-- One more constant pushed. -/
theorem Pushed.pushImm (h : Pushed s t n ws) (hlen : ws.length < 2 ^ 30) (v : Word) :
    Pushed s (exec cpu callee (.pushImm v) t) (n + 1) (v :: ws) := h.word hlen v

variable (cpu callee) in
/-- The word on the stack holds the selector. -/
theorem Pushed.pushSeg (h : Pushed s t n ws) (hlen : ws.length < 2 ^ 30) (r : Seg) :
    ∃ w : Word, w.setWidth 16 = s.seg r ∧
      Pushed s (exec cpu callee (.pushSeg r) t) (n + 1) (w :: ws) := by
  refine ⟨_, ?_, h.word hlen _⟩
  rw [cpu.widen_low, h.seg]

variable (cpu callee) in
/-- All eight registers pushed, in the order of `pusha`; the `esp` among them is the one
    before it. -/
theorem Pushed.pusha (h : Pushed s t n ws) (hlen : ws.length + 8 ≤ 2 ^ 30) :
    Pushed s (exec cpu callee .pusha t) (n + 8)
      (s.reg .edi :: s.reg .esi :: s.reg .ebp :: t.reg .esp :: s.reg .ebx :: s.reg .edx ::
        s.reg .ecx :: s.reg .eax :: ws) := by
  have hregs : ∀ (rs : List Reg) {u : State κ} {k : Nat} {us : List Word},
      Pushed s u k us → us.length + rs.length ≤ 2 ^ 30 →
      Pushed s (rs.foldl (fun u r => u.push (t.reg r)) u) (k + rs.length)
        ((rs.map t.reg).reverse ++ us) := by
    intro rs
    induction rs with
    | nil => intro u k us hu _; exact hu
    | cons r rs ih =>
        intro u k us hu hus
        rw [List.length_cons] at hus
        have hrest := ih (hu.word (by omega) (t.reg r)) (by rw [List.length_cons]; omega)
        rw [List.map_cons, List.reverse_cons, List.append_assoc, List.length_cons,
          Nat.add_comm rs.length, ← Nat.add_assoc]
        exact hrest
  rw [← h.reg .edi (by decide), ← h.reg .esi (by decide), ← h.reg .ebp (by decide),
    ← h.reg .ebx (by decide), ← h.reg .edx (by decide), ← h.reg .ecx (by decide),
    ← h.reg .eax (by decide)]
  have hall := hregs [.eax, .ecx, .edx, .ebx, .esp, .ebp, .esi, .edi] h
    (by simpa using hlen)
  exact hall

/-- From `s` on `n` words have been passed over or popped into selectors. -/
structure Passed (s t : State κ) (n : Nat) (seg : Seg → BitVec 16) (ws : List Word) :
    Prop where
  top : Top t ws
  esp : t.reg .esp = slot (s.reg .esp) n
  reg : ∀ r, r ≠ .esp → t.reg r = s.reg r
  seg : t.seg = seg
  rest : t.rest = s.rest

/-- Before anything is popped. -/
theorem Passed.refl (h : Top s ws) : Passed s s 0 s.seg ws :=
  ⟨h, (slot_zero _).symm, fun _ _ => rfl, rfl, rfl⟩

variable {seg : Seg → BitVec 16} {w : Word}

/-- One more word passed over. -/
theorem Passed.drop (h : Passed s t n seg (w :: ws)) : Passed s t.drop (n + 1) seg ws where
  top := h.top.drop
  esp := by
    rw [drop_esp, h.esp, slot_add_four]
  reg := by
    intro r hr
    rw [drop_reg t hr]
    exact h.reg r hr
  seg := h.seg
  rest := h.rest

variable (cpu callee) in
/-- `pop esp` of the address of the words below only passes it over. -/
theorem Passed.popEsp (h : Passed s t n seg (w :: ws)) (hw : w = t.reg .esp + 4) :
    Passed s (exec cpu callee (.pop .esp) t) (n + 1) seg ws := by
  show Passed s (t.pop .esp) (n + 1) seg ws
  rw [h.top.pop_esp hw]
  exact h.drop

variable (cpu callee) in
/-- One more segment register loaded. -/
theorem Passed.popSeg (h : Passed s t n seg (w :: ws)) (r : Seg) :
    Passed s (exec cpu callee (.popSeg r) t) (n + 1)
      (Function.update seg r (w.setWidth 16)) ws := by
  have hdrop := h.drop
  show Passed s (t.popSeg r) _ _ ws
  rw [h.top.popSeg r]
  exact ⟨hdrop.top, hdrop.esp, hdrop.reg, by rw [← h.seg], hdrop.rest⟩

variable (cpu callee) in
/-- Adding to `esp` passes over as many words. -/
theorem Passed.addEsp (h : Passed s t n seg ws) (k : Nat) {v : Word}
    (hv : v = BitVec.ofNat 32 (4 * k)) :
    Passed s (exec cpu callee (.addImm .esp v) t) (n + k) seg (ws.drop k) := by
  have hesp : (exec cpu callee (.addImm .esp v) t).reg .esp = slot (t.reg .esp) k := by
    subst hv
    show Function.update t.reg .esp (slot (t.reg .esp) k) .esp = slot (t.reg .esp) k
    rw [Function.update_self]
  refine ⟨?_, ?_, ?_, h.seg, h.rest⟩
  · show Holds t.mem ((exec cpu callee (.addImm .esp v) t).reg .esp) (ws.drop k)
    rw [hesp]
    exact Holds.drop h.top k
  · rw [hesp, h.esp, slot_slot]
  · intro r hr
    show Function.update t.reg .esp _ r = s.reg r
    rw [Function.update_of_ne hr]
    exact h.reg r hr

variable (cpu callee) in
/-- A store at an offset of `esp` replaces a word still to be popped. -/
theorem Passed.storeEsp (h : Passed s t n seg ws) {k : Nat} (hk : k < ws.length)
    (hlen : ws.length ≤ 2 ^ 30) {v : Word} (hv : v = BitVec.ofNat 32 (4 * k)) {r : Reg}
    (hr : r ≠ .esp) :
    Passed s (exec cpu callee (.store r v .esp) t) n seg (ws.set k (s.reg r)) := by
  refine ⟨?_, h.esp, h.reg, h.seg, h.rest⟩
  subst hv
  rw [← h.reg r hr]
  exact Holds.set h.top hlen hk (t.reg r)

/-! ### All registers -/

/-- The general registers and the four data selectors. -/
def saveAll : List Instr := [.pusha, .pushSeg .ds, .pushSeg .es, .pushSeg .fs, .pushSeg .gs]

variable (cpu callee) in
/-- What an entry stub saves: the eight registers and the four data selectors, each in
    the low half of its slot. -/
theorem Pushed.saveAll (h : Pushed s t n ws) (hlen : ws.length + 12 ≤ 2 ^ 30) :
    ∃ gs fs es ds : Word, gs.setWidth 16 = s.seg .gs ∧ fs.setWidth 16 = s.seg .fs ∧
      es.setWidth 16 = s.seg .es ∧ ds.setWidth 16 = s.seg .ds ∧
      Pushed s (run cpu callee saveAll t) (n + 12)
        (gs :: fs :: es :: ds :: s.reg .edi :: s.reg .esi :: s.reg .ebp :: t.reg .esp ::
          s.reg .ebx :: s.reg .edx :: s.reg .ecx :: s.reg .eax :: ws) := by
  have hregs := h.pusha cpu callee (by omega)
  obtain ⟨ds, hds, h1⟩ := hregs.pushSeg cpu callee (by simp; omega) .ds
  obtain ⟨es, hes, h2⟩ := h1.pushSeg cpu callee (by simp; omega) .es
  obtain ⟨fs, hfs, h3⟩ := h2.pushSeg cpu callee (by simp; omega) .fs
  obtain ⟨gs, hgs, h4⟩ := h3.pushSeg cpu callee (by simp; omega) .gs
  exact ⟨gs, fs, es, ds, hgs, hfs, hes, hds, h4⟩

/-- The four data selectors from these words. -/
def loaded (seg : Seg → BitVec 16) (gs fs es ds : Word) : Seg → BitVec 16
  | .es => es.setWidth 16
  | .ds => ds.setWidth 16
  | .fs => fs.setWidth 16
  | .gs => gs.setWidth 16
  | .cs => seg .cs
  | .ss => seg .ss

variable (cpu callee) in
/-- Four pops load the data segments from the four words on top. -/
theorem Passed.popSegs {gs fs es ds : Word}
    (h : Passed s t n seg (gs :: fs :: es :: ds :: ws)) :
    Passed s (run cpu callee [.popSeg .gs, .popSeg .fs, .popSeg .es, .popSeg .ds] t) (n + 4)
      (loaded seg gs fs es ds) ws := by
  have hsegs := (((h.popSeg cpu callee .gs).popSeg cpu callee .fs).popSeg cpu callee
    .es).popSeg cpu callee .ds
  refine ⟨hsegs.top, hsegs.esp, hsegs.reg, hsegs.seg.trans ?_, hsegs.rest⟩
  funext q
  cases q <;> rfl

/-- The general registers from these words. -/
def restored (esp di si bp bx dx cx ax : Word) : Reg → Word
  | .eax => ax
  | .ecx => cx
  | .edx => dx
  | .ebx => bx
  | .esp => esp
  | .ebp => bp
  | .esi => si
  | .edi => di

variable (cpu callee) in
/-- `popa` and the two words behind it. -/
theorem Top.popaSkip {di si bp sp bx dx cx ax a b : Word}
    (h : Top t (di :: si :: bp :: sp :: bx :: dx :: cx :: ax :: a :: b :: ws)) :
    Top (run cpu callee [.popa, .addImm .esp 0x8] t) ws ∧
      (run cpu callee [.popa, .addImm .esp 0x8] t).reg
        = restored (slot (t.reg .esp) 10) di si bp bx dx cx ax ∧
      (run cpu callee [.popa, .addImm .esp 0x8] t).seg = t.seg ∧
      (run cpu callee [.popa, .addImm .esp 0x8] t).rest = t.rest := by
  obtain ⟨htop, hdi, hsi, hbp, hbx, hdx, hcx, hax⟩ := h.popa
  have hend := (Passed.refl htop).addEsp cpu callee 2 (v := 0x8) (by decide)
  refine ⟨hend.top, ?_, hend.seg.trans (popa_seg t), hend.rest⟩
  funext r
  cases r with
  | esp => exact hend.esp.trans ((congrArg (slot · 2) (popa_esp t)).trans (slot_slot ..))
  | edi => exact (hend.reg .edi (by decide)).trans hdi
  | esi => exact (hend.reg .esi (by decide)).trans hsi
  | ebp => exact (hend.reg .ebp (by decide)).trans hbp
  | ebx => exact (hend.reg .ebx (by decide)).trans hbx
  | edx => exact (hend.reg .edx (by decide)).trans hdx
  | ecx => exact (hend.reg .ecx (by decide)).trans hcx
  | eax => exact (hend.reg .eax (by decide)).trans hax

end Blocks

/-! ## Changes of the ring -/

/-- Taking an interrupt changes no general register but `esp`. -/
theorem interrupt_reg (cpu : Cpu) (g : Gate) (s : State κ) {r : Reg} (h : r ≠ .esp) :
    (interrupt cpu g s).reg r = s.reg r := by
  unfold interrupt State.pushSelector
  split <;> simp [h, State.set]

/-- Taking an interrupt changes no segment register but `cs` and `ss`. -/
theorem interrupt_seg (cpu : Cpu) (g : Gate) (s : State κ) {q : Seg} (hc : q ≠ .cs)
    (hs : q ≠ .ss) : (interrupt cpu g s).seg q = s.seg q := by
  unfold interrupt State.pushSelector
  split <;> simp [hc, hs, State.set]

/-- The handler runs in the code segment of its gate. -/
theorem interrupt_cs (cpu : Cpu) (g : Gate) (s : State κ) :
    (interrupt cpu g s).seg .cs = g.cs := by
  unfold interrupt
  dsimp only
  rw [Function.update_self]

/-- Taking an interrupt leaves the rest of the machine. -/
theorem interrupt_rest (cpu : Cpu) (g : Gate) (s : State κ) :
    (interrupt cpu g s).rest = s.rest := by
  unfold interrupt State.pushSelector
  split <;> simp [State.set]

/-- **FROM AN OUTER RING** five words are pushed on the stack of the gate. -/
theorem interrupt_top (cpu : Cpu) {g : Gate} {s : State κ}
    (hring : ring (s.seg .cs) ≠ ring g.cs) :
    ∃ c w : Word, c.setWidth 16 = s.seg .cs ∧ w.setWidth 16 = s.seg .ss ∧
      Top (interrupt cpu g s) [s.eip, c, s.eflags, s.reg .esp, w] ∧
      (interrupt cpu g s).reg .esp = g.esp0 - 20 := by
  have hempty : Top ({ s.set .esp g.esp0 with seg := Function.update s.seg .ss g.ss0 }
    : State κ) [] := trivial
  obtain ⟨w, hw, hss⟩ := hempty.pushSelector (by decide) cpu (s.seg .ss)
  have hfl := (hss.push (by simp) (s.reg .esp)).push (by simp) s.eflags
  obtain ⟨c, hc, hcs⟩ := hfl.pushSelector (by simp) cpu (s.seg .cs)
  have htop := hcs.push (by simp) s.eip
  refine ⟨c, w, hc, hw, ?_, ?_⟩
  · unfold interrupt
    rw [if_neg hring]
    exact htop
  · unfold interrupt State.pushSelector State.set
    rw [if_neg hring]
    simp
    bv_omega

/-- **TO AN OUTER RING** they are taken back. -/
theorem iret_outer {s : State κ} {ip c fl sp w : Word} {ws : List Word}
    (h : Top s (ip :: c :: fl :: sp :: w :: ws))
    (hring : ring (c.setWidth 16) ≠ ring (s.seg .cs)) :
    iret s = { s with
      reg := Function.update s.reg .esp sp
      seg := Function.update (Function.update s.seg .ss (w.setWidth 16)) .cs (c.setWidth 16)
      eip := ip
      eflags := fl } := by
  have hword := holds_iff.mp h
  have h0 : s.mem (s.reg .esp + BitVec.ofNat 32 (4 * 0)) = ip := hword 0 (by simp)
  have h1 : s.mem (s.reg .esp + BitVec.ofNat 32 (4 * 1)) = c := hword 1 (by simp)
  have h2 : s.mem (s.reg .esp + BitVec.ofNat 32 (4 * 2)) = fl := hword 2 (by simp)
  have h3 : s.mem (s.reg .esp + BitVec.ofNat 32 (4 * 3)) = sp := hword 3 (by simp)
  have h4 : s.mem (s.reg .esp + BitVec.ofNat 32 (4 * 4)) = w := hword 4 (by simp)
  unfold iret
  dsimp only
  rw [if_neg (by rw [h1]; exact hring), h0, h1, h2, h3, h4]
  rfl

/-- Within a ring three words are taken, and the stack stays. -/
theorem iret_inner {s : State κ} {ip c fl : Word} {ws : List Word}
    (h : Top s (ip :: c :: fl :: ws)) (hring : ring (c.setWidth 16) = ring (s.seg .cs)) :
    iret s = { s with
      reg := Function.update s.reg .esp (s.reg .esp + 12)
      seg := Function.update s.seg .cs (c.setWidth 16)
      eip := ip
      eflags := fl } := by
  have hword := holds_iff.mp h
  have h0 : s.mem (s.reg .esp + BitVec.ofNat 32 (4 * 0)) = ip := hword 0 (by simp)
  have h1 : s.mem (s.reg .esp + BitVec.ofNat 32 (4 * 1)) = c := hword 1 (by simp)
  have h2 : s.mem (s.reg .esp + BitVec.ofNat 32 (4 * 2)) = fl := hword 2 (by simp)
  unfold iret
  dsimp only
  rw [if_pos (by rw [h1]; exact hring), h0, h1, h2]
  rfl

/-- The instruction `iret` leaves the rest of the machine. -/
theorem iret_rest (s : State κ) : (iret s).rest = s.rest := by
  unfold iret
  dsimp only
  split <;> rfl

end X86
