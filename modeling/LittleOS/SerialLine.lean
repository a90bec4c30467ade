import LittleOS.KlogPrintf
import LittleOS.Lib.Uart

/-! # The serial line

    `log_init`, `is_transmit_empty` and `write_serial` of `log.c`, at the chip that
    they are for.  `KlogPrintf` has a port that tells by itself when it is empty;
    here it is empty when the line has taken what was written.

    * `awaitEmpty_spec` — the loop of `write_serial` ends with an empty FIFO;
    * `print_of_safe` — so the chip prints what the port of `KlogPrintf` sends;
    * `printed_on_line` — after `log_init` the line carries the texts of all calls,
      in their order and in one format, however slow it is. -/

namespace LittleOS.SerialLine

open ByteStore CStrings
open Klib (Word kmemset)
open KlogPrintf (Call Frame Safe SafeRun Writer idleUart klogVsprintfAt safeRun_iff
  sendLoop_sent uptoNul)
open Uart hiding Byte
open Vsprintf (Env ascii)

/-! ## The port -/

/-- `PORT_COM1` -/
def portCom1 : Nat := 0x3f8

section Source

variable (o : Outside)

/-- `outb` on the ports of the chip: time passes before it. -/
def outb (port : Nat) (data : Byte) (c : Chip) : Chip :=
  (elapse o c).write (port - portCom1) data

/-- `inb(PORT_COM1 + 5)`. -/
def inbLineStatus (c : Chip) : Byte × Chip := ((elapse o c).lineStatus o, elapse o c)

/-- `log_init` -/
def logInit (c : Chip) : Chip :=
  let c := outb o (portCom1 + 1) 0x00 c
  let c := outb o (portCom1 + 3) 0x80 c
  let c := outb o (portCom1 + 0) 0x03 c
  let c := outb o (portCom1 + 1) 0x00 c
  let c := outb o (portCom1 + 3) 0x03 c
  let c := outb o (portCom1 + 2) 0xC7 c
  outb o (portCom1 + 4) 0x0B c

/-- `is_transmit_empty` -/
def isTransmitEmpty (c : Chip) : Bool × Chip :=
  let r := inbLineStatus o c
  (r.1 &&& 0x20 ≠ 0, r.2)

/-- Until the line takes a character again. -/
def idle (t : Nat) : Nat := Nat.find (o.goes_on t)

/-- While something is to be sent, time brings the chip closer to sending it. -/
theorem elapse_waits {c : Chip} (h : (elapse o c).pending ≠ []) :
    (elapse o c).pending.length < c.pending.length ∨
      (elapse o c).pending.length = c.pending.length ∧ idle o (c.time + 1) < idle o c.time := by
  rw [elapse_pending] at h ⊢
  rw [List.length_drop]
  rcases Nat.eq_zero_or_pos (o.rate c.time) with hrate | hrate
  · refine .inr ⟨by rw [hrate]; rfl, ?_⟩
    have hnow : idle o c.time ≠ 0 := fun h0 => by
      have hfind := Nat.find_spec (o.goes_on c.time)
      rw [show Nat.find (o.goes_on c.time) = 0 from h0, Nat.add_zero, hrate] at hfind
      exact absurd hfind (Nat.lt_irrefl 0)
    obtain ⟨k, hk⟩ := Nat.exists_eq_succ_of_ne_zero hnow
    have hfind := Nat.find_spec (o.goes_on c.time)
    rw [show Nat.find (o.goes_on c.time) = k + 1 from hk, Nat.add_comm k 1, ← Nat.add_assoc]
      at hfind
    rw [hk]
    exact Nat.lt_succ_of_le (Nat.find_min' _ hfind)
  · have hsome : c.pending.length ≠ 0 := fun h0 => h (by
      rw [List.length_eq_zero_iff.mp h0]
      exact List.drop_nil)
    exact .inl (by omega)

/-- The loop of `write_serial`. -/
def awaitEmpty (c : Chip) : Chip :=
  let r := isTransmitEmpty o c
  if r.1 = false then awaitEmpty r.2 else r.2
termination_by (c.pending.length, idle o c.time)
decreasing_by
  have hfull : r.1 = false := ‹_›
  have hbusy : (elapse o c).pending ≠ [] := fun hnil =>
    of_decide_eq_false hfull ((lineStatus_empty o _).mpr hnil)
  rcases elapse_waits o hbusy with hlt | ⟨heq, hlt⟩
  · exact Prod.Lex.left _ _ hlt
  · show Prod.Lex _ _ ((elapse o c).pending.length, idle o (c.time + 1)) _
    rw [heq]
    exact Prod.Lex.right _ hlt

/-- `write_serial` -/
def writeSerial (a : Byte) (c : Chip) : Chip := outb o portCom1 a (awaitEmpty o c)

/-- `while (*p != 0) write_serial(*p++)`. -/
def sendLoop (mem : Mem) : Nat → Addr → Chip → Option Chip
  | 0, _, _ => none
  | turns + 1, p, c =>
      if mem p ≠ 0 then sendLoop mem turns (p + 1) (writeSerial o (mem p) c) else some c

variable (env : Env)

/-- `klog_printf` on this chip. -/
def klogPrintf (frame : Frame) (fmt : CString) (args : List Word) (c : Chip) :
    Option (Writer frame.stack × Chip) :=
  let s := kmemset frame.buf 0 256 (Store.start frame.stack)
  (klogVsprintfAt env frame.buf fmt args s).bind fun w =>
    (sendLoop o w.buffer.mem (2 ^ 32) frame.buf c).map fun c => (w, c)

/-- The chip after a call. -/
def print (call : Call) (c : Chip) : Option Chip :=
  (klogPrintf o env call.frame call.fmt call.args c).map Prod.snd

/-- The chip after the calls, one after the other. -/
def printAll (calls : List Call) (c : Chip) : Option Chip :=
  calls.foldlM (fun c call => print o env call c) c

end Source

/-! ## A character -/

section Writing

variable {o : Outside} {c : Chip}

/-- The data register is in reach, and what is written to it gets out. -/
structure Ready (r : Registers) : Prop where
  dlab : r.dlab = false
  loopback : r.loopback = false

/-- **THE LOOP** ends with an empty FIFO; what was in it is on the line. -/
theorem awaitEmpty_spec (o : Outside) (h : c.regs.loopback = false) :
    (awaitEmpty o c).regs = c.regs ∧ (awaitEmpty o c).pending = [] ∧
    (awaitEmpty o c).line = carried c := by
  induction c using awaitEmpty.induct o with
  | case1 c r hbusy ih =>
      rw [awaitEmpty, if_pos hbusy]
      obtain ⟨hregs, hpending, hline⟩ := ih (by
        show (elapse o c).regs.loopback = false
        rw [elapse_regs, h])
      exact ⟨hregs.trans (elapse_regs o c), hpending, hline.trans (elapse_carried o h)⟩
  | case2 c r hdone =>
      rw [awaitEmpty, if_neg hdone]
      have hempty : (elapse o c).pending = [] := by
        by_contra hne
        exact hdone (decide_eq_false fun hbit => hne ((lineStatus_empty o _).mp hbit))
      refine ⟨elapse_regs o c, hempty, ?_⟩
      have hcarried := elapse_carried o h
      rw [carried, hempty, List.map_nil, List.append_nil] at hcarried
      exact hcarried

/-- The chip `c'` has been given the characters `t` to send. -/
structure Prints (c : Chip) (t : List Byte) (c' : Chip) : Prop where
  regs : c'.regs = c.regs
  carried : carried c' = carried c ++ t.map c.regs.send
  pending : c.pending.length ≤ 1 → c'.pending.length ≤ 1

/-- Nothing printed. -/
theorem Prints.nil (c : Chip) : Prints c [] c where
  regs := rfl
  carried := (List.append_nil _).symm
  pending h := h

/-- Texts printed one after the other. -/
theorem Prints.trans {c₁ c₂ : Chip} {t t' : List Byte} (h : Prints c t c₁)
    (h' : Prints c₁ t' c₂) : Prints c (t ++ t') c₂ where
  regs := h'.regs.trans h.regs
  carried := by
    rw [h'.carried, h.carried, h.regs, List.map_append, List.append_assoc]
  pending hp := h'.pending (h.pending hp)

/-- A byte is accepted when the line is free and sent after those before it. -/
theorem writeSerial_prints (o : Outside) (hr : Ready c.regs) (a : Byte) :
    Prints c [a] (writeSerial o a c) := by
  obtain ⟨hregs, hpending, hline⟩ := awaitEmpty_spec o hr.loopback
  have hwrite : writeSerial o a c = { elapse o (awaitEmpty o c) with pending := [a] } := by
    have hdlab : (elapse o (awaitEmpty o c)).regs.dlab = false := by
      rw [elapse_regs, hregs, hr.dlab]
    have hempty : (elapse o (awaitEmpty o c)).pending = [] := by
      rw [elapse_pending, hpending, List.drop_nil]
    exact write_data hdlab hempty a
  have hlate : (elapse o (awaitEmpty o c)).line = carried c := by
    have hcarried := elapse_carried o (c := awaitEmpty o c) (by rw [hregs, hr.loopback])
    simp only [Uart.carried, elapse_pending, hpending, hline, List.drop_nil, List.map_nil,
      List.append_nil] at hcarried
    exact hcarried
  refine ⟨?_, ?_, fun _ => ?_⟩
  · rw [hwrite]
    exact (elapse_regs o _).trans hregs
  · rw [hwrite, Uart.carried]
    dsimp only
    rw [hlate, elapse_regs, hregs]
  · rw [hwrite]
    exact Nat.le_refl 1

/-- A string is sent up to its end, byte by byte. -/
theorem sendLoop_prints (o : Outside) {mem : Mem} {turns : Nat} {p : Addr} {t : List Byte}
    (hr : Ready c.regs) (ht : readFrom mem turns p = some t) :
    ∃ c', sendLoop o mem turns p c = some c' ∧ Prints c t c' := by
  induction turns generalizing p t c with
  | zero => exact nomatch ht
  | succ turns ih =>
      rw [readFrom] at ht
      unfold sendLoop
      by_cases h0 : mem p = 0
      · rw [if_pos h0] at ht
        obtain rfl := Option.some.inj ht
        rw [if_neg (not_not.mpr h0)]
        exact ⟨c, rfl, Prints.nil c⟩
      · rw [if_neg h0] at ht
        obtain ⟨t', ht', rfl⟩ := Option.map_eq_some_iff.mp ht
        rw [if_pos h0]
        have hone := writeSerial_prints o hr (mem p)
        obtain ⟨c', hc', hrest⟩ := ih (hone.regs ▸ hr) ht'
        exact ⟨c', hc', hone.trans hrest⟩

end Writing

/-! ## The set-up -/

/-- What `log_init` leaves.  The first byte is for the interrupt register, and gets
    there unless the latch is open. -/
def initRegs (r : Registers) : Registers where
  divisor := 3
  ier := if r.dlab then r.ier else 0
  lcr := 0x03
  mcr := 0x0B
  fifoEnabled := true

/-- A write goes to its register. -/
theorem outb_regs (o : Outside) (port : Nat) (b : Byte) (c : Chip) :
    (outb o port b c).regs = c.regs.write (port - portCom1) b := by
  unfold outb
  rw [write_regs, elapse_regs]

/-- A write to the data register waits to be sent. -/
theorem outb_pending (o : Outside) (port : Nat) (b : Byte) (c : Chip) :
    (outb o port b c).pending = (elapse o c).pendingAfter (port - portCom1) b := by
  unfold outb
  rw [write_pending]

/-- **THE SET-UP**, from any state of the chip. -/
theorem logInit_spec (o : Outside) (c : Chip) :
    (logInit o c).regs = initRegs c.regs ∧ (logInit o c).pending = [] := by
  unfold logInit
  constructor
  · simp only [outb_regs, portCom1, Nat.reduceAdd, Nat.reduceSub]
    generalize c.regs = r
    obtain ⟨r₁, hr₁⟩ : ∃ r₁, r₁ = r.write 1 0x00 := ⟨_, rfl⟩
    have hlatch : (r₁.write 3 0x80).dlab = true := by
      show BitVec.getLsbD (0x80 : Byte) 7 = true
      decide
    rw [← hr₁, write_divisor hlatch]
    have hier : r₁.ier = if r.dlab then r.ier else 0 := by
      have hfirst : r₁ = if r.dlab then
          { r with divisor := (0x00 : Byte) ++ r.divisor.extractLsb' 0 8 }
        else { r with ier := 0x00 &&& 0x0F } := hr₁
      rw [hfirst]
      cases r.dlab <;> rfl
    unfold initRegs
    rw [← hier]
    rfl
  · simp only [outb_pending, portCom1, Nat.reduceAdd, Nat.reduceSub]
    generalize outb o _ 0x03 _ = c₁
    have hclear : ∀ c : Chip, c.pendingAfter 2 0xC7 = [] := fun c =>
      if_pos (.inr (by decide))
    have hkeep : ∀ c : Chip, c.pendingAfter 4 0x0B = c.pending := fun c => rfl
    have hempty : (outb o 1018 0xC7 c₁).pending = [] := (outb_pending ..).trans (hclear _)
    rw [hkeep, elapse_pending, hempty, List.drop_nil]

/-- After `log_init` the line is ready. -/
theorem initRegs_ready (r : Registers) : Ready (initRegs r) where
  dlab := by
    show BitVec.getLsbD (0x03 : Byte) 7 = false
    decide
  loopback := by
    show BitVec.getLsbD (0x0B : Byte) 4 = false
    decide

/-! ## Calls -/

section Calls

variable (o : Outside) (env : Env) {c : Chip}

/-- What a call sends. -/
def text (call : Call) : List Byte :=
  (Vsprintf.klogVsprintf env call.fmt call.args).elim [] fun r => uptoNul r.1

/-- A call that is safe for the port of `KlogPrintf` prints the same here. -/
theorem print_of_safe {uart : KlogPrintf.Uart} {call : Call} {port : KlogPrintf.Port}
    (h : Safe env uart call.frame call.fmt call.args port) (hr : Ready c.regs) :
    ∃ c', print o env call c = some c' ∧ Prints c (text env call) c' := by
  obtain ⟨w, port', t, rest, hcall, hformat, hout⟩ := h
  unfold KlogPrintf.klogPrintf at hcall
  obtain ⟨w', hw', hsend⟩ := Option.bind_eq_some_iff.mp hcall
  obtain ⟨port'', hport, heq⟩ := Option.map_eq_some_iff.mp hsend
  obtain ⟨rfl, rfl⟩ := Prod.mk.inj heq
  -- the port was given what is in the buffer
  have hsent := sendLoop_sent uart w'.buffer.mem (2 ^ 32) call.frame.buf port
  rw [hport] at hsent
  obtain ⟨t', ht', hsame⟩ := Option.map_eq_some_iff.mp hsent.symm
  have ht : t' = uptoNul t := List.append_cancel_left (hsame.trans hout.sent)
  obtain ⟨c', hc', hprints⟩ := sendLoop_prints o hr ht'
  refine ⟨c', ?_, ?_⟩
  · unfold print klogPrintf
    dsimp only
    rw [hw', Option.bind_some, hc']
    rfl
  · unfold text
    rw [hformat, Option.elim_some, ← ht]
    exact hprints

/-- Induction over the calls. -/
theorem printAll_of_safe {uart : KlogPrintf.Uart} {calls : List Call} {port : KlogPrintf.Port}
    (h : SafeRun env uart calls port) (hr : Ready c.regs) :
    ∃ c', printAll o env calls c = some c' ∧ Prints c (calls.flatMap (text env)) c' := by
  induction h generalizing c with
  | done => exact ⟨c, rfl, Prints.nil c⟩
  | @call call calls _ _ hsafe _ _ ih =>
      obtain ⟨c₁, hc₁, hone⟩ := print_of_safe o env hsafe hr
      obtain ⟨c₂, hc₂, hrest⟩ := ih (hone.regs ▸ hr)
      refine ⟨c₂, ?_, hone.trans hrest⟩
      unfold printAll
      rw [List.foldlM_cons, hc₁]
      exact hc₂

/-- 38400 baud, 8 bits, no parity and one stop bit. -/
def console (b : Byte) : Sent := ⟨b, 3, 0x03⟩

/-- **ON THE LINE**: after `log_init` calls that fit into their buffers put their
    texts there, each in its place and none lost or changed, but for the last
    character, which may still wait. -/
theorem printed_on_line {calls : List Call} (c : Chip) (h : ∀ call ∈ calls, call.Fits env) :
    ∃ c', printAll o env calls (logInit o c) = some c' ∧
      c'.line ++ c'.pending.map console
        = (logInit o c).line ++ (calls.flatMap (text env)).map console ∧
      c'.pending.length ≤ 1 ∧ c'.regs = initRegs c.regs := by
  obtain ⟨hregs, hpending⟩ := logInit_spec o c
  have hsafe := (safeRun_iff env idleUart calls ⟨0, []⟩).mpr h
  obtain ⟨c', hc', hprints⟩ := printAll_of_safe o env (c := logInit o c) hsafe
    (hregs ▸ initRegs_ready c.regs)
  have hsend : (initRegs c.regs).send = console := rfl
  refine ⟨c', hc', ?_, hprints.pending (by rw [hpending]; exact Nat.zero_le 1),
    hprints.regs.trans hregs⟩
  have hcarried := hprints.carried
  unfold carried at hcarried
  rw [hprints.regs, hregs, hpending, hsend, List.map_nil, List.append_nil] at hcarried
  exact hcarried

end Calls

/-- The line takes one character in three accesses. -/
def slowLine : Outside where
  rate t := if t % 3 = 0 then 1 else 0
  status _ := 0
  goes_on t := ⟨2 * t, by rw [if_pos (by omega)]; decide⟩

/-- In loopback, with the latch open and a character left. -/
def anyChip : Chip := ⟨⟨0x0180, 0x0F, 0x80, 0x1F, false⟩, [0x55], [], 0⟩

/-- A call that prints a line. -/
def okCalls : List Call := [⟨KlogPrintf.zeroFrame, ⟨"ok\n".toList.map ascii, by decide⟩, []⟩]

private theorem okCalls_fit : ∀ call ∈ okCalls, call.Fits KlogPrintf.longEnv := by
  intro call hcall
  obtain rfl := List.mem_singleton.mp hcall
  refine ⟨([.char (ascii 'o'), .char (ascii 'k'), .newline], []), rfl, .inl (by decide), ?_⟩
  intro n hn
  simp at hn

/-- Four characters, and nothing of what was in the chip. -/
theorem printed_on_line_ok :
    ∃ c', printAll slowLine KlogPrintf.longEnv okCalls (logInit slowLine anyChip) = some c' ∧
      c'.line ++ c'.pending.map console = [0x6F, 0x6B, 0x0A, 0x0D].map console := by
  obtain ⟨c', hc', hline, -⟩ := printed_on_line slowLine KlogPrintf.longEnv anyChip okCalls_fit
  refine ⟨c', hc', hline.trans ?_⟩
  decide +kernel

end LittleOS.SerialLine
