import Mathlib.Data.List.TakeWhile
import LittleOS.NumberOutput

/-! # Printing to the serial port

    `klog_printf` of `klib.c` and `panic` of `debug.c`.  Here `klog_vsprintf`
    writes to memory, through `ch`, and nothing tells it where the buffer ends.
    Its local arrays are logged one by one.

    * `klogVsprintfAt_eq` — what it writes are the texts of the items that the
      format and its arguments stand for;
    * `safe_iff` — so a call is safe up to 255 characters, and with one more if
      there is a NUL to stop at;
    * `safeRun_iff`, `panicSafe_iff` — calls in a row, and those of `panic`. -/

namespace LittleOS.KlogPrintf

open ByteStore CStrings Klib Kmath Vsprintf NumberOutput Transducer

/-! ## The port -/

/-- The line status register at every reading.  After a character the
    transmitter gets empty again. -/
structure Uart where
  lineStatus : Nat → Byte
  empties : ∀ t, ∃ k, lineStatus (t + k) &&& 0x20 ≠ 0

/-- How often the status has been read, and what has been sent. -/
structure Port where
  readings : Nat
  sent : List Byte

/-- `is_transmit_empty`, at a reading of the line status register. -/
def isTransmitEmpty (uart : Uart) (t : Nat) : Bool := uart.lineStatus t &&& 0x20 ≠ 0

/-- The loop of `write_serial`. -/
def awaitEmpty (uart : Uart) (t : Nat) : Nat :=
  if isTransmitEmpty uart t = false then awaitEmpty uart (t + 1) else t + 1
termination_by Nat.find (uart.empties t)
decreasing_by
  have hbusy : ¬ uart.lineStatus (t + 0) &&& 0x20 ≠ 0 := of_decide_eq_false ‹_›
  obtain ⟨k, hk⟩ := Nat.exists_eq_succ_of_ne_zero
    fun h0 : Nat.find (uart.empties t) = 0 => hbusy (h0 ▸ Nat.find_spec (uart.empties t))
  have hready := Nat.find_spec (uart.empties t)
  rw [hk, Nat.add_succ, ← Nat.succ_add] at hready
  rw [hk]
  exact Nat.lt_succ_of_le (Nat.find_min' _ hready)

/-- `write_serial`: waits until the line is free and sends a byte. -/
def writeSerial (uart : Uart) (a : Byte) (port : Port) : Port where
  readings := awaitEmpty uart port.readings
  sent := port.sent ++ [a]

/-! ## Formatting into memory -/

/-- An array of a block, with what has been stored to through its address. -/
structure LocalArray where
  base : Addr
  size : Nat
  written : List Addr

/-- Nothing was written past the array. -/
def LocalArray.Inside (a : LocalArray) : Prop := ∀ b ∈ a.written, InRange a.base a.size b

/-- The variables of `klog_vsprintf`. -/
structure Writer (found : Mem) where
  state : State
  args : List Word
  ch : Addr
  buffer : Store found
  locals : List LocalArray

section Source

variable {found : Mem} (env : Env)

/-- `*ch++ = c`. -/
def put (c : Byte) (w : Writer found) : Writer found :=
  { w with ch := w.ch + 1, buffer := w.buffer.write w.ch c }

/-- `while (*ptr != 0) *ch++ = *ptr++`, with the turns it may still take. -/
def copyLoop (mem : Mem) : Nat → Addr → Writer found → Option (Writer found)
  | 0, _, _ => none
  | turns + 1, ptr, w =>
      if mem ptr ≠ 0 then copyLoop mem turns (ptr + 1) (put (mem ptr) w) else some w

/-- The loop that copies a string to `ch`, with all of memory to find its end in. -/
def copy (mem : Mem) (ptr : Addr) (w : Writer found) : Option (Writer found) :=
  copyLoop mem (2 ^ 32) ptr w

/-- The `switch` of the `FORMAT` state. -/
def writeConversion (c : Byte) (w : Writer found) : Option (Writer found) :=
  if c = ascii '%' then some (put (ascii '%') w)
  else if c = ascii 'd' then
    (vaArg w.args).bind fun r =>
      let num := r.1
      let len := kintlen num
      (kitoaS env.p num len (Store.start env.stack)).bind fun p =>
        copy p.mem env.p
          { w with args := r.2, locals := w.locals ++ [⟨env.p, len + 1, p.written⟩] }
  else if c = ascii 'c' then
    (vaArg w.args).map fun r => put (r.1.setWidth 8) { w with args := r.2 }
  else if c = ascii 's' then
    (vaArg w.args).bind fun r => copy env.mem r.1 { w with args := r.2 }
  else if c = ascii 'x' then
    (vaArg w.args).bind fun r =>
      let num := r.1
      (kdecimalToHexadecimal env.cbuf num
          (kmemset env.cbuf 0 50 (Store.start env.stack))).bind fun cbuf =>
        copy cbuf.mem env.cbuf (put (ascii 'x') (put (ascii '0')
          { w with args := r.2, locals := w.locals ++ [⟨env.cbuf, 50, cbuf.written⟩] }))
  else some w

/-- A turn of `klog_vsprintf`'s loop on a byte of the format. -/
def writeTurn (w : Writer found) (c : Byte) : Option (Writer found) :=
  match w.state with
  | .normal =>
      if c = ascii '%' then some { w with state := .format }
      else if c = newline then some (put carriageReturn (put newline w))
      else some (put c w)
  | .format => (writeConversion env c w).map fun w => { w with state := .normal }

/-- `klog_vsprintf` with its buffer. -/
def klogVsprintfAt (buf : Addr) (fmt : CString) (args : List Word) (s : Store found) :
    Option (Writer found) :=
  fmt.bytes.foldlM (writeTurn env) ⟨.normal, args, buf, s, []⟩

/-- `while (*p != 0) write_serial(*p++)`. -/
def sendLoop (uart : Uart) (mem : Mem) : Nat → Addr → Port → Option Port
  | 0, _, _ => none
  | turns + 1, p, port =>
      if mem p ≠ 0 then sendLoop uart mem turns (p + 1) (writeSerial uart (mem p) port)
      else some port

/-- Where the buffer of a call is, and what is on the stack there. -/
structure Frame where
  buf : Addr
  stack : Mem

/-- `klog_printf`: clears the buffer, formats into it and sends what stands there. -/
def klogPrintf (uart : Uart) (frame : Frame) (fmt : CString) (args : List Word)
    (port : Port) : Option (Writer frame.stack × Port) :=
  let s := kmemset frame.buf 0 256 (Store.start frame.stack)
  (klogVsprintfAt env frame.buf fmt args s).bind fun w =>
    (sendLoop uart w.buffer.mem (2 ^ 32) frame.buf port).map fun port => (w, port)

end Source

/-! ## Items -/

/-- What a character of the format stands for, with its argument. -/
inductive Item where
  | char (c : Byte)
  | newline
  | string (t : CString)
  | decimal (n : Word)
  | hexadecimal (n : Word)

namespace Item

/-- The bytes that an item adds to the output. -/
def text : Item → List Byte
  | char c => [c]
  | newline => [Vsprintf.newline, carriageReturn]
  | string t => t.bytes
  | decimal n => (chars n.toInt).reverse
  | hexadecimal n => [ascii '0', ascii 'x'] ++ hexText n

/-- Of 0 there are no digits in decimal, and of a negative number none in
    hexadecimal. -/
def length : Item → Nat
  | char _ => 1
  | newline => 2
  | string t => t.bytes.length
  | decimal n => (Nat.digits 10 n.toInt.natAbs).length
  | hexadecimal n =>
      2 + if n.toInt < 0 then 0 else if n = 0 then 1 else (Nat.digits 16 n.toNat).length

/-- The array that a conversion makes its digits in. -/
def locals (env : Env) : Item → List LocalArray
  | decimal n =>
      [⟨env.p, kintlen n + 1,
        (kitoaS env.p n (kintlen n) (Store.start env.stack)).elim [] Store.written⟩]
  | hexadecimal n =>
      [⟨env.cbuf, 50, (kdecimalToHexadecimal env.cbuf n
        (kmemset env.cbuf 0 50 (Store.start env.stack))).elim [] Store.written⟩]
  | _ => []

/-- Formatting a decimal writes into the array `p` alone. -/
theorem locals_decimal {env : Env} {n : Word} {p : Store env.stack}
    (h : kitoaS env.p n (kintlen n) (Store.start env.stack) = some p) :
    (decimal n).locals env = [⟨env.p, kintlen n + 1, p.written⟩] := by
  rw [locals, h]
  rfl

/-- Formatting a hexadecimal writes into the array `cbuf` alone. -/
theorem locals_hexadecimal {env : Env} {n : Word} {cbuf : Store env.stack}
    (h : kdecimalToHexadecimal env.cbuf n (kmemset env.cbuf 0 50 (Store.start env.stack))
      = some cbuf) : (hexadecimal n).locals env = [⟨env.cbuf, 50, cbuf.written⟩] := by
  rw [locals, h]
  rfl

/-- The length of an item, said without its text. -/
theorem length_text (i : Item) : i.text.length = i.length := by
  cases i with
  | char c => rfl
  | newline => rfl
  | string t => rfl
  | decimal n =>
      rw [text, List.length_reverse]
      exact chars_length
  | hexadecimal n =>
      have hzero : n.toNat = 0 ↔ n = 0 :=
        ⟨fun h => BitVec.eq_of_toNat_eq h, fun h => h ▸ rfl⟩
      rw [text, length, List.length_append]
      refine congrArg (2 + ·) ?_
      unfold hexText
      by_cases hneg : n.toInt < 0
      · rw [if_pos hneg, if_pos hneg]
        rfl
      · rw [if_neg hneg, if_neg hneg]
        by_cases h0 : n = 0
        · rw [if_pos h0, h0]
          rfl
        · rw [if_neg h0, Numerals.numeral_length fun h => h0 (hzero.mp h)]

/-- Only a character can be NUL. -/
theorem zero_mem_text (i : Item) : 0 ∈ i.text ↔ i = char 0 := by
  cases i with
  | char c =>
      rw [text, List.mem_singleton, char.injEq]
      exact eq_comm
  | newline => exact iff_of_false (by decide) (fun h => nomatch h)
  | string t => exact iff_of_false t.nonzero (fun h => nomatch h)
  | decimal n =>
      refine iff_of_false (fun h => ?_) (fun h => nomatch h)
      exact chars_nonzero n.toInt (List.mem_reverse.mp h)
  | hexadecimal n =>
      refine iff_of_false (fun h => ?_) (fun h => nomatch h)
      rcases List.mem_append.mp h with h | h
      · exact absurd h (by decide)
      · exact hexText_nonzero n h

end Item

/-- The output of a list of items. -/
def textOf (l : List Item) : List Byte := l.flatMap Item.text

/-- The length of the output. -/
def formattedLength (l : List Item) : Nat := (l.map Item.length).sum

/-- The output is as long as its items together. -/
theorem textOf_length (l : List Item) : (textOf l).length = formattedLength l := by
  unfold textOf formattedLength
  rw [List.length_flatMap]
  exact congrArg List.sum (List.map_congr_left fun i _ => i.length_text)

/-- The output holds a zero byte only where the format prints one with `%c`. -/
theorem zero_mem_textOf (l : List Item) : 0 ∈ textOf l ↔ .char 0 ∈ l := by
  unfold textOf
  rw [List.mem_flatMap]
  constructor
  · rintro ⟨i, hi, h0⟩
    exact i.zero_mem_text.mp h0 ▸ hi
  · exact fun h => ⟨_, h, List.mem_singleton_self _⟩

section Items

variable (env : Env)

/-- What a conversion prints, as an item, and the arguments it leaves. -/
def itemConversion (c : Byte) (args : List Word) : Option (List Item × List Word) :=
  if c = ascii '%' then some ([.char (ascii '%')], args)
  else if c = ascii 'd' then (vaArg args).map fun r => ([.decimal r.1], r.2)
  else if c = ascii 'c' then (vaArg args).map fun r => ([.char (r.1.setWidth 8)], r.2)
  else if c = ascii 's' then
    (vaArg args).bind fun r => (readCString env.mem r.1).map fun t => ([.string t], r.2)
  else if c = ascii 'x' then (vaArg args).map fun r => ([.hexadecimal r.1], r.2)
  else some ([], args)

/-- A turn of the formatter that keeps items in the place of bytes. -/
def itemTurn (t : Formatter) (c : Byte) : Option (List Item × Formatter) :=
  match t.state with
  | .normal =>
      if c = ascii '%' then some ([], { t with state := .format })
      else if c = newline then some ([.newline], t)
      else some ([.char c], t)
  | .format => (itemConversion env c t.args).map fun r => (r.1, ⟨.normal, r.2⟩)

/-- The items of a format with arguments, and the arguments that are left. -/
def items (fmt : CString) (args : List Word) : Option (List Item × List Word) :=
  (run (itemTurn env) ⟨.normal, args⟩ fmt.bytes).map fun r => (r.1, r.2.args)

/-- The bytes of a conversion are those of its item. -/
theorem conversion_eq (c : Byte) (args : List Word) :
    conversion env c args = (itemConversion env c args).map fun r => (textOf r.1, r.2) := by
  unfold conversion itemConversion
  split
  · rfl
  · split
    · -- `%d`
      cases vaArg args with
      | none => rfl
      | some r =>
          rw [Option.bind_some, decimalText_eq]
          exact congrArg (fun t => some (t, r.2)) (List.append_nil _).symm
    · split
      · cases vaArg args with
        | none => rfl
        | some r => rfl
      · split
        · -- `%s`
          cases vaArg args with
          | none => rfl
          | some r =>
              rw [Option.bind_some, Option.bind_some, ← readCString_bytes, Option.map_map,
                Option.map_map]
              refine Option.map_congr fun t _ => ?_
              exact congrArg (·, r.2) (List.append_nil _).symm
        · split
          · -- `%x`
            cases vaArg args with
            | none => rfl
            | some r =>
                rw [Option.bind_some, hexDigits_eq]
                exact congrArg (fun t => some (t, r.2)) (List.append_nil _).symm
          · rfl

/-- The formatter of items prints what the formatter of bytes prints, turn by turn; both
    fail together. -/
theorem turn_eq (t : Formatter) (c : Byte) :
    turn env t c = (itemTurn env t c).map fun r => (textOf r.1, r.2) := by
  unfold turn itemTurn
  cases t.state with
  | normal =>
      dsimp only
      by_cases hc : c = ascii '%'
      · rw [if_pos hc, if_pos hc]
        rfl
      · rw [if_neg hc, if_neg hc]
        by_cases hn : c = newline
        · rw [if_pos hn, if_pos hn]
          rfl
        · rw [if_neg hn, if_neg hn]
          rfl
  | format =>
      dsimp only
      rw [conversion_eq, Option.map_map, Option.map_map]
      rfl

/-- What is formatted are the texts of the items. -/
theorem klogVsprintf_eq (fmt : CString) (args : List Word) :
    klogVsprintf env fmt args = (items env fmt args).map fun r => (textOf r.1, r.2) := by
  unfold klogVsprintf items
  rw [run_flatMap_out (turn_eq env), Option.map_map, Option.map_map]
  rfl

end Items

/-! ## What is written -/

section Writing

variable {found : Mem} (env : Env)

/-- The formatter's state that the loop carries. -/
def view (w : Writer found) : Formatter := ⟨w.state, w.args⟩

/-- A text stored at `ch`, which moves to its end. -/
def putAll (t : List Byte) (w : Writer found) : Writer found :=
  { w with ch := w.ch + BitVec.ofNat 32 t.length, buffer := writeList w.buffer w.ch t }

/-- Behind the items. -/
def emit (w : Writer found) (l : List Item) (t : Formatter) : Writer found :=
  { putAll (textOf l) w with
    state := t.state
    args := t.args
    locals := w.locals ++ l.flatMap (Item.locals env) }

/-- A byte and then a text are one text. -/
theorem putAll_put (c : Byte) (t : List Byte) (w : Writer found) :
    putAll t (put c w) = putAll (c :: t) w := by
  unfold putAll put
  rw [List.length_cons, add_ofNat_succ]
  rfl

/-- The copying loop stores what it reads up to the end of the string. -/
theorem copyLoop_eq (mem : Mem) (turns : Nat) (ptr : Addr) (w : Writer found) :
    copyLoop mem turns ptr w = (readFrom mem turns ptr).map fun t => putAll t w := by
  induction turns generalizing ptr w with
  | zero => rfl
  | succ turns ih =>
      rw [copyLoop, readFrom]
      by_cases h0 : mem ptr = 0
      · rw [if_neg (not_not.mpr h0), if_pos h0, Option.map_some]
        unfold putAll
        rw [List.length_nil, BitVec.add_zero]
        rfl
      · rw [if_pos h0, if_neg h0, ih, Option.map_map]
        exact Option.map_congr fun t _ => putAll_put (mem ptr) t w

/-- A string that stands in memory is copied as it is. -/
theorem copy_of_stringAt {mem : Mem} {ptr : Addr} {t : List Byte} (h : StringAt mem ptr t)
    (w : Writer found) : copy mem ptr w = some (putAll t w) := by
  unfold copy
  rw [copyLoop_eq]
  exact congrArg (Option.map _) (readString_of_stringAt h)

/-- The effect of a single item. -/
theorem emit_one (w : Writer found) (i : Item) (t : Formatter) :
    emit env w [i] t = { putAll i.text w with
      state := t.state, args := t.args, locals := w.locals ++ i.locals env } := by
  unfold emit textOf
  rw [List.flatMap_singleton, List.flatMap_singleton]

/-- Without items only the state and the arguments change. -/
theorem emit_nil (w : Writer found) (t : Formatter) :
    emit env w [] t = { w with state := t.state, args := t.args } := by
  unfold emit putAll
  rw [show textOf [] = [] from rfl, List.length_nil, BitVec.add_zero, List.flatMap_nil,
    List.append_nil]
  rfl

/-- Items emitted one after the other are emitted together. -/
theorem emit_emit (w : Writer found) (l : List Item) (t : Formatter) (l' : List Item)
    (t' : Formatter) : emit env (emit env w l t) l' t' = emit env w (l ++ l') t' := by
  unfold emit putAll textOf
  simp only [List.flatMap_append, List.length_append, writeList_append, List.append_assoc,
    BitVec.add_assoc, BitVec.ofNat_add]

/-- A conversion of the code fails where its item is missing, and otherwise leaves what
    the item emits: text in the buffer and an array on the stack. -/
theorem writeConversion_eq (c : Byte) (w : Writer found) :
    writeConversion env c w
      = (itemConversion env c w.args).map fun r => emit env w r.1 ⟨w.state, r.2⟩ := by
  unfold writeConversion itemConversion
  split
  · rw [Option.map_some, emit_one]
    exact congrArg some (by simp [putAll, put, Item.text, Item.locals, writeList])
  · split
    · -- `%d`
      cases vaArg w.args with
      | none => rfl
      | some r =>
          obtain ⟨p, hp, hstring, -⟩ := kitoaS_spec env.p r.1 (kintlen r.1)
            (Store.start env.stack)
          dsimp only
          rw [Option.bind_some, hp, Option.bind_some, copy_of_stringAt hstring,
            Option.map_some, Option.map_some, emit_one, Item.locals_decimal hp]
          rfl
    · split
      · cases vaArg w.args with
        | none => rfl
        | some r =>
            rw [Option.map_some, Option.map_some, Option.map_some, emit_one]
            exact congrArg some (by simp [putAll, put, Item.text, Item.locals, writeList])
      · split
        · -- `%s`
          cases vaArg w.args with
          | none => rfl
          | some r =>
              rw [Option.bind_some, Option.bind_some, Option.map_map]
              unfold copy
              rw [copyLoop_eq, ← readString, ← readCString_bytes, Option.map_map]
              refine Option.map_congr fun t _ => ?_
              refine Eq.trans ?_ (emit_one env w (.string t) ⟨w.state, r.2⟩).symm
              simp [putAll, Item.text, Item.locals]
        · split
          · -- `%x`
            cases vaArg w.args with
            | none => rfl
            | some r =>
                obtain ⟨cbuf, hcbuf, hstring⟩ := kdecimalToHexadecimal_spec env.cbuf r.1
                  (kmemset env.cbuf 0 50 (Store.start env.stack))
                dsimp only
                rw [Option.bind_some, hcbuf, Option.bind_some, copy_of_stringAt hstring,
                  Option.map_some, Option.map_some, emit_one, putAll_put, putAll_put,
                  Item.locals_hexadecimal hcbuf]
                rfl
          · rw [Option.map_some, emit_nil]

/-- A turn of the code is a turn of the formatter of items, with the items emitted. -/
theorem writeTurn_eq (w : Writer found) (c : Byte) :
    writeTurn env w c = (itemTurn env (view w) c).map fun r => emit env w r.1 r.2 := by
  unfold writeTurn itemTurn view
  cases hstate : w.state with
  | normal =>
      dsimp only
      by_cases hc : c = ascii '%'
      · rw [if_pos hc, if_pos hc, Option.map_some, emit_nil]
      · rw [if_neg hc, if_neg hc]
        by_cases hn : c = newline
        · rw [if_pos hn, if_pos hn, Option.map_some, emit_one]
          refine congrArg some ?_
          simp [put, putAll, Item.text, Item.locals, writeList, BitVec.add_assoc, hstate]
        · rw [if_neg hn, if_neg hn, Option.map_some, emit_one]
          refine congrArg some ?_
          simp [put, putAll, Item.text, Item.locals, writeList, hstate]
  | format =>
      dsimp only
      rw [writeConversion_eq, Option.map_map, Option.map_map]
      rfl

/-- **WHAT IS WRITTEN** are the items, from the start of the buffer on. -/
theorem klogVsprintfAt_eq (buf : Addr) (fmt : CString) (args : List Word) (s : Store found) :
    klogVsprintfAt env buf fmt args s
      = (run (itemTurn env) ⟨.normal, args⟩ fmt.bytes).map fun r =>
          emit env ⟨.normal, args, buf, s, []⟩ r.1 r.2 :=
  foldlM_eq_run view (emit env) (fun _ _ _ => rfl)
    (fun w => emit_nil env w (view w)) (emit_emit env) (writeTurn_eq env) _ _

end Writing

/-! ## What is sent -/

/-- The bytes before the first NUL. -/
def uptoNul (t : List Byte) : List Byte := t.takeWhile (· ≠ 0)

/-- A text without zero bytes is sent to its end. -/
theorem uptoNul_of_nonzero {t : List Byte} (h : 0 ∉ t) : uptoNul t = t :=
  List.takeWhile_eq_self_iff.mpr fun _ hc => decide_eq_true fun h0 => h (h0 ▸ hc)

/-- A text is sent up to its first zero byte. -/
theorem uptoNul_append {t : List Byte} (h : 0 ∉ t) (rest : List Byte) :
    uptoNul (t ++ 0 :: rest) = t := by
  have hpos : ∀ c ∈ t, decide (c ≠ 0) = true :=
    fun c hc => decide_eq_true fun h0 => h (h0 ▸ hc)
  unfold uptoNul
  rw [List.takeWhile_append_of_pos hpos, List.takeWhile_cons_of_neg (by decide),
    List.append_nil]

/-- The line gets the string at `p`, whatever its status readings are. -/
theorem sendLoop_sent (uart : Uart) (mem : Mem) (turns : Nat) (p : Addr) (port : Port) :
    (sendLoop uart mem turns p port).map Port.sent
      = (readFrom mem turns p).map (port.sent ++ ·) := by
  induction turns generalizing p port with
  | zero => rfl
  | succ turns ih =>
      rw [sendLoop, readFrom]
      by_cases h0 : mem p = 0
      · rw [if_neg (not_not.mpr h0), if_pos h0]
        exact congrArg some (List.append_nil _).symm
      · rw [if_pos h0, if_neg h0, ih, Option.map_map]
        refine Option.map_congr fun t _ => ?_
        exact List.append_assoc port.sent [mem p] t

section Buffer

variable (frame : Frame) {text : List Byte}

/-- The cleared buffer with a text in it. -/
def filled (text : List Byte) : Store frame.stack :=
  writeList (kmemset frame.buf 0 256 (Store.start frame.stack)) frame.buf text

/-- Clearing the buffer writes 256 zero bytes. -/
theorem cleared (s : Store frame.stack) :
    kmemset frame.buf 0 256 s = writeList s frame.buf (List.replicate 256 0) :=
  kmemset_eq frame.buf 0 256 s

/-- The buffer is kept within bounds by texts of up to 256 bytes. -/
theorem filled_within :
    (filled frame text).Within (InRange frame.buf 256) ↔ text.length ≤ 256 := by
  unfold filled
  rw [writeList_within, cleared, writeList_within, List.length_replicate]
  constructor
  · rintro ⟨-, h⟩
    by_contra hlen
    have hfar := inRange_add.mp (h 256 (Nat.not_le.mp hlen))
    exact absurd hfar (by decide)
  · intro hlen
    have hin : ∀ k < 256, InRange frame.buf 256 (frame.buf + BitVec.ofNat 32 k) :=
      fun k hk => (inRange_ofNat (by omega)).mpr hk
    exact ⟨⟨Store.within_start _, hin⟩, fun k hk => hin k (Nat.lt_of_lt_of_le hk hlen)⟩

/-- The buffer holds the text and zeros after it. -/
theorem filled_mem (hlen : text.length ≤ 256) {k : Nat} (hk : k < 256) :
    (filled frame text).mem (frame.buf + BitVec.ofNat 32 k) = text.getD k 0 := by
  unfold filled
  rcases Nat.lt_or_ge k text.length with hlt | hge
  · exact writeList_mem_add (by omega) _ _ hlt
  · -- behind the text it is as `kmemset` has left it
    have hout : ¬ InRange frame.buf text.length (frame.buf + BitVec.ofNat 32 k) := by
      rw [inRange_ofNat (by omega)]
      exact Nat.not_lt.mpr hge
    have hlen0 : (List.replicate 256 (0 : Byte)).length = 256 := List.length_replicate
    rw [writeList_mem (by omega), if_neg hout, cleared,
      writeList_mem_add (by omega) _ _ (by omega), List.getD_replicate _ hk,
      List.getD_eq_default _ _ hge]

/-- The byte after the buffer is what the stack had there. -/
theorem filled_mem_end (hlen : text.length ≤ 256) :
    (filled frame text).mem (frame.buf + 256) = frame.stack (frame.buf + 256) := by
  refine ((filled_within frame).mpr hlen).agrees ?_
  rw [inRange_add]
  decide

/-- What is read back: a text that is as long as the buffer ends where the stack
    has a 0. -/
theorem readString_filled (hlen : text.length ≤ 256) :
    readString (filled frame text).mem frame.buf = some (uptoNul text) ↔
      text.length < 256 ∨ 0 ∈ text ∨ frame.stack (frame.buf + 256) = 0 := by
  by_cases h0 : 0 ∈ text
  · refine iff_of_true ?_ (.inr (.inl h0))
    obtain ⟨t, rest, rfl, ht⟩ := List.eq_append_cons_of_mem h0
    rw [List.length_append, List.length_cons] at hlen
    rw [uptoNul_append ht]
    refine readString_of_stringAt ⟨by omega, ht, fun k hk => ?_⟩
    rw [filled_mem frame (by rw [List.length_append, List.length_cons]; omega) (by omega)]
    rcases Nat.lt_or_eq_of_le hk with hlt | rfl
    · exact List.getD_append _ _ _ _ hlt
    · rw [List.getD_append_right _ _ _ _ (Nat.le_refl _), Nat.sub_self,
        List.getD_eq_default _ _ (Nat.le_refl _)]
      rfl
  · rw [uptoNul_of_nonzero h0]
    constructor
    · intro hread
      rcases Nat.lt_or_eq_of_le hlen with hlt | heq
      · exact .inl hlt
      · have hend := (readString_iff.mp hread).byte 256 (Nat.le_of_eq heq.symm)
        rw [List.getD_eq_default _ _ hlen] at hend
        exact .inr (.inr ((filled_mem_end frame hlen).symm.trans hend))
    · intro h
      refine readString_of_stringAt ⟨by omega, h0, fun k hk => ?_⟩
      rcases Nat.lt_or_ge k 256 with hlt | hge
      · exact filled_mem frame hlen hlt
      · obtain rfl : k = 256 := by omega
        have hend : frame.stack (frame.buf + 256) = 0 := by
          rcases h with h | h | h
          · omega
          · exact absurd h h0
          · exact h
        rw [List.getD_eq_default _ _ hlen]
        exact (filled_mem_end frame hlen).trans hend

end Buffer

/-! ## A call -/

section Call

variable (env : Env) (uart : Uart)

/-- The call has written to its buffer, and to the arrays of `klog_vsprintf`, and
    has sent the text up to the first NUL. -/
structure Outcome (frame : Frame) (text : List Byte) (port : Port)
    (w : Writer frame.stack) (port' : Port) : Prop where
  buffer : w.buffer.Within (InRange frame.buf 256)
  locals : ∀ a ∈ w.locals, a.Inside
  sent : port'.sent = port.sent ++ uptoNul text

/-- The call returns, with what is formatted sent. -/
def Safe (frame : Frame) (fmt : CString) (args : List Word) (port : Port) : Prop :=
  ∃ w port' text rest, klogPrintf env uart frame fmt args port = some (w, port') ∧
    klogVsprintf env fmt args = some (text, rest) ∧ Outcome frame text port w port'

/-- The items fit into the buffer: with a NUL in them, or one behind the buffer,
    there need be no room for one.  And `kitoa_s` clears as many bytes as there
    are in an array for three digits. -/
structure Fits (frame : Frame) (l : List Item) : Prop where
  buffer : formattedLength l < 256 ∨
    formattedLength l = 256 ∧ (.char 0 ∈ l ∨ frame.stack (frame.buf + 256) = 0)
  numbers : ∀ n, .decimal n ∈ l → 100 ≤ n.toInt.natAbs

/-- A word has at most eight hexadecimal digits. -/
theorem hexText_length_le (n : Word) : (hexText n).length ≤ 8 := by
  unfold hexText
  by_cases hneg : n.toInt < 0
  · rw [if_pos hneg]
    exact Nat.zero_le _
  · rw [if_neg hneg]
    by_cases h0 : n.toNat = 0
    · rw [h0]
      decide
    · rw [Numerals.numeral_length h0, Nat.digits_length_le_iff (by decide)]
      exact Nat.lt_of_lt_of_le n.isLt (by decide)

/-- Of the arrays only that of a short number is too small. -/
theorem locals_inside (i : Item) :
    (∀ a ∈ i.locals env, a.Inside) ↔ ∀ n, i = .decimal n → 100 ≤ n.toInt.natAbs := by
  cases i with
  | decimal n =>
      obtain ⟨p, hp, -⟩ := kitoaS_spec env.p n (kintlen n) (Store.start env.stack)
      rw [Item.locals_decimal hp, List.forall_mem_singleton]
      have hkitoa := kitoaS_within_iff env n
      rw [hp, three_le_kintlen] at hkitoa
      constructor
      · intro h m hm
        obtain rfl := Item.decimal.inj hm
        exact hkitoa.mp fun s' hs' => Option.some.inj hs' ▸ h
      · exact fun h => hkitoa.mpr (h n rfl) p rfl
  | hexadecimal n =>
      refine iff_of_true ?_ (fun m hm => nomatch hm)
      obtain ⟨cbuf, hcbuf, -, hwithin⟩ := kdecimalToHexadecimal_written env.cbuf n
        (kmemset env.cbuf 0 50 (Store.start env.stack))
      have hlen := hexText_length_le n
      have hin : ∀ k < 50, InRange env.cbuf 50 (env.cbuf + BitVec.ofNat 32 k) :=
        fun k hk => (inRange_ofNat (by omega)).mpr hk
      rw [Item.locals_hexadecimal hcbuf, List.forall_mem_singleton]
      refine (hwithin (InRange env.cbuf 50)).mpr ⟨?_, fun k hk => hin k (by omega)⟩
      have hset : kmemset env.cbuf 0 50 (Store.start env.stack)
          = writeList (Store.start env.stack) env.cbuf (List.replicate 50 0) :=
        kmemset_eq env.cbuf 0 50 (Store.start env.stack)
      rw [hset, writeList_within, List.length_replicate]
      exact ⟨Store.within_start _, hin⟩
  | char c => exact iff_of_true (fun a ha => nomatch ha) (fun m hm => nomatch hm)
  | newline => exact iff_of_true (fun a ha => nomatch ha) (fun m hm => nomatch hm)
  | string t => exact iff_of_true (fun a ha => nomatch ha) (fun m hm => nomatch hm)

/-- The arrays of a list of items are kept within bounds if its decimals have three
    digits or more. -/
theorem flatMap_locals_inside (l : List Item) :
    (∀ a ∈ l.flatMap (Item.locals env), a.Inside) ↔
      ∀ n, .decimal n ∈ l → 100 ≤ n.toInt.natAbs := by
  constructor
  · intro h n hn
    exact (locals_inside env (.decimal n)).mp
      (fun a ha => h a (List.mem_flatMap.mpr ⟨_, hn, ha⟩)) n rfl
  · intro h a ha
    obtain ⟨i, hi, hai⟩ := List.mem_flatMap.mp ha
    exact (locals_inside env i).mpr (fun n hn => h n (hn ▸ hi)) a hai

/-- When the items have been written. -/
theorem outcome_iff {frame : Frame} {l : List Item} {w : Writer frame.stack}
    (hbuffer : w.buffer = filled frame (textOf l))
    (hlocals : w.locals = l.flatMap (Item.locals env)) (port : Port) :
    (∃ port', sendLoop uart w.buffer.mem (2 ^ 32) frame.buf port = some port' ∧
      Outcome frame (textOf l) port w port') ↔ Fits frame l := by
  have hsent := sendLoop_sent uart w.buffer.mem (2 ^ 32) frame.buf port
  have hread := fun h : (textOf l).length ≤ 256 => readString_filled frame h
  rw [← readString, hbuffer] at hsent
  rw [textOf_length, zero_mem_textOf] at hread
  constructor
  · rintro ⟨port', hport, hout⟩
    have hlen := hout.buffer
    rw [hbuffer, filled_within, textOf_length] at hlen
    have hnumbers := hout.locals
    rw [hlocals, flatMap_locals_inside] at hnumbers
    refine ⟨?_, hnumbers⟩
    rw [hbuffer] at hport
    rw [hport, Option.map_some] at hsent
    obtain ⟨t, ht, he⟩ := Option.map_eq_some_iff.mp hsent.symm
    rw [hout.sent] at he
    obtain rfl := List.append_cancel_left he
    have hroom := (hread hlen).mp ht
    rcases Nat.lt_or_eq_of_le hlen with hlt | heq
    · exact .inl hlt
    · exact .inr ⟨heq, hroom.resolve_left (Nat.not_lt.mpr (Nat.le_of_eq heq.symm))⟩
  · intro hfits
    have hlen : formattedLength l ≤ 256 := by
      rcases hfits.buffer with h | ⟨h, -⟩
      · exact Nat.le_of_lt h
      · exact Nat.le_of_eq h
    have ht := (hread hlen).mpr (hfits.buffer.imp_right And.right)
    rw [ht, Option.map_some] at hsent
    obtain ⟨port', hport, he⟩ := Option.map_eq_some_iff.mp hsent
    rw [hbuffer]
    refine ⟨port', hport, ?_, ?_, he⟩
    · rw [hbuffer, filled_within, textOf_length]
      exact hlen
    · rw [hlocals, flatMap_locals_inside]
      exact hfits.numbers

/-- **A CALL IS SAFE** if its items fit. -/
theorem safe_iff (frame : Frame) (fmt : CString) (args : List Word) (port : Port) :
    Safe env uart frame fmt args port ↔
      ∃ r, items env fmt args = some r ∧ Fits frame r.1 := by
  unfold Safe klogPrintf
  dsimp only
  rw [klogVsprintfAt_eq, klogVsprintf_eq]
  unfold items
  cases run (itemTurn env) ⟨.normal, args⟩ fmt.bytes with
  | none =>
      refine iff_of_false ?_ ?_
      · rintro ⟨w, port', text, rest, h, -⟩
        exact nomatch h
      · rintro ⟨r, h, -⟩
        exact nomatch h
  | some r =>
      obtain ⟨s, hs⟩ : ∃ s, kmemset frame.buf 0 256 (Store.start frame.stack) = s := ⟨_, rfl⟩
      have hbuffer : (emit env ⟨.normal, args, frame.buf, s, []⟩ r.1 r.2).buffer
          = filled frame (textOf r.1) := by
        unfold filled
        rw [hs]
        rfl
      have houtcome := outcome_iff env uart hbuffer (List.nil_append _) port
      rw [hs, Option.map_some, Option.bind_some, Option.map_some]
      constructor
      · rintro ⟨w, port', text, rest, hcall, htext, hout⟩
        obtain ⟨port'', hsend, he⟩ := Option.map_eq_some_iff.mp hcall
        obtain ⟨rfl, rfl⟩ := Prod.mk.inj he
        obtain ⟨rfl, rfl⟩ := Prod.mk.inj (Option.some.inj htext)
        exact ⟨_, rfl, houtcome.mp ⟨port'', hsend, hout⟩⟩
      · rintro ⟨r', hr', hfits⟩
        obtain rfl := Option.some.inj hr'
        obtain ⟨port', hsend, hout⟩ := houtcome.mpr hfits
        exact ⟨_, port', _, _, Option.map_eq_some_iff.mpr ⟨port', hsend, rfl⟩, rfl, hout⟩

end Call

/-! ## Calls in a row -/

/-- A call of `klog_printf`: where its locals stand, the format and the arguments. -/
structure Call where
  frame : Frame
  fmt : CString
  args : List Word

section Calls

variable (env : Env) (uart : Uart)

/-- The line after a call. -/
def Call.print (c : Call) (port : Port) : Option Port :=
  (klogPrintf env uart c.frame c.fmt c.args port).map Prod.snd

/-- The line after the calls, one after the other. -/
def printAll (calls : List Call) (port : Port) : Option Port :=
  calls.foldlM (fun port c => c.print env uart port) port

/-- Every call is safe where the calls before it have left the port. -/
inductive SafeRun : List Call → Port → Prop where
  | done (port : Port) : SafeRun [] port
  | call {c : Call} {calls : List Call} {port port' : Port} :
      Safe env uart c.frame c.fmt c.args port → c.print env uart port = some port' →
      SafeRun calls port' → SafeRun (c :: calls) port

/-- The call has its arguments and its output fits in the buffer. -/
def Call.Fits (c : Call) : Prop :=
  ∃ r, items env c.fmt c.args = some r ∧ KlogPrintf.Fits c.frame r.1

/-- A safe call returns. -/
theorem print_of_safe {c : Call} {port : Port}
    (h : Safe env uart c.frame c.fmt c.args port) :
    ∃ port', c.print env uart port = some port' := by
  obtain ⟨w, port', -, -, hcall, -⟩ := h
  exact ⟨port', Option.map_eq_some_iff.mpr ⟨(w, port'), hcall, rfl⟩⟩

/-- **A RUN IS SAFE** if all of its calls fit.  Induction over the calls. -/
theorem safeRun_iff (calls : List Call) (port : Port) :
    SafeRun env uart calls port ↔ ∀ c ∈ calls, c.Fits env := by
  induction calls generalizing port with
  | nil => exact iff_of_true (.done port) fun c hc => nomatch hc
  | cons c calls ih =>
      rw [List.forall_mem_cons]
      constructor
      · rintro (_ | ⟨hsafe, hprint, hrun⟩)
        exact ⟨(safe_iff env uart c.frame c.fmt c.args port).mp hsafe, (ih _).mp hrun⟩
      · rintro ⟨hfits, hrest⟩
        have hsafe := (safe_iff env uart c.frame c.fmt c.args port).mpr hfits
        obtain ⟨port', hprint⟩ := print_of_safe env uart hsafe
        exact .call hsafe hprint ((ih port').mpr hrest)

/-- A run in which every call fits comes back. -/
theorem SafeRun.returns {calls : List Call} {port : Port}
    (h : SafeRun env uart calls port) :
    ∃ port', printAll env uart calls port = some port' := by
  induction h with
  | done port => exact ⟨port, rfl⟩
  | call _ hprint _ ih =>
      obtain ⟨port', hrest⟩ := ih
      refine ⟨port', ?_⟩
      unfold printAll
      rw [List.foldlM_cons, hprint]
      exact hrest

end Calls

/-! ## `panic` -/

/-- What `panic` changes: the interrupt flag, whether the processor runs, and the line. -/
structure Cpu where
  interrupts : Bool
  halted : Bool
  port : Port

def errorFormat : CString := ⟨"\n\n\n!!!!! error !!!!!\n".toList.map ascii, by decide⟩
def filenameFormat : CString := ⟨"filename: %s\n".toList.map ascii, by decide⟩
def lineFormat : CString := ⟨"line: %d\n".toList.map ascii, by decide⟩
def functionFormat : CString := ⟨"function: %s\n".toList.map ascii, by decide⟩
def conditionFormat : CString := ⟨"condition: %s\n".toList.map ascii, by decide⟩

section Panic

variable (env : Env) (uart : Uart) (frames : Fin 5 → Frame) (filename : Addr) (line : Word)
  (func condition : Addr)

/-- The five lines that `panic` prints. -/
def panicCalls : List Call :=
  [⟨frames 0, errorFormat, []⟩, ⟨frames 1, filenameFormat, [filename]⟩,
    ⟨frames 2, lineFormat, [line]⟩, ⟨frames 3, functionFormat, [func]⟩,
    ⟨frames 4, conditionFormat, [condition]⟩]

/-- From `irq_disable` to `hlt`. -/
def panic (cpu : Cpu) : Option Cpu :=
  let cpu := { cpu with interrupts := false }
  (printAll env uart (panicCalls frames filename line func condition) cpu.port).map
    fun port => { cpu with port, halted := true }

/-- All calls are safe, and the processor halts. -/
structure PanicSafe (cpu : Cpu) : Prop where
  calls : SafeRun env uart (panicCalls frames filename line func condition) cpu.port
  halts : ∃ cpu', panic env uart frames filename line func condition cpu = some cpu' ∧
    cpu'.halted = true ∧ cpu'.interrupts = false

/-- A string of the memory has room in the buffer, with `extra` characters around
    it. -/
def StringFits (frame : Frame) (extra : Nat) (a : Addr) : Prop :=
  ∃ t, readString env.mem a = some t ∧ (t.length + extra < 256 ∨
    t.length + extra = 256 ∧ frame.stack (frame.buf + 256) = 0)

/-- The condition on the arguments of `panic` under which its lines fit. -/
structure PanicFits : Prop where
  filename : StringFits env (frames 1) 12 filename
  line : 100 ≤ line.toInt.natAbs
  func : StringFits env (frames 3) 12 func
  condition : StringFits env (frames 4) 13 condition

/-- What a byte of the format prints outside a conversion. -/
def plainItem (c : Byte) : Item := if c = newline then .newline else .char c

/-- A format without a conversion prints its bytes. -/
theorem run_plain {p : List Byte} (hp : ascii '%' ∉ p) (args : List Word) :
    run (itemTurn env) ⟨.normal, args⟩ p = some (p.map plainItem, ⟨.normal, args⟩) := by
  induction p with
  | nil => rfl
  | cons c p ih =>
      rw [List.mem_cons, not_or] at hp
      have hturn : itemTurn env ⟨.normal, args⟩ c = some ([plainItem c], ⟨.normal, args⟩) := by
        unfold itemTurn plainItem
        dsimp only
        rw [if_neg (Ne.symm hp.1)]
        by_cases hn : c = newline
        · rw [if_pos hn, if_pos hn]
        · rw [if_neg hn, if_neg hn]
      rw [run, hturn, Option.bind_some, ih hp.2]
      rfl

/-- A label, a conversion and a newline. -/
theorem items_label {p : List Byte} (hp : ascii '%' ∉ p) {c : Byte} {fmt : CString}
    (hfmt : fmt.bytes = p ++ [ascii '%', c, newline]) (args : List Word) :
    items env fmt args = (itemConversion env c args).map fun r =>
      (p.map plainItem ++ (r.1 ++ [.newline]), r.2) := by
  unfold items
  rw [hfmt, run_append, run_plain env hp, Option.bind_some]
  simp only [run, itemTurn, if_true, Option.bind_some, Option.map_map]
  cases itemConversion env c args with
  | none => rfl
  | some r => rfl

/-- Lengths add up. -/
theorem formattedLength_append (l l' : List Item) :
    formattedLength (l ++ l') = formattedLength l + formattedLength l' := by
  unfold formattedLength
  rw [List.map_append, List.sum_append]

/-- A plain format prints newlines and characters only. -/
theorem mem_map_plainItem {p : List Byte} {i : Item} (h : i ∈ p.map plainItem) :
    i = .newline ∨ ∃ c ∈ p, i = .char c := by
  obtain ⟨c, hc, rfl⟩ := List.mem_map.mp h
  unfold plainItem
  by_cases hn : c = newline
  · rw [if_pos hn]
    exact .inl rfl
  · rw [if_neg hn]
    exact .inr ⟨c, hc, rfl⟩

/-- A plain format prints no number. -/
theorem decimal_notMem_map_plainItem (p : List Byte) (n : Word) :
    .decimal n ∉ p.map plainItem := by
  intro h
  rcases mem_map_plainItem h with he | ⟨c, -, he⟩
  · cases he
  · cases he

/-- Whether a label with something behind it fits. -/
theorem fits_label (frame : Frame) {p : List Byte} {fmt : CString} {c : Byte} {i : Item}
    (hfmt : fmt.bytes = p ++ [ascii '%', c, newline]) (hi : i ≠ .char 0) :
    Fits frame (p.map plainItem ++ ([i] ++ [.newline])) ↔
      (i.length + (formattedLength (p.map plainItem) + 2) < 256 ∨
        i.length + (formattedLength (p.map plainItem) + 2) = 256 ∧
          frame.stack (frame.buf + 256) = 0) ∧
      ∀ n, i = .decimal n → 100 ≤ n.toInt.natAbs := by
  have hlen : formattedLength (p.map plainItem ++ ([i] ++ [.newline]))
      = i.length + (formattedLength (p.map plainItem) + 2) := by
    rw [formattedLength_append, formattedLength_append]
    show _ + (i.length + 0 + (2 + 0)) = _
    omega
  have hmem : ∀ j, j ∈ p.map plainItem ++ ([i] ++ [.newline]) ↔
      j ∈ p.map plainItem ∨ j = i ∨ j = .newline := by
    intro j
    rw [List.mem_append, List.mem_append, List.mem_singleton, List.mem_singleton]
  have hnul : .char 0 ∉ p.map plainItem ++ ([i] ++ [.newline]) := by
    rw [hmem]
    rintro (h | h | h)
    · rcases mem_map_plainItem h with he | ⟨c, hc, he⟩
      · cases he
      · obtain rfl := Item.char.inj he
        refine fmt.nonzero ?_
        rw [hfmt]
        exact List.mem_append_left _ hc
    · exact hi h.symm
    · exact nomatch h
  constructor
  · rintro ⟨hbuffer, hnumbers⟩
    rw [hlen] at hbuffer
    refine ⟨hbuffer.imp_right fun h => ⟨h.1, h.2.resolve_left hnul⟩, fun n hn => ?_⟩
    exact hnumbers n ((hmem _).mpr (.inr (.inl hn.symm)))
  · rintro ⟨hbuffer, hnumber⟩
    refine ⟨?_, fun n hn => ?_⟩
    · rw [hlen]
      exact hbuffer.imp_right fun h => ⟨h.1, .inr h.2⟩
    · rcases (hmem _).mp hn with h | h | h
      · exact absurd h (decimal_notMem_map_plainItem p n)
      · exact hnumber n h.symm
      · exact nomatch h

/-- The conversion `%s` prints the string at its argument. -/
theorem itemConversion_string (a : Addr) :
    itemConversion env (ascii 's') [a]
      = (readCString env.mem a).map fun t => ([.string t], []) := by
  unfold itemConversion
  rw [if_neg (by decide), if_neg (by decide), if_neg (by decide), if_pos rfl, vaArg,
    Option.bind_some]

/-- A line with one `%s` at its end fits if the string leaves it room. -/
theorem call_fits_string (frame : Frame) (fmt : CString) (a : Addr) {p : List Byte}
    (hp : ascii '%' ∉ p) (hfmt : fmt.bytes = p ++ [ascii '%', ascii 's', newline]) :
    Call.Fits env ⟨frame, fmt, [a]⟩ ↔
      StringFits env frame (formattedLength (p.map plainItem) + 2) a := by
  unfold Call.Fits StringFits
  dsimp only
  rw [items_label env hp hfmt, ← readCString_bytes, itemConversion_string, Option.map_map]
  constructor
  · rintro ⟨r, hr, hfits⟩
    obtain ⟨t, ht, rfl⟩ := Option.map_eq_some_iff.mp hr
    have hroom := (fits_label frame hfmt (i := .string t) (fun h => nomatch h)).mp hfits
    exact ⟨t.bytes, Option.map_eq_some_iff.mpr ⟨t, ht, rfl⟩, hroom.1⟩
  · rintro ⟨t', ht', hroom⟩
    obtain ⟨t, ht, rfl⟩ := Option.map_eq_some_iff.mp ht'
    refine ⟨_, Option.map_eq_some_iff.mpr ⟨t, ht, rfl⟩, ?_⟩
    exact (fits_label frame hfmt (i := .string t) (fun h => nomatch h)).mpr
      ⟨hroom, fun n hn => nomatch hn⟩

/-- The first line has no conversion and always fits. -/
theorem errorCall_fits (frame : Frame) : Call.Fits env ⟨frame, errorFormat, []⟩ := by
  have hitems : items env errorFormat [] = some (errorFormat.bytes.map plainItem, []) := by
    unfold items
    rw [run_plain env (by decide)]
    rfl
  refine ⟨_, hitems, .inl (by decide), fun n hn => ?_⟩
  exact absurd hn (decimal_notMem_map_plainItem _ n)

/-- The line with the number fits if the number has three digits. -/
theorem lineCall_fits (frame : Frame) :
    Call.Fits env ⟨frame, lineFormat, [line]⟩ ↔ 100 ≤ line.toInt.natAbs := by
  have hfmt : lineFormat.bytes
      = "line: ".toList.map ascii ++ [ascii '%', ascii 'd', newline] := by decide
  have hitems := items_label env (by decide) hfmt [line]
  have hlen : (Item.decimal line).length ≤ 10 := by
    show (Nat.digits 10 line.toInt.natAbs).length ≤ 10
    rw [← chars_length]
    exact chars_length_le line
  have hlabel : formattedLength (("line: ".toList.map ascii).map plainItem) = 6 := by decide
  have hfits := fits_label frame hfmt (i := .decimal line) (fun h => nomatch h)
  rw [hlabel] at hfits
  unfold Call.Fits
  dsimp only
  rw [hitems]
  constructor
  · rintro ⟨r, hr, h⟩
    obtain rfl := Option.some.inj hr
    exact (hfits.mp h).2 line rfl
  · intro h
    refine ⟨_, rfl, hfits.mpr ⟨.inl (by omega), fun n hn => ?_⟩⟩
    exact Item.decimal.inj hn ▸ h

/-- **`panic` IS SAFE** if its texts fit. -/
theorem panicSafe_iff (cpu : Cpu) :
    PanicSafe env uart frames filename line func condition cpu ↔
      PanicFits env frames filename line func condition := by
  have hfilename := call_fits_string env (frames 1) filenameFormat filename
    (p := "filename: ".toList.map ascii) (by decide) (by decide)
  have hfunc := call_fits_string env (frames 3) functionFormat func
    (p := "function: ".toList.map ascii) (by decide) (by decide)
  have hcondition := call_fits_string env (frames 4) conditionFormat condition
    (p := "condition: ".toList.map ascii) (by decide) (by decide)
  have hrun := safeRun_iff env uart (panicCalls frames filename line func condition) cpu.port
  unfold panicCalls at hrun
  simp only [List.forall_mem_cons, List.not_mem_nil, false_imp_iff, implies_true, and_true,
    errorCall_fits, true_and, hfilename, hfunc, hcondition, lineCall_fits] at hrun
  constructor
  · intro h
    obtain ⟨h1, h2, h3, h4⟩ := hrun.mp h.calls
    exact ⟨h1, h2, h3, h4⟩
  · intro h
    have hsafe := hrun.mpr ⟨h.filename, h.line, h.func, h.condition⟩
    obtain ⟨port', hport⟩ := hsafe.returns
    exact ⟨hsafe, _, Option.map_eq_some_iff.mpr ⟨port', hport, rfl⟩, rfl, rfl⟩

end Panic

/-- **SAFE PRINTING**: every call of `klog_printf`, and `panic`. -/
theorem klogPrintf_safe_exactly (env : Env) (uart : Uart) :
    (∀ (frame : Frame) (fmt : CString) (args : List Word) (port : Port),
      Safe env uart frame fmt args port ↔
        ∃ r, items env fmt args = some r ∧ Fits frame r.1) ∧
    ∀ (frames : Fin 5 → Frame) (filename : Addr) (line : Word) (func condition : Addr)
      (cpu : Cpu),
      PanicSafe env uart frames filename line func condition cpu ↔
        PanicFits env frames filename line func condition :=
  ⟨safe_iff env uart, panicSafe_iff env uart⟩

/-! ## A long name -/

/-- 257 letters at an address. -/
def longEnv : Env :=
  { emptyEnv with mem := fun a => if InRange 0x5000 257 a then ascii 'a' else 0 }

/-- Always empty. -/
def idleUart : Uart := ⟨fun _ => 0x20, fun _ => ⟨0, by decide⟩⟩

/-- A stack of zeros. -/
def zeroFrame : Frame := ⟨0x8000, fun _ => 0⟩

/-- The format `%s`. -/
def percentS : CString := ⟨[ascii '%', ascii 's'], by decide⟩

/-- The string of 257 characters, as `%s` reads it. -/
theorem readString_longEnv :
    readString longEnv.mem 0x5000 = some (List.replicate 257 (ascii 'a')) := by
  have hlen : (List.replicate 257 (ascii 'a')).length = 257 := List.length_replicate
  refine readString_of_stringAt ⟨by omega, ?_, fun k hk => ?_⟩
  · intro h0
    exact absurd (List.eq_of_mem_replicate h0) (by decide)
  · show (if InRange 0x5000 257 (0x5000 + BitVec.ofNat 32 k) then ascii 'a' else 0) = _
    have hin : InRange 0x5000 257 (0x5000 + BitVec.ofNat 32 k) ↔ k < 257 :=
      inRange_ofNat (by omega)
    rcases Nat.lt_or_ge k 257 with hlt | hge
    · rw [if_pos (hin.mpr hlt), List.getD_replicate _ hlt]
    · rw [if_neg (mt hin.mp (Nat.not_lt.mpr hge)), List.getD_eq_default _ _ (by omega)]

/-- Whatever is longer than the buffer is written over its end. -/
theorem not_safe_of_long {env : Env} {fmt : CString} {args rest : List Word}
    {text : List Byte} (h : klogVsprintf env fmt args = some (text, rest))
    (hlong : 256 < text.length) (uart : Uart) (frame : Frame) (port : Port) :
    ¬ Safe env uart frame fmt args port := by
  rw [safe_iff]
  rintro ⟨r, hr, hfits⟩
  rw [klogVsprintf_eq, hr] at h
  have htext : textOf r.1 = text := congrArg Prod.fst (Option.some.inj h)
  rw [← htext, textOf_length] at hlong
  rcases hfits.buffer with hlt | ⟨heq, -⟩
  · omega
  · omega

/-- A name of 257 letters is well formed, and neither printed safely nor reported
    by `panic`. -/
theorem long_name_not_safe :
    klogVsprintf longEnv percentS [0x5000] = some (List.replicate 257 (ascii 'a'), []) ∧
    ¬ Safe longEnv idleUart zeroFrame percentS [0x5000] ⟨0, []⟩ ∧
    ¬ PanicSafe longEnv idleUart (fun _ => zeroFrame) 0x5000 100 0x9000 0x9000
      ⟨true, false, ⟨0, []⟩⟩ := by
  have hlen : (List.replicate 257 (ascii 'a')).length = 257 := List.length_replicate
  have htext : klogVsprintf longEnv percentS [0x5000]
      = some (List.replicate 257 (ascii 'a'), []) := by
    refine (klogVsprintf_conversion longEnv _ _).trans ?_
    unfold conversion
    rw [if_neg (by decide), if_neg (by decide), if_neg (by decide), if_pos rfl, vaArg,
      Option.bind_some, readString_longEnv]
    rfl
  refine ⟨htext, not_safe_of_long htext (by omega) _ _ _, ?_⟩
  rw [panicSafe_iff]
  rintro ⟨⟨t, ht, hroom⟩, -⟩
  obtain rfl := Option.some.inj (readString_longEnv.symm.trans ht)
  omega

end LittleOS.KlogPrintf
