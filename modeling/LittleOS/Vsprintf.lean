import LittleOS.Kmath
import LittleOS.Lib.Transducer

/-! # Formatting

    `klog_vsprintf` of `klib.c`: a machine with two states that takes one
    character of the format at every turn.  The buffer is what it emits, the
    `va_list` the arguments that are left.

    * `formatting_compositional` — a format in two parts is formatted one part
      after the other, and a text with every `%` doubled is written as it is,
      with a carriage return behind every newline. -/

namespace LittleOS.Vsprintf

open ByteStore CStrings Klib Kmath Transducer

/-- A character literal. -/
def ascii (c : Char) : Byte := BitVec.ofNat 8 c.toNat

/-- The character `\n`. -/
def newline : Byte := 0x0A
def carriageReturn : Byte := 0x0D

/-- What the arguments point into, apart from the buffer; and the local arrays:
    where they are and what is on the stack there. -/
structure Env where
  mem : Mem
  stack : Mem
  p : Addr
  cbuf : Addr

/-- The states of `klog_vsprintf`. -/
inductive State where
  | normal
  | format
deriving DecidableEq, Repr

/-- Its state and the arguments that are left. -/
structure Formatter where
  state : State
  args : List Word

section Source

variable (env : Env)

/-- `va_arg`; there is none behind the last. -/
def vaArg : List Word → Option (Word × List Word)
  | [] => none
  | w :: args => some (w, args)

/-- The text of `%d`. -/
def decimalText (num : Word) : Option (List Byte) :=
  let len := kintlen num
  (kitoaS env.p num len (Store.start env.stack)).bind fun s => readString s.mem env.p

/-- The digits of `%x`. -/
def hexDigits (num : Word) : Option (List Byte) :=
  let s := kmemset env.cbuf 0 50 (Store.start env.stack)
  (kdecimalToHexadecimal env.cbuf num s).bind fun s => readString s.mem env.cbuf

/-- What the character behind a `%` writes, and the arguments it leaves. -/
def conversion (c : Byte) (args : List Word) : Option (List Byte × List Word) :=
  if c = ascii '%' then some ([ascii '%'], args)
  else if c = ascii 'd' then
    (vaArg args).bind fun r => (decimalText env r.1).map fun text => (text, r.2)
  else if c = ascii 'c' then
    (vaArg args).map fun r => ([r.1.setWidth 8], r.2)
  else if c = ascii 's' then
    (vaArg args).bind fun r => (readString env.mem r.1).map fun text => (text, r.2)
  else if c = ascii 'x' then
    (vaArg args).bind fun r =>
      (hexDigits env r.1).map fun text => ([ascii '0', ascii 'x'] ++ text, r.2)
  else some ([], args)

/-- A turn of its loop on a byte of the format. -/
def turn (t : Formatter) (c : Byte) : Option (List Byte × Formatter) :=
  match t.state with
  | .normal =>
      if c = ascii '%' then some ([], { t with state := .format })
      else if c = newline then some ([newline, carriageReturn], t)
      else some ([c], t)
  | .format => (conversion env c t.args).map fun r => (r.1, ⟨.normal, r.2⟩)

/-- What it prints, and the arguments it leaves. -/
def klogVsprintf (fmt : CString) (args : List Word) : Option (List Byte × List Word) :=
  (run (turn env) ⟨.normal, args⟩ fmt.bytes).map fun r => (r.1, r.2.args)

end Source

/-! ## Two formats -/

/-- The state behind a character. -/
def next : State → Byte → State
  | .normal, c => if c = ascii '%' then .format else .normal
  | .format, _ => .normal

/-- The last character is a `%` that introduces a conversion. -/
def EndsOpen (f : List Byte) : Prop :=
  ∃ pre, f = pre ++ [ascii '%'] ∧ pre.foldl next .normal = .normal

/-- The state after a format is `FORMAT` exactly where it ends with an open conversion. -/
theorem foldl_next_iff (f : List Byte) : f.foldl next .normal = .format ↔ EndsOpen f := by
  constructor
  · intro h
    rcases List.eq_nil_or_concat f with rfl | ⟨pre, c, rfl⟩
    · exact nomatch h
    · rw [List.concat_eq_append, List.foldl_append, List.foldl_cons, List.foldl_nil] at h
      cases hpre : pre.foldl next .normal with
      | format =>
          rw [hpre] at h
          exact nomatch h
      | normal =>
          rw [hpre] at h
          have hlast : (if c = ascii '%' then State.format else .normal) = .format := h
          by_cases hc : c = ascii '%'
          · exact ⟨pre, by rw [hc, List.concat_eq_append], hpre⟩
          · rw [if_neg hc] at hlast
            exact nomatch hlast
  · rintro ⟨pre, rfl, hpre⟩
    rw [List.foldl_append, hpre]
    rfl

section Law

variable (env : Env)

/-- The state after a turn does not depend on the arguments. -/
theorem turn_state (t : Formatter) (c : Byte) (r : List Byte × Formatter)
    (h : turn env t c = some r) : r.2.state = next t.state c := by
  unfold turn at h
  unfold next
  cases hstate : t.state with
  | normal =>
      rw [hstate] at h
      dsimp only at h ⊢
      split at h
      · next hc =>
          obtain rfl := Option.some.inj h
          rw [if_pos hc]
      · next hc =>
          rw [if_neg hc]
          split at h
          · obtain rfl := Option.some.inj h
            exact hstate
          · obtain rfl := Option.some.inj h
            exact hstate
  | format =>
      rw [hstate] at h
      obtain ⟨r', -, rfl⟩ := Option.map_eq_some_iff.mp h
      rfl

/-- A format that is not left open is behind its last conversion. -/
theorem run_state {f : List Byte} (hf : ¬ EndsOpen f) {args : List Word}
    {r : List Byte × Formatter} (hr : run (turn env) ⟨.normal, args⟩ f = some r) :
    r.2.state = .normal := by
  have hstate := run_track Formatter.state (turn_state env) hr
  rw [hstate]
  cases hnext : f.foldl next .normal with
  | normal => rfl
  | format => exact absurd ((foldl_next_iff f).mp hnext) hf

/-- Every `%` doubled. -/
def doubled (s : CString) : CString where
  bytes := s.bytes.flatMap fun c => if c = ascii '%' then [ascii '%', ascii '%'] else [c]
  nonzero := by
    rw [List.mem_flatMap]
    rintro ⟨c, hc, h0⟩
    split at h0
    · exact absurd h0 (by decide)
    · exact s.nonzero (List.mem_singleton.mp h0 ▸ hc)

/-- Every newline followed by a carriage return. -/
def withReturns (s : CString) : List Byte :=
  s.bytes.flatMap fun c => if c = newline then [newline, carriageReturn] else [c]

/-- One character of a text. -/
theorem run_char (c : Byte) (args : List Word) :
    run (turn env) ⟨.normal, args⟩ (if c = ascii '%' then [ascii '%', ascii '%'] else [c])
      = some (if c = newline then [newline, carriageReturn] else [c], ⟨.normal, args⟩) := by
  by_cases hc : c = ascii '%'
  · rw [if_pos hc, hc, if_neg (by decide)]
    rfl
  · rw [if_neg hc]
    simp only [run, turn, if_neg hc]
    by_cases hn : c = newline
    · rw [if_pos hn, if_pos hn]
      rfl
    · rw [if_neg hn, if_neg hn]
      rfl

/-- A format that is one conversion. -/
theorem klogVsprintf_conversion {c : Byte} (h : 0 ∉ [ascii '%', c]) (args : List Word) :
    klogVsprintf env ⟨[ascii '%', c], h⟩ args = conversion env c args := by
  unfold klogVsprintf
  simp only [run, turn, if_true, Option.bind_some, Option.map_map]
  cases conversion env c args with
  | none => rfl
  | some r => simp

/-- **FORMATTING IS COMPOSITIONAL**, and a text with every `%` doubled stands for
    itself. -/
theorem formatting_compositional :
    (∀ (f g : CString) (args : List Word), ¬ EndsOpen f.bytes →
      klogVsprintf env (f ++ g) args
        = (klogVsprintf env f args).bind fun r =>
            (klogVsprintf env g r.2).map fun r' => (r.1 ++ r'.1, r'.2)) ∧
    ∀ (s : CString) (args : List Word),
      klogVsprintf env (doubled s) args = some (withReturns s, args) := by
  constructor
  · intro f g args hf
    unfold klogVsprintf
    rw [bytes_append, run_append]
    cases hr : run (turn env) ⟨.normal, args⟩ f.bytes with
    | none => rfl
    | some r =>
        -- the second part starts where it would on its own
        have hr₂ : r.2 = ⟨.normal, r.2.args⟩ := by
          rw [← run_state env hf hr]
        rw [Option.bind_some, Option.map_some, Option.bind_some, Option.map_map,
          Option.map_map, ← hr₂]
        rfl
  · intro s args
    unfold klogVsprintf
    rw [doubled, run_flatMap s.bytes fun c _ => run_char env c args]
    rfl

end Law

/-- Nothing to point to. -/
def emptyEnv : Env := ⟨fun _ => 0, fun _ => 0xFF, 0x1000, 0x2000⟩

/-- `%c`, and a letter and `%c`, with an argument for each. -/
theorem formatting_compositional_letter :
    klogVsprintf emptyEnv (⟨[ascii '%', ascii 'c'], by decide⟩ ++
        ⟨[ascii 'b', ascii '%', ascii 'c'], by decide⟩) [0x141, 0x43, 7]
      = some ([ascii 'A', ascii 'b', ascii 'C'], [7]) := by
  refine ((formatting_compositional emptyEnv).1 _ _ _ fun hopen => ?_).trans (by decide)
  exact absurd ((foldl_next_iff _).mpr hopen) (by decide)

end LittleOS.Vsprintf
