import Mathlib.Algebra.Order.Ring.Int
import Mathlib.Data.List.Basic
import Mathlib.Data.List.Induction
import Mathlib.Data.List.Nodup
import Mathlib.Data.Set.BooleanAlgebra
import Mathlib.Data.Set.Disjoint
import Mathlib.Order.CompletePartialOrder
import LittleOS.Lib.X86

/-! # Coroutines

    Each coroutine has a stack and one word elsewhere, its slot, in which a
    switch routine leaves the stack pointer.  The routine pushes some registers
    on the old stack, changes `esp`, and pops them from the new one.

    * `pushRegs_saved`, `popRegs_reg` — a block of registers on a stack;
    * `Parked` — what a coroutine left when it called the routine is all there;
    * `switch_parks`, `switch_keeps`, `switch_resumes` — the routine parks the
      one, leaves the others alone, and goes on where the other one was. -/

namespace X86

variable {κ : Type*}

namespace State

/-- `mov offset(base), dst` -/
def loadFrom (s : State κ) (dst : Reg) (offset : Word) (base : Reg) : State κ :=
  s.set dst (s.mem (s.reg base + offset))

/-- `mov src, (base)` -/
def storeTo (s : State κ) (src base : Reg) : State κ :=
  { s with mem := Function.update s.mem (s.reg base) (s.reg src) }

/-- `mov src, dst` -/
def move (s : State κ) (src dst : Reg) : State κ := s.set dst (s.reg src)

/-- Push a register. -/
def pushReg (s : State κ) (r : Reg) : State κ := s.push (s.reg r)

/-- The instruction `ret`. -/
def ret (s : State κ) : State κ := { s.drop with eip := s.mem (s.reg .esp) }

/-- Push registers one after the other. -/
def pushRegs (s : State κ) (rs : List Reg) : State κ := rs.foldl pushReg s

/-- Pop registers one after the other. -/
def popRegs (s : State κ) (rs : List Reg) : State κ := rs.foldl pop s

/-- A call by cdecl: the arguments, the first of them on top, and the address
    behind the call. -/
def callWith (s : State κ) (args : List Word) (next : Word) : State κ :=
  (args.reverse.foldl push s).push next

end State

/-! ## A block of registers -/

section Block

variable {s : State κ} {rs : List Reg}

/-- The last register is pushed last. -/
theorem pushRegs_concat (s : State κ) (rs : List Reg) (r : Reg) :
    s.pushRegs (rs ++ [r]) = (s.pushRegs rs).pushReg r := by
  simp [State.pushRegs]

/-- Pushing changes no register but `esp`. -/
theorem pushRegs_reg (s : State κ) (rs : List Reg) {r : Reg} (h : r ≠ .esp) :
    (s.pushRegs rs).reg r = s.reg r := by
  induction rs using List.reverseRecOn with
  | nil => rfl
  | append_singleton rs q ih =>
      rw [pushRegs_concat]
      exact (push_reg _ _ h).trans ih

/-- Pushing takes a word for each register. -/
theorem pushRegs_esp (s : State κ) (rs : List Reg) :
    slot ((s.pushRegs rs).reg .esp) rs.length = s.reg .esp := by
  induction rs using List.reverseRecOn with
  | nil => exact slot_zero _
  | append_singleton rs q ih =>
      rw [pushRegs_concat, State.pushReg, push_esp, List.length_append, List.length_singleton,
        ← slot_succ, BitVec.sub_add_cancel]
      exact ih

/-- Nothing but the words of the block is written. -/
theorem pushRegs_mem {a : Word}
    (h : ∀ i < rs.length, a ≠ slot ((s.pushRegs rs).reg .esp) i) :
    (s.pushRegs rs).mem a = s.mem a := by
  induction rs using List.reverseRecOn with
  | nil => rfl
  | append_singleton rs q ih =>
      rw [pushRegs_concat, State.pushReg, push_esp, List.length_append,
        List.length_singleton] at h
      rw [pushRegs_concat]
      refine (Function.update_of_ne ?_ ..).trans (ih fun i hi => ?_)
      · simpa using h 0 (Nat.succ_pos _)
      · have hne := h (i + 1) (Nat.succ_lt_succ hi)
        rwa [← slot_succ, BitVec.sub_add_cancel] at hne

/-- Each register of the block lies at its place, the last one on top. -/
theorem pushRegs_saved (hlen : rs.length < 2 ^ 30) (hesp : Reg.esp ∉ rs) :
    ∀ r ∈ rs, (s.pushRegs rs).mem (slot ((s.pushRegs rs).reg .esp) (rs.reverse.idxOf r))
      = s.reg r := by
  induction rs using List.reverseRecOn with
  | nil => exact fun r hr => absurd hr List.not_mem_nil
  | append_singleton rs q ih =>
      intro r hr
      rw [List.length_append, List.length_singleton] at hlen
      have hq : q ≠ .esp := fun he => hesp (he ▸ List.mem_concat_self)
      rw [pushRegs_concat, List.reverse_concat, State.pushReg, push_esp]
      by_cases hqr : q = r
      · rw [← hqr, List.idxOf_cons_self, slot_zero]
        exact (Function.update_self ..).trans (pushRegs_reg s rs hq)
      · have hmem : r ∈ rs :=
          (List.mem_append.mp hr).resolve_right fun he => hqr (List.mem_singleton.mp he).symm
        have hidx : rs.reverse.idxOf r < rs.length := by
          rw [← List.length_reverse]
          exact List.idxOf_lt_length_of_mem (List.mem_reverse.mpr hmem)
        rw [List.idxOf_cons_ne _ hqr, ← slot_succ, BitVec.sub_add_cancel]
        refine (Function.update_of_ne ?_ ..).trans
          (ih (by omega) (fun he => hesp (List.mem_append_left _ he)) r hmem)
        intro he
        rw [← BitVec.sub_add_cancel ((s.pushRegs rs).reg .esp) 4, slot_succ,
          BitVec.sub_add_cancel] at he
        have hzero := slot_inj (by omega) (by omega) (he.trans (slot_zero _).symm)
        exact Nat.succ_ne_zero _ hzero

/-- Popping writes nothing. -/
theorem popRegs_mem (s : State κ) (rs : List Reg) : (s.popRegs rs).mem = s.mem := by
  induction rs generalizing s with
  | nil => rfl
  | cons r rs ih => exact ih (s.pop r)

/-- Popping gives a word back for each register. -/
theorem popRegs_esp (s : State κ) (hesp : Reg.esp ∉ rs) :
    (s.popRegs rs).reg .esp = slot (s.reg .esp) rs.length := by
  induction rs generalizing s with
  | nil => exact (slot_zero _).symm
  | cons r rs ih =>
      obtain ⟨hr, hrs⟩ := List.ne_and_not_mem_of_not_mem_cons hesp
      refine (ih (s.pop r) hrs).trans ?_
      rw [pop_esp s hr.symm, slot_succ, List.length_cons]

/-- Popping changes no register that is not popped. -/
theorem popRegs_reg_of_not_mem (s : State κ) {r : Reg} (hr : r ∉ rs) (h : r ≠ .esp) :
    (s.popRegs rs).reg r = s.reg r := by
  induction rs generalizing s with
  | nil => rfl
  | cons q rs ih =>
      obtain ⟨hq, hrs⟩ := List.ne_and_not_mem_of_not_mem_cons hr
      exact (ih (s.pop q) hrs).trans (pop_reg_of_ne s hq h)

/-- Each register of the block comes from its place. -/
theorem popRegs_reg (s : State κ) (hnd : rs.Nodup) (hesp : Reg.esp ∉ rs) {r : Reg}
    (hr : r ∈ rs) : (s.popRegs rs).reg r = s.mem (slot (s.reg .esp) (rs.idxOf r)) := by
  induction rs generalizing s with
  | nil => exact absurd hr List.not_mem_nil
  | cons q rs ih =>
      obtain ⟨hq, hrs⟩ := List.ne_and_not_mem_of_not_mem_cons hesp
      obtain ⟨hqrs, hnd⟩ := List.nodup_cons.mp hnd
      show ((s.pop q).popRegs rs).reg r = _
      by_cases hqr : q = r
      · subst hqr
        rw [popRegs_reg_of_not_mem _ hqrs hq.symm, List.idxOf_cons_self, slot_zero]
        exact Function.update_self ..
      · rw [ih (s.pop q) hnd hrs ((List.mem_cons.mp hr).resolve_left (Ne.symm hqr)),
          pop_esp s hq.symm, slot_succ, List.idxOf_cons_ne _ hqr]
        rfl

end Block

end X86

namespace Coroutines

open X86

variable {κ θ : Type*}

/-- The memory of the coroutines: all that belongs to each, its slot and its
    stack in it. -/
structure Stacks (θ : Type*) where
  own : θ → Set Word
  slot : θ → Word
  stack : θ → Set Word
  slot_own : ∀ t, slot t ∈ own t
  stack_own : ∀ t, stack t ⊆ own t
  slot_stack : ∀ t, slot t ∉ stack t
  apart : ∀ t u, t ≠ u → Disjoint (own t) (own u)

variable {L : Stacks θ} {rs : List Reg} {t u : θ}

/-- What a coroutine needs while it does not run. -/
structure Kept (L : Stacks θ) (t : θ) (mem mem' : Word → Word) : Prop where
  slot : mem' (L.slot t) = mem (L.slot t)
  stack : ∀ a ∈ L.stack t, mem' a = mem a

/-- What is kept twice is kept. -/
theorem Kept.trans {m₁ m₂ m₃ : Word → Word} (h : Kept L t m₁ m₂) (h' : Kept L t m₂ m₃) :
    Kept L t m₁ m₃ :=
  ⟨h'.slot.trans h.slot, fun a ha => (h'.stack a ha).trans (h.stack a ha)⟩

/-- Who writes among its own words disturbs nobody else. -/
theorem Kept.of_own {mem mem' : Word → Word} (h : ∀ a, a ∉ L.own u → mem' a = mem a)
    (hne : t ≠ u) : Kept L t mem mem' := by
  have hnot : ∀ a ∈ L.own t, a ∉ L.own u := fun a ha =>
    Set.disjoint_left.mp (L.apart t u hne) ha
  exact ⟨h _ (hnot _ (L.slot_own t)), fun a ha => h _ (hnot _ (L.stack_own t ha))⟩

/-- The address `i` words up in a block of `n` words below `a`. -/
def place (a : Word) (n i : Nat) : Word := X86.slot (a - BitVec.ofNat 32 (4 * n)) i

/-- Behind the saved registers stands what was there before. -/
theorem place_top (a : Word) (n : Nat) : place a n n = a := BitVec.sub_add_cancel ..

/-- The places are slots. -/
theorem place_of_slot {a b : Word} {n : Nat} (h : X86.slot b n = a) (i : Nat) :
    place a n i = X86.slot b i := by
  have hback : a - BitVec.ofNat 32 (4 * n) = b := by
    rw [← h]
    exact BitVec.add_sub_cancel ..
  rw [place, hback]

/-- What coroutine `t` left when it entered the switch routine with `e` is all
    there: the stack pointer in its slot, the registers below its stack, and the
    rest of the stack. -/
structure Parked (L : Stacks θ) (rs : List Reg) (t : θ) (e : State κ)
    (mem : Word → Word) : Prop where
  slot : mem (L.slot t) = place (e.reg .esp) rs.length 0
  saved : ∀ r ∈ rs, mem (place (e.reg .esp) rs.length (rs.reverse.idxOf r)) = e.reg r
  stack : ∀ a ∈ L.stack t, (∀ i < rs.length, a ≠ place (e.reg .esp) rs.length i) →
    mem a = e.mem a
  inside : ∀ i ≤ rs.length, place (e.reg .esp) rs.length i ∈ L.stack t

/-- A parked coroutine stays parked while its stack and its slot are kept. -/
theorem Parked.kept {e : State κ} {mem mem' : Word → Word} (h : Parked L rs t e mem)
    (hk : Kept L t mem mem') : Parked L rs t e mem' := by
  refine ⟨hk.slot.trans h.slot, fun r hr => ?_, fun a ha hne => ?_, h.inside⟩
  · have hidx : rs.reverse.idxOf r ≤ rs.length := by
      rw [← List.length_reverse]
      exact List.idxOf_le_length
    exact (hk.stack _ (h.inside _ hidx)).trans (h.saved r hr)
  · exact (hk.stack a ha).trans (h.stack a ha hne)

/-! ## The switch routine -/

/-- With the address of the one slot and the contents of the other as its
    arguments. -/
def switchRoutine (rs : List Reg) (s : State κ) : State κ :=
  let s := (s.loadFrom .eax 4 .esp).loadFrom .edx 8 .esp
  let s := (s.pushRegs rs).storeTo .esp .eax
  ((s.move .edx .esp).popRegs rs.reverse).ret

/-- Registers that such a routine can save. -/
structure Saveable (rs : List Reg) : Prop where
  nodup : rs.Nodup
  esp : Reg.esp ∉ rs
  eax : Reg.eax ∉ rs
  edx : Reg.edx ∉ rs
  short : rs.length < 2 ^ 30

/-- How the routine is entered to go from `t` to `u`, with room for the
    registers. -/
structure Enters (L : Stacks θ) (rs : List Reg) (t u : θ) (e : State κ) : Prop where
  here : e.mem (X86.slot (e.reg .esp) 1) = L.slot t
  there : e.mem (X86.slot (e.reg .esp) 2) = e.mem (L.slot u)
  room : ∀ i ≤ rs.length, place (e.reg .esp) rs.length i ∈ L.stack t

/-- The coroutine goes on behind its call, as it entered with `e`. -/
structure Resumed (L : Stacks θ) (rs : List Reg) (t : θ) (e s : State κ) : Prop where
  eip : s.eip = e.mem (e.reg .esp)
  esp : s.reg .esp = e.reg .esp + 4
  reg : ∀ r ∈ rs, s.reg r = e.reg r
  stack : ∀ a ∈ L.stack t, (∀ i < rs.length, a ≠ place (e.reg .esp) rs.length i) →
    s.mem a = e.mem a

section Switch

variable {e e₀ : State κ}

/-- The state with both arguments in registers. -/
def switchLoaded (s : State κ) : State κ :=
  (s.loadFrom .eax 4 .esp).loadFrom .edx 8 .esp

/-- The state with the registers saved. -/
def switchSaved (rs : List Reg) (s : State κ) : State κ :=
  ((switchLoaded s).pushRegs rs).storeTo .esp .eax

/-- The routine saves, exchanges the stacks, restores and returns. -/
theorem switchRoutine_eq (rs : List Reg) (s : State κ) :
    switchRoutine rs s = (((switchSaved rs s).move .edx .esp).popRegs rs.reverse).ret := rfl

/-- All it writes is written before the exchange. -/
theorem switchRoutine_mem (rs : List Reg) (s : State κ) :
    (switchRoutine rs s).mem = (switchSaved rs s).mem := by
  rw [switchRoutine_eq]
  exact popRegs_mem _ _

/-- Loading the arguments changes two registers. -/
theorem switchLoaded_reg (s : State κ) {r : Reg} (ha : r ≠ .eax) (hd : r ≠ .edx) :
    (switchLoaded s).reg r = s.reg r := by
  simp [switchLoaded, State.loadFrom, State.set, ha, hd]

/-- Where the registers go. -/
theorem switchLoaded_place (e : State κ) (rs : List Reg) (i : Nat) :
    X86.slot (((switchLoaded e).pushRegs rs).reg .esp) i
      = place (e.reg .esp) rs.length i := by
  have hesp := pushRegs_esp (switchLoaded e) rs
  rw [switchLoaded_reg e (by decide) (by decide)] at hesp
  exact (place_of_slot hesp i).symm

/-- The first argument is the slot of the coroutine that is left. -/
theorem Enters.eax (h : Enters L rs t u e) : ((switchLoaded e).pushRegs rs).reg .eax = L.slot t :=
  (pushRegs_reg _ rs (by decide)).trans h.here

/-- The second one is that of the coroutine that is entered, with its stack pointer in it. -/
theorem Enters.edx (h : Enters L rs t u e) :
    ((switchSaved rs e).move .edx .esp).reg .esp = e.mem (L.slot u) := by
  have hdx : ((switchSaved rs e).move .edx .esp).reg .esp
      = ((switchLoaded e).pushRegs rs).reg .edx := by
    simp [State.move, State.set, switchSaved, State.storeTo]
  rw [hdx, pushRegs_reg _ rs (by decide)]
  exact h.there

/-- The stack pointer is saved in the slot. -/
theorem Enters.slot_mem (h : Enters L rs t u e) :
    (switchSaved rs e).mem (L.slot t) = place (e.reg .esp) rs.length 0 := by
  rw [← switchLoaded_place, slot_zero, ← h.eax]
  exact Function.update_self ..

/-- Saving it writes nothing else. -/
theorem Enters.mem_of_ne (h : Enters L rs t u e) {a : Word} (ha : a ≠ L.slot t) :
    (switchSaved rs e).mem a = ((switchLoaded e).pushRegs rs).mem a :=
  Function.update_of_ne (h.eax ▸ ha) ..

/-- **THE ONE** is parked. -/
theorem switch_parks (hrs : Saveable rs) (h : Enters L rs t u e) :
    Parked L rs t e (switchRoutine rs e).mem := by
  rw [switchRoutine_mem]
  refine ⟨h.slot_mem, fun r hr => ?_, fun a ha hne => ?_, h.room⟩
  · have hidx : rs.reverse.idxOf r ≤ rs.length := by
      rw [← List.length_reverse]
      exact List.idxOf_le_length
    have hslot : place (e.reg .esp) rs.length (rs.reverse.idxOf r) ≠ L.slot t := fun he =>
      L.slot_stack t (he ▸ h.room _ hidx)
    rw [h.mem_of_ne hslot, ← switchLoaded_place, pushRegs_saved hrs.short hrs.esp r hr]
    exact switchLoaded_reg e (fun he => hrs.eax (he ▸ hr)) (fun he => hrs.edx (he ▸ hr))
  · rw [h.mem_of_ne fun he => L.slot_stack t (he ▸ ha)]
    refine pushRegs_mem fun i hi => ?_
    rw [switchLoaded_place]
    exact hne i hi

/-- **NOBODY ELSE** is disturbed. -/
theorem switch_keeps {v : θ} (h : Enters L rs t u e) (hne : v ≠ t) :
    Kept L v e.mem (switchRoutine rs e).mem := by
  refine Kept.of_own (fun a ha => ?_) hne
  have hslot : a ≠ L.slot t := by
    rintro rfl
    exact ha (L.slot_own t)
  rw [switchRoutine_mem, h.mem_of_ne hslot]
  refine (pushRegs_mem fun i hi he => ha ?_).trans rfl
  rw [he, switchLoaded_place]
  exact L.stack_own t (h.room i hi.le)

/-- **THE OTHER** goes on where it was. -/
theorem switch_resumes (hrs : Saveable rs) (h : Enters L rs t u e) (hne : u ≠ t)
    (hp : Parked L rs u e₀ e.mem) : Resumed L rs u e₀ (switchRoutine rs e) := by
  have hp' := hp.kept (switch_keeps h hne)
  rw [switchRoutine_mem] at hp'
  have hesp : Reg.esp ∉ rs.reverse := fun he => hrs.esp (List.mem_reverse.mp he)
  have hplace : ∀ i, X86.slot (((switchSaved rs e).move .edx .esp).reg .esp) i
      = place (e₀.reg .esp) rs.length i := by
    intro i
    rw [h.edx, hp.slot, place, slot_zero]
    rfl
  have hend : (((switchSaved rs e).move .edx .esp).popRegs rs.reverse).reg .esp
      = e₀.reg .esp := by
    rw [popRegs_esp _ hesp, List.length_reverse, hplace, place_top]
  refine ⟨?_, ?_, fun r hr => ?_, fun a ha hne => ?_⟩
  · have htop := hp'.stack _ (hp.inside _ (Nat.le_refl _)) fun i hi he => by
      have hidx := slot_inj hrs.short (hi.trans hrs.short) he
      omega
    rw [place_top] at htop
    rw [switchRoutine_eq]
    show (((switchSaved rs e).move .edx .esp).popRegs rs.reverse).mem _ = _
    rw [popRegs_mem, hend]
    exact htop
  · rw [switchRoutine_eq]
    exact (drop_esp _).trans (congrArg (· + 4) hend)
  · have hr' : r ≠ .esp := fun he => hrs.esp (he ▸ hr)
    rw [switchRoutine_eq]
    refine (drop_reg _ hr').trans ?_
    rw [popRegs_reg _ (List.nodup_reverse.mpr hrs.nodup) hesp (List.mem_reverse.mpr hr), hplace]
    exact hp'.saved r hr
  · rw [switchRoutine_mem]
    exact hp'.stack a ha hne

end Switch

end Coroutines
