import LittleOS.IrqInstall
import LittleOS.Lib.Pic8259
import LittleOS.Lib.Runs

/-! # Interrupts from the boot on

    `irq_init`, `pic_init`, `pic_enable` and the interrupt side of `timer_init`
    and `pic_send_eoi`, over the gates of `LittleOS.IrqInstall` and the
    controllers of `LittleOS.Lib.Pic8259`.

    `pic_init` leaves all lines open, and `pic_enable` closes none, so a device
    that nobody asked for can interrupt.  Its gate leads to
    `irq_handler_unknown`, which returns without an EOI; only `irq_handler_timer`
    comes to `pic_send_eoi`, at once or after other tasks have run.

    * `interrupt_table` — every gate, whatever the addresses of the handlers;
    * `lines_served` — the timer goes on, and every other line interrupts at most
      once. -/

namespace LittleOS.Interrupts

open Pic8259 IrqInstall Gdt Runs

/-! ## The handlers -/

/-- The `exception_handler_*` of `start.S`, and `syscall_handler`. -/
inductive Entry where
  | unknown
  | divider
  | debug
  | nmi
  | breakpoint
  | overflow
  | boundRange
  | invalidOpcode
  | deviceUnfound
  | doubleFault
  | invalidTss
  | segmentNotPresent
  | stackSegmentFault
  | generalProtection
  | pageFault
  | floatPointError
  | aligmentCheck
  | machineCheck
  | simd
  | virtualException
  | timer
  | syscall
deriving DecidableEq, Repr

/-- `GATE_DPL3` -/
def gateDpl3 : BitVec 16 := 3 <<< 13

/-- `IRQ_Timer`. -/
def irqTimer : Nat := 0x20

/-- `IRQ128_INT`. -/
def irq128Int : Nat := 0x80

/-- The calls of `irq_install` in `irq_init`, in their order. -/
def installs : List (Nat × Entry) :=
  [(0, .divider), (1, .debug), (2, .nmi), (3, .breakpoint), (4, .overflow),
    (5, .boundRange), (6, .invalidOpcode), (7, .deviceUnfound), (8, .doubleFault),
    (10, .invalidTss), (11, .segmentNotPresent), (12, .stackSegmentFault),
    (13, .generalProtection), (14, .pageFault), (16, .floatPointError),
    (17, .aligmentCheck), (18, .machineCheck), (19, .simd), (20, .virtualException)]

section Source

variable (entry : Entry → Word)

/-- `irq_init` behind `pic_init`. -/
def irqInit (idtTable : IdtTable) : IdtTable :=
  let idtTable := (List.range idtSize).foldl (fun t i =>
    (irqSegmentSet t i kernelSelectorCs (entry .unknown)
      (gateTypeIdt ||| gateP ||| gateDpl0)).2) idtTable
  let idtTable := installs.foldl (fun t w =>
    (irqInstall t (BitVec.ofNat 16 w.1) (entry w.2)).2) idtTable
  (irqSegmentSet idtTable irq128Int kernelSelectorCs (entry .syscall)
    (gateTypeIdt ||| gateP ||| gateDpl3)).2

/-- `irq_init`, and the `irq_install` of `timer_init`. -/
def bootIdt (idtTable : IdtTable) : IdtTable :=
  (irqInstall (irqInit entry idtTable) (BitVec.ofNat 16 irqTimer) (entry .timer)).2

/-- The ports `PIC_M_CTRL`, `PIC_M_DATA`, `PIC_S_CTRL` and `PIC_S_DATA`. -/
def outb (port : Nat) (data : Byte) (pic : Pair) : Pair :=
  match port with
  | 0x20 => { pic with master := pic.master.writeControl data }
  | 0x21 => { pic with master := pic.master.writeData data }
  | 0xA0 => { pic with slave := pic.slave.writeControl data }
  | 0xA1 => { pic with slave := pic.slave.writeData data }
  | _ => pic

/-- The two data ports. -/
def inb (port : Nat) (pic : Pair) : Byte :=
  match port with
  | 0x21 => pic.master.readData
  | 0xA1 => pic.slave.readData
  | _ => 0

/-- `pic_init` -/
def picInit (pic : Pair) : Pair :=
  let pic := outb 0x20 0x11 pic
  let pic := outb 0x21 0x20 pic
  let pic := outb 0x21 0x04 pic
  let pic := outb 0x21 0x01 pic
  let pic := outb 0xA0 0x11 pic
  let pic := outb 0xA1 0x28 pic
  let pic := outb 0xA1 0x02 pic
  outb 0xA1 0x01 pic

/-- `PIC_START`. -/
def picStart : Byte := 0x20

/-- `~(1 << n)`, of which a byte goes to the port. -/
def clearMask (n : Nat) : Byte := (~~~(1#32 <<< n)).setWidth 8

/-- `pic_enable`: clears the line's bit in the mask of its chip. -/
def picEnable (pic : Pair) (picNum : Byte) : Pair :=
  if picNum < picStart then pic
  else
    let n := (picNum - picStart).toNat
    if n < 8 then outb 0x21 (inb 0x21 pic &&& clearMask n) pic
    else outb 0xA1 (inb 0xA1 pic &&& clearMask (n - 8)) pic

/-- `pic_send_eoi` -/
def picSendEoi (pic : Pair) (picNum : Int) : Pair :=
  let pic := if picNum - 0x20 ≥ 8 then outb 0xA0 (1 <<< 5) pic else pic
  outb 0x20 (1 <<< 5) pic

/-- `pic_init`, and the `pic_enable` of `timer_init`. -/
def bootPic (pic : Pair) : Pair := picEnable (picInit pic) 0x20

end Source

/-! ## The table -/

/-- An interrupt gate of the kernel. -/
def gate (handler : Word) (dpl : BitVec 16) : IrqDesc where
  limit15_0 := (handler &&& 0xFFFF).truncate 16
  selector := kernelSelectorCs
  attr := gateTypeIdt ||| gateP ||| dpl
  limit31_16 := ((handler >>> 16) &&& 0xFFFF).truncate 16

/-- The gates that do not keep `unknown`. -/
def handlers : List (Nat × Entry × BitVec 16) :=
  installs.map (fun w => (w.1, w.2, gateDpl0)) ++
    [(irq128Int, .syscall, gateDpl3), (irqTimer, .timer, gateDpl0)]

/-- The handler and the privilege of a vector. -/
def handlerOf (v : Nat) : Entry × BitVec 16 :=
  match handlers.find? fun w => w.1 = v with
  | some w => w.2
  | none => (.unknown, gateDpl0)

section Table

variable {entry : Entry → Word}

/-- One call after another. -/
def setAll (entry : Entry → Word) (t : IdtTable) (ws : List (Nat × Entry × BitVec 16)) :
    IdtTable :=
  ws.foldl (fun t w => (irqSegmentSet t w.1 kernelSelectorCs (entry w.2.1)
    (gateTypeIdt ||| gateP ||| w.2.2)).2) t

/-- Installing a gate leaves the others. -/
theorem set_of_ne (t : IdtTable) {n v : Nat} (hne : v ≠ n) (s : BitVec 16) (h : Word)
    (attr : BitVec 16) : (irqSegmentSet t n s h attr).2 v = t v := by
  unfold irqSegmentSet
  split
  · rfl
  · exact Function.update_of_ne hne ..

/-- A gate is installed if its handler lies low enough. -/
theorem set_self (t : IdtTable) (v : Nat) (h : Word) (dpl : BitVec 16) :
    (irqSegmentSet t v kernelSelectorCs h (gateTypeIdt ||| gateP ||| dpl)).2 v
      = if h ≤ 0xFFFFF then gate h dpl else t v := by
  unfold irqSegmentSet
  by_cases hle : h ≤ 0xFFFFF
  · rw [if_neg (BitVec.not_lt.mpr hle), if_pos hle]
    exact Function.update_self ..
  · rw [if_pos (BitVec.not_le.mp hle), if_neg hle]

/-- Gates that are not installed stay as they are. -/
theorem setAll_of_not_mem {v : Nat} {ws : List (Nat × Entry × BitVec 16)}
    (h : v ∉ ws.map Prod.fst) (t : IdtTable) : setAll entry t ws v = t v := by
  induction ws generalizing t with
  | nil => rfl
  | cons w ws ih =>
      obtain ⟨hw, hws⟩ := List.ne_and_not_mem_of_not_mem_cons h
      exact (ih hws _).trans (set_of_ne t hw ..)

/-- The one call for a vector decides.  Induction over the calls. -/
theorem setAll_of_mem {v : Nat} {e : Entry} {dpl : BitVec 16}
    {ws : List (Nat × Entry × BitVec 16)} (hnd : (ws.map Prod.fst).Nodup)
    (h : (v, e, dpl) ∈ ws) (t : IdtTable) :
    setAll entry t ws v = if entry e ≤ 0xFFFFF then gate (entry e) dpl else t v := by
  induction ws generalizing t with
  | nil => exact absurd h List.not_mem_nil
  | cons w ws ih =>
      obtain ⟨hw, hnd⟩ := List.nodup_cons.mp hnd
      rcases List.mem_cons.mp h with rfl | hmem
      · exact (setAll_of_not_mem hw _).trans (set_self t v ..)
      · have hne : v ≠ w.1 := fun he => hw (he ▸ List.mem_map_of_mem hmem)
        exact (ih hnd hmem _).trans (if_congr Iff.rfl rfl (set_of_ne t hne ..))

/-- The calls of the first loop. -/
def unknowns : List (Nat × Entry × BitVec 16) :=
  (List.range idtSize).map fun i => (i, .unknown, gateDpl0)

/-- Every vector gets the default handler first. -/
theorem unknowns_fst : unknowns.map Prod.fst = List.range idtSize := by
  unfold unknowns
  rw [List.map_map]
  exact List.map_id _

/-- The table after boot: the default handlers and over them the others. -/
theorem bootIdt_eq (t : IdtTable) :
    bootIdt entry t = setAll entry (setAll entry t unknowns) handlers := by
  unfold bootIdt irqInit setAll unknowns
  rw [List.foldl_map]
  rfl

/-- No vector is given two handlers of its own. -/
theorem handlers_nodup : (handlers.map Prod.fst).Nodup := by decide

/-- **EVERY GATE** leads to its handler, where that lies low enough for
    `irq_segment_set`, and else still to `unknown`; user code may call only the
    gate of the system calls. -/
theorem interrupt_table (entry : Entry → Word) (t : IdtTable) (v : Nat) :
    bootIdt entry t v
      = if v < idtSize then
          if entry (handlerOf v).1 ≤ 0xFFFFF then gate (entry (handlerOf v).1) (handlerOf v).2
          else if entry .unknown ≤ 0xFFFFF then gate (entry .unknown) gateDpl0
          else t v
        else t v := by
  rw [bootIdt_eq]
  by_cases hv : v < idtSize
  · have hnd : (unknowns.map Prod.fst).Nodup := by
      rw [unknowns_fst]
      exact List.nodup_range
    have hmem : (v, Entry.unknown, gateDpl0) ∈ unknowns :=
      List.mem_map.mpr ⟨v, List.mem_range.mpr hv, rfl⟩
    have hfirst : setAll entry t unknowns v = _ := setAll_of_mem hnd hmem t
    rw [if_pos hv, ← hfirst]
    unfold handlerOf
    split
    · next w hfind =>
        obtain rfl : w.1 = v := by simpa using List.find?_some hfind
        exact setAll_of_mem handlers_nodup (List.mem_of_find?_eq_some hfind) _
    · next hfind =>
        have hnot : v ∉ handlers.map Prod.fst := by
          intro hmem
          obtain ⟨w, hw, hwv⟩ := List.mem_map.mp hmem
          exact absurd (List.find?_eq_none.mp hfind w hw) (by simpa using hwv)
        rw [setAll_of_not_mem hnot, hfirst]
        split <;> rfl
  · have hnot : v ∉ handlers.map Prod.fst := by
      intro hmem
      have hsmall : ∀ n ∈ handlers.map Prod.fst, n < idtSize := by decide
      exact hv (hsmall v hmem)
    rw [if_neg hv, setAll_of_not_mem hnot]
    refine setAll_of_not_mem ?_ t
    rw [unknowns_fst]
    exact fun hmem => hv (List.mem_range.mp hmem)

end Table

/-! ## The machine -/

/-- The controllers, the calls of `irq_handler_timer` that have not come to
    `pic_send_eoi`, and the vectors the processor was given so far. -/
structure System where
  pic : Pair
  ticking : Nat
  vectors : List Byte

/-- What can happen next between the devices, the controllers and the processor. -/
inductive Event where
  /-- A device asks on one of the lines 0 to 15. -/
  | request (line : Nat)
  /-- The processor accepts an interrupt. -/
  | interrupt
  /-- A call of `irq_handler_timer` comes to `pic_send_eoi`. -/
  | sendEoi
deriving DecidableEq, Repr

section Machine

variable (entry : Entry → Word) (idt : IdtTable)

/-- The processor goes where the gate leads. -/
def enter (s : System) (v : Byte) (pic : Pair) : Option System :=
  if offsetOf (idt v.toNat) = entry .timer then
    some ⟨pic, s.ticking + 1, s.vectors ++ [v]⟩
  -- `irq_handler_unknown` returns
  else if offsetOf (idt v.toNat) = entry .unknown then
    some { s with pic := pic, vectors := s.vectors ++ [v] }
  else none

/-- A step of the system. -/
def step : Event → System → Option System
  | .request line, s => if line < 16 then some { s with pic := s.pic.request line } else none
  | .interrupt, s => s.pic.accept.bind fun w => enter entry idt s w.1 w.2
  | .sendEoi, s =>
      if s.ticking = 0 then none
      else some { s with pic := picSendEoi s.pic irqTimer, ticking := s.ticking - 1 }

/-- Behind `timer_init`. -/
def start (pic : Pair) : System := ⟨bootPic pic, 0, []⟩

end Machine

/-- The vectors but that of the timer. -/
def devices (vs : List Byte) : List Byte := vs.filter fun v => v ≠ 0x20

/-- The line of the first controller that a vector came from. -/
def lineOf (v : Byte) : Nat := if v.toNat < 0x28 then v.toNat - 0x20 else 2

/-- What `pic_init` and `pic_enable` have set up. -/
structure Configured (p : Pair) : Prop where
  masterBase : p.master.base = 0x20
  slaveBase : p.slave.base = 0x28
  masterEoi : p.master.autoEoi = false
  masterMask : p.master.imr = 0

/-- Every line but the timer's that has interrupted is still in service. -/
structure Inv (s : System) : Prop where
  configured : Configured s.pic
  ticking : s.ticking = if s.pic.master.isr.getLsbD 0 then 1 else 0
  served : ∀ k ∈ (devices s.vectors).map lineOf,
    0 < k ∧ k ≤ 7 ∧ s.pic.master.isr.getLsbD k = true
  descending : Descending ((devices s.vectors).map lineOf)

section Runs

variable {entry : Entry → Word} {idt : IdtTable} {s s' : System}

/-- **ONE INTERRUPT**: its line was free, and is in service now. -/
theorem Configured.accept {p p' : Pair} {v : Byte} (h : Configured p)
    (ha : p.accept = some (v, p')) :
    ∃ k, k ≤ 7 ∧ Free p.master k ∧ Configured p' ∧
      (∀ j, p'.master.isr.getLsbD j = (p.master.isr.getLsbD j || decide (j = k))) ∧
      0x20 ≤ v.toNat ∧ v.toNat < 0x30 ∧ lineOf v = k ∧ (v = 0x20 ↔ k = 0) := by
  obtain ⟨k, hk, hv⟩ := Option.map_eq_some_iff.mp ha
  obtain ⟨hk8, -, hfree⟩ := asks_some hk
  have hisr := accept_isr h.masterEoi hk8
  refine ⟨k, Nat.le_of_lt_succ hk8, hfree, ?_⟩
  split at hv
  · next j hj =>
      -- through the second controller
      obtain ⟨⟨rfl, -⟩, hslave⟩ := Option.ite_none_right_eq_some.mp hj
      obtain ⟨hj8, -⟩ := asks_some hslave
      obtain ⟨rfl, rfl⟩ := Prod.mk.inj hv
      have hvector : (p.slave.base + BitVec.ofNat 8 j).toNat = 0x28 + j := by
        rw [h.slaveBase]
        bv_omega
      refine ⟨⟨h.masterBase, h.slaveBase, h.masterEoi, h.masterMask⟩, hisr, by omega, by omega,
        ?_, ?_⟩
      · unfold lineOf
        rw [hvector]
        exact if_neg (by omega)
      · refine iff_of_false (fun he => ?_) (by decide)
        have hbad : 0x28 + j = 0x20 := hvector.symm.trans (congrArg BitVec.toNat he)
        omega
  · obtain ⟨rfl, rfl⟩ := Prod.mk.inj hv
    have hvector : (p.master.base + BitVec.ofNat 8 k).toNat = 0x20 + k := by
      rw [h.masterBase]
      bv_omega
    refine ⟨⟨h.masterBase, h.slaveBase, h.masterEoi, h.masterMask⟩, hisr, by omega, by omega,
        ?_, ?_⟩
    · unfold lineOf
      rw [hvector, if_pos (by omega)]
      omega
    · rw [← BitVec.toNat_inj, hvector]
      show 0x20 + k = 0x20 ↔ k = 0
      omega

/-- The gates of the two controllers' vectors: the timer's, and otherwise
    `unknown`. -/
structure Gates (entry : Entry → Word) (idt : IdtTable) : Prop where
  timer : offsetOf (idt 0x20) = entry .timer
  unknown : ∀ v, 0x20 < v → v < 0x30 → offsetOf (idt v) = entry .unknown
  apart : entry .unknown ≠ entry .timer

/-- Which gate a vector of the controllers enters: the timer's, or a default one. -/
theorem enter_eq (h : Gates entry idt) {v : Byte} {pic : Pair} (hlow : 0x20 ≤ v.toNat)
    (hv : v.toNat < 0x30) :
    enter entry idt s v pic = some (if v = 0x20 then ⟨pic, s.ticking + 1, s.vectors ++ [v]⟩
      else { s with pic := pic, vectors := s.vectors ++ [v] }) := by
  unfold enter
  by_cases he : v = 0x20
  · rw [he]
    exact (if_pos h.timer).trans (congrArg some (if_pos rfl).symm)
  · have hne : 0x20 < v.toNat := by bv_omega
    have hun := h.unknown v.toNat hne hv
    rw [if_neg he, if_neg (hun.trans_ne h.apart), if_pos hun]

/-- The interrupts of other devices add up. -/
theorem devices_snoc (vs : List Byte) (v : Byte) :
    devices (vs ++ [v]) = if v = 0x20 then devices vs else devices vs ++ [v] := by
  unfold devices
  rw [List.filter_append, List.filter_singleton]
  by_cases h : v = 0x20
  · rw [if_pos h, h]
    exact List.append_nil _
  · rw [if_neg h, decide_eq_true h]
    rfl

/-- A request keeps the configuration and what is in service. -/
theorem request_keeps {p : Pair} (h : Configured p) (n : Nat) :
    Configured (p.request n) ∧ (p.request n).master.isr = p.master.isr := by
  obtain ⟨hbase, hslave, heoi, hmask⟩ := h
  unfold Pair.request
  split
  · exact ⟨⟨hbase, hslave, heoi, hmask⟩, rfl⟩
  · split <;> exact ⟨⟨hbase, hslave, heoi, hmask⟩, rfl⟩

/-- `pic_send_eoi(IRQ_Timer)` goes to the first controller only. -/
theorem picSendEoi_timer (p : Pair) :
    picSendEoi p irqTimer = { p with master := p.master.writeControl 0x20 } := rfl

/-- So does the end of an interrupt. -/
theorem eoi_configured {p : Pair} (h : Configured p) :
    Configured { p with master := p.master.writeControl 0x20 } :=
  ⟨h.masterBase, h.slaveBase, h.masterEoi, h.masterMask⟩

/-- **EVERY STEP** keeps the lines in service. -/
theorem step_inv {e : Event} (hg : Gates entry idt) (h : Inv s)
    (hs : step entry idt e s = some s') : Inv s' := by
  cases e with
  | request line =>
      obtain ⟨-, heq⟩ := Option.ite_none_right_eq_some.mp hs
      obtain ⟨hconf, hisr⟩ := request_keeps h.configured line
      rw [← Option.some.inj heq]
      exact ⟨hconf, hisr.symm ▸ h.ticking, hisr.symm ▸ h.served, h.descending⟩
  | interrupt =>
      obtain ⟨⟨v, p⟩, ha, henter⟩ := Option.bind_eq_some_iff.mp hs
      obtain ⟨k, hk, hfree, hconf, hisr, hlow, hv, hline, hzero⟩ := h.configured.accept ha
      have hstill : ∀ j ∈ (devices s.vectors).map lineOf,
          0 < j ∧ j ≤ 7 ∧ p.master.isr.getLsbD j = true := by
        intro j hj
        obtain ⟨hpos, hle, hset⟩ := h.served j hj
        refine ⟨hpos, hle, ?_⟩
        rw [hisr, hset]
        rfl
      have heq := Option.some.inj ((enter_eq hg hlow hv).symm.trans henter)
      have hsnoc := devices_snoc s.vectors v
      by_cases hvt : v = 0x20
      · -- the timer: its line was free, so no call of its handler is under way
        have hk0 : k = 0 := hzero.mp hvt
        have hidle : s.ticking = 0 := by
          rw [h.ticking, hfree 0 (Nat.zero_le k)]
          rfl
        rw [if_pos hvt] at heq hsnoc
        rw [← heq]
        refine ⟨hconf, ?_, hsnoc.symm ▸ hstill, hsnoc.symm ▸ h.descending⟩
        dsimp only
        rw [hidle, hisr, hk0, Bool.or_comm]
        rfl
      · have hk0 : k ≠ 0 := fun he => hvt (hzero.mpr he)
        rw [if_neg hvt] at heq hsnoc
        rw [← heq]
        have hlines : (devices (s.vectors ++ [v])).map lineOf
            = (devices s.vectors).map lineOf ++ [k] := by
          rw [hsnoc, List.map_append, List.map_singleton, hline]
        refine ⟨hconf, ?_, ?_, ?_⟩
        · dsimp only
          rw [h.ticking, hisr, decide_eq_false hk0.symm, Bool.or_false]
        · dsimp only
          rw [hlines]
          intro j hj
          rcases List.mem_append.mp hj with hj | hj
          · exact hstill j hj
          · obtain rfl := List.mem_singleton.mp hj
            refine ⟨Nat.pos_of_ne_zero hk0, hk, ?_⟩
            rw [hisr, decide_eq_true rfl, Bool.or_true]
        · dsimp only
          rw [hlines]
          refine h.descending.snoc fun j hj => ?_
          by_contra hle
          have hset := (h.served j hj).2.2
          rw [hfree j (Nat.le_of_not_lt hle)] at hset
          cases hset
  | sendEoi =>
      obtain ⟨hne, heq⟩ := Option.ite_none_left_eq_some.mp hs
      have htimer : s.pic.master.isr.getLsbD 0 = true := by
        by_contra hclear
        exact hne (h.ticking.trans (if_neg hclear))
      have hisr := eoi_isr htimer
      rw [← Option.some.inj heq, picSendEoi_timer]
      refine ⟨eoi_configured h.configured, ?_, fun k hk => ?_, h.descending⟩
      · dsimp only
        rw [h.ticking, if_pos htimer, hisr, decide_eq_false (not_not.mpr rfl), Bool.and_false]
        rfl
      · obtain ⟨hpos, hle, hset⟩ := h.served k hk
        refine ⟨hpos, hle, ?_⟩
        dsimp only
        rw [hisr, hset, decide_eq_true (Nat.ne_of_gt hpos)]
        rfl

/-- The controllers start with nothing in service. -/
theorem start_inv (pic : Pair) : Inv (start pic) where
  configured := ⟨rfl, rfl, rfl, BitVec.zero_and⟩
  ticking := by
    have hisr : (start pic).pic.master.isr = 0 := rfl
    rw [hisr]
    rfl
  served := fun _ hk => absurd hk List.not_mem_nil
  descending := List.Pairwise.nil

/-- The gates that `irq_init` and `timer_init` leave. -/
theorem bootIdt_gates (t : IdtTable) (htimer : entry .timer ≤ 0xFFFFF)
    (hunknown : entry .unknown ≤ 0xFFFFF) (hne : entry .unknown ≠ entry .timer) :
    Gates entry (bootIdt entry t) := by
  have hdevices : ∀ v < 0x30, 0x20 < v → handlerOf v = (.unknown, gateDpl0) := by decide
  refine ⟨?_, fun v hlow hv => ?_, hne⟩
  · rw [interrupt_table, if_pos (by decide), show handlerOf 0x20 = (.timer, gateDpl0) by decide,
      if_pos htimer]
    exact halves _
  · have hsize : v < idtSize := Nat.lt_trans hv (by decide)
    rw [interrupt_table, if_pos hsize, hdevices v hv hlow, if_pos hunknown]
    exact halves _

/-- **THE LINES**: whatever the devices ask, and whatever runs between the
    interrupts, every line but the timer's interrupts at most once, each of
    higher priority than the ones before, so seven times in all; and the timer
    is served at its next request unless its handler is still under way. -/
theorem lines_served {es : List Event} {pic : Pair} {t : IdtTable}
    (htimer : entry .timer ≤ 0xFFFFF) (hunknown : entry .unknown ≤ 0xFFFFF)
    (hne : entry .unknown ≠ entry .timer)
    (h : Run (step entry (bootIdt entry t)) (fun _ _ => True) (start pic) es s) :
    Descending ((devices s.vectors).map lineOf) ∧ (devices s.vectors).length ≤ 7 ∧
    (s.ticking = 0 → ∃ s',
      ((step entry (bootIdt entry t) (.request 0) s).bind
        (step entry (bootIdt entry t) .interrupt)) = some s' ∧
      s'.vectors = s.vectors ++ [0x20] ∧ s'.ticking = 1) := by
  have hg := bootIdt_gates t htimer hunknown hne
  have hinv : Inv s := h.invariant (start_inv pic) fun _ _ _ hs _ hstep => step_inv hg hs hstep
  refine ⟨hinv.descending, ?_, fun hidle => ?_⟩
  · have hlen := hinv.descending.length_le fun k hk =>
      ⟨(hinv.served k hk).1, (hinv.served k hk).2.1⟩
    rwa [List.length_map] at hlen
  · obtain ⟨p, hp⟩ : ∃ p, p = s.pic.request 0 := ⟨_, rfl⟩
    obtain ⟨hconf, hisr⟩ := request_keeps hinv.configured 0
    rw [← hp] at hconf hisr
    have hfree : p.master.isr.getLsbD 0 = false := by
      rw [hisr]
      by_contra hset
      rw [hinv.ticking, if_pos (Bool.eq_true_of_not_eq_false hset)] at hidle
      cases hidle
    have hirr : p.master.irr.getLsbD 0 = true := by
      rw [hp]
      show (s.pic.master.irr ||| bit 0).getLsbD 0 = true
      rw [BitVec.getLsbD_or, Bool.or_eq_true]
      exact Or.inr rfl
    have hasks : p.masterAsks = some 0 := by
      refine asks_zero ?_ ?_ hfree
      · split
        · rw [BitVec.getLsbD_or, hirr]
          rfl
        · exact hirr
      · rw [hconf.masterMask]
        rfl
    have haccept : p.accept = some (0x20, ⟨p.master.accept 0, p.slave⟩) := by
      unfold Pair.accept
      rw [hasks, Option.map_some, if_neg (fun hand => absurd hand.1 (by decide)),
        hconf.masterBase]
      rfl
    refine ⟨⟨⟨p.master.accept 0, p.slave⟩, s.ticking + 1, s.vectors ++ [0x20]⟩, ?_, rfl,
      congrArg (· + 1) hidle⟩
    have hrequest : step entry (bootIdt entry t) (.request 0) s = some { s with pic := p } := by
      have hline : 0 < 16 := by decide
      rw [hp, step, if_pos hline]
    rw [hrequest, Option.bind_some]
    show (p.accept.bind fun w => enter entry (bootIdt entry t) { s with pic := p } w.1 w.2) = _
    rw [haccept, Option.bind_some]
    have hlow : 0x20 ≤ (0x20 : Byte).toNat := by decide
    have hhigh : (0x20 : Byte).toNat < 0x30 := by decide
    exact (enter_eq hg hlow hhigh).trans (congrArg some (if_pos rfl))

end Runs

/-! ## A keyboard and a disk -/

/-- Controllers with anything in them. -/
def anyPic : Pair :=
  let c : Chip := ⟨0xFF, 0xFF, 0xFF, 0x70, 0, true, true, false, .mask⟩
  ⟨c, c⟩

/-- All handlers in the first MB. -/
def lowEntry : Entry → Word
  | .timer => 0x12000
  | .syscall => 0x13000
  | _ => 0x11000

/-- A disk on line 14, a tick, a keyboard on line 1 within the tick, and both
    devices once more. -/
def bothDevices : List Event :=
  [.request 14, .interrupt, .request 0, .interrupt, .request 1, .sendEoi, .interrupt,
    .request 1, .request 14]

/-- A table of zeros. -/
def blankIdt : IdtTable := fun _ => ⟨0, 0, 0, 0⟩

private theorem bothDevices_isSome :
    (exec (step lowEntry (bootIdt lowEntry blankIdt)) (fun _ _ => True) bothDevices
      (start anyPic)).isSome = true := by decide +kernel

/-- Nothing but the timer is accepted any more. -/
theorem lines_served_both :
    ∃ s, exec (step lowEntry (bootIdt lowEntry blankIdt)) (fun _ _ => True) bothDevices
        (start anyPic) = some s ∧
      s.vectors = [0x2E, 0x20, 0x21] ∧ s.pic.accept = none ∧
      (devices s.vectors).length ≤ 7 :=
  ⟨_, (Option.some_get bothDevices_isSome).symm, by decide +kernel, by decide +kernel,
    (lines_served (by decide) (by decide) (by decide)
      (Run.of_isSome bothDevices_isSome)).2.1⟩

end LittleOS.Interrupts
