import LittleOS.MemoryMap

/-! # `detect_method1` of the loader

    Each call of `int 0x15` with `0xE820` answers one entry of the table of the
    BIOS and a continuation value; the value 0 that comes with the last entry
    starts the table again when it is passed on.

    The loop tests for it only behind `if (blength == 20) continue`, so with
    answers of 20 bytes it makes all its turns and runs off the end of the
    function, which has no `return` there.

    * `detectLoop_length` — whatever the answers, nothing is written behind
      `mem.info`;
    * `detectLoop_served` — the entries a run of the loop collects: the table,
      read round and round;
    * `detection_never_ends` — it never returns `true`, and the entries are
      right exactly if the turns left for a second reading meet no usable one. -/

namespace LittleOS.DetectMemory

open PageTable MemoryMap

/-- `ARDS_entry_t`. -/
structure Ards where
  baseL : Word
  baseH : Word
  lengthL : Word
  lengthH : Word
  type : Word

/-- The magic number `SMAP`. -/
def smap : Word := 0x534D4150

/-- What a call leaves in the entry and in `eax`, `ecx` and `ebx`. -/
structure Answer where
  entry : Ards
  signature : Word
  blength : Word
  countID : Word

/-- The entry in `mem.info`. -/
def Ards.info (entry : Ards) : Info where
  start := entry.baseL
  offset := entry.lengthL

/-- The turns left of the loop; `int15` answers for the `ebx` it is given, and
    `mem` is `mem.info` up to `mem.count`.  `none`: the end of the function. -/
def detectLoop (int15 : Word → Answer) : Nat → Word → List Info → Option Bool × List Info
  | 0, _, mem => (none, mem)
  | turns + 1, countID, mem =>
      let r := int15 countID
      if r.signature ≠ smap then (some false, mem)
      else
        let mem := if r.entry.type = 1 then mem ++ [r.entry.info] else mem
        if r.blength = 20 then detectLoop int15 turns r.countID mem
        else if r.countID = 0 then (some true, mem)
        else detectLoop int15 turns r.countID mem

/-- `detect_method1`, with `countID` and `mem.count` 0 before. -/
def detectMethod1 (int15 : Word → Answer) : Option Bool × List Info :=
  detectLoop int15 maxMemLength 0 []

/-- The loop does not write behind `mem.info`. -/
theorem detectLoop_length (int15 : Word → Answer) :
    ∀ (turns : Nat) (countID : Word) (mem : List Info),
      (detectLoop int15 turns countID mem).2.length ≤ mem.length + turns := by
  intro turns
  induction turns with
  | zero => intro countID mem; exact Nat.le_refl _
  | succ turns ih =>
      intro countID mem
      unfold detectLoop
      dsimp only
      split
      · exact Nat.le_add_right _ _
      · obtain ⟨mem', hmem, hlen⟩ : ∃ mem', (if (int15 countID).entry.type = 1
            then mem ++ [(int15 countID).entry.info] else mem) = mem' ∧
            mem'.length ≤ mem.length + 1 := by
          refine ⟨_, rfl, ?_⟩
          split <;> simp
        rw [hmem]
        have hrest := ih (int15 countID).countID mem'
        split
        · omega
        · split
          · dsimp only
            omega
          · omega

/-! ## The BIOS -/

/-- A table and the continuation values it is served with: that of the last
    entry is 0, and no two are the same. -/
structure Bios where
  table : List Ards
  cont : Nat → Word
  nonempty : 1 ≤ table.length
  short : table.length ≤ maxMemLength
  last : cont (table.length - 1) = 0
  apart : ∀ i < table.length, ∀ j < table.length, cont i = cont j → i = j

namespace Bios

variable (b : Bios)

/-- The entry a value asks for: the first one, or the one behind the entry that
    came with it. -/
def entryOf (ebx : Word) : Nat :=
  if ebx = 0 then 0
  else (List.range b.table.length).findIdx (fun i => b.cont i = ebx) + 1

/-- `int 0x15` with `eax = 0xE820`; an unknown value is refused. -/
def int15 (ebx : Word) : Answer :=
  match b.table[b.entryOf ebx]? with
  | some entry => ⟨entry, smap, 20, b.cont (b.entryOf ebx)⟩
  | none => ⟨⟨0, 0, 0, 0, 0⟩, 0, 0, 0⟩

/-- The table, read round and round. -/
def served (k : Nat) : Ards :=
  b.table.get ⟨k % b.table.length, Nat.mod_lt _ b.nonempty⟩

/-- **THE PROTOCOL**: the value that comes with an entry asks for the next one,
    and that of the last entry for the first. -/
theorem entryOf_cont {i : Nat} (hi : i < b.table.length) :
    b.entryOf (b.cont i) = (i + 1) % b.table.length := by
  have hlast := b.last
  have hpos := b.nonempty
  unfold entryOf
  by_cases h0 : b.cont i = 0
  · have he := b.apart i hi (b.table.length - 1) (by omega) (h0.trans hlast.symm)
    rw [if_pos h0, show i + 1 = b.table.length by omega, Nat.mod_self]
  · have hne : i ≠ b.table.length - 1 := fun he => h0 (he ▸ hlast)
    have hfind : (List.range b.table.length).findIdx (fun j => b.cont j = b.cont i) = i := by
      refine (List.findIdx_eq (by rw [List.length_range]; exact hi)).mpr ⟨?_, ?_⟩
      · rw [List.getElem_range]
        exact decide_eq_true rfl
      · intro j hj
        rw [List.getElem_range]
        refine decide_eq_false fun hc => ?_
        have := b.apart j (by omega) i hi hc
        omega
    rw [if_neg h0, hfind, Nat.mod_eq_of_lt (by omega)]

/-- The answer of the BIOS to a continuation that it gave. -/
theorem int15_served {ebx : Word} {k : Nat} (h : b.entryOf ebx = k % b.table.length) :
    b.int15 ebx = ⟨b.served k, smap, 20, b.cont (k % b.table.length)⟩ := by
  have hlt : k % b.table.length < b.table.length := Nat.mod_lt _ b.nonempty
  unfold int15
  rw [h, List.getElem?_eq_getElem hlt]
  rfl

/-- The usable entries, as `mem.info` has them. -/
def usable (entries : List Ards) : List Info :=
  (entries.filter (fun e => e.type = 1)).map Ards.info

/-- An entry of type 1 is kept. -/
theorem usable_cons (e : Ards) (entries : List Ards) :
    usable (e :: entries) = (if e.type = 1 then [e.info] else []) ++ usable entries := by
  unfold usable
  by_cases ht : e.type = 1
  · rw [if_pos ht, List.filter_cons_of_pos (by simpa using ht)]
    rfl
  · rw [if_neg ht, List.filter_cons_of_neg (by simpa using ht)]
    rfl

/-- Entries add up. -/
theorem usable_append (l₁ l₂ : List Ards) :
    usable (l₁ ++ l₂) = usable l₁ ++ usable l₂ := by
  unfold usable
  rw [List.filter_append, List.map_append]

/-- Nothing is kept where no entry is usable. -/
theorem usable_eq_nil {entries : List Ards} :
    usable entries = [] ↔ ∀ e ∈ entries, e.type ≠ 1 := by
  unfold usable
  simp

/-- **THE LOOP** collects the usable entries of the next turns and never
    returns.  Induction over the turns left. -/
theorem detectLoop_served :
    ∀ (turns k : Nat) (countID : Word) (mem : List Info),
      b.entryOf countID = k % b.table.length →
      detectLoop b.int15 turns countID mem
        = (none, mem ++ usable ((List.range' k turns).map b.served)) := by
  intro turns
  induction turns with
  | zero =>
      intro k countID mem _
      rw [detectLoop, List.range'_zero]
      exact congrArg _ (List.append_nil mem).symm
  | succ turns ih =>
      intro k countID mem h
      have hlt : k % b.table.length < b.table.length := Nat.mod_lt _ b.nonempty
      have hnext : b.entryOf (b.cont (k % b.table.length)) = (k + 1) % b.table.length := by
        rw [b.entryOf_cont hlt, Nat.mod_add_mod]
      rw [detectLoop, b.int15_served h]
      dsimp only
      -- an answer of 20 bytes goes to the next turn whatever `countID` is
      rw [if_neg (not_not.mpr rfl), if_pos rfl, ih (k + 1) _ _ hnext, List.range'_succ,
        List.map_cons, usable_cons]
      by_cases ht : (b.served k).type = 1
      · rw [if_pos ht, if_pos ht, List.append_assoc]
      · rw [if_neg ht, if_neg ht, List.nil_append]

/-- The first reading of the table. -/
theorem served_once : (List.range b.table.length).map b.served = b.table := by
  refine List.ext_getElem (by simp) ?_
  intro i hi hi'
  rw [List.getElem_map, List.getElem_range]
  unfold served
  simp only [Nat.mod_eq_of_lt hi', List.get_eq_getElem]

/-- Behind its last entry the table begins again. -/
theorem served_add (j : Nat) : b.served (b.table.length + j) = b.served j := by
  unfold served
  congr 2
  exact Nat.add_mod_left _ _

/-- What the turns left behind the first reading see. -/
theorem mem_second {e : Ards} {n : Nat} :
    e ∈ (List.range' b.table.length n).map b.served ↔ e ∈ b.table.take n := by
  have hpos := b.nonempty
  rw [List.mem_map, List.mem_take_iff_getElem]
  constructor
  · rintro ⟨k, hk, rfl⟩
    obtain ⟨j, hj, rfl⟩ := List.mem_range'.mp hk
    have hle := Nat.mod_le j b.table.length
    have hlt := Nat.mod_lt j hpos
    refine ⟨j % b.table.length, by omega, ?_⟩
    rw [Nat.one_mul, b.served_add]
    rfl
  · rintro ⟨i, hi, rfl⟩
    refine ⟨b.table.length + i, List.mem_range'.mpr ⟨i, by omega, by omega⟩, ?_⟩
    rw [b.served_add]
    unfold served
    simp only [Nat.mod_eq_of_lt (show i < b.table.length by omega), List.get_eq_getElem]

/-- The loop goes through the whole table and on from its start until its array is full,
    and gives no result. -/
theorem detectMethod1_served :
    detectMethod1 b.int15 = (none, usable b.table ++
      usable ((List.range' b.table.length (maxMemLength - b.table.length)).map b.served)) := by
  have hshort := b.short
  have hloop := b.detectLoop_served maxMemLength 0 0 [] (by
    rw [Nat.zero_mod]
    exact if_pos rfl)
  have hsplit : List.range' 0 maxMemLength = List.range b.table.length
      ++ List.range' b.table.length (maxMemLength - b.table.length) := by
    have happ := List.range'_append_1 (s := 0) (m := b.table.length)
      (n := maxMemLength - b.table.length)
    rw [Nat.zero_add, Nat.add_sub_cancel' hshort] at happ
    rw [List.range_eq_range', happ]
  unfold detectMethod1
  rw [hloop, hsplit, List.map_append, b.served_once, List.nil_append, usable_append]

/-! ## What it is for -/

/-- The call returns `true`, and `mem.info` holds the usable entries, in order
    and once each. -/
structure Detects : Prop where
  returns : (detectMethod1 b.int15).1 = some true
  info : (detectMethod1 b.int15).2 = usable b.table

/-- So the memory is never detected. -/
theorem not_detects : ¬ b.Detects := by
  intro h
  have hreturns := h.returns
  rw [b.detectMethod1_served] at hreturns
  exact nomatch hreturns

end Bios

/-- **NO TABLE** is detected: the function ends without a value.  What it has
    written is right exactly if no usable entry is read a second time. -/
theorem detection_never_ends (b : Bios) :
    ¬ b.Detects ∧
    ((detectMethod1 b.int15).2 = Bios.usable b.table ↔
      ∀ e ∈ b.table.take (maxMemLength - b.table.length), e.type ≠ 1) := by
  refine ⟨b.not_detects, ?_⟩
  rw [b.detectMethod1_served]
  dsimp only
  rw [List.append_right_eq_self, Bios.usable_eq_nil]
  exact forall_congr' fun e => imp_congr_left b.mem_second

/-- One usable entry of 128 MB. -/
def oneEntry : Bios where
  table := [⟨0, 0, 0x8000000, 0, 1⟩]
  cont := fun _ => 0
  nonempty := Nat.le_refl 1
  short := by decide
  last := rfl
  apart := by
    intro i hi j hj _
    exact (Nat.lt_one_iff.mp hi).trans (Nat.lt_one_iff.mp hj).symm

/-- It is listed twenty times. -/
theorem one_entry_repeated : ¬ ∀ b : Bios, b.Detects := by
  intro hall
  have hlen := congrArg List.length (hall oneEntry).info
  have htwenty : (detectMethod1 oneEntry.int15).2.length = 20 := by decide
  exact nomatch htwenty.symm.trans hlen

end LittleOS.DetectMemory
