import Mathlib.Algebra.Order.Ring.Int
import Mathlib.Logic.Function.Basic

/-! # A byte store with a log

    A memory of bytes at 32-bit addresses, over the memory a program has found:
    the log has every address that was stored to, and what is not in it is as it
    was.  `storeLoop` is `for (j = 0; j < bound; j++) dest[j] = value`, with the
    bound and the value read from the memory at every turn.

    * `storeLoop_within` — what a loop writes, as long as that leaves its own
      bound alone;
    * `storeLoop_restores` — or stores there what is there;
    * `storeLoop_mem` — what is there afterwards. -/

namespace ByteStore

/-- An address. -/
abbrev Addr := BitVec 32

/-- A byte. -/
abbrev Byte := BitVec 8

/-- Memory, byte by byte. -/
abbrev Mem := Addr → Byte

/-- Little-endian fields. -/
def read16 (mem : Mem) (a : Addr) : BitVec 16 := mem (a + 1) ++ mem a

/-- Four bytes as a word, the lowest first. -/
def read32 (mem : Mem) (a : Addr) : BitVec 32 :=
  (mem (a + 3) ++ mem (a + 2)) ++ (mem (a + 1) ++ mem a)

/-- A memory that was `found`. -/
structure Store (found : Mem) where
  mem : Mem
  written : List Addr
  kept : ∀ a, a ∉ written → mem a = found a

variable {found : Mem}

namespace Store

/-- Memory as it was found, with nothing written. -/
def start (found : Mem) : Store found := ⟨found, [], fun _ _ => rfl⟩

/-- Write a byte, and remember where. -/
def write (s : Store found) (a : Addr) (v : Byte) : Store found where
  mem := Function.update s.mem a v
  written := a :: s.written
  kept := by
    intro b hb
    rw [List.mem_cons, not_or] at hb
    rw [Function.update_of_ne hb.1]
    exact s.kept b hb.2

/-- What was written is there. -/
@[simp] theorem write_mem_self (s : Store found) (a : Addr) (v : Byte) :
    (s.write a v).mem a = v := Function.update_self ..

/-- A write changes no other byte. -/
theorem write_mem_of_ne (s : Store found) {a b : Addr} (h : b ≠ a) (v : Byte) :
    (s.write a v).mem b = s.mem b := Function.update_of_ne h ..

/-- Nothing outside of a set has been stored to. -/
def Within (D : Addr → Prop) (s : Store found) : Prop := ∀ a ∈ s.written, D a

/-- Where nothing is written nothing is written outside. -/
theorem within_start (D : Addr → Prop) : (start found).Within D := fun _ h => nomatch h

/-- One more write has to be in the region as well. -/
theorem within_write {D : Addr → Prop} {s : Store found} {a : Addr} {v : Byte} :
    (s.write a v).Within D ↔ D a ∧ s.Within D := List.forall_mem_cons

/-- Outside of it the memory is the one that was found. -/
theorem Within.agrees {D : Addr → Prop} {s : Store found} (h : s.Within D) {a : Addr}
    (ha : ¬ D a) : s.mem a = found a := s.kept a fun hmem => ha (h a hmem)

end Store

/-! ## Ranges -/

/-- One of the `n` addresses from `a` on. -/
def InRange (a : Addr) (n : Nat) (b : Addr) : Prop := (b - a).toNat < n

instance (a : Addr) (n : Nat) (b : Addr) : Decidable (InRange a n b) :=
  inferInstanceAs (Decidable (_ < _))

/-- An offset is in the range if it is less than its length. -/
theorem inRange_add {a k : Addr} {n : Nat} : InRange a n (a + k) ↔ k.toNat < n := by
  unfold InRange
  rw [BitVec.add_comm, BitVec.add_sub_cancel]

/-- An offset that fits is itself. -/
theorem toNat_ofNat {k : Nat} (hk : k < 2 ^ 32) : (BitVec.ofNat 32 k).toNat = k := by
  rw [BitVec.toNat_ofNat, Nat.mod_eq_of_lt hk]

/-- The offset as a number. -/
theorem inRange_ofNat {a : Addr} {n k : Nat} (hk : k < 2 ^ 32) :
    InRange a n (a + BitVec.ofNat 32 k) ↔ k < n := by
  rw [inRange_add, toNat_ofNat hk]

/-- A field at an offset of a range is determined by the bytes of the range. -/
theorem read32_congr {m m' : Mem} {base c : Addr} {n : Nat} (hn : n ≤ 2 ^ 32)
    (h : ∀ a, InRange base n a → m a = m' a) (hc : c.toNat + 4 ≤ n) :
    read32 m (base + c) = read32 m' (base + c) := by
  have hbyte : ∀ i : Addr, i.toNat < 4 → m (base + c + i) = m' (base + c + i) := by
    intro i hi
    rw [BitVec.add_assoc]
    refine h _ (inRange_add.mpr ?_)
    rw [BitVec.toNat_add]
    omega
  have h0 : m (base + c) = m' (base + c) := h _ (inRange_add.mpr (by omega))
  unfold read32
  rw [h0, hbyte 1 (by decide), hbyte 2 (by decide), hbyte 3 (by decide)]

/-- Two bytes of a structure are the same where the structure is. -/
theorem read16_congr {m m' : Mem} {base c : Addr} {n : Nat} (hn : n ≤ 2 ^ 32)
    (h : ∀ a, InRange base n a → m a = m' a) (hc : c.toNat + 2 ≤ n) :
    read16 m (base + c) = read16 m' (base + c) := by
  have h0 : m (base + c) = m' (base + c) := h _ (inRange_add.mpr (by omega))
  have h1 : m (base + c + 1) = m' (base + c + 1) := by
    rw [BitVec.add_assoc]
    refine h _ (inRange_add.mpr ?_)
    rw [BitVec.toNat_add]
    show (c.toNat + 1) % _ < n
    omega
  unfold read16
  rw [h0, h1]

/-! ## Loops -/

/-- An index below another one does not wrap when it goes up. -/
theorem succ_toNat {j n : Addr} (hj : j < n) : (j + 1).toNat = j.toNat + 1 := by
  have hlt := n.isLt
  have hj' : j.toNat < n.toNat := hj
  rw [BitVec.toNat_add]
  exact Nat.mod_eq_of_lt (by show j.toNat + 1 < 2 ^ 32; omega)

/-- From turn `j` on. -/
def storeLoop (bound : Mem → Addr) (value : Mem → Addr → Byte) (dest j : Addr)
    (s : Store found) : Store found :=
  if j < bound s.mem then
    storeLoop bound value dest (j + 1) (s.write (dest + j) (value s.mem j))
  else s
termination_by 2 ^ 32 - j.toNat
decreasing_by
  rw [succ_toNat ‹j < bound s.mem›]
  exact Nat.sub_lt_sub_left j.isLt (Nat.lt_succ_self _)

section Loop

variable {bound : Mem → Addr} {value : Mem → Addr → Byte} {dest : Addr} {D : Addr → Prop}
  {n : Addr}

/-- A loop takes nothing from the log. -/
theorem Store.Within.of_storeLoop {j : Addr} {s : Store found}
    (h : (storeLoop bound value dest j s).Within D) : s.Within D := by
  induction j, s using storeLoop.induct bound value dest with
  | case1 j s hj ih =>
      rw [storeLoop, if_pos hj] at h
      exact (Store.within_write.mp (ih h)).2
  | case2 j s hj =>
      rw [storeLoop, if_neg hj] at h
      exact h

/-- **WHAT A LOOP WRITES** is its whole range, or something outside of `D`, if the
    memory outside of `D` determines the bound. -/
theorem storeLoop_within (hbound : ∀ m : Mem, (∀ a, ¬ D a → m a = found a) → bound m = n)
    (j : Addr) (s : Store found) :
    (storeLoop bound value dest j s).Within D ↔
      s.Within D ∧ ∀ k : Addr, j.toNat ≤ k.toNat → k.toNat < n.toNat → D (dest + k) := by
  induction j, s using storeLoop.induct bound value dest with
  | case1 j s hj ih =>
      have hsucc := succ_toNat hj
      rw [storeLoop, if_pos hj, ih, Store.within_write, hsucc]
      constructor
      · rintro ⟨⟨hD, hs⟩, hrest⟩
        refine ⟨hs, fun k hjk hkn => ?_⟩
        by_cases hk : j = k
        · rw [← hk]
          exact hD
        · have hne : j.toNat ≠ k.toNat := fun he => hk (BitVec.eq_of_toNat_eq he)
          exact hrest k (by omega) hkn
      · rintro ⟨hs, hrange⟩
        have hn := hbound s.mem fun a ha => hs.agrees ha
        rw [hn] at hj
        refine ⟨⟨hrange j (Nat.le_refl _) hj, hs⟩, fun k hjk hkn => ?_⟩
        exact hrange k (by omega) hkn
  | case2 j s hj =>
      rw [storeLoop, if_neg hj]
      refine ⟨fun hs => ⟨hs, fun k hjk hkn => ?_⟩, And.left⟩
      have hn := hbound s.mem fun a ha => hs.agrees ha
      rw [hn] at hj
      exact absurd (Nat.lt_of_le_of_lt hjk hkn) hj

/-- A whole loop. -/
theorem storeLoop_within_zero
    (hbound : ∀ m : Mem, (∀ a, ¬ D a → m a = found a) → bound m = n) (s : Store found) :
    (storeLoop bound value dest 0 s).Within D ↔
      s.Within D ∧ ∀ k : Addr, k.toNat < n.toNat → D (dest + k) := by
  refine (storeLoop_within hbound 0 s).trans (and_congr_right fun _ => ?_)
  exact forall_congr' fun k => imp_iff_right (Nat.zero_le _)

/-- **A LOOP THAT RESTORES** what is in `Q`, as long as it does, goes through its
    whole range if that determines the bound. -/
theorem storeLoop_restores {Q : Addr → Prop}
    (hbound : ∀ m : Mem, (∀ a, Q a → m a = found a) → bound m = n)
    (hvalue : ∀ m : Mem, (∀ a, Q a → m a = found a) → ∀ k : Addr, k.toNat < n.toNat →
      Q (dest + k) → value m k = found (dest + k))
    (hrange : ∀ k : Addr, k.toNat < n.toNat → D (dest + k))
    (j : Addr) (s : Store found) (hD : s.Within D) (hQ : ∀ a, Q a → s.mem a = found a) :
    (storeLoop bound value dest j s).Within D ∧
      ∀ a, Q a → (storeLoop bound value dest j s).mem a = found a := by
  induction j, s using storeLoop.induct bound value dest with
  | case1 j s hj ih =>
      rw [storeLoop, if_pos hj]
      rw [hbound s.mem hQ] at hj
      have hj' : j.toNat < n.toNat := hj
      refine ih (Store.within_write.mpr ⟨hrange j hj', hD⟩) fun a ha => ?_
      by_cases heq : a = dest + j
      · rw [heq, Store.write_mem_self]
        exact hvalue s.mem hQ j hj' (heq ▸ ha)
      · rw [Store.write_mem_of_ne s heq]
        exact hQ a ha
  | case2 j s hj =>
      rw [storeLoop, if_neg hj]
      exact ⟨hD, hQ⟩

/-- **WHAT IS THERE AFTERWARDS**, if the memory outside of `D` determines the
    values too. -/
theorem storeLoop_mem {v : Addr → Byte}
    (hbound : ∀ m : Mem, (∀ a, ¬ D a → m a = found a) → bound m = n)
    (hvalue : ∀ m : Mem, (∀ a, ¬ D a → m a = found a) → ∀ k : Addr, k.toNat < n.toNat →
      value m k = v k) (j : Addr) (s : Store found)
    (hD : (storeLoop bound value dest j s).Within D) (a : Addr) :
    (storeLoop bound value dest j s).mem a
      = if j.toNat ≤ (a - dest).toNat ∧ (a - dest).toNat < n.toNat then v (a - dest)
        else s.mem a := by
  induction j, s using storeLoop.induct bound value dest with
  | case1 j s hj ih =>
      have hsucc := succ_toNat hj
      have hs := ((storeLoop_within hbound j s).mp hD).1
      have hn := hbound s.mem fun a ha => hs.agrees ha
      rw [storeLoop, if_pos hj] at hD ⊢
      rw [ih hD, hsucc]
      rw [hn] at hj
      have hj' : j.toNat < n.toNat := hj
      by_cases ha : a = dest + j
      · -- the byte of this turn, which no later turn writes
        have hoff : a - dest = j := by
          rw [ha, BitVec.add_comm, BitVec.add_sub_cancel]
        rw [hoff, if_neg (by omega), if_pos ⟨Nat.le_refl _, hj'⟩, ha, Store.write_mem_self]
        exact hvalue s.mem (fun a ha => hs.agrees ha) j hj'
      · have hoff : (a - dest).toNat ≠ j.toNat := by
          intro he
          refine ha ?_
          rw [← BitVec.eq_of_toNat_eq he, BitVec.add_comm, BitVec.sub_add_cancel]
        rw [Store.write_mem_of_ne s ha]
        by_cases hin : j.toNat + 1 ≤ (a - dest).toNat ∧ (a - dest).toNat < n.toNat
        · rw [if_pos hin, if_pos (by omega)]
        · rw [if_neg hin, if_neg (by omega)]
  | case2 j s hj =>
      rw [storeLoop, if_neg hj] at hD ⊢
      have hn := hbound s.mem fun a ha => hD.agrees ha
      rw [hn] at hj
      have hj' : ¬ j.toNat < n.toNat := hj
      rw [if_neg (by omega)]

/-- What a whole loop of stores leaves. -/
theorem storeLoop_mem_zero {v : Addr → Byte}
    (hbound : ∀ m : Mem, (∀ a, ¬ D a → m a = found a) → bound m = n)
    (hvalue : ∀ m : Mem, (∀ a, ¬ D a → m a = found a) → ∀ k : Addr, k.toNat < n.toNat →
      value m k = v k) {s : Store found} (hD : (storeLoop bound value dest 0 s).Within D)
    (a : Addr) :
    (storeLoop bound value dest 0 s).mem a
      = if InRange dest n.toNat a then v (a - dest) else s.mem a := by
  rw [storeLoop_mem hbound hvalue 0 s hD]
  exact if_congr (and_iff_right (Nat.zero_le _)) rfl rfl

end Loop

end ByteStore
