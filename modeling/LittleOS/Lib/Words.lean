import Mathlib.Algebra.Order.Ring.Int
import Mathlib.Logic.Function.Basic

/-! # A word store and 32-bit counters

    A flat memory of 32-bit words: `Mem` maps a byte address that is a
    multiple of the word size to the word stored there.  Words and addresses
    are natural numbers; the two counter steps wrap at `2 ^ 32`, as unsigned
    and two's-complement increments both do. -/

namespace Words

/-- Memory: the word stored at each word address. -/
abbrev Mem := Nat → Nat

/-- Store one word. -/
def Mem.write (m : Mem) (a v : Nat) : Mem := Function.update m a v

/-- A write, seen at any address. -/
theorem Mem.write_apply (m : Mem) (a v b : Nat) :
    m.write a v b = if b = a then v else m b :=
  Function.update_apply m a v b

/-- The word that was written. -/
@[simp] theorem Mem.write_same (m : Mem) (a v : Nat) : m.write a v a = v := by
  simp [Mem.write_apply]

/-- Other words are the same. -/
@[simp] theorem Mem.write_other {m : Mem} {a v b : Nat} (h : b ≠ a) :
    m.write a v b = m b := by
  simp [Mem.write_apply, h]

/-- `x + 1` on a 32-bit word. -/
def inc32 (x : Nat) : Nat := (x + 1) % 2 ^ 32

/-- `x - 1` on a 32-bit word. -/
def dec32 (x : Nat) : Nat := (x + (2 ^ 32 - 1)) % 2 ^ 32

/-- Counting up modulo the word. -/
@[simp] theorem inc32_mod (n : Nat) : inc32 (n % 2 ^ 32) = (n + 1) % 2 ^ 32 := by
  unfold inc32
  omega

/-- Counting down undoes it. -/
@[simp] theorem dec32_mod (n : Nat) :
    dec32 ((n + 1) % 2 ^ 32) = n % 2 ^ 32 := by
  unfold dec32
  omega

/-- A decrement always changes the word. -/
theorem dec32_ne (x : Nat) : dec32 x ≠ x := by
  unfold dec32
  omega

/-- The count is a word. -/
theorem dec32_lt (x : Nat) : dec32 x < 2 ^ 32 := by
  unfold dec32
  omega

end Words
