import Mathlib.Algebra.Order.Ring.Int
import Mathlib.Data.List.Rotate

/-! # Taking turns in a fixed cyclic order

    `Cyclic l ts` says that `ts` goes through `l` from its start again and
    again, breaking off anywhere.  When `l` has no repetition, two occurrences
    of an element with none in between enclose every other element of `l`
    exactly once (`Cyclic.count_between`). -/

namespace Rounds

variable {α : Type*}

/-- `ts` follows `l` round and round. -/
def Cyclic (l ts : List α) : Prop :=
  ∀ k, k < ts.length → ts[k]? = l[k % l.length]?

theorem Cyclic.single {l : List α} {a : α} (h : l.head? = some a) :
    Cyclic l [a] := by
  intro k hk
  obtain rfl : k = 0 := by simpa using hk
  have h0 : l[0]? = some a := List.head?_eq_getElem?.symm.trans h
  rw [Nat.zero_mod, h0]
  rfl

/-- **ONE TURN MORE** in front of turns that follow the order rotated by
    one. -/
theorem Cyclic.cons {l ts : List α} {a : α} (h : Cyclic (l.rotate 1) ts)
    (ha : l.head? = some a) : Cyclic l (a :: ts) := by
  have hpos : 0 < l.length := by
    cases l with
    | nil => exact nomatch ha
    | cons b rest => simp
  intro k hk
  cases k with
  | zero =>
      have h0 : l[0]? = some a := List.head?_eq_getElem?.symm.trans ha
      rw [Nat.zero_mod, h0]
      rfl
  | succ k =>
      have hk' : k < ts.length := by simpa using hk
      have hlt : k % l.length < l.length := Nat.mod_lt _ hpos
      rw [List.getElem?_cons_succ, h k hk', List.length_rotate,
        List.getElem?_rotate hlt, Nat.mod_add_mod]

/-- A full round is a rotation of the order. -/
theorem Cyclic.round {l ts : List α} (h : Cyclic l ts) {i : Nat}
    (hi : i + l.length ≤ ts.length) :
    (ts.drop i).take l.length = l.rotate i := by
  refine List.ext_getElem? ?_
  intro k
  by_cases hk : k < l.length
  · rw [List.getElem?_take_of_lt hk, List.getElem?_drop, h (i + k) (by omega),
      List.getElem?_rotate hk, Nat.add_comm]
  · rw [List.getElem?_eq_none (by rw [List.length_take]; omega),
      List.getElem?_eq_none (by rw [List.length_rotate]; omega)]

/-- Equal turns are a multiple of the round apart. -/
theorem Cyclic.mod_eq {l ts : List α} (h : Cyclic l ts) (hnd : l.Nodup)
    {i j : Nat} {a : α} (hi : ts[i]? = some a) (hj : ts[j]? = some a) :
    i % l.length = j % l.length := by
  obtain ⟨hil, -⟩ := List.getElem?_eq_some_iff.mp hi
  obtain ⟨hjl, -⟩ := List.getElem?_eq_some_iff.mp hj
  have hia := (h i hil).symm.trans hi
  have hja := (h j hjl).symm.trans hj
  obtain ⟨hlt, -⟩ := List.getElem?_eq_some_iff.mp hia
  exact (List.getElem?_inj hlt hnd).mp (hia.trans hja.symm)

/-- Consecutive turns of one element are exactly one round apart. -/
theorem Cyclic.next_turn {l ts : List α} (h : Cyclic l ts) (hnd : l.Nodup)
    {i j : Nat} {a : α} (hij : i < j) (hi : ts[i]? = some a)
    (hj : ts[j]? = some a) (hno : ∀ k, i < k → k < j → ts[k]? ≠ some a) :
    j = i + l.length := by
  have hmod := h.mod_eq hnd hi hj
  obtain ⟨hil, -⟩ := List.getElem?_eq_some_iff.mp hi
  obtain ⟨hjl, -⟩ := List.getElem?_eq_some_iff.mp hj
  have hdvd : l.length ∣ j - i :=
    Nat.dvd_of_mod_eq_zero (Nat.sub_mod_eq_zero_of_mod_eq hmod.symm)
  have hle : l.length ≤ j - i := Nat.le_of_dvd (by omega) hdvd
  by_contra hne
  have hpos : 0 < l.length := by
    obtain ⟨hlt, -⟩ := List.getElem?_eq_some_iff.mp ((h i hil).symm.trans hi)
    omega
  refine hno (i + l.length) (by omega) (by omega) ?_
  rw [h _ (by omega), Nat.add_mod_right, ← h i hil, hi]

variable [BEq α] [LawfulBEq α]

/-- **BETWEEN TWO CONSECUTIVE TURNS** of `a`, every other element has exactly
    one turn. -/
theorem Cyclic.count_between {l ts : List α} (h : Cyclic l ts) (hnd : l.Nodup)
    {i j : Nat} {a b : α} (hij : i < j) (hi : ts[i]? = some a)
    (hj : ts[j]? = some a) (hno : ∀ k, i < k → k < j → ts[k]? ≠ some a)
    (hb : b ∈ l) (hba : b ≠ a) : ((ts.take j).drop (i + 1)).count b = 1 := by
  obtain ⟨hil, hia⟩ := List.getElem?_eq_some_iff.mp hi
  obtain ⟨hjl, -⟩ := List.getElem?_eq_some_iff.mp hj
  have hj' := h.next_turn hnd hij hi hj hno
  have hround : (ts.take j).drop i = l.rotate i := by
    rw [List.drop_take, show j - i = l.length by omega]
    exact h.round (by omega)
  have hsplit : (ts.take j).drop i = a :: (ts.take j).drop (i + 1) := by
    rw [List.drop_eq_getElem_cons (by rw [List.length_take]; omega),
      List.getElem_take, hia]
  have hone : (l.rotate i).count b = 1 :=
    List.count_eq_one_of_mem (List.nodup_rotate.mpr hnd) (List.mem_rotate.mpr hb)
  rw [← hround, hsplit, List.count_cons_of_ne (Ne.symm hba)] at hone
  exact hone

end Rounds
