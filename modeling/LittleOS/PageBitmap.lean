import LittleOS.Lib.Intervals

/-! # The bitmap of `memory/bitmap.c`

    The storage behind `bits` is a byte for every index, also past the bytes
    that belong to the bitmap.  Indices are natural numbers, as every caller's
    are; the loop bound `index + count` of `bitmap_set_bit` is an `int` and
    wraps.

    * `isSet_setBit`, `isSet_setBit_wrap` — the bits `bitmap_set_bit` changes;
    * `bitmapAllocNbits_some`, `bitmapAllocNbits_none` — the scan of
      `bitmap_alloc_nbits`, with its inner loop and its skip, finds the lowest
      place where the request fits. -/

namespace LittleOS.PageBitmap

open Intervals

/-- `bitmap_t`, with its bytes. -/
structure Bitmap where
  count : Nat
  bits : Nat → BitVec 8

/-- An `int` computed from the exact value. -/
def int32 (x : Int) : Int := x.bmod (2 ^ 32)

/-- `bitmap_get_bytes` -/
def bitmapGetBytes (count : Nat) : Nat := (count + 8 - 1) / 8

/-- `bitmap_init` -/
def bitmapInit (count : Nat) (bits : Nat → BitVec 8) : Bitmap where
  count := count
  bits := fun k => if k < bitmapGetBytes count then 0 else bits k

/-- `0x01 << (i % 8)`, an `int`. -/
def mask (i : Nat) : BitVec 32 := 1#32 <<< (i % 8)

/-- `bitmap_get_bit` -/
def bitmapGetBit (bitmap : Bitmap) (index : Nat) : Nat :=
  if (bitmap.bits (index / 8)).setWidth 32 &&& mask index ≠ 0 then 1 else 0

/-- `bitmap_is_set` -/
def bitmapIsSet (bitmap : Bitmap) (index : Nat) : Bool :=
  if bitmapGetBit bitmap index ≠ 0 then true else false

/-- The body of the loop of `bitmap_set_bit`. -/
def writeBit (bitmap : Bitmap) (i bit : Nat) : Bitmap where
  count := bitmap.count
  bits := fun k =>
    if k = i / 8 then
      if bit ≠ 0 then ((bitmap.bits k).setWidth 32 ||| mask i).setWidth 8
      else ((bitmap.bits k).setWidth 32 &&& ~~~(mask i)).setWidth 8
    else bitmap.bits k

/-- The loop of `bitmap_set_bit` from `i` on, with the turns it still takes. -/
def setBits (bitmap : Bitmap) (bit i : Nat) : Nat → Bitmap
  | 0 => bitmap
  | turns + 1 => setBits (writeBit bitmap i bit) bit (i + 1) turns

/-- `bitmap_set_bit`: the end of the loop is an `int`. -/
def bitmapSetBit (bitmap : Bitmap) (index count bit : Nat) : Bitmap :=
  if bitmap.count ≤ index then bitmap
  else
    let cnt := int32 (index + count)
    setBits bitmap bit index (cnt - index).toNat

/-- The inner loop of `bitmap_alloc_nbits` from `j` on: the first set bit it
    meets, `none` when it runs through; `fuel` bounds its turns. -/
def findSet (bitmap : Bitmap) (i count : Nat) : Nat → Nat → Option Nat
  | 0, _ => none
  | fuel + 1, j =>
      if j < bitmap.count ∧ j - i + 1 ≤ count then
        if bitmapGetBit bitmap j = 1 then some j
        else findSet bitmap i count fuel (j + 1)
      else none

/-- The outer loop of `bitmap_alloc_nbits` from `i` on. -/
def allocLoop (bitmap : Bitmap) (count : Nat) : Nat → Nat → Option Nat × Bitmap
  | 0, _ => (none, bitmap)
  | fuel + 1, i =>
      if i < bitmap.count then
        if bitmapGetBit bitmap i = 0 then
          match findSet bitmap i count (bitmap.count - i) i with
          -- the flag is set and `i` moved to the busy bit
          | some j => allocLoop bitmap count fuel (j + 1)
          | none => (some i, bitmapSetBit bitmap i count 1)
        else allocLoop bitmap count fuel (i + 1)
      else (none, bitmap)

/-- `none` is the answer `-1`. -/
def bitmapAllocNbits (bitmap : Bitmap) (index count : Nat) :
    Option Nat × Bitmap :=
  allocLoop bitmap count (bitmap.count - index) index

/-! ## Single bits -/

/-- The page is marked allocated. -/
def IsSet (bitmap : Bitmap) (p : Nat) : Prop := bitmapIsSet bitmap p = true

instance (bitmap : Bitmap) : DecidablePred (IsSet bitmap) :=
  fun _ => inferInstanceAs (Decidable (_ = _))

/-- The mask picks one bit. -/
theorem and_mask_ne_zero (x : BitVec 32) (i : Nat) :
    x &&& mask i ≠ 0 ↔ x.getLsbD (i % 8) = true := by
  have hlt : i % 8 < 32 := by omega
  unfold mask
  rw [← BitVec.twoPow_eq, BitVec.and_twoPow]
  by_cases hx : x.getLsbD (i % 8) = true
  · rw [if_pos hx]
    refine iff_of_true ?_ hx
    intro h0
    have := congrArg (fun y => y.getLsbD (i % 8)) h0
    simp [hlt] at this
  · rw [if_neg hx]
    exact iff_of_false (by simp) hx

/-- The bit of the byte that holds it. -/
theorem isSet_iff (bitmap : Bitmap) (p : Nat) :
    IsSet bitmap p ↔ (bitmap.bits (p / 8)).getLsbD (p % 8) = true := by
  have hlt : p % 8 < 32 := by omega
  have hbit : ((bitmap.bits (p / 8)).setWidth 32).getLsbD (p % 8)
      = (bitmap.bits (p / 8)).getLsbD (p % 8) := by
    simp [hlt]
  unfold IsSet bitmapIsSet bitmapGetBit
  rw [← hbit, ← and_mask_ne_zero]
  split <;> simp_all

/-- A bit is read as 1 or 0. -/
theorem bitmapGetBit_eq (bitmap : Bitmap) (p : Nat) :
    bitmapGetBit bitmap p = if IsSet bitmap p then 1 else 0 := by
  unfold IsSet bitmapIsSet
  unfold bitmapGetBit
  split <;> simp

/-- After `bitmap_init` every page of the bitmap is free. -/
theorem not_isSet_init {count : Nat} {bits : Nat → BitVec 8} {p : Nat}
    (hp : p < count) : ¬ IsSet (bitmapInit count bits) p := by
  have hbyte : p / 8 < bitmapGetBytes count := by
    unfold bitmapGetBytes
    omega
  rw [isSet_iff, bitmapInit]
  simp [hbyte]

/-- Writing a bit leaves the size. -/
@[simp] theorem writeBit_count (bitmap : Bitmap) (i bit : Nat) :
    (writeBit bitmap i bit).count = bitmap.count := rfl

/-- The bits of a mask. -/
theorem mask_getLsbD (i k : Nat) :
    (mask i).getLsbD k = decide (i % 8 = k) := by
  have hlt : i % 8 < 32 := by omega
  unfold mask
  rw [← BitVec.twoPow_eq, BitVec.getLsbD_twoPow]
  simp [hlt]

/-- One turn of the loop changes its own bit. -/
theorem isSet_writeBit (bitmap : Bitmap) (i bit p : Nat) :
    IsSet (writeBit bitmap i bit) p
      ↔ if p = i then bit ≠ 0 else IsSet bitmap p := by
  have hlt : p % 8 < 8 := by omega
  have hlt' : p % 8 < 32 := by omega
  rw [isSet_iff, isSet_iff]
  unfold writeBit
  dsimp only
  by_cases hbyte : p / 8 = i / 8
  · rw [if_pos hbyte]
    have hpi : p = i ↔ i % 8 = p % 8 := by omega
    by_cases hbit : bit ≠ 0
    · rw [if_pos hbit, BitVec.getLsbD_setWidth, BitVec.getLsbD_or,
        mask_getLsbD, BitVec.getLsbD_setWidth]
      by_cases he : p = i
      · subst he
        simp [hbit, hlt]
      · rw [if_neg he]
        have hne : ¬ i % 8 = p % 8 := fun h => he (hpi.mpr h)
        simp [hne, hlt, hlt']
    · rw [if_neg hbit, BitVec.getLsbD_setWidth, BitVec.getLsbD_and,
        BitVec.getLsbD_not, mask_getLsbD,
        BitVec.getLsbD_setWidth]
      by_cases he : p = i
      · subst he
        simp [hbit, hlt]
      · rw [if_neg he]
        have hne : ¬ i % 8 = p % 8 := fun h => he (hpi.mpr h)
        simp [hne, hlt, hlt']
  · have he : ¬ p = i := fun he => hbyte (by rw [he])
    rw [if_neg hbyte, if_neg he]

/-- Writing bits leaves the size. -/
@[simp] theorem setBits_count (bit : Nat) :
    ∀ (turns : Nat) (bitmap : Bitmap) (i : Nat),
      (setBits bitmap bit i turns).count = bitmap.count := by
  intro turns
  induction turns with
  | zero => intro bitmap i; rfl
  | succ turns ih => intro bitmap i; rw [setBits, ih, writeBit_count]

/-- The loop changes the bits of its turns.  Induction over the turns. -/
theorem isSet_setBits (bit p : Nat) :
    ∀ (turns : Nat) (bitmap : Bitmap) (i : Nat),
      IsSet (setBits bitmap bit i turns) p
        ↔ if Covers (i, turns) p then bit ≠ 0 else IsSet bitmap p := by
  intro turns
  induction turns with
  | zero =>
      intro bitmap i
      have hno : ¬ Covers (i, 0) p := by
        unfold Covers
        dsimp only
        omega
      rw [if_neg hno]
      rfl
  | succ turns ih =>
      intro bitmap i
      rw [setBits, ih, isSet_writeBit]
      by_cases hin : Covers (i + 1, turns) p
      · have hin' : Covers (i, turns + 1) p := by
          unfold Covers at hin ⊢
          dsimp only at hin ⊢
          omega
        rw [if_pos hin, if_pos hin']
      · rw [if_neg hin]
        refine iff_of_eq (if_congr ?_ rfl rfl)
        unfold Covers at hin ⊢
        dsimp only at hin ⊢
        omega

/-! ## `bitmap_set_bit` -/

/-- Setting a range leaves the size. -/
@[simp] theorem bitmapSetBit_count (bitmap : Bitmap) (index count bit : Nat) :
    (bitmapSetBit bitmap index count bit).count = bitmap.count := by
  unfold bitmapSetBit
  split <;> simp

/-- **WITHOUT OVERFLOW** exactly the requested bits change. -/
theorem isSet_setBit {bitmap : Bitmap} {index count : Nat}
    (hi : index < bitmap.count) (hno : index + count < 2 ^ 31) (bit p : Nat) :
    IsSet (bitmapSetBit bitmap index count bit) p
      ↔ if Covers (index, count) p then bit ≠ 0 else IsSet bitmap p := by
  have hcnt : int32 (index + count) = index + count := by
    unfold int32
    rw [Int.bmod_eq_of_le] <;> omega
  unfold bitmapSetBit
  rw [if_neg (by omega)]
  dsimp only
  rw [hcnt, show ((index : Int) + count - index).toNat = count by omega]
  exact isSet_setBits bit p count bitmap index

/-- Marking frees nothing, whatever the request. -/
theorem isSet_setBit_one {bitmap : Bitmap} {p : Nat} (h : IsSet bitmap p)
    (index count : Nat) : IsSet (bitmapSetBit bitmap index count 1) p := by
  unfold bitmapSetBit
  split
  · exact h
  · dsimp only
    rw [isSet_setBits]
    split
    · exact Nat.one_ne_zero
    · exact h

/-- **WITH OVERFLOW** the bound is negative and no bit changes. -/
theorem bitmapSetBit_wrap {bitmap : Bitmap} {index count : Nat}
    (hi : index < 2 ^ 31) (hc : count < 2 ^ 31) (hov : 2 ^ 31 ≤ index + count)
    (bit : Nat) : bitmapSetBit bitmap index count bit = bitmap := by
  have hcnt : int32 (index + count) = index + count - 2 ^ 32 := by
    unfold int32
    rw [Int.bmod_def]
    split <;> omega
  unfold bitmapSetBit
  split
  · rfl
  · dsimp only
    have hturns : (int32 (index + count) - index).toNat = 0 := by
      rw [hcnt]
      omega
    rw [hturns]
    rfl

/-! ## `bitmap_alloc_nbits` -/

section Alloc

variable {bitmap : Bitmap} {count : Nat}

variable (bitmap count) in
/-- The inner loop: a busy bit of the block, or none below the bound. -/
theorem findSet_spec {i : Nat} :
    ∀ (fuel j : Nat), bitmap.count - j ≤ fuel → i ≤ j →
      (∀ p, i ≤ p → p < j → ¬ IsSet bitmap p) →
      (∀ k, findSet bitmap i count fuel j = some k →
        IsSet bitmap k ∧ i ≤ k ∧ k < bitmap.count ∧ k < i + count) ∧
      (findSet bitmap i count fuel j = none →
        Fits (IsSet bitmap) bitmap.count (i, count)) := by
  intro fuel
  -- induction on the bits left; those from `i` to `j` have been found clear
  induction fuel with
  | zero =>
      intro j hfuel hij hfree
      refine ⟨fun k hk => (nomatch hk), ?_⟩
      intro _ p hp hpb
      exact hfree p hp.1 (by omega)
  | succ fuel ih =>
      intro j hfuel hij hfree
      unfold findSet
      by_cases hcond : j < bitmap.count ∧ j - i + 1 ≤ count
      · rw [if_pos hcond]
        by_cases hset : IsSet bitmap j
        · rw [bitmapGetBit_eq, if_pos hset, if_pos rfl]
          refine ⟨?_, fun h => (nomatch h)⟩
          intro k hk
          obtain rfl := Option.some.inj hk
          exact ⟨hset, hij, hcond.1, by omega⟩
        · rw [bitmapGetBit_eq, if_neg hset, if_neg Nat.zero_ne_one]
          refine ih (j + 1) (by omega) (by omega) ?_
          intro p h1 h2
          by_cases hpj : p = j
          · rw [hpj]
            exact hset
          · exact hfree p h1 (by omega)
      · rw [if_neg hcond]
        refine ⟨fun k hk => (nomatch hk), ?_⟩
        intro _ p hp hpb
        have hlt := hp.2
        dsimp only at hlt
        exact hfree p hp.1 (by omega)

/-- **THE SCAN** finds the lowest place that fits.  Induction over the turns of
    the outer loop; a turn that skips passes only places that do not fit. -/
theorem allocLoop_spec (hc : 1 ≤ count) :
    ∀ (fuel i : Nat), bitmap.count - i ≤ fuel →
      (∀ s b, allocLoop bitmap count fuel i = (some s, b) →
        FirstFit (IsSet bitmap) bitmap.count i count s ∧
        b = bitmapSetBit bitmap s count 1) ∧
      (∀ b, allocLoop bitmap count fuel i = (none, b) →
        b = bitmap ∧
        ∀ s, i ≤ s → s < bitmap.count →
          ¬ Fits (IsSet bitmap) bitmap.count (s, count)) := by
  intro fuel
  induction fuel with
  | zero =>
      intro i hfuel
      refine ⟨fun s b h => (nomatch congrArg Prod.fst h), ?_⟩
      intro b h
      exact ⟨(congrArg Prod.snd h).symm, fun s h1 h2 => by omega⟩
  | succ fuel ih =>
      intro i hfuel
      unfold allocLoop
      by_cases hi : i < bitmap.count
      · rw [if_pos hi]
        -- what a turn that goes on at `next` has to show
        have hskip : ∀ next, i < next →
            (∀ s, i ≤ s → s < next →
              ¬ Fits (IsSet bitmap) bitmap.count (s, count)) →
            (∀ s b, allocLoop bitmap count fuel next = (some s, b) →
              FirstFit (IsSet bitmap) bitmap.count i count s ∧
              b = bitmapSetBit bitmap s count 1) ∧
            (∀ b, allocLoop bitmap count fuel next = (none, b) →
              b = bitmap ∧ ∀ s, i ≤ s → s < bitmap.count →
                ¬ Fits (IsSet bitmap) bitmap.count (s, count)) := by
          intro next hlt hno
          obtain ⟨hsome, hnone⟩ := ih next (by omega)
          refine ⟨fun s b h => ?_, fun b h => ?_⟩
          · exact ⟨(hsome s b h).1.skip hno (Nat.le_of_lt hlt), (hsome s b h).2⟩
          · refine ⟨(hnone b h).1, fun s h1 h2 => ?_⟩
            by_cases hs : s < next
            · exact hno s h1 hs
            · exact (hnone b h).2 s (by omega) h2
        by_cases hset : IsSet bitmap i
        · rw [bitmapGetBit_eq, if_pos hset, if_neg Nat.one_ne_zero]
          refine hskip (i + 1) (by omega) ?_
          intro s h1 h2
          exact not_fits_of_busy hset hi (by omega) h1 (by omega)
        · rw [bitmapGetBit_eq, if_neg hset, if_pos rfl]
          obtain ⟨hfound, hnot⟩ := findSet_spec bitmap count
            (bitmap.count - i) i (Nat.le_refl _)
            (Nat.le_refl _) (fun p h1 h2 => by omega)
          cases hf : findSet bitmap i count (bitmap.count - i) i with
          | some j =>
              obtain ⟨hjset, hij, hjb, hreach⟩ := hfound j hf
              refine hskip (j + 1) (by omega) ?_
              intro s h1 h2
              exact not_fits_of_busy hjset hjb hreach h1 (by omega)
          | none =>
              refine ⟨?_, fun b h => (nomatch congrArg Prod.fst h)⟩
              intro s b h
              obtain rfl : i = s := Option.some.inj (congrArg Prod.fst h)
              refine ⟨⟨Nat.le_refl _, hi, hnot hf, ?_⟩, (congrArg Prod.snd h).symm⟩
              intro s' h1 h2
              omega
      · rw [if_neg hi]
        refine ⟨fun s b h => (nomatch congrArg Prod.fst h), ?_⟩
        intro b h
        exact ⟨(congrArg Prod.snd h).symm, fun s h1 h2 => by omega⟩

variable {index : Nat}

/-- What was found is the first fit, and it is marked. -/
theorem bitmapAllocNbits_some (hc : 1 ≤ count) {s : Nat} {b : Bitmap}
    (h : bitmapAllocNbits bitmap index count = (some s, b)) :
    FirstFit (IsSet bitmap) bitmap.count index count s ∧
    b = bitmapSetBit bitmap s count 1 :=
  (allocLoop_spec hc _ _ (Nat.le_refl _)).1 s b h

/-- Nothing was found only where nothing fits, and nothing changes. -/
theorem bitmapAllocNbits_none (hc : 1 ≤ count) {b : Bitmap}
    (h : bitmapAllocNbits bitmap index count = (none, b)) :
    b = bitmap ∧ ∀ s, index ≤ s → s < bitmap.count →
      ¬ Fits (IsSet bitmap) bitmap.count (s, count) :=
  (allocLoop_spec hc _ _ (Nat.le_refl _)).2 b h

/-- The request is refused and nothing changes, or it is served at the lowest
    place. -/
theorem bitmapAllocNbits_cases (bitmap : Bitmap) (index : Nat) (hc : 1 ≤ count) :
    bitmapAllocNbits bitmap index count = (none, bitmap) ∨
    ∃ s, FirstFit (IsSet bitmap) bitmap.count index count s ∧
      bitmapAllocNbits bitmap index count
        = (some s, bitmapSetBit bitmap s count 1) := by
  cases hr : bitmapAllocNbits bitmap index count with
  | mk r b =>
      cases r with
      | none => exact Or.inl (by rw [(bitmapAllocNbits_none hc hr).1])
      | some s =>
          obtain ⟨hfit, rfl⟩ := bitmapAllocNbits_some hc hr
          exact Or.inr ⟨s, hfit, rfl⟩

/-- A request that fits somewhere is served, at the lowest place. -/
theorem bitmapAllocNbits_of_firstFit (hc : 1 ≤ count) {s : Nat}
    (h : FirstFit (IsSet bitmap) bitmap.count index count s) :
    bitmapAllocNbits bitmap index count
      = (some s, bitmapSetBit bitmap s count 1) := by
  rcases bitmapAllocNbits_cases bitmap index hc with hr | ⟨t, ht, hr⟩
  · exact absurd h.fits ((bitmapAllocNbits_none hc hr).2 s h.start_le h.lt_bound)
  · rw [hr, h.unique ht]

end Alloc

end LittleOS.PageBitmap
