import LittleOS.Lib.LastWrite
import LittleOS.Klib
import LittleOS.PageBitmap

/-! # Bitmaps in memory

    `bitmap_init`, `bitmap_set_bit` and `bitmap_get_bit` of `memory/bitmap.c` over
    a memory of bytes, with `int`s that wrap.  `bitmap_get_bytes` adds before it
    divides.

    * `Views.setBit`, `Views.getBit` — the bitmap of `PageBitmap` is a view of it;
    * `bitmapGetBit_run` — after a run every bit is that of the last call whose
      range contains it;
    * `right_iff` — which begins with all bits clear unless the number of bytes
      has overflowed. -/

namespace LittleOS.BitSet

open ByteStore CStrings Klib

/-- `bitmap_t`. -/
structure Bitmap where
  count : Word
  bits : Addr

section Source

variable {found : Mem}

/-- `bitmap_get_bytes`: the sum overflows near the largest `int`. -/
def bitmapGetBytes (count : Word) : Word := (count + 8 - 1).sdiv 8

/-- `bitmap_init` -/
def bitmapInit (count : Word) (bits : Addr) (s : Store found) : Bitmap × Store found :=
  let bitmap : Bitmap := ⟨count, bits⟩
  let num := bitmapGetBytes bitmap.count
  (bitmap, kmemset bitmap.bits 0 num.toInt s)

/-- `&bitmap->bits[i / 8]`. -/
def byteAddr (bitmap : Bitmap) (i : Word) : Addr := bitmap.bits + i.sdiv 8

/-- `0x01 << (i % 8)`. -/
def bitMask (i : Word) : Word := (1 : Word) <<< (i.srem 8).toNat

/-- The byte of a turn. -/
def newByte (old : Byte) (i bit : Word) : Byte :=
  if bit ≠ 0 then (old.setWidth 32 ||| bitMask i).setWidth 8
  else (old.setWidth 32 &&& ~~~(bitMask i)).setWidth 8

/-- The body of the loop of `bitmap_set_bit`. -/
def writeBit (bitmap : Bitmap) (i bit : Word) (s : Store found) : Store found :=
  let p := byteAddr bitmap i
  s.write p (newByte (s.mem p) i bit)

/-- The loop from `i` on. -/
def setLoop (bitmap : Bitmap) (bit cnt i : Word) (s : Store found) : Store found :=
  if i.toInt < cnt.toInt then
    setLoop bitmap bit cnt (i + 1) (writeBit bitmap i bit s)
  else s
termination_by (cnt.toInt - i.toInt).toNat
decreasing_by
  have hlt : i.toInt < cnt.toInt := ‹_›
  rw [add_one_toInt hlt]
  omega

/-- `bitmap_set_bit`: only the index is checked. -/
def bitmapSetBit (bitmap : Bitmap) (index count bit : Word) (s : Store found) :
    Store found :=
  if bitmap.count.toInt ≤ index.toInt then s
  else
    let cnt := index + count
    setLoop bitmap bit cnt index s

/-- `bitmap_get_bit` -/
def bitmapGetBit (bitmap : Bitmap) (mem : Mem) (index : Word) : Nat :=
  if (mem (byteAddr bitmap index)).setWidth 32 &&& bitMask index ≠ 0 then 1 else 0

end Source

/-! ## Arithmetic of indices -/

/-- An index that is not negative is read the same with and without its sign. -/
theorem toNat_of_nonneg {i : Word} (h : 0 ≤ i.toInt) :
    (i.toNat : Int) = i.toInt ∧ i.toNat < 2 ^ 31 := by
  have hlt := i.isLt
  rw [BitVec.toInt_eq_toNat_cond] at h ⊢
  split at h
  · next hs =>
      rw [if_pos hs]
      exact ⟨rfl, by omega⟩
  · omega

/-- Such an index has no sign bit. -/
theorem msb_of_nonneg {i : Word} (h : 0 ≤ i.toInt) : i.msb = false := by
  have hlt := (toNat_of_nonneg h).2
  rw [BitVec.msb_eq_decide]
  exact decide_eq_false (Nat.not_le.mpr hlt)

/-- The byte of such an index. -/
theorem sdiv_eight {i : Word} (h : 0 ≤ i.toInt) :
    i.sdiv 8 = BitVec.ofNat 32 (i.toNat / 8) := by
  have hlt := i.isLt
  refine BitVec.eq_of_toNat_eq ?_
  rw [BitVec.sdiv_eq, msb_of_nonneg h, show (8 : Word).msb = false by decide,
    BitVec.toNat_ofNat]
  show (i / 8).toNat = _
  rw [BitVec.toNat_udiv]
  show i.toNat / 8 = _
  omega

/-- The bit of such an index. -/
theorem srem_eight {i : Word} (h : 0 ≤ i.toInt) : (i.srem 8).toNat = i.toNat % 8 := by
  rw [BitVec.srem_eq, msb_of_nonneg h, show (8 : Word).msb = false by decide]
  show (i % 8).toNat = _
  rw [BitVec.toNat_umod]
  rfl

/-- The mask is that of the bitmap of pages. -/
theorem bitMask_eq {i : Word} (h : 0 ≤ i.toInt) : bitMask i = PageBitmap.mask i.toNat := by
  unfold bitMask PageBitmap.mask
  rw [srem_eight h]
  rfl

/-- The byte's address is counted from the bits. -/
theorem byteAddr_eq {bitmap : Bitmap} {i : Word} (h : 0 ≤ i.toInt) :
    byteAddr bitmap i = bitmap.bits + BitVec.ofNat 32 (i.toNat / 8) := by
  unfold byteAddr
  rw [sdiv_eight h]

/-- The number of bytes, rounded up; from `2 ^ 31 - 7` bits on it is negative. -/
theorem bitmapGetBytes_toInt (count : Word) :
    (bitmapGetBytes count).toInt
      = if count.toInt ≤ 2 ^ 31 - 8 then (count.toInt + 7).tdiv 8
        else (count.toInt + 7 - 2 ^ 32).tdiv 8 := by
  have hlow := BitVec.le_toInt count
  have hhigh := BitVec.toInt_lt (x := count)
  have hsum : count + 8 - 1 = count + 7 := by bv_omega
  have hseven : (7 : Word).toInt = 7 := by decide
  unfold bitmapGetBytes
  rw [BitVec.toInt_sdiv_of_ne_or_ne _ _ (.inr (by decide)), hsum, BitVec.toInt_add, hseven,
    show (8 : Word).toInt = 8 by decide, Int.bmod_def]
  by_cases hcount : count.toInt ≤ 2 ^ 31 - 8
  · rw [if_pos hcount]
    refine congrArg (Int.tdiv · 8) ?_
    split
    · omega
    · omega
  · rw [if_neg hcount]
    refine congrArg (Int.tdiv · 8) ?_
    split
    · omega
    · omega

/-! ## The bitmap as a view -/

/-- The bitmap by indices. -/
structure Views (bitmap : Bitmap) (mem : Mem) (B : PageBitmap.Bitmap) : Prop where
  count : bitmap.count.toInt = B.count
  bits : ∀ k < 2 ^ 32, mem (bitmap.bits + BitVec.ofNat 32 k) = B.bits k

section View

variable {found : Mem} {bitmap : Bitmap} {B : PageBitmap.Bitmap}

/-- One turn of the loop. -/
theorem Views.writeBit {s : Store found} (h : Views bitmap s.mem B) {i : Word}
    (hi : 0 ≤ i.toInt) (bit : Word) :
    Views bitmap (BitSet.writeBit bitmap i bit s).mem
      (PageBitmap.writeBit B i.toNat bit.toNat) where
  count := h.count
  bits := by
    intro k hk
    have hlt := i.isLt
    have hbit : bit ≠ 0 ↔ bit.toNat ≠ 0 := not_congr (BitVec.toNat_inj (y := 0)).symm
    have hsame : bitmap.bits + BitVec.ofNat 32 k = byteAddr bitmap i ↔ k = i.toNat / 8 := by
      rw [byteAddr_eq hi, BitVec.add_right_inj]
      constructor
      · intro he
        have he' := congrArg BitVec.toNat he
        rwa [toNat_ofNat hk, toNat_ofNat (by omega)] at he'
      · exact congrArg (BitVec.ofNat 32)
    unfold BitSet.writeBit PageBitmap.writeBit
    dsimp only
    by_cases hk' : k = i.toNat / 8
    · rw [if_pos hk', hsame.mpr hk', Store.write_mem_self]
      have hold : s.mem (byteAddr bitmap i) = B.bits k := by
        rw [← hsame.mpr hk']
        exact h.bits k hk
      unfold newByte
      rw [hold, bitMask_eq hi]
      exact if_congr hbit rfl rfl
    · rw [if_neg hk', Store.write_mem_of_ne s (mt hsame.mp hk')]
      exact h.bits k hk

/-- The loop, by its turns. -/
theorem Views.setLoop {s : Store found} (h : Views bitmap s.mem B) {bit cnt i : Word}
    (hi : 0 ≤ i.toInt) :
    Views bitmap (BitSet.setLoop bitmap bit cnt i s).mem
      (PageBitmap.setBits B bit.toNat i.toNat (cnt.toInt - i.toInt).toNat) := by
  induction i, s using BitSet.setLoop.induct bitmap bit cnt generalizing B with
  | case1 i s hlt ih =>
      have hsucc := add_one_toInt hlt
      have hturns : (cnt.toInt - i.toInt).toNat = (cnt.toInt - (i + 1).toInt).toNat + 1 := by
        omega
      have hnext : (i + 1).toNat = i.toNat + 1 := by
        have h1 := (toNat_of_nonneg hi).1
        have h2 := (toNat_of_nonneg (i := i + 1) (by omega)).1
        omega
      rw [BitSet.setLoop, if_pos hlt, hturns, PageBitmap.setBits, ← hnext]
      exact ih (h.writeBit hi bit) (by omega)
  | case2 i s hlt =>
      rw [BitSet.setLoop, if_neg hlt, Int.toNat_of_nonpos (by omega)]
      exact h

/-- **`bitmap_set_bit`** does to the view what it does to the memory. -/
theorem Views.setBit {s : Store found} (h : Views bitmap s.mem B) {index count : Word}
    (hindex : 0 ≤ index.toInt) (hcount : 0 ≤ count.toInt) (bit : Word) :
    Views bitmap (bitmapSetBit bitmap index count bit s).mem
      (PageBitmap.bitmapSetBit B index.toNat count.toNat bit.toNat) := by
  obtain ⟨hindex', -⟩ := toNat_of_nonneg hindex
  obtain ⟨hcount', -⟩ := toNat_of_nonneg hcount
  have hguard : bitmap.count.toInt ≤ index.toInt ↔ B.count ≤ index.toNat := by
    rw [h.count, ← hindex']
    exact Int.ofNat_le
  have hcnt : PageBitmap.int32 (index.toNat + count.toNat) = (index + count).toInt := by
    rw [hindex', hcount', BitVec.toInt_add]
    rfl
  unfold bitmapSetBit PageBitmap.bitmapSetBit
  by_cases hout : bitmap.count.toInt ≤ index.toInt
  · rw [if_pos hout, if_pos (hguard.mp hout)]
    exact h
  · rw [if_neg hout, if_neg (mt hguard.mpr hout)]
    dsimp only
    rw [hcnt, hindex']
    exact h.setLoop hindex

/-- A bit is read as in the bitmap of pages. -/
theorem Views.getBit {mem : Mem} (h : Views bitmap mem B) {j : Word} (hj : 0 ≤ j.toInt) :
    bitmapGetBit bitmap mem j = PageBitmap.bitmapGetBit B j.toNat := by
  have hlt := j.isLt
  unfold bitmapGetBit PageBitmap.bitmapGetBit
  rw [byteAddr_eq hj, h.bits _ (by omega), bitMask_eq hj]

/-- Every memory has a view. -/
theorem views_self {bitmap : Bitmap} (hcount : 0 ≤ bitmap.count.toInt) (mem : Mem) :
    Views bitmap mem
      ⟨bitmap.count.toNat, fun k => mem (bitmap.bits + BitVec.ofNat 32 k)⟩ :=
  ⟨(toNat_of_nonneg hcount).1.symm, fun _ _ => rfl⟩

/-- **`bitmap_init`**, unless the sum in `bitmap_get_bytes` overflows. -/
theorem views_init {count : Word} (h0 : 0 ≤ count.toInt) (hcount : count.toInt ≤ 2 ^ 31 - 8)
    (bits : Addr) (s : Store found) :
    Views ⟨count, bits⟩ (bitmapInit count bits s).2.mem
      (PageBitmap.bitmapInit count.toNat fun k => s.mem (bits + BitVec.ofNat 32 k)) where
  count := (toNat_of_nonneg h0).1.symm
  bits := by
    intro k hk
    obtain ⟨hnat, -⟩ := toNat_of_nonneg h0
    have hnum : (bitmapGetBytes count).toInt.toNat
        = PageBitmap.bitmapGetBytes count.toNat := by
      rw [bitmapGetBytes_toInt, if_pos hcount, ← hnat]
      unfold PageBitmap.bitmapGetBytes
      rfl
    have hlen : (List.replicate (PageBitmap.bitmapGetBytes count.toNat) (0 : Byte)).length
        = PageBitmap.bitmapGetBytes count.toNat := List.length_replicate
    have hfew : PageBitmap.bitmapGetBytes count.toNat ≤ 2 ^ 32 := by
      have hlt := count.isLt
      unfold PageBitmap.bitmapGetBytes
      omega
    unfold bitmapInit PageBitmap.bitmapInit
    dsimp only
    rw [kmemset_toNat, hnum, writeList_mem (by omega), hlen]
    have hin : InRange bits (PageBitmap.bitmapGetBytes count.toNat)
        (bits + BitVec.ofNat 32 k) ↔ k < PageBitmap.bitmapGetBytes count.toNat :=
      inRange_ofNat hk
    by_cases hlt : k < PageBitmap.bitmapGetBytes count.toNat
    · rw [if_pos (hin.mpr hlt), if_pos hlt]
      exact List.getD_replicate _ (hin.mpr hlt)
    · rw [if_neg (mt hin.mp hlt), if_neg hlt]

end View

/-! ## What is written -/

section Within

variable {found : Mem} {bitmap : Bitmap} {D : Addr → Prop}

/-- Where the loop over the bits writes. -/
theorem setLoop_within (bit cnt i : Word) (s : Store found) :
    (setLoop bitmap bit cnt i s).Within D ↔
      s.Within D ∧ ∀ k : Word, i.toInt ≤ k.toInt → k.toInt < cnt.toInt →
        D (byteAddr bitmap k) := by
  induction i, s using setLoop.induct bitmap bit cnt with
  | case1 i s hlt ih =>
      have hsucc := add_one_toInt hlt
      rw [setLoop, if_pos hlt, ih, writeBit, Store.within_write, hsucc]
      constructor
      · rintro ⟨⟨hD, hs⟩, hrest⟩
        refine ⟨hs, fun k hik hkc => ?_⟩
        by_cases hk : k = i
        · rw [hk]
          exact hD
        · have hne : k.toInt ≠ i.toInt := fun he => hk (BitVec.eq_of_toInt_eq he)
          exact hrest k (by omega) hkc
      · rintro ⟨hs, hall⟩
        exact ⟨⟨hall i (Int.le_refl _) hlt, hs⟩, fun k hik hkc => hall k (by omega) hkc⟩
  | case2 i s hlt =>
      rw [setLoop, if_neg hlt]
      exact (and_iff_left fun k hik hkc => absurd (Int.lt_of_le_of_lt hik hkc) hlt).symm

end Within

/-! ## Calls -/

/-- The arguments of `bitmap_set_bit` for a bitmap of `size` bits. -/
structure Call (size : Word) where
  index : Word
  count : Word
  bit : Word
  index_nonneg : 0 ≤ index.toInt
  count_nonneg : 0 ≤ count.toInt
  fits : index.toInt + count.toInt ≤ size.toInt

namespace Call

variable {size : Word}

/-- The call sets this bit. -/
def Covers (c : Call size) (j : Word) : Prop :=
  c.index.toInt ≤ j.toInt ∧ j.toInt < c.index.toInt + c.count.toInt

instance (c : Call size) : DecidablePred c.Covers :=
  fun _ => inferInstanceAs (Decidable (_ ∧ _))

/-- The value that the call gives to its bits. -/
def value (c : Call size) : Nat := if c.bit ≠ 0 then 1 else 0

/-- The bound of the loop does not overflow. -/
theorem bound (c : Call size) : (c.index + c.count).toInt = c.index.toInt + c.count.toInt := by
  have h1 := c.index_nonneg
  have h2 := c.count_nonneg
  have h3 := c.fits
  have hhigh := BitVec.toInt_lt (x := size)
  rw [BitVec.toInt_add]
  exact Int.bmod_eq_of_le (by omega) (by omega)

/-- An empty range contains no index. -/
theorem not_covers_of_empty {c : Call size} (h : c.count = 0) (j : Word) :
    ¬ c.Covers j := by
  rintro ⟨hle, hlt⟩
  rw [h, show (0 : Word).toInt = 0 by decide, Int.add_zero] at hlt
  exact absurd (Int.lt_of_le_of_lt hle hlt) (Int.lt_irrefl _)

/-- A call covers an interval. -/
theorem covers_iff (c : Call size) {j : Word} (hj : 0 ≤ j.toInt) :
    c.Covers j ↔ Intervals.Covers (c.index.toNat, c.count.toNat) j.toNat := by
  have h1 := (toNat_of_nonneg c.index_nonneg).1
  have h2 := (toNat_of_nonneg c.count_nonneg).1
  have h3 := (toNat_of_nonneg hj).1
  unfold Covers Intervals.Covers
  dsimp only
  omega

end Call

section Run

variable {found : Mem} {size : Word} (bits : Addr)

/-- The memory after a call. -/
def perform (s : Store found) (c : Call size) : Store found :=
  bitmapSetBit ⟨size, bits⟩ c.index c.count c.bit s

/-- A bit changes if the range of a call contains it. -/
theorem bitmapGetBit_perform (s : Store found) (c : Call size) (j : Word)
    (hj : 0 ≤ j.toInt) :
    bitmapGetBit ⟨size, bits⟩ (perform bits s c).mem j
      = if c.Covers j then c.value else bitmapGetBit ⟨size, bits⟩ s.mem j := by
  have hfits := c.fits
  have hindex := (toNat_of_nonneg c.index_nonneg).1
  have hcount := (toNat_of_nonneg c.count_nonneg).1
  obtain ⟨B, hview⟩ : ∃ B, Views ⟨size, bits⟩ s.mem B :=
    ⟨_, views_self (by show 0 ≤ size.toInt; omega) s.mem⟩
  have hsize : size.toInt = B.count := hview.count
  have hhigh := BitVec.toInt_lt (x := size)
  have hafter := hview.setBit c.index_nonneg c.count_nonneg c.bit
  unfold perform
  rw [hafter.getBit hj, hview.getBit hj, PageBitmap.bitmapGetBit_eq,
    PageBitmap.bitmapGetBit_eq]
  by_cases hout : B.count ≤ c.index.toNat
  · -- at the end of the bitmap there is only the empty range
    have hno : ¬ c.Covers j := by
      unfold Call.Covers
      omega
    rw [if_neg hno, PageBitmap.bitmapSetBit, if_pos hout]
  · have hno : c.index.toNat + c.count.toNat < 2 ^ 31 := by omega
    have hset := PageBitmap.isSet_setBit (Nat.not_le.mp hout) hno c.bit.toNat j.toNat
    have hbit : c.bit.toNat ≠ 0 ↔ c.bit ≠ 0 := not_congr (BitVec.toNat_inj (y := 0))
    by_cases hcov : c.Covers j
    · rw [if_pos hcov]
      rw [if_pos ((c.covers_iff hj).mp hcov), hbit] at hset
      exact if_congr hset rfl rfl
    · rw [if_neg hcov]
      rw [if_neg (mt (c.covers_iff hj).mpr hcov)] at hset
      exact if_congr hset rfl rfl

/-- **A RUN OF CALLS** leaves at every index the bit of the last that covers it. -/
theorem bitmapGetBit_run (calls : List (Call size)) (s : Store found) {j : Word}
    (hj : 0 ≤ j.toInt) :
    bitmapGetBit ⟨size, bits⟩ (calls.foldl (perform bits) s).mem j
      = (LastWrite.last Call.Covers calls j).elim (bitmapGetBit ⟨size, bits⟩ s.mem j)
          Call.value :=
  LastWrite.view_foldl (P := fun j : Word => 0 ≤ j.toInt)
    (fun (s : Store found) j => bitmapGetBit ⟨size, bits⟩ s.mem j)
    (bitmapGetBit_perform bits) calls s hj

/-- Where a call writes. -/
theorem perform_within {D : Addr → Prop} (s : Store found) (c : Call size) :
    (perform bits s c).Within D ↔
      s.Within D ∧ ∀ k, c.Covers k → D (byteAddr ⟨size, bits⟩ k) := by
  have hfits := c.fits
  have hcount := c.count_nonneg
  unfold perform bitmapSetBit
  dsimp only
  by_cases hout : size.toInt ≤ c.index.toInt
  · rw [if_pos hout]
    refine (and_iff_left fun k hk => ?_).symm
    exact absurd (Int.lt_of_le_of_lt hk.1 hk.2) (by omega)
  · rw [if_neg hout, setLoop_within, c.bound]
    exact and_congr_right fun _ => forall_congr' fun k => and_imp.symm

/-- Where the calls write. -/
theorem run_within {D : Addr → Prop} (calls : List (Call size)) (s : Store found) :
    (calls.foldl (perform bits) s).Within D ↔
      s.Within D ∧ ∀ c ∈ calls, ∀ k, c.Covers k → D (byteAddr ⟨size, bits⟩ k) := by
  induction calls generalizing s with
  | nil => exact (and_iff_left fun c hc => nomatch hc).symm
  | cons c calls ih =>
      rw [List.foldl_cons, ih, perform_within, List.forall_mem_cons, and_assoc]

end Run

/-! ## From `bitmap_init` on -/

section Right

variable (count : Word) (bits : Addr) (found : Mem)

/-- What the calls leave. -/
def after (calls : List (Call count)) : Store found :=
  calls.foldl (perform bits) (bitmapInit count bits (Store.start found)).2

/-- The bits are those of a set that the calls change, and only the bytes of the
    bitmap are written. -/
structure Right (calls : List (Call count)) : Prop where
  value : ∀ j : Word, 0 ≤ j.toInt → j.toInt < count.toInt →
    bitmapGetBit ⟨count, bits⟩ (after count bits found calls).mem j
      = (LastWrite.last Call.Covers calls j).elim 0 Call.value
  within : (after count bits found calls).Within
    (InRange bits (bitmapGetBytes count).toInt.toNat)

/-- Where `bitmap_init` writes. -/
theorem init_within :
    (bitmapInit count bits (Store.start found)).2.Within
      (InRange bits (bitmapGetBytes count).toInt.toNat) := by
  have hbyte := bitmapGetBytes_toInt count
  have hlow := BitVec.le_toInt count
  have hhigh := BitVec.toInt_lt (x := bitmapGetBytes count)
  unfold bitmapInit
  dsimp only
  rw [kmemset_toNat, writeList_within, List.length_replicate]
  exact ⟨Store.within_start _, fun k hk => (inRange_ofNat (by omega)).mpr hk⟩

variable {count bits found}

/-- Every bit is clear after `bitmap_init`, unless the size overflows. -/
theorem init_clear (hcount : count.toInt ≤ 2 ^ 31 - 8) {j : Word} (hj : 0 ≤ j.toInt)
    (hlt : j.toInt < count.toInt) :
    bitmapGetBit ⟨count, bits⟩ (bitmapInit count bits (Store.start found)).2.mem j = 0 := by
  have h0 : 0 ≤ count.toInt := by omega
  have hj' := (toNat_of_nonneg hj).1
  have hcount' := (toNat_of_nonneg h0).1
  have hlt' : j.toNat < count.toNat := by omega
  rw [(views_init h0 hcount bits (Store.start found)).getBit hj, PageBitmap.bitmapGetBit_eq,
    if_neg (PageBitmap.not_isSet_init hlt')]

/-- With an overflow the number of bytes is negative. -/
theorem bytes_of_overflow (hcount : 2 ^ 31 - 8 < count.toInt) :
    (bitmapGetBytes count).toInt.toNat = 0 := by
  have hhigh := BitVec.toInt_lt (x := count)
  rw [bitmapGetBytes_toInt, if_neg (Int.not_le.mpr hcount)]
  refine Int.toNat_of_nonpos ?_
  have hneg : count.toInt + 7 - 2 ^ 32 = -(2 ^ 32 - 7 - count.toInt) := by omega
  rw [hneg, Int.neg_tdiv]
  exact Int.neg_nonpos_of_nonneg (Int.tdiv_nonneg (by omega) (by decide))

/-- Where it does, nothing is written. -/
theorem init_of_overflow (hcount : 2 ^ 31 - 8 < count.toInt) (bits : Addr) (found : Mem) :
    (bitmapInit count bits (Store.start found)).2 = Store.start found := by
  unfold bitmapInit
  dsimp only
  rw [kmemset_toNat, bytes_of_overflow hcount]
  rfl

/-- The byte of an index is one of the bitmap. -/
theorem byteAddr_inRange (hcount : count.toInt ≤ 2 ^ 31 - 8) {k : Word} (hk : 0 ≤ k.toInt)
    (hlt : k.toInt < count.toInt) :
    InRange bits (bitmapGetBytes count).toInt.toNat (byteAddr ⟨count, bits⟩ k) := by
  have hk' := toNat_of_nonneg hk
  rw [byteAddr_eq hk, inRange_ofNat (by omega), bitmapGetBytes_toInt, if_pos hcount,
    Int.tdiv_eq_ediv_of_nonneg (by omega)]
  omega

/-- Without an overflow. -/
theorem right_of_le (hcount : count.toInt ≤ 2 ^ 31 - 8) (calls : List (Call count)) :
    Right count bits found calls where
  value := by
    intro j hj hlt
    unfold after
    rw [bitmapGetBit_run bits calls _ hj, init_clear hcount hj hlt]
  within := by
    refine (run_within bits calls _).mpr ⟨init_within count bits found, fun c _ k hk => ?_⟩
    have hindex := c.index_nonneg
    have hfits := c.fits
    exact byteAddr_inRange hcount (Int.le_trans hindex hk.1) (Int.lt_of_lt_of_le hk.2 hfits)

/-- Calls without bits leave nothing behind. -/
theorem last_of_empty {calls : List (Call count)} (h : ∀ c ∈ calls, c.count = 0) (j : Word) :
    LastWrite.last Call.Covers calls j = none := by
  rw [LastWrite.last_eq_none_iff]
  intro c hc
  exact Call.not_covers_of_empty (h c hc) j

/-- With one, nothing is cleared and no byte is the bitmap's. -/
theorem right_of_overflow (hcount : 2 ^ 31 - 8 < count.toInt) (calls : List (Call count)) :
    Right count bits found calls ↔
      (∀ c ∈ calls, c.count = 0) ∧ ∀ j : Word, 0 ≤ j.toInt → j.toInt < count.toInt →
        bitmapGetBit ⟨count, bits⟩ found j = 0 := by
  have hinit := init_of_overflow hcount bits found
  have hrun : ∀ j : Word, 0 ≤ j.toInt → (∀ c ∈ calls, c.count = 0) →
      bitmapGetBit ⟨count, bits⟩ (after count bits found calls).mem j
        = bitmapGetBit ⟨count, bits⟩ found j := by
    intro j hj hempty
    unfold after
    rw [bitmapGetBit_run bits calls _ hj, last_of_empty hempty, hinit]
    rfl
  constructor
  · rintro ⟨hvalue, hwithin⟩
    rw [bytes_of_overflow hcount] at hwithin
    have hempty : ∀ c ∈ calls, c.count = 0 := by
      intro c hc
      by_contra hne
      have hpos : 0 < c.count.toInt := by
        refine lt_of_le_of_ne c.count_nonneg fun h0 => hne ?_
        exact BitVec.eq_of_toInt_eq (h0.symm.trans (by decide))
      -- the first byte of the range is not one of none
      have hout := ((run_within bits calls _).mp hwithin).2 c hc c.index
        ⟨Int.le_refl _, by omega⟩
      exact Nat.not_lt_zero _ hout
    refine ⟨hempty, fun j hj hlt => ?_⟩
    rw [← hrun j hj hempty, hvalue j hj hlt, last_of_empty hempty]
    rfl
  · rintro ⟨hempty, hclear⟩
    refine ⟨fun j hj hlt => ?_, ?_⟩
    · rw [hrun j hj hempty, hclear j hj hlt, last_of_empty hempty]
      rfl
    · refine (run_within bits calls _).mpr ⟨init_within count bits found, fun c hc k hk => ?_⟩
      exact absurd hk (Call.not_covers_of_empty (hempty c hc) k)

end Right

/-- **A BITMAP IS A SET OF BITS** unless its number of bytes overflows, or nothing
    is asked of it. -/
theorem bitSet_right_iff (count : Word) (bits : Addr) (found : Mem)
    (calls : List (Call count)) :
    Right count bits found calls ↔
      count.toInt ≤ 2 ^ 31 - 8 ∨
        (∀ c ∈ calls, c.count = 0) ∧ ∀ j : Word, 0 ≤ j.toInt → j.toInt < count.toInt →
          bitmapGetBit ⟨count, bits⟩ found j = 0 := by
  by_cases hcount : count.toInt ≤ 2 ^ 31 - 8
  · exact iff_of_true (right_of_le hcount calls) (.inl hcount)
  · rw [right_of_overflow (Int.not_le.mp hcount)]
    exact (or_iff_right hcount).symm

/-- `INT_MAX` bits are not cleared. -/
theorem int_max_not_cleared :
    (bitmapGetBytes 0x7FFFFFFF).toInt < 0 ∧
    bitmapGetBit ⟨0x7FFFFFFF, 0x100000⟩
      (after 0x7FFFFFFF 0x100000 (fun _ => 0xFF) []).mem 0 = 1 ∧
    ¬ Right 0x7FFFFFFF 0x100000 (fun _ => 0xFF) [] := by
  have hmax : 2 ^ 31 - 8 < (0x7FFFFFFF : Word).toInt := by decide
  have hinit := init_of_overflow hmax 0x100000 fun _ => 0xFF
  have hbit : bitmapGetBit ⟨0x7FFFFFFF, 0x100000⟩
      (after 0x7FFFFFFF 0x100000 (fun _ => 0xFF) []).mem 0 = 1 := by
    unfold after
    rw [List.foldl_nil, hinit]
    decide
  refine ⟨by decide, hbit, fun h => ?_⟩
  have hvalue := h.value 0 (by decide) (by decide)
  rw [hbit] at hvalue
  exact nomatch hvalue

end LittleOS.BitSet
