import LittleOS.Lib.Runs
import LittleOS.Memory

/-! # What the page search answers

    A window is a place where a request fits before the end of the bitmap.  The
    inner loop of `bitmap_alloc_nbits` also stops at the end, so a run of clear
    bits that touches it counts for any length.

    * `outerLoop` — the loops of the source, whose turns need no bound: they
      end because the index grows;
    * `first_window` — with a window the answer is the first one;
    * `fails_cleanly_iff` — without one, `-1` and nothing written exactly when
      no clear run touches the end;
    * `kalloc_fails_iff` — an answer 0 of `kalloc_pages` leaves the bitmap alone
      exactly when the lowest fit was below page 1023, or nowhere. -/

namespace LittleOS.PageSearch

open Runs Intervals PageBitmap Memory

/-! ## The loops end -/

/-- The inner loop of `bitmap_alloc_nbits` from `j` on. -/
def innerLoop (bitmap : Bitmap) (i count j : Nat) : Option Nat :=
  if j < bitmap.count ∧ j - i + 1 ≤ count then
    if bitmapGetBit bitmap j = 1 then some j
    else innerLoop bitmap i count (j + 1)
  else none
termination_by bitmap.count - j

/-- The search goes up. -/
theorem innerLoop_ge (bitmap : Bitmap) (i count j : Nat) {k : Nat}
    (h : innerLoop bitmap i count j = some k) : j ≤ k := by
  induction j using innerLoop.induct bitmap i count with
  | case1 j hj hbit =>
      rw [innerLoop, if_pos hj, if_pos hbit] at h
      exact Nat.le_of_eq (Option.some.inj h)
  | case2 j hj hbit ih =>
      rw [innerLoop, if_pos hj, if_neg hbit] at h
      exact Nat.le_of_succ_le (ih h)
  | case3 j hj =>
      rw [innerLoop, if_neg hj] at h
      exact nomatch h

/-- The outer loop from `i` on. -/
def outerLoop (bitmap : Bitmap) (count i : Nat) : Option Nat × Bitmap :=
  if i < bitmap.count then
    if bitmapGetBit bitmap i = 0 then
      match h : innerLoop bitmap i count i with
      -- the flag is set and `i` moved to the busy bit
      | some j => outerLoop bitmap count (j + 1)
      | none => (some i, bitmapSetBit bitmap i count 1)
    else outerLoop bitmap count (i + 1)
  else (none, bitmap)
termination_by bitmap.count - i
decreasing_by
  · have := innerLoop_ge bitmap i count i h
    omega
  · omega

/-- The turns `findSet` is given are enough for the inner loop. -/
theorem findSet_eq (bitmap : Bitmap) (i count : Nat) :
    ∀ (fuel j : Nat), bitmap.count - j ≤ fuel →
      findSet bitmap i count fuel j = innerLoop bitmap i count j := by
  intro fuel
  induction fuel with
  | zero =>
      intro j hj
      rw [innerLoop, if_neg (fun hc => absurd hc.1 (by omega))]
      rfl
  | succ fuel ih =>
      intro j hj
      rw [findSet, innerLoop]
      by_cases hc : j < bitmap.count ∧ j - i + 1 ≤ count
      · rw [if_pos hc, if_pos hc, ih (j + 1) (by omega)]
      · rw [if_neg hc, if_neg hc]

/-- And those of `allocLoop` for the outer one. -/
theorem allocLoop_eq (bitmap : Bitmap) (count : Nat) :
    ∀ (fuel i : Nat), bitmap.count - i ≤ fuel →
      allocLoop bitmap count fuel i = outerLoop bitmap count i := by
  intro fuel
  induction fuel with
  | zero =>
      intro i hi
      rw [outerLoop, if_neg (by omega)]
      rfl
  | succ fuel ih =>
      intro i hi
      rw [allocLoop, outerLoop]
      by_cases hc : i < bitmap.count
      · rw [if_pos hc, if_pos hc, findSet_eq bitmap i count _ i (Nat.le_refl _)]
        by_cases hbit : bitmapGetBit bitmap i = 0
        · rw [if_pos hbit, if_pos hbit]
          split
          · next j hj =>
              have hge := innerLoop_ge bitmap i count i hj
              split
              · next j' hj' =>
                  obtain rfl : j = j' := Option.some.inj (hj.symm.trans hj')
                  exact ih (j + 1) (by omega)
              · next hnone => cases hj.symm.trans hnone
          · next hnone =>
              split
              · next j' hj' => cases hnone.symm.trans hj'
              · rfl
        · rw [if_neg hbit, if_neg hbit]
          exact ih (i + 1) (by omega)
      · rw [if_neg hc, if_neg hc]

/-- **THE SEARCH ENDS** with the answer of the model. -/
theorem outerLoop_eq (bitmap : Bitmap) (index count : Nat) :
    outerLoop bitmap count index = bitmapAllocNbits bitmap index count :=
  (allocLoop_eq bitmap count _ index (Nat.le_refl _)).symm

/-! ## Windows -/

/-- `n` clear bits from `s` on, all before the end. -/
structure Window (bitmap : Bitmap) (n s : Nat) : Prop where
  fits : s + n ≤ bitmap.count
  clear : ∀ p, Covers (s, n) p → ¬ IsSet bitmap p

/-- The first one from `index` on. -/
structure FirstWindow (bitmap : Bitmap) (index n s : Nat) : Prop where
  start_le : index ≤ s
  window : Window bitmap n s
  least : ∀ t, index ≤ t → Window bitmap n t → s ≤ t

section Search

variable {bitmap : Bitmap} {index n s : Nat}

/-- A window begins inside the bitmap. -/
theorem Window.lt_count (h : Window bitmap n s) (hn : 1 ≤ n) : s < bitmap.count := by
  have := h.fits
  omega

/-- A window has room for the pages. -/
theorem Window.toFits (h : Window bitmap n s) :
    Fits (IsSet bitmap) bitmap.count (s, n) :=
  fun p hp _ => h.clear p hp

/-- What fits without reaching the end is a window. -/
theorem window_of_fits (h : Fits (IsSet bitmap) bitmap.count (s, n))
    (hle : s + n ≤ bitmap.count) : Window bitmap n s where
  fits := hle
  clear := by
    intro p hp
    refine h p hp ?_
    have h2 := hp.2
    dsimp only at h2
    omega

/-- With a window the first fit is one. -/
theorem firstWindow_of_firstFit {t : Nat} (ht : index ≤ t) (hw : Window bitmap n t)
    (h : FirstFit (IsSet bitmap) bitmap.count index n s) :
    FirstWindow bitmap index n s where
  start_le := h.start_le
  window := by
    have hst := h.le ht hw.toFits
    have hend := hw.fits
    exact window_of_fits h.fits (by omega)
  least := fun _ hu hw' => h.le hu hw'.toFits

/-- Exactly the bits of the block are set. -/
theorem isSet_marked (hs : s < bitmap.count) (hov : s + n < 2 ^ 31) (p : Nat) :
    IsSet (bitmapSetBit bitmap s n 1) p ↔ Covers (s, n) p ∨ IsSet bitmap p := by
  rw [isSet_setBit hs hov]
  split
  · next hcov => exact iff_of_true Nat.one_ne_zero (Or.inl hcov)
  · next hcov => exact (or_iff_right hcov).symm

/-- The search ends at the first window and sets its bits only. -/
structure FindsFirst (bitmap : Bitmap) (index n s : Nat) (b : Bitmap) : Prop where
  first : FirstWindow bitmap index n s
  ends : outerLoop bitmap n index = (some s, b)
  answer : bitmapAllocNbits bitmap index n = (some s, b)
  count : b.count = bitmap.count
  bits : ∀ p, IsSet b p ↔ Covers (s, n) p ∨ IsSet bitmap p

/-- Where there is a window the first one is found. -/
theorem findsFirst (hc : bitmap.count < 2 ^ 31) (hn : 1 ≤ n) {t : Nat} (ht : index ≤ t)
    (hw : Window bitmap n t) : ∃ s b, FindsFirst bitmap index n s b := by
  obtain ⟨s, hs⟩ := FirstFit.exists ht (hw.lt_count hn) hw.toFits
  have hfirst := firstWindow_of_firstFit ht hw hs
  have hanswer := bitmapAllocNbits_of_firstFit hn hs
  have hend := hfirst.window.fits
  exact ⟨s, _, hfirst, (outerLoop_eq bitmap index n).trans hanswer, hanswer,
    bitmapSetBit_count _ _ _ _, isSet_marked hs.lt_bound (by omega)⟩

end Search

/-- `n` free pages in a row from `MEM_USERFREE_START` on. -/
def UserPagesLeft (m : AddrAlloc) (n : Nat) : Prop :=
  ∃ s, ∀ p, Covers (s, n) p → p < m.bitmap.count ∧ ¬ Marked m p ∧
    memUserfreeStart.toNat ≤ (pageAddr m p).toNat

/-- The pages with such an address. -/
theorem user_address_iff {m : AddrAlloc} (hm : FromOneMb m) {p : Nat} (hp : p < 2 ^ 20) :
    memUserfreeStart.toNat ≤ (pageAddr m p).toNat ↔
      userIndex ≤ p ∧ p < 2 ^ 20 - 256 := by
  have hstart : memUserfreeStart.toNat = 0x200000 := rfl
  have hindex : userIndex = 256 := by decide
  rw [hm.addr_toNat, hstart, hindex]
  omega

/-- **`ualloc_pages`** does not run out while they are left. -/
theorem ualloc_ne_zero {m : AddrAlloc} (hm : FromOneMb m) {n : Nat} (hn : 1 ≤ n)
    (h : UserPagesLeft m n) : (uallocPages m n).1 ≠ 0 := by
  obtain ⟨s, hs⟩ := h
  have hcount := hm.count_lt
  have hpage : ∀ p, Covers (s, n) p → userIndex ≤ p ∧ p < 2 ^ 20 - 256 := by
    intro p hp
    obtain ⟨hlt, -, haddr⟩ := hs p hp
    exact (user_address_iff hm (by omega)).mp haddr
  have hfirst : Covers (s, n) s := ⟨Nat.le_refl s, by dsimp only; omega⟩
  have hlast : Covers (s, n) (s + n - 1) := ⟨by dsimp only; omega, by dsimp only; omega⟩
  have hend := (hs _ hlast).1
  have hw : Window m.bitmap n s := ⟨by omega, fun p hp => (hs p hp).2.1⟩
  obtain ⟨i, hi⟩ := FirstFit.exists (hpage s hfirst).1 (hw.lt_count hn) hw.toFits
  rw [uallocPages_of_firstFit hn hi]
  -- the place found is not behind the window, so its address has not wrapped
  have hle := hi.le (hpage s hfirst).1 hw.toFits
  have hlt := (hpage s hfirst).2
  intro h0
  have := (hm.addr_eq_zero (by omega)).mp h0
  omega

/-- **FIRST FIT**: the search returns the first window and sets its bits only,
    and `ualloc_pages` serves every request that the user pages have room for. -/
theorem first_window :
    (∀ (bitmap : Bitmap) (index n t : Nat), bitmap.count < 2 ^ 31 → 1 ≤ n →
      index ≤ t → Window bitmap n t → ∃ s b, FindsFirst bitmap index n s b) ∧
    ∀ (m : AddrAlloc) (n : Nat), FromOneMb m → 1 ≤ n → UserPagesLeft m n →
      (uallocPages m n).1 ≠ 0 :=
  ⟨fun _ _ _ _ hc hn ht hw => findsFirst hc hn ht hw,
    fun _ _ hm hn h => ualloc_ne_zero hm hn h⟩

/-- Sixteen pages, the second and the third of them allocated. -/
def sixteen : Bitmap where
  count := 16
  bits := fun k => if k = 0 then 6 else 0

/-- Four pages of the user, the first of them allocated. -/
def fourPages : AddrAlloc where
  bitmap := ⟨260, fun k => if k = 32 then 1 else 0⟩
  pageSize := memPageSize
  kernelstart := memKernelfreeStart
  userstart := memUserfreeStart
  size := 0x104000

/-- One page before them is too short for two, and of the user's the first is
    taken. -/
theorem first_window_sixteen :
    (∃ s b, FindsFirst sixteen 0 2 s b) ∧ (uallocPages fourPages 2).1 ≠ 0 := by
  constructor
  · refine first_window.1 sixteen 0 2 3 (by decide) (by decide) (by decide)
      ⟨by decide, fun p hp => ?_⟩
    obtain ⟨h1, h2⟩ := hp
    dsimp only at h1 h2
    obtain rfl | rfl : p = 3 ∨ p = 4 := by omega
    · decide
    · decide
  · refine first_window.2 fourPages 2 ⟨rfl, by decide⟩ (by decide) ⟨257, fun p hp => ?_⟩
    obtain ⟨h1, h2⟩ := hp
    dsimp only at h1 h2
    obtain rfl | rfl : p = 257 ∨ p = 258 := by omega
    · decide
    · decide

/-! ## No window -/

/-- The search answers `-1` and leaves the bitmap alone, and `ualloc_pages`
    then gives nothing and marks nothing. -/
structure FailsCleanly (bitmap : Bitmap) (index n : Nat) : Prop where
  ends : outerLoop bitmap n index = (none, bitmap)
  answer : bitmapAllocNbits bitmap index n = (none, bitmap)
  ualloc : ∀ m : AddrAlloc, m.bitmap = bitmap → index = userIndex →
    uallocPages m n = (0, m)

section Failure

variable {bitmap : Bitmap} {index n : Nat}

/-- An answer of none with the same bitmap is a clean failure. -/
theorem failsCleanly_of_answer (h : bitmapAllocNbits bitmap index n = (none, bitmap)) :
    FailsCleanly bitmap index n where
  ends := (outerLoop_eq bitmap index n).trans h
  answer := h
  ualloc := by
    rintro m rfl rfl
    unfold uallocPages
    rw [h]

/-- **A CLEAN FAILURE**: without a window the search fails cleanly exactly when
    it starts behind the end or the last bit is set. -/
theorem fails_cleanly_iff (hn : 1 ≤ n) (hno : ∀ s, index ≤ s → ¬ Window bitmap n s) :
    FailsCleanly bitmap index n ↔
      bitmap.count ≤ index ∨ IsSet bitmap (bitmap.count - 1) := by
  constructor
  · intro h
    by_contra hc
    push Not at hc
    obtain ⟨hlt, hlast⟩ := hc
    -- the last bit alone passes for any length
    have hfits : Fits (IsSet bitmap) bitmap.count (bitmap.count - 1, n) := by
      intro p hp hpb
      have h1 := hp.1
      obtain rfl : p = bitmap.count - 1 := by
        dsimp only at h1
        omega
      exact hlast
    have hstart : index ≤ bitmap.count - 1 := by omega
    obtain ⟨s, hs⟩ := FirstFit.exists hstart (by omega) hfits
    have hanswer := (bitmapAllocNbits_of_firstFit hn hs).symm.trans h.answer
    exact nomatch congrArg Prod.fst hanswer
  · intro h
    rcases bitmapAllocNbits_cases bitmap index hn with hr | ⟨s, hfit, -⟩
    · exact failsCleanly_of_answer hr
    · have hstart := hfit.start_le
      have hlt := hfit.lt_bound
      rcases h with h | h
      · omega
      -- a place that fits is a window or reaches the last bit
      · by_cases hend : s + n ≤ bitmap.count
        · exact absurd (window_of_fits hfit.fits hend) (hno s hstart)
        · refine absurd h (hfit.fits _ ⟨?_, ?_⟩ (by omega))
          · dsimp only
            omega
          · dsimp only
            omega

end Failure

/-- Ten pages, the last two of them free. -/
def ten : Bitmap where
  count := 10
  bits := fun k => if k = 0 then 0xFF else 0

/-- Two free pages at the end. -/
theorem ten_noWindow (s : Nat) (_ : 0 ≤ s) : ¬ Window ten 3 s := by
  rintro ⟨hfits, hclear⟩
  have hle : s + 3 ≤ 10 := hfits
  refine hclear s ⟨Nat.le_refl s, by dsimp only; omega⟩ ?_
  have hall : ∀ p < 8, IsSet ten p := by decide
  exact hall s (by omega)

/-- They answer a request for three, and a bit behind the end is set. -/
theorem short_run_answers :
    ¬ ∀ (bitmap : Bitmap) (index n : Nat), 1 ≤ n →
      (∀ s, index ≤ s → ¬ Window bitmap n s) → FailsCleanly bitmap index n := by
  intro hall
  have h := (hall ten 0 3 (by decide) ten_noWindow).answer
  have hsome : (bitmapAllocNbits ten 0 3).1 = some 8 := by decide
  exact nomatch hsome.symm.trans (congrArg Prod.fst h)

/-- With the last of ten pages allocated the search fails. -/
def tenFull : Bitmap where
  count := 10
  bits := fun _ => 0xFF

/-- Ten pages, all taken. -/
theorem fails_cleanly_tenFull : FailsCleanly tenFull 0 3 :=
  (fails_cleanly_iff (by decide) (fun s _ hw => by
    have hfirst : Covers (s, 3) s := ⟨Nat.le_refl s, by dsimp only; omega⟩
    have hend : s + 3 ≤ 10 := hw.fits
    have hall : ∀ p < 10, IsSet tenFull p := by decide
    exact hw.clear s hfirst (hall s (by omega)))).mpr (Or.inr (by decide))

/-! ## A failing `kalloc_pages` -/

/-- The lowest place with room is page 1023 or a later one, and the bits there
    can be set. -/
def FitsBehindKernel (m : AddrAlloc) (n : Nat) : Prop :=
  ∃ i, 1023 ≤ i ∧ i + n < 2 ^ 31 ∧ FirstFit (Marked m) m.bitmap.count 0 n i

/-- An answer 0 leaves the manager as it was. -/
def FailsUnchanged (m : AddrAlloc) (n : Nat) : Prop :=
  (kallocPages m n).1 = 0 → (kallocPages m n).2 = m

/-- A failing call. -/
def failStep (n : Nat) (m : AddrAlloc) : Option AddrAlloc :=
  if (kallocPages m n).1 = 0 then some (kallocPages m n).2 else none

section Kalloc

variable {m : AddrAlloc} {n : Nat}

/-- What is marked after a request. -/
theorem marked_marking_iff {i : Nat} (hi : i < m.bitmap.count) (hov : i + n < 2 ^ 31)
    (p : Nat) : Marked (marking m i n) p ↔ Covers (i, n) p ∨ Marked m p :=
  isSet_marked hi hov p

/-- Marking a page that was free changes the manager. -/
theorem marking_ne {i : Nat} (hi : i < m.bitmap.count) (hn : 1 ≤ n) (hov : i + n < 2 ^ 31)
    (hfree : ¬ Marked m i) : marking m i n ≠ m := by
  intro he
  have hmark : Marked (marking m i n) i :=
    (marked_marking_iff hi hov i).mpr (Or.inl ⟨Nat.le_refl i, by dsimp only; omega⟩)
  rw [he] at hmark
  exact hfree hmark

/-- From page 1023 on the pages are marked and the answer is 0. -/
theorem kallocPages_behind (hn : 1 ≤ n) {i : Nat} (hi : 1023 ≤ i)
    (h : FirstFit (Marked m) m.bitmap.count 0 n i) :
    kallocPages m n = (0, marking m i n) := by
  unfold kallocPages
  rw [bitmapAllocNbits_of_firstFit hn h]
  dsimp only
  rw [if_pos hi]
  rfl

/-- **ONE CALL** that fails leaves the manager alone exactly unless the lowest
    place with room is behind the pages of the kernel. -/
theorem failsUnchanged_iff (hm : FromOneMb m) (hn : 1 ≤ n) (hlt : n < 2 ^ 31) :
    FailsUnchanged m n ↔ ¬ FitsBehindKernel m n := by
  have hcount := hm.count_lt
  constructor
  · rintro h ⟨i, hi, hov, hfit⟩
    have hbehind := kallocPages_behind hn hi hfit
    have hsame := h (congrArg Prod.fst hbehind)
    have hcov : Covers (i, n) i := ⟨Nat.le_refl i, by dsimp only; omega⟩
    refine marking_ne hfit.lt_bound hn hov (hfit.fits i hcov hfit.lt_bound) ?_
    exact (congrArg Prod.snd hbehind).symm.trans hsame
  · intro h h0
    rcases kallocPages_spec m hn with he | ⟨i, hfit, he⟩
    · exact congrArg Prod.snd he
    · have hi := hfit.lt_bound
      rw [he] at h0 ⊢
      dsimp only at h0 ⊢
      by_cases hbehind : 1023 ≤ i
      -- a bound that overflows sets no bit
      · refine marking_wrap (by omega) hlt ?_
        by_contra hov
        exact h ⟨i, hbehind, by omega, hfit⟩
      · rw [if_neg hbehind] at h0
        have := (hm.addr_eq_zero (by omega)).mp h0
        omega

/-- **ANY NUMBER** of such calls. -/
theorem failRun_unchanged (hm : FromOneMb m) {ns : List Nat} {m' : AddrAlloc}
    (h : Run failStep (fun n m => 1 ≤ n ∧ n < 2 ^ 31 ∧ ¬ FitsBehindKernel m n) m ns m') :
    m' = m := by
  refine h.invariant (P := fun s => s = m) rfl ?_
  rintro n s s' rfl ⟨hn, hlt, hok⟩ hs
  unfold failStep at hs
  split at hs
  · next h0 =>
      obtain rfl := Option.some.inj hs
      exact (failsUnchanged_iff hm hn hlt).mpr hok h0
  · exact nomatch hs

end Kalloc

/-- **A FAILING `kalloc_pages`** leaves the bitmap alone exactly unless the
    lowest place with room is page 1023 or a later one; calls that fail so, in
    any number, leave `ualloc_pages` all it had. -/
theorem kalloc_fails_iff {m : AddrAlloc} (hm : FromOneMb m) :
    (∀ n, 1 ≤ n → n < 2 ^ 31 → (FailsUnchanged m n ↔ ¬ FitsBehindKernel m n)) ∧
    ∀ (ns : List Nat) (m' : AddrAlloc),
      Run failStep (fun n m => 1 ≤ n ∧ n < 2 ^ 31 ∧ ¬ FitsBehindKernel m n) m ns m' →
      m' = m :=
  ⟨fun _ hn hlt => failsUnchanged_iff hm hn hlt, fun _ _ h => failRun_unchanged hm h⟩

/-- 128 MB. -/
def fresh : AddrAlloc := memoryInit (fun _ => 0) 0x8000000

/-- Its memory is managed from 1 MB on. -/
theorem fresh_fromOneMb : FromOneMb fresh := memoryInit_fromOneMb _ _

/-- Whether one page can be had in it. -/
theorem kalloc_fails_iff_fresh : FailsUnchanged fresh 1 ↔ ¬ FitsBehindKernel fresh 1 :=
  (kalloc_fails_iff fresh_fromOneMb).1 1 (by decide) (by decide)

/-- Its number of pages. -/
theorem fresh_count : fresh.bitmap.count = 0x7F00 := by decide

/-- None of them is taken. -/
theorem fresh_clear {p : Nat} (hp : p < fresh.bitmap.count) : ¬ Marked fresh p :=
  not_isSet_init hp

/-- Behind a block of 1024 pages a request for one fails and marks page 1024. -/
theorem kalloc_leaks :
    ¬ ∀ (m : AddrAlloc) (n : Nat), FromOneMb m → 1 ≤ n → FailsUnchanged m n := by
  intro hall
  have hcount := fresh_count
  have hfirst : FirstFit (Marked fresh) fresh.bitmap.count 0 1024 0 :=
    ⟨Nat.le_refl 0, by omega, fun p _ hp => fresh_clear hp, fun _ _ hs => by omega⟩
  have hm : FromOneMb (marking fresh 0 1024) :=
    fresh_fromOneMb.of_sameRange (marking_sameRange fresh 0 1024)
  refine (failsUnchanged_iff hm (Nat.le_refl 1) (by decide)).mp
    (hall _ 1 hm (Nat.le_refl 1)) ?_
  have hbit : ∀ p, Marked (marking fresh 0 1024) p ↔ Covers (0, 1024) p ∨ Marked fresh p :=
    marked_marking_iff hfirst.lt_bound (by decide)
  have hsame := (marking_sameRange fresh 0 1024).1
  refine ⟨1024, by decide, by decide, Nat.zero_le _, by omega, ?_, ?_⟩
  · rintro p ⟨h1, -⟩ hp hmark
    dsimp only at h1
    rcases (hbit p).mp hmark with hcov | hmark
    · have := hcov.2
      dsimp only at this
      omega
    · exact fresh_clear (by omega) hmark
  · intro s _ hs hfits
    refine hfits s ⟨Nat.le_refl s, Nat.lt_succ_self s⟩ (by omega) ((hbit s).mpr ?_)
    exact Or.inl ⟨Nat.zero_le s, by dsimp only; omega⟩

end LittleOS.PageSearch
