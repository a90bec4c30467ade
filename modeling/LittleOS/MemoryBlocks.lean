import LittleOS.Lib.Runs
import LittleOS.Memory

/-! # Live blocks of the page allocator

    Runs of `kalloc_pages`, `ualloc_pages` and `kfree_pages` of live blocks
    after `alloc_init`.  The pages of the managed range are numbered from
    `kernelstart`; `Contains` says by addresses which of them a block holds.

    * `step_sound` — every request whose bits `bitmap_set_bit` can mark keeps
      the live blocks disjoint;
    * `blocks_of_run` — no page in two live blocks, and a release frees exactly
      the pages of its block;
    * `overflow_twice` — a request so large that `index + count` wraps gets its
      block without a bit marked, and gets it again. -/

namespace LittleOS.MemoryBlocks

open Runs Intervals PageBitmap Memory

/-- Address and number of pages. -/
abbrev AddrBlock := BitVec 32 × Nat

instance : LawfulBEq AddrBlock := inferInstance

/-- Page `j` of the range that starts at `kstart` is one of the block's. -/
def Contains (kstart : BitVec 32) (b : AddrBlock) (j : Nat) : Prop :=
  (b.1 - kstart).toNat ≤ 4096 * j ∧
  4096 * j < (b.1 - kstart).toNat + 4096 * b.2

instance (kstart : BitVec 32) (b : AddrBlock) : DecidablePred (Contains kstart b) :=
  fun _ => inferInstanceAs (Decidable (_ ∧ _))

/-- The allocator with the blocks that have been handed out and not freed. -/
structure Blocks where
  alloc : AddrAlloc
  live : List AddrBlock

/-- The operations on blocks. -/
inductive Op where
  | kalloc (n : Nat)
  | ualloc (n : Nat)
  | kfree (b : AddrBlock)

/-- The caller of an allocation owns the block unless the answer is 0. -/
def handOut (r : BitVec 32 × AddrAlloc) (n : Nat) (s : Blocks) : Blocks where
  alloc := r.2
  live := if r.1 = 0 then s.live else (r.1, n) :: s.live

/-- A request is a positive `int`; only live blocks are freed. -/
def step : Op → Blocks → Option Blocks
  | .kalloc n, s =>
      if 1 ≤ n ∧ n < 2 ^ 31 then some (handOut (kallocPages s.alloc n) n s)
      else none
  | .ualloc n, s =>
      if 1 ≤ n ∧ n < 2 ^ 31 then some (handOut (uallocPages s.alloc n) n s)
      else none
  | .kfree b, s =>
      if b ∈ s.live then
        some { alloc := kfreePages s.alloc b.1 b.2, live := s.live.erase b }
      else none

/-- The allocator after `addr_alloc_init`. -/
def start (bits : Nat → BitVec 8) (size kstart ustart : BitVec 32) : Blocks where
  alloc := allocInit bits size kstart ustart memPageSize
  live := []

/-- The last page of a request, counted from the lowest place where it fits, is
    an `int`; of `kalloc_pages` only the places below 1023 count. -/
def NoOverflow : Op → Blocks → Prop
  | .kalloc n, s => ∀ i < 1023,
      FirstFit (Marked s.alloc) s.alloc.bitmap.count 0 n i → i + n < 2 ^ 31
  | .ualloc n, s => ∀ i,
      FirstFit (Marked s.alloc) s.alloc.bitmap.count userIndex n i →
      i + n < 2 ^ 31
  | .kfree _, _ => True

/-! ## The invariant -/

/-- The block by page numbers. -/
def toBlock (kstart : BitVec 32) (b : AddrBlock) : Block :=
  ((b.1 - kstart).toNat / 4096, b.2)

/-- The block starts at a page of the range and ends at an `int`. -/
structure Placed (m : AddrAlloc) (b : AddrBlock) : Prop where
  addr : ∃ i < m.bitmap.count, b.1 = pageAddr m i ∧ i + b.2 < 2 ^ 31

/-- The marks are those of the blocks, which do not overlap. -/
structure Sound (s : Blocks) : Prop where
  pageSize : s.alloc.pageSize = memPageSize
  count_lt : s.alloc.bitmap.count < 2 ^ 20
  placed : ∀ b ∈ s.live, Placed s.alloc b
  owned : Owned s.alloc.bitmap.count (Marked s.alloc)
    (s.live.map (toBlock s.alloc.kernelstart))

/-- A page is as far from the first one as its index says. -/
theorem pageAddr_sub (m : AddrAlloc) {i : Nat} (hi : i < 2 ^ 20) :
    (pageAddr m i - m.kernelstart).toNat = 4096 * i := by
  unfold pageAddr
  rw [BitVec.add_comm, BitVec.add_sub_cancel, BitVec.toNat_mul,
    BitVec.toNat_ofNat, memPageSize_toNat]
  omega

/-- An address that was handed out names its pages. -/
theorem toBlock_pageAddr (m : AddrAlloc) {i : Nat} (hi : i < 2 ^ 20) (n : Nat) :
    toBlock m.kernelstart (pageAddr m i, n) = (i, n) := by
  unfold toBlock
  rw [pageAddr_sub m hi, Nat.mul_div_cancel_left i (by omega)]

/-- By addresses and by page numbers a placed block has the same pages. -/
theorem contains_iff {m : AddrAlloc} (hc : m.bitmap.count < 2 ^ 20)
    {b : AddrBlock} (hb : Placed m b) (j : Nat) :
    Contains m.kernelstart b j ↔ Covers (toBlock m.kernelstart b) j := by
  obtain ⟨a, n⟩ := b
  obtain ⟨i, hi, ha, -⟩ := hb.addr
  dsimp only at ha
  subst ha
  have hlt : i < 2 ^ 20 := by omega
  rw [toBlock_pageAddr m hlt]
  unfold Contains Covers
  dsimp only
  rw [pageAddr_sub m hlt]
  omega

/-- A block stays in a region that stays. -/
theorem Placed.of_sameRange {m m' : AddrAlloc} {b : AddrBlock}
    (h : Placed m b) (hs : SameRange m m') : Placed m' b := by
  obtain ⟨i, hi, ha, hlt⟩ := h.addr
  refine ⟨i, by rw [hs.1]; exact hi, ?_, hlt⟩
  rw [ha, pageAddr, pageAddr, hs.2.2]

/-- A change of bits alone that keeps the blocks owned keeps the rest. -/
theorem Sound.of_sameRange {s s' : Blocks} (h : Sound s)
    (hs : SameRange s.alloc s'.alloc)
    (hp : ∀ b ∈ s'.live, Placed s.alloc b)
    (ho : Owned s.alloc.bitmap.count (Marked s'.alloc)
      (s'.live.map (toBlock s.alloc.kernelstart))) : Sound s' where
  pageSize := hs.2.1.trans h.pageSize
  count_lt := by rw [hs.1]; exact h.count_lt
  placed := fun b hb => (hp b hb).of_sameRange hs
  owned := by rw [hs.1, hs.2.2]; exact ho

/-- The order of the blocks does not matter. -/
theorem Sound.perm {m : AddrAlloc} {live live' : List AddrBlock}
    (h : Sound ⟨m, live⟩) (hperm : live.Perm live') : Sound ⟨m, live'⟩ where
  pageSize := h.pageSize
  count_lt := h.count_lt
  placed := fun b hb => h.placed b (hperm.mem_iff.mpr hb)
  owned := h.owned.perm (hperm.map _)

/-! ## The steps -/

/-- **ALLOCATION** at a place that fits, with the block handed out or kept. -/
theorem Sound.alloc {s : Blocks} (h : Sound s) {start n i : Nat}
    (hfit : FirstFit (Marked s.alloc) s.alloc.bitmap.count start n i)
    {a : BitVec 32}
    (ha : a = pageAddr s.alloc i ∧ i + n < 2 ^ 31 ∨ a = 0) :
    Sound (handOut (a, marking s.alloc i n) n s) := by
  have hi := hfit.lt_bound
  have hlt : i < 2 ^ 20 := by have := h.count_lt; omega
  have hsame := marking_sameRange s.alloc i n
  have hkeep := (marking_grows s.alloc i n).marked
  -- kept blocks: only more bits may be marked
  have hold : Owned s.alloc.bitmap.count (Marked (marking s.alloc i n))
      (s.live.map (toBlock s.alloc.kernelstart)) := h.owned.mono hkeep
  by_cases h0 : a = 0
  · refine h.of_sameRange hsame ?_ ?_
    · show ∀ b ∈ (if a = 0 then s.live else _), _
      rw [if_pos h0]
      exact h.placed
    · show Owned _ _ ((if a = 0 then s.live else _).map _)
      rw [if_pos h0]
      exact hold
  · obtain ⟨hai, hov⟩ := ha.resolve_right h0
    refine h.of_sameRange hsame ?_ ?_
    · show ∀ b ∈ (if a = 0 then s.live else (a, n) :: s.live), _
      rw [if_neg h0]
      intro b hb
      rcases List.mem_cons.mp hb with rfl | hb
      · exact ⟨i, hi, hai, hov⟩
      · exact h.placed b hb
    · show Owned _ _ ((if a = 0 then s.live else (a, n) :: s.live).map _)
      rw [if_neg h0, List.map_cons, hai, toBlock_pageAddr s.alloc hlt]
      refine h.owned.alloc hfit.fits hkeep ?_
      intro p hp _
      refine (isSet_setBit hi hov 1 p).mpr ?_
      rw [if_pos hp]
      exact Nat.one_ne_zero

/-- What `kfree_pages` of a placed block does to the pages. -/
theorem marked_kfree {m : AddrAlloc} (hps : m.pageSize = memPageSize)
    (hc : m.bitmap.count < 2 ^ 20) {b : AddrBlock} (hb : Placed m b) (p : Nat) :
    Marked (kfreePages m b.1 b.2) p
      ↔ Marked m p ∧ ¬ Covers (toBlock m.kernelstart b) p := by
  obtain ⟨a, n⟩ := b
  obtain ⟨i, hi, ha, hov⟩ := hb.addr
  dsimp only at ha hov
  subst ha
  have hlt : i < 2 ^ 20 := by omega
  rw [toBlock_pageAddr m hlt]
  show IsSet (bitmapSetBit m.bitmap (pageIndexOf m (pageAddr m i)) n 0) p ↔ _
  rw [pageIndexOf_pageAddr hps hlt, isSet_setBit hi hov]
  by_cases hcov : Covers (i, n) p
  · simp [hcov]
  · simp [hcov, Marked]

/-- Freeing a block gives its pages back and no others. -/
theorem Sound.release {s : Blocks} (h : Sound s) {b : AddrBlock}
    (hb : b ∈ s.live) :
    Sound { alloc := kfreePages s.alloc b.1 b.2, live := s.live.erase b } := by
  refine h.of_sameRange (kfreePages_sameRange _ _ _) ?_ ?_
  · intro c hc
    exact h.placed c (List.mem_of_mem_erase hc)
  · have hperm := (List.perm_cons_erase hb).map (toBlock s.alloc.kernelstart)
    refine h.owned.release hperm ?_
    intro p _ hm hcov
    exact (marked_kfree h.pageSize h.count_lt (h.placed b hb) p).mpr ⟨hm, hcov⟩

/-- **EVERY STEP** without overflow keeps the live blocks sound. -/
theorem step_sound {o : Op} {s s' : Blocks} (h : Sound s)
    (hok : NoOverflow o s) (hs : step o s = some s') : Sound s' := by
  cases o with
  | kalloc n =>
      simp only [step] at hs
      by_cases hn : 1 ≤ n ∧ n < 2 ^ 31
      · rw [if_pos hn] at hs
        obtain rfl := Option.some.inj hs
        rcases kallocPages_spec s.alloc hn.1 with he | ⟨i, hfit, he⟩
        · rw [he]
          exact h
        · rw [he]
          refine h.alloc hfit ?_
          -- from page 1023 on the pages are marked and 0 is returned
          by_cases hi : 1023 ≤ i
          · exact Or.inr (if_pos hi)
          · rw [if_neg hi]
            exact Or.inl ⟨rfl, hok i (by omega) hfit⟩
      · rw [if_neg hn] at hs
        exact nomatch hs
  | ualloc n =>
      simp only [step] at hs
      by_cases hn : 1 ≤ n ∧ n < 2 ^ 31
      · rw [if_pos hn] at hs
        obtain rfl := Option.some.inj hs
        rcases uallocPages_spec s.alloc hn.1 with he | ⟨i, hfit, he⟩
        · rw [he]
          exact h
        · rw [he]
          exact h.alloc hfit (Or.inl ⟨rfl, hok i hfit⟩)
      · rw [if_neg hn] at hs
        exact nomatch hs
  | kfree b =>
      simp only [step] at hs
      by_cases hb : b ∈ s.live
      · rw [if_pos hb] at hs
        obtain rfl := Option.some.inj hs
        exact h.release hb
      · rw [if_neg hb] at hs
        exact nomatch hs

/-- At the start there are no blocks and no marks. -/
theorem start_sound (bits : Nat → BitVec 8) (size kstart ustart : BitVec 32) :
    Sound (start bits size kstart ustart) where
  pageSize := rfl
  count_lt := allocInit_count_lt bits size kstart ustart
  placed := by simp [start]
  owned := Owned.nil

/-- No page of the managed range is in two live blocks, and a release of a live
    block within the range frees exactly its pages. -/
def BlocksCorrect (s : Blocks) : Prop :=
  (∀ j < s.alloc.bitmap.count,
    s.live.countP (fun b => Contains s.alloc.kernelstart b j) ≤ 1) ∧
  ∀ b ∈ s.live,
    (∀ j, Contains s.alloc.kernelstart b j → j < s.alloc.bitmap.count) →
    ∀ j < s.alloc.bitmap.count,
      (Contains s.alloc.kernelstart b j → bitmapIsSet s.alloc.bitmap j = true) ∧
      bitmapIsSet (kfreePages s.alloc b.1 b.2).bitmap j
        = (bitmapIsSet s.alloc.bitmap j
          && !decide (Contains s.alloc.kernelstart b j))

/-- Sound blocks are inside the region, apart from each other, and marked. -/
theorem Sound.correct {s : Blocks} (h : Sound s) : BlocksCorrect s := by
  have hiff : ∀ b ∈ s.live, ∀ j, Contains s.alloc.kernelstart b j
      ↔ Covers (toBlock s.alloc.kernelstart b) j :=
    fun b hb j => contains_iff h.count_lt (h.placed b hb) j
  constructor
  · intro j hj
    have hone := h.owned.countP_le_one hj
    rw [List.countP_map] at hone
    refine Nat.le_trans (Nat.le_of_eq ?_) hone
    refine List.countP_congr ?_
    intro b hb
    simpa using hiff b hb j
  · intro b hb _ j hj
    have hfree := marked_kfree h.pageSize h.count_lt (h.placed b hb) j
    rw [← hiff b hb j] at hfree
    refine ⟨fun hc => ?_, ?_⟩
    · exact h.owned.busy _ (List.mem_map_of_mem hb) j ((hiff b hb j).mp hc) hj
    · rw [Bool.eq_iff_iff]
      simpa [IsSet] using hfree

/-- **DISJOINT LIVE BLOCKS**: in a run without overflow no page of the managed
    range belongs to two live blocks, and freeing a live block frees exactly
    its pages. -/
theorem blocks_of_run (bits : Nat → BitVec 8) (size kstart ustart : BitVec 32)
    {os : List Op} {s : Blocks}
    (h : Run step NoOverflow (start bits size kstart ustart) os s) :
    BlocksCorrect s :=
  (h.invariant (start_sound bits size kstart ustart)
    (fun _ _ _ hs hok hstep => step_sound hs hok hstep)).correct

/-! ## A request that overflows, and a run without -/

/-- The same place handed out twice. -/
theorem handOut_twice {s : Blocks} {i n : Nat} (hc : s.alloc.bitmap.count < 2 ^ 20)
    (hi : i < s.alloc.bitmap.count) (hn : 1 ≤ n) (h0 : pageAddr s.alloc i ≠ 0) :
    ¬ BlocksCorrect (handOut (pageAddr s.alloc i, s.alloc) n
      (handOut (pageAddr s.alloc i, s.alloc) n s)) := by
  intro hcorrect
  have hone := hcorrect.1 i hi
  have hcont : Contains s.alloc.kernelstart (pageAddr s.alloc i, n) i := by
    unfold Contains
    dsimp only
    rw [pageAddr_sub s.alloc (by omega)]
    omega
  simp only [handOut, if_neg h0] at hone
  rw [List.countP_cons_of_pos (by simpa using hcont),
    List.countP_cons_of_pos (by simpa using hcont)] at hone
  omega

/-- **A REQUEST THAT OVERFLOWS**, made twice, gets the same block twice. -/
theorem overflow_twice {o : Op} {s s₁ : Blocks} (h : Sound s)
    (hs : step o s = some s₁) (hov : ¬ NoOverflow o s)
    (h0 : ∀ i < s.alloc.bitmap.count, pageAddr s.alloc i ≠ 0) :
    ∃ s₂, step o s₁ = some s₂ ∧ ¬ BlocksCorrect s₂ := by
  have hc := h.count_lt
  cases o with
  | kalloc n =>
      simp only [NoOverflow, not_forall] at hov
      obtain ⟨i, hlt, hfit, hge⟩ := hov
      have hi := hfit.lt_bound
      by_cases hn : 1 ≤ n ∧ n < 2 ^ 31
      -- the loop of `bitmap_set_bit` does not run, so the same block is found again
      · have hr : kallocPages s.alloc n = (pageAddr s.alloc i, s.alloc) := by
          rw [kallocPages_of_firstFit hn.1 hfit hlt,
            marking_wrap (by omega) hn.2 (by omega)]
        simp only [step, if_pos hn, hr] at hs
        obtain rfl := Option.some.inj hs
        refine ⟨_, if_pos hn, ?_⟩
        show ¬ BlocksCorrect (handOut (kallocPages s.alloc n) n _)
        rw [hr]
        exact handOut_twice hc hi hn.1 (h0 i hi)
      · simp only [step, if_neg hn] at hs
        exact nomatch hs
  | ualloc n =>
      simp only [NoOverflow, not_forall] at hov
      obtain ⟨i, hfit, hge⟩ := hov
      have hi := hfit.lt_bound
      by_cases hn : 1 ≤ n ∧ n < 2 ^ 31
      · have hr : uallocPages s.alloc n = (pageAddr s.alloc i, s.alloc) := by
          rw [uallocPages_of_firstFit hn.1 hfit,
            marking_wrap (by omega) hn.2 (by omega)]
        simp only [step, if_pos hn, hr] at hs
        obtain rfl := Option.some.inj hs
        refine ⟨_, if_pos hn, ?_⟩
        show ¬ BlocksCorrect (handOut (uallocPages s.alloc n) n _)
        rw [hr]
        exact handOut_twice hc hi hn.1 (h0 i hi)
      · simp only [step, if_neg hn] at hs
        exact nomatch hs
  | kfree b => exact absurd trivial hov

/-- Four pages from 1 MB on. -/
def four : Blocks :=
  start (fun _ => 0) (4 * memPageSize) memKernelfreeStart memUserfreeStart

/-- Requests whose end overflows. -/
def overflowRun : List Op := [.kalloc 1, .kalloc (2 ^ 31 - 1), .kalloc 1]

private theorem overflowRun_isSome :
    (exec step (fun _ _ => True) overflowRun four).isSome = true := by
  decide +kernel

/-- The second request gets page 1, which stays free, and so does the third. -/
theorem overflow_overlap :
    ¬ ∀ (os : List Op) (s : Blocks),
        Run step (fun _ _ => True) four os s → BlocksCorrect s := by
  intro hall
  have hone := (hall _ _ (Run.of_isSome overflowRun_isSome)).1 1 (by decide +kernel)
  exact absurd hone (by decide +kernel)

/-- Requests that cannot overflow anywhere in the range. -/
def SmallRequest : Op → Blocks → Prop
  | .kalloc n, s => s.alloc.bitmap.count + n ≤ 2 ^ 31
  | .ualloc n, s => s.alloc.bitmap.count + n ≤ 2 ^ 31
  | .kfree _, _ => True

instance (o : Op) (s : Blocks) : Decidable (SmallRequest o s) := by
  cases o <;> simp only [SmallRequest] <;> infer_instance

/-- Small requests do not overflow. -/
theorem SmallRequest.noOverflow {o : Op} {s : Blocks} (h : SmallRequest o s) :
    NoOverflow o s := by
  cases o with
  | kalloc n =>
      intro i _ hfit
      have := hfit.lt_bound
      simp only [SmallRequest] at h
      omega
  | ualloc n =>
      intro i hfit
      have := hfit.lt_bound
      simp only [SmallRequest] at h
      omega
  | kfree b => exact trivial

/-- Two blocks, the first one freed and its pages given away again. -/
def reuseRun : List Op :=
  [.kalloc 2, .kalloc 1, .kfree (memKernelfreeStart, 2), .kalloc 1]

private theorem reuseRun_isSome :
    (exec step SmallRequest reuseRun four).isSome = true := by decide +kernel

/-- A run that frees a block and gets it again. -/
theorem blocks_of_run_reuse :
    ∃ s, exec step SmallRequest reuseRun four = some s ∧ s.live.length = 2 ∧
      BlocksCorrect s :=
  ⟨_, (Option.some_get reuseRun_isSome).symm, by decide +kernel,
    blocks_of_run _ _ _ _
      ((Run.of_isSome reuseRun_isSome).mono (fun _ _ h => h.noOverflow))⟩

end LittleOS.MemoryBlocks
