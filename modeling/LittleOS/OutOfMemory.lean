import LittleOS.Lib.Turns
import LittleOS.AddressLookup
import LittleOS.AllocatedTables

/-! # Out of memory in the page tables

    The events of a call are the allocations that fail in it, the frames it
    writes, those it uses as a directory and those it maps.  An allocation that
    fails answers 0, and page 0 is a page.

    * `find_pte` looks at the answer;
    * `vaddr2paddr` returns when `find_pte` fails, behind the pages it has mapped
      so far;
    * `create_page_table` goes on with page 0 as the directory;
    * `copy_pagetable` maps page 0 and copies to it.

    What a call leaves alone is said of each function, of `copy_pagetable` turn by
    turn: `findPte_spares`, `map_contained_iff`, `create_failed`,
    `copy_spares_iff`. -/

namespace LittleOS.OutOfMemory

open TwoLevel Turns Memory PageTable AddressSpaces KernelBoot SharedTable AddressLookup
  AllocatedTables

/-! ## Events -/

/-- What a call does, as far as it matters here: an allocation that fails, a frame that
    is written, one that serves as a directory, one that is mapped. -/
inductive Event where
  | failed
  | wrote (f : Frame)
  | directory (d : Frame)
  | mapped (d f : Frame)
deriving DecidableEq

/-- The events of `find_pte`. -/
def findPteEvents (dir : Frame) (vaddr : Word) (m : Mmu) : List Event :=
  .directory dir ::
    if Present (m.mem dir (vaddrDir vaddr)) then []
    else
      let pageTableAddr := (kallocPages m.alloc 1).1
      if pageTableAddr = 0 then [.failed]
      else [.wrote dir, .wrote (frameOf pageTableAddr)]

/-- Of the loop of `vaddr2paddr`. -/
def mapEvents (dir : Frame) (perm : Word) : Nat → Word → Word → Mmu → List Event
  | 0, _, _, _ => []
  | count + 1, vaddr, paddr, m =>
      findPteEvents dir vaddr m ++
        match findPte dir vaddr m with
        | (none, _) => []
        | (some (table, slot), m) =>
            .wrote table :: .mapped dir (frameOf paddr) ::
              mapEvents dir perm count (vaddr + memPageSize) (paddr + memPageSize)
                { m with mem := m.mem.set table slot (paddr ||| perm ||| pteP) }

/-- The events of `create_page_table`. -/
def createEvents (m : Mmu) : List Event :=
  let dir := (uallocPages m.alloc 1).1
  (if dir = 0 then [.failed] else []) ++ [.wrote (frameOf dir), .directory (frameOf dir)]

/-- `(i << 22) | (j << 12)`. -/
def entryVaddr (i j : Nat) : Word := (BitVec.ofNat 32 i <<< 22) ||| (BitVec.ofNat 32 j <<< 12)

/-- Of one turn of the inner loop of `copy_pagetable`. -/
def copyEntryEvents (cr3 toPageDir table : Frame) (i : Nat) (m : Mmu) (j : Nat) :
    List Event :=
  let pte := m.mem table (BitVec.ofNat 10 j)
  if Present pte then
    let r := uallocPages m.alloc 1
    let page := r.1
    let vaddr := entryVaddr i j
    (if page = 0 then [.failed] else []) ++
      mapEvents toPageDir (pte &&& 0x1FF) 1 vaddr page { m with alloc := r.2 } ++
      match walkAt (vaddr2paddr toPageDir vaddr page 1 (pte &&& 0x1FF)
          { m with alloc := r.2 }).mem cr3 vaddr with
      | some _ => [.wrote (frameOf page)]
      | none => []
  else []

/-- Of one turn of the outer loop. -/
def copyTableEvents (cr3 toPageDir dir : Frame) (m : Mmu) (i : Nat) : List Event :=
  let pde := m.mem dir (BitVec.ofNat 10 i)
  if Present pde then
    eventsAlong (copyEntry cr3 toPageDir (frameOf pde) i)
      (copyEntryEvents cr3 toPageDir (frameOf pde) i) m (List.range 1024)
  else []

/-- The events of `copy_pagetable`. -/
def copyEvents (kernelTable cr3 dir : Frame) (m : Mmu) : List Event :=
  let r := createPageTable kernelTable m
  let toPageDir := frameOf r.1
  createEvents m ++
    eventsAlong (copyTable cr3 toPageDir dir) (copyTableEvents cr3 toPageDir dir) r.2
      (List.range' userPdeStart (1024 - userPdeStart))

/-! ## Calls -/

/-- The calls that allocate pages for directories and tables. -/
inductive Call where
  | findPte (dir : Frame) (vaddr : Word)
  | vaddr2paddr (dir : Frame) (vaddr paddr : Word) (count : Nat) (perm : Word)
  | createPageTable
  | copyPagetable (cr3 dir : Frame)

namespace Call

variable (K : Frame)

/-- The events of a call. -/
def events : Call → Mmu → List Event
  | .findPte dir vaddr, m => findPteEvents dir vaddr m
  | .vaddr2paddr dir vaddr paddr count perm, m => mapEvents dir perm count vaddr paddr m
  | .createPageTable, m => createEvents m
  | .copyPagetable cr3 dir, m => copyEvents K cr3 dir m

/-- The memory after a call. -/
def after : Call → Mmu → Mmu
  | .findPte dir vaddr, m => (PageTable.findPte dir vaddr m).2
  | .vaddr2paddr dir vaddr paddr count perm, m =>
      PageTable.vaddr2paddr dir vaddr paddr count perm m
  | .createPageTable, m => (PageTable.createPageTable K m).2
  | .copyPagetable cr3 dir, m => (PageTable.copyPagetable K cr3 dir m).2

/-- The directory of a call is one, and so is the one in CR3. -/
def Valid (dirs : List Frame) : Call → Prop
  | .findPte dir _ => dir ∈ K :: dirs
  | .vaddr2paddr dir _ _ _ _ => dir ∈ K :: dirs
  | .createPageTable => True
  | .copyPagetable cr3 dir => cr3 ∈ K :: dirs ∧ dir ∈ K :: dirs

end Call

/-- Page 0 is not written, no directory and no page of a process. -/
def Spares (K : Frame) : Event → Prop
  | .failed => True
  | .wrote f => f ≠ 0
  | .directory d => d ≠ 0
  | .mapped d f => d = K ∨ f ≠ 0

/-- Page 0 is spared, and `vaddr2paddr` changes no translation. -/
structure Contained (K : Frame) (c : Call) (m : Mmu) : Prop where
  spares : ∀ e ∈ c.events K m, Spares K e
  translations : ∀ dir vaddr paddr count perm,
    c = .vaddr2paddr dir vaddr paddr count perm →
    ∀ v, walkAt (c.after K m).mem dir v = walkAt m.mem dir v

/-- Every page before the first without a page table is mapped as it is to be, and
    there is no page for the table. -/
def MapsNothing (K dir : Frame) (vaddr paddr : Word) (count : Nat) (perm : Word)
    (m : Mmu) : Prop :=
  ∃ k < count,
    (∀ i < k, walkAt m.mem dir (pagesFrom vaddr i) = some (newPte (pagesFrom paddr i) perm) ∧
      (dir = K ∨ frameOf (pagesFrom paddr i) ≠ 0)) ∧
    ¬ Present (m.mem dir (vaddrDir (pagesFrom vaddr k))) ∧ (kallocPages m.alloc 1).1 = 0

/-- There is a page for the copy; or neither a page nor the page table for it, and
    the page to copy from is not mapped. -/
def PageGiven (cr3 toPageDir : Frame) (i j : Nat) (m : Mmu) : Prop :=
  (uallocPages m.alloc 1).1 ≠ 0 ∨
    ¬ Present (m.mem toPageDir (vaddrDir (entryVaddr i j))) ∧
      (kallocPages (uallocPages m.alloc 1).2 1).1 = 0 ∧
      walkAt m.mem cr3 (entryVaddr i j) = none

/-- There is a page for the directory, and one before every copy. -/
def PagesGiven (K cr3 dir : Frame) (m : Mmu) : Prop :=
  (uallocPages m.alloc 1).1 ≠ 0 ∧
    ∀ m₁ i, Turn (copyTable cr3 (frameOf (createPageTable K m).1) dir)
        (createPageTable K m).2 (List.range' userPdeStart (1024 - userPdeStart)) m₁ i →
      Present (m₁.mem dir (BitVec.ofNat 10 i)) →
    ∀ m₂ j, Turn (copyEntry cr3 (frameOf (createPageTable K m).1)
        (frameOf (m₁.mem dir (BitVec.ofNat 10 i))) i) m₁ (List.range 1024) m₂ j →
      Present (m₂.mem (frameOf (m₁.mem dir (BitVec.ofNat 10 i))) (BitVec.ofNat 10 j)) →
    PageGiven cr3 (frameOf (createPageTable K m).1) i j m₂

section Calls

variable {K dir : Frame} {dirs : List Frame} {m m₁ : Mmu} {vaddr : Word}

/-! ## `find_pte` -/

/-- Where there is no page for a table the call fails and writes nothing. -/
theorem misses_events (h : Misses dir vaddr m) :
    findPteEvents dir vaddr m = [.directory dir, .failed] := by
  unfold findPteEvents
  dsimp only
  rw [if_neg h.missing, if_pos h.failed]

/-- Where it finds an entry no allocation failed. -/
theorem finds_not_failed (h : Finds K dirs dir vaddr m m₁) :
    .failed ∉ findPteEvents dir vaddr m := by
  have hfound := h.found
  unfold findPteEvents
  unfold findPte at hfound
  dsimp only at hfound ⊢
  by_cases hp : Present (m.mem dir (vaddrDir vaddr))
  · rw [if_pos hp]
    simp
  · rw [if_neg hp] at hfound ⊢
    by_cases hz : (kallocPages m.alloc 1).1 = 0
    · rw [if_pos hz] at hfound
      exact nomatch congrArg Prod.fst hfound
    · rw [if_neg hz]
      simp

/-- **`find_pte`** spares page 0. -/
theorem findPte_spares (h : Allocated K dirs m) (hd : dir ∈ K :: dirs) :
    ∀ e ∈ findPteEvents dir vaddr m, Spares K e := by
  have hdir : dir ≠ 0 := h.ne_zero (Or.inl hd)
  unfold findPteEvents
  dsimp only
  intro e he
  rcases List.mem_cons.mp he with rfl | he
  · exact hdir
  by_cases hp : Present (m.mem dir (vaddrDir vaddr))
  · rw [if_pos hp] at he
    exact nomatch he
  · rw [if_neg hp] at he
    by_cases hz : (kallocPages m.alloc 1).1 = 0
    · rw [if_pos hz] at he
      rw [List.mem_singleton.mp he]
      trivial
    · rw [if_neg hz] at he
      rcases List.mem_cons.mp he with rfl | he
      · exact hdir
      · rw [List.mem_singleton.mp he]
        exact HeldFrame.ne_zero (kallocPages_gives h.range hz).held

/-- So does a request in vain. -/
theorem misses_spares (h : Allocated K dirs m) (hd : dir ∈ K :: dirs)
    (hmiss : Misses dir vaddr m) : ∀ e ∈ [.directory dir, .failed], Spares K e := by
  rw [← misses_events hmiss]
  exact findPte_spares h hd

/-! ## `vaddr2paddr` -/

/-- `vaddr2paddr` then prints its message and stops. -/
theorem mapLoop_misses (h : Misses dir vaddr m) (n : Nat) (paddr perm : Word) :
    mapLoop dir perm (n + 1) vaddr paddr m = { m with alloc := (kallocPages m.alloc 1).2 } ∧
    mapEvents dir perm (n + 1) vaddr paddr m = [.directory dir, .failed] := by
  constructor
  · rw [mapLoop, h.answer]
  · rw [mapEvents, h.answer, misses_events h]
    rfl

/-- Where the table is there or can be had, the entry is written and the loop goes on. -/
theorem mapLoop_finds (h : Finds K dirs dir vaddr m m₁) (n : Nat) (paddr perm : Word) :
    mapLoop dir perm (n + 1) vaddr paddr m
        = mapLoop dir perm n (vaddr + memPageSize) (paddr + memPageSize)
          (writeEntry dir vaddr (newPte paddr perm) m₁) ∧
    mapEvents dir perm (n + 1) vaddr paddr m
        = findPteEvents dir vaddr m ++
          .wrote (frameOf (m₁.mem dir (vaddrDir vaddr))) :: .mapped dir (frameOf paddr) ::
            mapEvents dir perm n (vaddr + memPageSize) (paddr + memPageSize)
              (writeEntry dir vaddr (newPte paddr perm) m₁) := by
  constructor
  · rw [mapLoop, h.found]
    rfl
  · rw [mapEvents, h.found]
    rfl

/-- No table is in page 0. -/
theorem finds_table_ne_zero (h : Finds K dirs dir vaddr m m₁) (hd : dir ∈ K :: dirs) :
    frameOf (m₁.mem dir (vaddrDir vaddr)) ≠ 0 :=
  h.allocated.ne_zero (Or.inr ⟨dir, hd, _, h.present, rfl⟩)

/-- An entry written again is what it was. -/
theorem writeEntry_same {pte : Word} (h : walkAt m.mem dir vaddr = some pte) :
    writeEntry dir vaddr pte m = m := by
  obtain ⟨-, hentry⟩ := walkAt_some h
  have hmem : m.mem.set (frameOf (m.mem dir (vaddrDir vaddr))) (vaddrTable vaddr) pte
      = m.mem := by
    funext f i
    unfold Store.set
    split
    · next hc => rw [hc.1, hc.2, hentry]
    · rfl
  unfold writeEntry
  rw [hmem]

/-- **NOTHING IS MAPPED**: the pages before the failure are written as they are.
    Induction over them. -/
theorem mapsNothing_spec {perm : Word} (h : Allocated K dirs m) (hd : dir ∈ K :: dirs)
    (hz : (kallocPages m.alloc 1).1 = 0) :
    ∀ (k n : Nat) (vaddr paddr : Word), k < n →
      (∀ i < k, walkAt m.mem dir (pagesFrom vaddr i) = some (newPte (pagesFrom paddr i) perm) ∧
        (dir = K ∨ frameOf (pagesFrom paddr i) ≠ 0)) →
      ¬ Present (m.mem dir (vaddrDir (pagesFrom vaddr k))) →
      (mapLoop dir perm n vaddr paddr m).mem = m.mem ∧
        ∀ e ∈ mapEvents dir perm n vaddr paddr m, Spares K e := by
  intro k
  induction k with
  | zero =>
      intro n vaddr paddr hn _ hmissing
      obtain ⟨n, rfl⟩ := Nat.exists_eq_succ_of_ne_zero (Nat.ne_of_gt hn)
      rw [pagesFrom_zero] at hmissing
      have hmiss := misses_of_failed hmissing hz
      obtain ⟨hloop, hevents⟩ := mapLoop_misses hmiss n paddr perm
      rw [hloop, hevents]
      exact ⟨rfl, misses_spares h hd hmiss⟩
  | succ k ih =>
      intro n vaddr paddr hn hsame hmissing
      obtain ⟨n, rfl⟩ := Nat.exists_eq_succ_of_ne_zero (Nat.ne_zero_of_lt hn)
      obtain ⟨hwalk, hpage⟩ := hsame 0 (Nat.succ_pos k)
      rw [pagesFrom_zero, pagesFrom_zero] at hwalk
      rw [pagesFrom_zero] at hpage
      have hpresent := (walkAt_some hwalk).1
      rcases h.findPte hd vaddr with hmiss | ⟨m₁, hfind⟩
      · exact absurd hpresent hmiss.missing
      -- the table is there, and so is the entry
      obtain rfl := hfind.same hpresent
      obtain ⟨hloop, hevents⟩ := mapLoop_finds hfind n paddr perm
      have hrest := ih n (vaddr + memPageSize) (paddr + memPageSize) (by omega)
        (fun i hi => by
          rw [pagesFrom_succ, pagesFrom_succ]
          exact hsame (i + 1) (by omega))
        (by rw [pagesFrom_succ]; exact hmissing)
      rw [hloop, hevents, writeEntry_same hwalk]
      refine ⟨hrest.1, fun e he => ?_⟩
      rcases List.mem_append.mp he with he | he
      · exact findPte_spares h hd e he
      rcases List.mem_cons.mp he with rfl | he
      · exact finds_table_ne_zero hfind hd
      rcases List.mem_cons.mp he with rfl | he
      · exact hpage
      · exact hrest.2 e he

/-- The first failure of the loop is that of page `k`. -/
structure FailsAt (dir : Frame) (perm : Word) (k : Nat) (vaddr paddr : Word)
    (m m' : Mmu) : Prop where
  before : ∀ i < k, Present (m'.mem dir (vaddrDir (pagesFrom vaddr i)))
  missing : ¬ Present (m'.mem dir (vaddrDir (pagesFrom vaddr k)))
  mapped : ∀ i < k, walkAt m'.mem dir (pagesFrom vaddr i)
    = some (newPte (pagesFrom paddr i) perm)
  others : ∀ v, (∀ i < k, pageOf v ≠ pageOf (pagesFrom vaddr i)) →
    walkAt m'.mem dir v = walkAt m.mem dir v
  roots : ∀ i, Present (m.mem dir i) → m'.mem dir i = m.mem dir i
  first : (∀ i < k, Present (m.mem dir (vaddrDir (pagesFrom vaddr i)))) →
    (kallocPages m.alloc 1).1 = 0

/-- Fewer pages than the address space has come before it. -/
theorem FailsAt.lt {perm vaddr paddr : Word} {k : Nat} {m' : Mmu}
    (h : FailsAt dir perm k (vaddr + memPageSize) paddr m m')
    (hp : Present (m'.mem dir (vaddrDir vaddr))) : k + 1 < 2 ^ 20 := by
  have hpage : ∀ {v w : Word}, pageOf v = pageOf w → vaddrDir v = vaddrDir w :=
    fun hvw => ((samePage_iff _ _).mpr hvw).1
  by_contra hge
  -- page `k` is that of 2 ^ 20 pages before
  by_cases hk : k + 1 = 2 ^ 20
  · refine h.missing ?_
    rw [hpage (w := vaddr)]
    · exact hp
    · rw [pagesFrom_succ, pageOf_pagesFrom, hk]
      have := vaddr.isLt
      unfold pageOf
      omega
  · refine h.missing ?_
    rw [hpage (w := pagesFrom (vaddr + memPageSize) (k - 2 ^ 20))]
    · exact h.before _ (by omega)
    · rw [pageOf_pagesFrom, pageOf_pagesFrom]
      omega

/-- A failure with no page mapped before it. -/
theorem failsAt_zero (h : Misses dir vaddr m) (perm paddr : Word) :
    FailsAt dir perm 0 vaddr paddr m { m with alloc := (kallocPages m.alloc 1).2 } where
  before := fun i hi => absurd hi (Nat.not_lt_zero i)
  missing := by
    rw [pagesFrom_zero]
    exact h.missing
  mapped := fun i hi => absurd hi (Nat.not_lt_zero i)
  others := fun _ _ => rfl
  roots := fun _ _ => rfl
  first := fun _ => h.failed

/-- **ONE PAGE MORE** is mapped before a failure of the later turns. -/
theorem FailsAt.cons {perm paddr : Word} {k : Nat} {m₂ m' : Mmu}
    (h : FailsAt dir perm k (vaddr + memPageSize) (paddr + memPageSize) m₂ m')
    (hwrite : Writes K dirs dir vaddr (newPte paddr perm) m m₂)
    (hsame : Present (m.mem dir (vaddrDir vaddr)) → m₂.alloc = m.alloc) :
    FailsAt dir perm (k + 1) vaddr paddr m m' := by
  have hp' : Present (m'.mem dir (vaddrDir vaddr)) := by
    rw [h.roots _ hwrite.present]
    exact hwrite.present
  have hlt := h.lt hp'
  refine ⟨?_, ?_, ?_, ?_, ?_, ?_⟩
  · intro i hi
    cases i with
    | zero => rw [pagesFrom_zero]; exact hp'
    | succ i => rw [← pagesFrom_succ]; exact h.before i (by omega)
  · rw [← pagesFrom_succ]
    exact h.missing
  · intro i hi
    cases i with
    | zero =>
        -- the later pages are others
        rw [pagesFrom_zero, pagesFrom_zero,
          h.others vaddr (fun i hi => pageOf_ne_next vaddr (by omega)),
          hwrite.walks vaddr, if_pos rfl]
    | succ i =>
        rw [← pagesFrom_succ, ← pagesFrom_succ]
        exact h.mapped i (by omega)
  · intro v hv
    have hv0 := hv 0 (Nat.succ_pos k)
    rw [pagesFrom_zero] at hv0
    rw [h.others v (fun i hi => by rw [pagesFrom_succ]; exact hv (i + 1) (by omega)),
      hwrite.walks v, if_neg hv0]
  · intro i hp
    have hroot := hwrite.roots i hp
    rw [h.roots i (by rw [hroot]; exact hp), hroot]
  · -- with the tables before it present the first request is the one that fails
    intro hall
    have h0 := hall 0 (Nat.succ_pos k)
    rw [pagesFrom_zero] at h0
    rw [← hsame h0]
    refine h.first (fun i hi => ?_)
    have hi' := hall (i + 1) (by omega)
    rw [← pagesFrom_succ] at hi'
    rw [hwrite.roots _ hi']
    exact hi'

/-- **A FAILURE** leaves the pages before it mapped.  Induction over the pages
    still to map. -/
theorem mapLoop_fails {perm : Word} (hd : dir ∈ K :: dirs) :
    ∀ (n : Nat) (vaddr paddr : Word) (m : Mmu), Allocated K dirs m →
      .failed ∈ mapEvents dir perm n vaddr paddr m →
      ∃ k < n, FailsAt dir perm k vaddr paddr m (mapLoop dir perm n vaddr paddr m) ∧
        ∀ i < k, .mapped dir (frameOf (pagesFrom paddr i))
          ∈ mapEvents dir perm n vaddr paddr m := by
  intro n
  induction n with
  | zero => intro vaddr paddr m _ hf; exact nomatch hf
  | succ n ih =>
      intro vaddr paddr m h hf
      rcases h.findPte hd vaddr with hmiss | ⟨m₁, hfind⟩
      · refine ⟨0, Nat.succ_pos n, ?_, fun i hi => absurd hi (Nat.not_lt_zero i)⟩
        rw [(mapLoop_misses hmiss n paddr perm).1]
        exact failsAt_zero hmiss perm paddr
      · have hwrite := hfind.write hd (v := newPte paddr perm) (present_or_one _)
        obtain ⟨hloop, hevents⟩ := mapLoop_finds hfind n paddr perm
        have hnot := finds_not_failed hfind
        -- the failure is one of the later turns
        rw [hevents] at hf
        have hrest : .failed ∈ mapEvents dir perm n (vaddr + memPageSize)
            (paddr + memPageSize) (writeEntry dir vaddr (newPte paddr perm) m₁) := by
          rcases List.mem_append.mp hf with he | he
          · exact absurd he hnot
          · simpa using he
        obtain ⟨k, hk, hat, hmapped⟩ := ih _ _ _ hwrite.allocated hrest
        rw [hloop, hevents]
        refine ⟨k + 1, by omega, hat.cons hwrite (fun hp => ?_), ?_⟩
        · show m₁.alloc = m.alloc
          rw [hfind.same hp]
        · intro i hi
          refine List.mem_append_right _ (List.mem_cons_of_mem _ ?_)
          cases i with
          | zero => rw [pagesFrom_zero]; exact List.mem_cons_self ..
          | succ i =>
              rw [← pagesFrom_succ]
              exact List.mem_cons_of_mem _ (hmapped i (by omega))

/-- **`vaddr2paddr`** is contained exactly if nothing has been mapped. -/
theorem map_contained_iff {vaddr paddr perm : Word} {count : Nat} (h : Allocated K dirs m)
    (hd : dir ∈ K :: dirs) (hf : .failed ∈ mapEvents dir perm count vaddr paddr m) :
    Contained K (.vaddr2paddr dir vaddr paddr count perm) m ↔
      MapsNothing K dir vaddr paddr count perm m := by
  constructor
  · intro hc
    have hsame := hc.translations dir vaddr paddr count perm rfl
    obtain ⟨k, hk, hat, hmapped⟩ := mapLoop_fails hd count vaddr paddr m h hf
    have hbefore : ∀ i < k, walkAt m.mem dir (pagesFrom vaddr i)
        = some (newPte (pagesFrom paddr i) perm) :=
      fun i hi => (hsame _).symm.trans (hat.mapped i hi)
    refine ⟨k, hk, fun i hi => ⟨hbefore i hi, hc.spares _ (hmapped i hi)⟩, ?_, ?_⟩
    · intro hp
      refine hat.missing ?_
      rw [hat.roots _ hp]
      exact hp
    · exact hat.first (fun i hi => (walkAt_some (hbefore i hi)).1)
  · rintro ⟨k, hk, hsame, hmissing, hz⟩
    obtain ⟨hmem, hspares⟩ := mapsNothing_spec h hd hz k count vaddr paddr hk hsame hmissing
    refine ⟨hspares, ?_⟩
    intro dir' vaddr' paddr' count' perm' hcall v
    obtain ⟨rfl, rfl, rfl, rfl, rfl⟩ := Call.vaddr2paddr.inj hcall
    exact congrArg (fun mem => walkAt mem dir v) hmem

end Calls

/-! ## `create_page_table` -/

/-- The null pointer is in page 0. -/
theorem frameOf_zero : frameOf 0 = 0 := by decide

/-- `create_page_table` fails where there is no page for the user. -/
theorem create_failed_iff {m : Mmu} :
    .failed ∈ createEvents m ↔ (uallocPages m.alloc 1).1 = 0 := by
  unfold createEvents
  dsimp only
  by_cases hz : (uallocPages m.alloc 1).1 = 0
  · rw [if_pos hz]
    exact iff_of_true (List.mem_append_left _ (List.mem_singleton_self _)) hz
  · rw [if_neg hz]
    refine iff_of_false ?_ hz
    simp

/-- A directory in page 0 is written and used. -/
theorem create_failed {K : Frame} {m : Mmu} (hz : (uallocPages m.alloc 1).1 = 0) :
    ¬ ∀ e ∈ createEvents m, Spares K e := by
  intro hall
  have hwrote := hall (.wrote (frameOf (uallocPages m.alloc 1).1))
    (List.mem_append_right _ (List.mem_cons_self ..))
  rw [hz] at hwrote
  exact hwrote frameOf_zero

/-- Where there is one, it writes to that page only. -/
theorem create_spares {K : Frame} {dirs : List Frame} {m : Mmu} (h : Allocated K dirs m)
    (hz : (uallocPages m.alloc 1).1 ≠ 0) : ∀ e ∈ createEvents m, Spares K e := by
  have hne := HeldFrame.ne_zero (uallocPages_gives h.range hz).held
  unfold createEvents
  dsimp only
  rw [if_neg hz, List.nil_append]
  intro e he
  rcases List.mem_cons.mp he with rfl | he
  · exact hne
  · rw [List.mem_singleton.mp he]
    exact hne

/-! ## `copy_pagetable` -/

section Copy

variable {K D cr3 table : Frame} {ds : List Frame} {m : Mmu} {i j : Nat}
  {u : Word × AddrAlloc}

/-- No entry is found only where there is no page for a table. -/
theorem findPte_none {dir : Frame} {vaddr : Word} (h : (findPte dir vaddr m).1 = none) :
    Misses dir vaddr m := by
  by_cases hp : Present (m.mem dir (vaddrDir vaddr))
  · unfold findPte at h
    dsimp only at h
    rw [if_pos hp] at h
    exact nomatch h
  · refine misses_of_failed hp ?_
    by_contra hz
    unfold findPte at h
    dsimp only at h
    rw [if_neg hp, if_neg hz] at h
    exact nomatch h

/-- An entry that is not present is passed over. -/
theorem copyEntry_absent (cr3 D : Frame) (i : Nat)
    (hp : ¬ Present (m.mem table (BitVec.ofNat 10 j))) :
    copyEntry cr3 D table i m j = m ∧ copyEntryEvents cr3 D table i m j = [] := by
  unfold copyEntry copyEntryEvents
  dsimp only
  rw [if_neg hp, if_neg hp]
  exact ⟨rfl, rfl⟩

/-- The turn of a page: it is asked for, mapped and copied to. -/
theorem copyEntry_present (cr3 D : Frame) (i : Nat) (hu : uallocPages m.alloc 1 = u)
    (hp : Present (m.mem table (BitVec.ofNat 10 j))) :
    ∃ perm m', mapLoop D perm 1 (entryVaddr i j) u.1 ⟨m.mem, u.2⟩ = m' ∧
      copyEntry cr3 D table i m j
        = ⟨copyPage cr3 (frameOf u.1) (entryVaddr i j) m'.mem, m'.alloc⟩ ∧
      copyEntryEvents cr3 D table i m j
        = (if u.1 = 0 then [.failed] else []) ++
          mapEvents D perm 1 (entryVaddr i j) u.1 ⟨m.mem, u.2⟩ ++
          match walkAt m'.mem cr3 (entryVaddr i j) with
          | some _ => [.wrote (frameOf u.1)]
          | none => [] := by
  refine ⟨m.mem table (BitVec.ofNat 10 j) &&& 0x1FF, _, rfl, ?_, ?_⟩
  · unfold copyEntry
    dsimp only
    rw [if_pos hp, hu]
    rfl
  · unfold copyEntryEvents
    dsimp only
    rw [if_pos hp, hu]
    rfl

/-- The events of mapping one page. -/
theorem mapOne_spares (h : Allocated K ds m) (hD : D ∈ K :: ds) {vaddr page : Word}
    (perm : Word) (hpage : frameOf page ≠ 0) :
    ∀ e ∈ mapEvents D perm 1 vaddr page m, Spares K e := by
  rcases h.findPte hD vaddr with hmiss | ⟨m₁, hfind⟩
  · rw [(mapLoop_misses hmiss 0 page perm).2]
    exact misses_spares h hD hmiss
  · rw [(mapLoop_finds hfind 0 page perm).2]
    intro e he
    rcases List.mem_append.mp he with he | he
    · exact findPte_spares h hD e he
    rcases List.mem_cons.mp he with rfl | he
    · exact finds_table_ne_zero hfind hD
    · rw [List.mem_singleton.mp he]
      exact Or.inr hpage

/-- A page that is held and not in use is not taken for a page table. -/
theorem mapOne_unused (h : Allocated K ds m) (hD : D ∈ K :: ds) {f : Frame}
    (hunused : ¬ InUse entryFormat (K :: ds) m.mem f) (hheld : HeldFrame m.alloc f)
    (vaddr page perm : Word) :
    ¬ InUse entryFormat (K :: ds) (mapLoop D perm 1 vaddr page m).mem f := by
  rcases h.findPte hD vaddr with hmiss | ⟨m₁, hfind⟩
  · rw [(mapLoop_misses hmiss 0 page perm).1]
    exact hunused
  · rw [(mapLoop_finds hfind 0 page perm).1]
    have hwrite := hfind.write hD (v := newPte page perm) (present_or_one _)
    intro hin
    rcases hwrite.inUse f hin with hold | hnew
    · exact hunused hold
    · exact hnew hheld

/-- The contents of a page that is not in use are no matter. -/
theorem copyPage_allocated (h : Allocated K ds m) {page : Frame}
    (hunused : ¬ InUse entryFormat (K :: ds) m.mem page) (cr3 : Frame) (vaddr : Word) :
    Allocated K ds ⟨copyPage cr3 page vaddr m.mem, m.alloc⟩ := by
  refine h.congr (fun f hf => ?_) (Grows.refl _)
  have hne : f ≠ page := fun hc => hunused (hc ▸ hf)
  dsimp only
  unfold copyPage
  cases walk entryFormat m.mem cr3 (vaddrDir vaddr) (vaddrTable vaddr) with
  | some pte => exact funext fun _ => if_neg hne
  | none => rfl

/-- **ONE TURN** that has its page spares page 0 and keeps directories and tables
    allocated. -/
theorem copyEntry_spec (h : Allocated K ds m) (hD : D ∈ K :: ds)
    (hgiven : Present (m.mem table (BitVec.ofNat 10 j)) → PageGiven cr3 D i j m) :
    Allocated K ds (copyEntry cr3 D table i m j) ∧
      ∀ e ∈ copyEntryEvents cr3 D table i m j, Spares K e := by
  by_cases hp : Present (m.mem table (BitVec.ofNat 10 j))
  swap
  · obtain ⟨hturn, hevents⟩ := copyEntry_absent cr3 D i hp
    rw [hturn, hevents]
    exact ⟨h, fun e he => nomatch he⟩
  have hpage := uallocPages_gives (a := m.alloc) h.range
  have hg := uallocPages_grows m.alloc (Nat.le_refl 1)
  have hcase := hgiven hp
  unfold PageGiven at hcase
  obtain ⟨u, hu⟩ : ∃ u, uallocPages m.alloc 1 = u := ⟨_, rfl⟩
  rw [hu] at hpage hg hcase
  have ha := h.grows hg
  obtain ⟨perm, m', hm', hturn, hevents⟩ := copyEntry_present cr3 D i hu hp
  rw [hturn, hevents]
  rcases hcase with hz | ⟨hmissing, hfailed, hwalk⟩
  · -- the page is given, and is not one of those in use
    have hgives := hpage hz
    have hunused := mapOne_unused ha hD (h.unused hgives) hgives.held (entryVaddr i j)
      u.1 perm
    have hmapped := ha.mapLoop hD perm 1 (entryVaddr i j) u.1 _
    rw [hm'] at hunused hmapped
    refine ⟨copyPage_allocated hmapped hunused cr3 _, ?_⟩
    have hne := HeldFrame.ne_zero hgives.held
    rw [if_neg hz, List.nil_append]
    intro e he
    rcases List.mem_append.mp he with he | he
    · exact mapOne_spares ha hD perm hne e he
    · split at he
      · rw [List.mem_singleton.mp he]
        exact hne
      · exact nomatch he
  · -- it is not, and nothing is mapped and nothing copied
    have hmiss : Misses D (entryVaddr i j) ⟨m.mem, u.2⟩ :=
      misses_of_failed hmissing hfailed
    obtain ⟨hmap, hmapEvents⟩ := mapLoop_misses hmiss 0 u.1 perm
    rw [hm'] at hmap
    have hcopy : copyPage cr3 (frameOf u.1) (entryVaddr i j) m'.mem = m.mem := by
      rw [hmap]
      unfold copyPage
      rw [show walk entryFormat m.mem cr3 (vaddrDir (entryVaddr i j))
        (vaddrTable (entryVaddr i j)) = none from hwalk]
    refine ⟨?_, ?_⟩
    · rw [hcopy, hmap]
      exact h.grows (hg.trans (kallocPages_grows u.2 (Nat.le_refl 1)))
    · rw [hmapEvents, hmap, hwalk, List.append_nil]
      intro e he
      rcases List.mem_append.mp he with he | he
      · split at he
        · rw [List.mem_singleton.mp he]
          trivial
        · exact nomatch he
      · exact misses_spares ha hD hmiss e he

/-- **WITHOUT A PAGE** a turn that spares page 0 has neither mapped nor copied. -/
theorem pageGiven_of_spares (hDK : D ≠ K)
    (hp : Present (m.mem table (BitVec.ofNat 10 j)))
    (hs : ∀ e ∈ copyEntryEvents cr3 D table i m j, Spares K e) : PageGiven cr3 D i j m := by
  unfold PageGiven
  obtain ⟨u, hu⟩ : ∃ u, uallocPages m.alloc 1 = u := ⟨_, rfl⟩
  rw [hu]
  by_cases hz : u.1 = 0
  swap
  · exact Or.inl hz
  obtain ⟨perm, m', hm', -, hevents⟩ := copyEntry_present cr3 D i hu hp
  rw [hevents, hz, if_pos rfl, frameOf_zero] at hs
  rw [hz] at hm'
  -- a page table for it would have had page 0 mapped
  have hmiss : Misses D (entryVaddr i j) ⟨m.mem, u.2⟩ := by
    refine findPte_none ?_
    cases hfind : findPte D (entryVaddr i j) ⟨m.mem, u.2⟩ with
    | mk answer m₁ =>
        cases answer with
        | none => rfl
        | some entry =>
            have hmapped : .mapped D 0 ∈ mapEvents D perm 1 (entryVaddr i j) 0
                ⟨m.mem, u.2⟩ := by
              rw [mapEvents, hfind]
              refine List.mem_append_right _ (List.mem_cons_of_mem _ ?_)
              exact List.mem_cons_self ..
            have hspared := hs _ (List.mem_append_left _ (List.mem_append_right _ hmapped))
            exact absurd hspared (fun hc => hc.elim hDK (fun h0 => h0 rfl))
  have hmap := (mapLoop_misses hmiss 0 0 perm).1
  rw [hm'] at hmap
  refine Or.inr ⟨hmiss.missing, hmiss.failed, ?_⟩
  rw [hmap] at hs
  dsimp only at hs
  cases hwalk : walkAt m.mem cr3 (entryVaddr i j) with
  | none => rfl
  | some pte =>
      rw [hwalk] at hs
      have hwrote := hs (.wrote 0) (List.mem_append_right _ (List.mem_singleton_self _))
      exact absurd rfl hwrote

/-- **`copy_pagetable`** spares page 0 exactly if its pages are given. -/
theorem copy_spares_iff {dirs : List Frame} (h : Allocated K dirs m) (cr3 dir : Frame) :
    (∀ e ∈ copyEvents K cr3 dir m, Spares K e) ↔ PagesGiven K cr3 dir m := by
  unfold copyEvents PagesGiven
  dsimp only
  constructor
  · intro hs
    have hz : (uallocPages m.alloc 1).1 ≠ 0 := by
      intro hz
      exact create_failed hz (fun e he => hs e (List.mem_append_left _ he))
    refine ⟨hz, ?_⟩
    have hDK : frameOf (createPageTable K m).1 ≠ K := by
      have habove := (uallocPages_gives h.range hz).above
      have hlt := h.kernel_lt
      rw [createPageTable_fst]
      intro hc
      rw [hc] at habove
      omega
    intro m₁ i hturn hpde m₂ j hturn' hpte
    refine pageGiven_of_spares hDK hpte (fun e he => ?_)
    refine hs e (List.mem_append_right _ (mem_eventsAlong.mpr ⟨m₁, i, hturn, ?_⟩))
    unfold copyTableEvents
    dsimp only
    rw [if_pos hpde]
    exact mem_eventsAlong.mpr ⟨m₂, j, hturn', he⟩
  · rintro ⟨hz, hgiven⟩
    have hcreated := h.createPageTable hz
    generalize createPageTable K m = r at hcreated hgiven ⊢
    have hD : frameOf r.1 ∈ K :: frameOf r.1 :: dirs := by simp
    -- the turns of one page table, and those of the directory
    have hentries : ∀ m₁ i, Turn (copyTable cr3 (frameOf r.1) dir) r.2
        (List.range' userPdeStart (1024 - userPdeStart)) m₁ i →
        Allocated K (frameOf r.1 :: dirs) m₁ → Present (m₁.mem dir (BitVec.ofNat 10 i)) →
        ∀ m₂ j, Turn (copyEntry cr3 (frameOf r.1)
          (frameOf (m₁.mem dir (BitVec.ofNat 10 i))) i) m₁ (List.range 1024) m₂ j →
        Allocated K (frameOf r.1 :: dirs) m₂ := by
      intro m₁ i hturn ha hpde m₂ j hturn'
      refine hturn'.invariant ha (fun m₃ j' hturn'' ha' => ?_)
      exact (copyEntry_spec ha' hD (hgiven m₁ i hturn hpde m₃ j' hturn'')).1
    have htables : ∀ m₁ i, Turn (copyTable cr3 (frameOf r.1) dir) r.2
        (List.range' userPdeStart (1024 - userPdeStart)) m₁ i →
        Allocated K (frameOf r.1 :: dirs) m₁ := by
      intro m₁ i hturn
      refine hturn.invariant hcreated (fun m₂ i' hturn' ha => ?_)
      unfold copyTable
      dsimp only
      split
      · next hpde =>
          refine foldl_invariant ha (fun m₃ j hturn'' ha' => ?_)
          exact (copyEntry_spec ha' hD (hgiven m₂ i' hturn' hpde m₃ j hturn'')).1
      · exact ha
    intro e he
    rcases List.mem_append.mp he with he | he
    · exact create_spares h hz e he
    · obtain ⟨m₁, i, hturn, he⟩ := mem_eventsAlong.mp he
      have ha := htables m₁ i hturn
      unfold copyTableEvents at he
      dsimp only at he
      split at he
      · next hpde =>
          obtain ⟨m₂, j, hturn', he⟩ := mem_eventsAlong.mp he
          exact (copyEntry_spec (hentries m₁ i hturn ha hpde m₂ j hturn') hD
            (hgiven m₁ i hturn hpde m₂ j hturn')).2 e he
      · exact nomatch he

end Copy

end LittleOS.OutOfMemory
