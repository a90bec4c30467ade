import LittleOS.CopyPageTable
import LittleOS.OutOfMemory

/-! # The turns of `copy_pagetable`

    One turn of the inner loop asks for a page, maps it in the new directory, for
    which `find_pte` may ask for a page table, and copies to it.  The directories
    that were there before stay what they are meanwhile.

    * `Copying.turn` — what one turn does to the directories, to the entries of the
      new one and to the allocator;
    * `stateAt` — the state in which a turn begins;
    * `loops_keep` — what the turns keep, both loops keep;
    * `failed_of_entry` — the two requests of a turn. -/

namespace LittleOS.OutOfMemory

open TwoLevel Turns Memory PageTable AddressSpaces KernelBoot SharedTable AddressLookup
  AllocatedTables

/-! ## Entries by their numbers -/

section Slots

variable {i j : Nat}

/-- The directory entry of the address. -/
theorem vaddrDir_entry (hi : i < 1024) (hj : j < 1024) :
    vaddrDir (entryVaddr i j) = BitVec.ofNat 10 i := by
  have hv := CopyPageTable.vaddr_toNat hi hj
  refine BitVec.eq_of_toNat_eq ?_
  rw [vaddrDir_toNat, entryVaddr, hv, BitVec.toNat_ofNat]
  omega

/-- The table entry of the address. -/
theorem vaddrTable_entry (hi : i < 1024) (hj : j < 1024) :
    vaddrTable (entryVaddr i j) = BitVec.ofNat 10 j := by
  have hv := CopyPageTable.vaddr_toNat hi hj
  refine BitVec.eq_of_toNat_eq ?_
  rw [vaddrTable_toNat, entryVaddr, hv, BitVec.toNat_ofNat]
  omega

/-- Slots below 1024 are told apart. -/
theorem slot_inj (hi : i < 1024) (hj : j < 1024)
    (h : BitVec.ofNat 10 i = BitVec.ofNat 10 j) : i = j := by
  have hnat := congrArg BitVec.toNat h
  rw [BitVec.toNat_ofNat, BitVec.toNat_ofNat] at hnat
  omega

end Slots

/-! ## One page in the new directory -/

/-- One page mapped in the new directory `D`, or no page table for it: what becomes
    of the other directories, of the entries of `D` and of the allocator. -/
structure MapsInNew (K D : Frame) (ds : List Frame) (v : Word) (m m' : Mmu) : Prop where
  allocated : Allocated K (D :: ds) m'
  rows : ∀ d ∈ K :: ds, m'.mem d = m.mem d
  walks : ∀ d ∈ K :: ds, ∀ w, walkAt m'.mem d w = walkAt m.mem d w ∨
    vaddrDir v = 0 ∧ pageOf w = pageOf v ∧ (walkAt m'.mem d w).isSome = true
  entries : ∀ x, Present (m'.mem D x) ↔
    Present (m.mem D x) ∨ x = vaddrDir v ∧ (kallocPages m.alloc 1).1 ≠ 0
  alloc : m'.alloc
    = if Present (m.mem D (vaddrDir v)) then m.alloc else (kallocPages m.alloc 1).2

section New

variable {K D : Frame} {ds : List Frame} {m m₁ : Mmu} {v : Word}

/-- The new directory is not an old one. -/
theorem ne_new (h : Allocated K (D :: ds) m) {d : Frame} (hd : d ∈ K :: ds) : d ≠ D := by
  have hnd := h.trees.nodup
  rintro rfl
  rcases List.mem_cons.mp hd with rfl | hd
  · exact (List.nodup_cons.mp hnd).1 (by simp)
  · exact (List.nodup_cons.mp (List.nodup_cons.mp hnd).2).1 hd

/-- The old directories with the new one. -/
theorem mem_all {d : Frame} (hd : d ∈ K :: ds) : d ∈ K :: D :: ds := by
  rcases List.mem_cons.mp hd with rfl | hd
  · simp
  · exact List.mem_cons_of_mem K (List.mem_cons_of_mem D hd)

/-- `find_pte` in the new directory makes an entry there and changes no other row. -/
theorem finds_rows (h : Allocated K (D :: ds) m) (hfind : Finds K (D :: ds) D v m m₁) :
    (∀ d ∈ K :: ds, m₁.mem d = m.mem d) ∧
    (∀ x, Present (m₁.mem D x) ↔
      Present (m.mem D x) ∨ x = vaddrDir v ∧ (kallocPages m.alloc 1).1 ≠ 0) := by
  by_cases hp : Present (m.mem D (vaddrDir v))
  · obtain rfl := hfind.same hp
    refine ⟨fun _ _ => rfl, fun x => ?_⟩
    refine (or_iff_left_of_imp ?_).symm
    rintro ⟨rfl, -⟩
    exact hp
  · have hfound := hfind.found
    unfold findPte at hfound
    dsimp only at hfound
    rw [if_neg hp] at hfound
    by_cases hz : (kallocPages m.alloc 1).1 = 0
    · rw [if_pos hz] at hfound
      exact nomatch congrArg Prod.fst hfound
    · rw [if_neg hz] at hfound
      have hunused := h.unused (kallocPages_gives h.range hz)
      have hD : D ∈ K :: D :: ds := by simp
      obtain rfl := congrArg Prod.snd hfound
      have hother : ∀ d ∈ K :: D :: ds, d ≠ frameOf (kallocPages m.alloc 1).1 :=
        fun d hd hc => hunused (hc ▸ Or.inl hd)
      refine ⟨fun d hd => ?_, fun x => ?_⟩
      · funext x
        exact (fill_of_ne (hother d (mem_all hd))).trans (set_of_ne (ne_new h hd))
      · dsimp only
        rw [fill_of_ne (hother D hD)]
        by_cases hx : x = vaddrDir v
        · subst hx
          rw [set_self]
          exact iff_of_true (present_newPde _) (Or.inr ⟨rfl, hz⟩)
        · rw [set_of_slot_ne hx]
          exact (or_iff_left fun hc => hx hc.1).symm

/-- **ONE PAGE** mapped in the new directory: entries of the shared table are
    written, and no other that a directory before it has. -/
theorem mapsInNew (h : Allocated K (D :: ds) m) (v page perm : Word) :
    MapsInNew K D ds v m (mapLoop D perm 1 v page m) := by
  have hD : D ∈ K :: D :: ds := by simp
  rcases h.findPte hD v with hmiss | ⟨m₁, hfind⟩
  · rw [(mapLoop_misses hmiss 0 page perm).1]
    refine ⟨h.grows (kallocPages_grows m.alloc (Nat.le_refl 1)), fun _ _ => rfl,
      fun _ _ _ => Or.inl rfl, fun x => ?_, ?_⟩
    · exact (or_iff_left fun hc => hc.2 hmiss.failed).symm
    · rw [if_neg hmiss.missing]
  · obtain ⟨hrows, hentries⟩ := finds_rows h hfind
    have halloc := findPte_alloc D v m
    rw [hfind.found] at halloc
    rw [(mapLoop_finds hfind 0 page perm).1]
    have htrees := hfind.allocated.trees
    have hpresent := hfind.present
    have hwrite := hfind.write hD (v := newPte page perm) (present_or_one _)
    have hroot : ∀ d ∈ K :: D :: ds,
        (writeEntry D v (newPte page perm) m₁).mem d = m₁.mem d :=
      fun d hd => funext fun x => set_of_ne (htrees.root_ne_table hD hd hpresent)
    refine ⟨hwrite.allocated, fun d hd => ?_, fun d hd w => ?_, fun x => ?_, halloc⟩
    · exact (hroot d (mem_all hd)).trans (hrows d hd)
    · rw [← hfind.walks d (mem_all hd) w]
      by_cases h0 : vaddrDir v = 0
      · -- the entry is one of the shared table, which `d` has too
        have hshared : m₁.mem D (vaddrDir v) = m₁.mem d (vaddrDir v) := by
          rw [h0, htrees.shared D (by simp)]
          rcases List.mem_cons.mp hd with rfl | hd
          · rfl
          · exact (htrees.shared d (List.mem_cons_of_mem D hd)).symm
        have hwalk := htrees.walk_setLeaf_self (mem_all hd) (i := vaddrDir v)
          (hshared ▸ hpresent) (v := newPte page perm) (present_or_one _)
          (vaddrTable v) (vaddrDir w) (vaddrTable w)
        rw [← hshared] at hwalk
        by_cases hpage : pageOf w = pageOf v
        · refine Or.inr ⟨h0, hpage, ?_⟩
          rw [if_pos ((samePage_iff w v).mpr hpage)] at hwalk
          exact congrArg Option.isSome hwalk
        · rw [if_neg (fun hc => hpage ((samePage_iff w v).mp hc))] at hwalk
          exact Or.inl hwalk
      · have hwalk := htrees.walk_setLeaf hD (Or.inl h0) hpresent (v := newPte page perm)
          (present_or_one _) (vaddrTable v) (mem_all hd) (vaddrDir w) (vaddrTable w)
        rw [if_neg (fun hc => ne_new h hd hc.1)] at hwalk
        exact Or.inl hwalk
    · rw [show (mapLoop D perm 0 (v + memPageSize) (page + memPageSize)
        (writeEntry D v (newPte page perm) m₁)).mem D = m₁.mem D from hroot D hD]
      exact hentries x

end New

/-! ## What `dir` maps -/

/-- `dir` maps the page of entry `j` behind its entry `i`. -/
def Maps (mem : Frames) (dir : Frame) (i j : Nat) : Prop :=
  (walkAt mem dir (entryVaddr i j)).isSome = true

instance (mem : Frames) (dir : Frame) (i j : Nat) : Decidable (Maps mem dir i j) :=
  inferInstanceAs (Decidable (_ = _))

/-- A page is mapped where both entries are present. -/
theorem maps_iff {mem : Frames} {dir : Frame} {i j : Nat} (hi : i < 1024) (hj : j < 1024) :
    Maps mem dir i j ↔ Present (mem dir (BitVec.ofNat 10 i)) ∧
      Present (mem (frameOf (mem dir (BitVec.ofNat 10 i))) (BitVec.ofNat 10 j)) := by
  unfold Maps walkAt
  rw [vaddrDir_entry hi hj, vaddrTable_entry hi hj]
  by_cases hp : Present (mem dir (BitVec.ofNat 10 i))
  · rw [walk_present entryFormat hp]
    by_cases hq : Present (mem (frameOf (mem dir (BitVec.ofNat 10 i))) (BitVec.ofNat 10 j))
    · exact iff_of_true (congrArg Option.isSome (if_pos hq)) ⟨hp, hq⟩
    · refine iff_of_false (fun hc => ?_) fun hc => hq hc.2
      exact nomatch hc.symm.trans (congrArg Option.isSome (if_neg hq))
  · rw [walk_absent entryFormat hp]
    exact iff_of_false (fun hc => nomatch hc) fun hc => hp hc.1

/-- While `D` is filled the directories before it keep their entries and map the
    pages they mapped. -/
structure Copying (K D : Frame) (ds : List Frame) (m₀ m : Mmu) : Prop where
  allocated : Allocated K (D :: ds) m
  rows : ∀ d ∈ K :: ds, m.mem d = m₀.mem d
  walks : ∀ d ∈ K :: ds, ∀ w, (walkAt m.mem d w).isSome = (walkAt m₀.mem d w).isSome

section Turns

variable {K D cr3 dir : Frame} {ds : List Frame} {m₀ m : Mmu} {i j : Nat}

/-- The copy keeps what the old directories map. -/
theorem Copying.maps_iff (h : Copying K D ds m₀ m) {d : Frame} (hd : d ∈ K :: ds) :
    Maps m.mem d i j ↔ Maps m₀.mem d i j := by
  unfold Maps
  rw [h.walks d hd]

/-- The tables of `dir` have the entries they had. -/
theorem Copying.entry_iff (h : Copying K D ds m₀ m) (hdir : dir ∈ K :: ds) (hi : i < 1024)
    (hj : j < 1024) (hp : Present (m₀.mem dir (BitVec.ofNat 10 i))) :
    Present (m.mem (frameOf (m₀.mem dir (BitVec.ofNat 10 i))) (BitVec.ofNat 10 j)) ↔
      Maps m₀.mem dir i j := by
  rw [← h.maps_iff hdir, OutOfMemory.maps_iff hi hj, h.rows dir hdir]
  exact (and_iff_right hp).symm

/-- What a turn leaves of the allocator. -/
def turnAlloc (D : Frame) (i : Nat) (m : Mmu) : AddrAlloc :=
  if Present (m.mem D (BitVec.ofNat 10 i)) then (uallocPages m.alloc 1).2
  else (kallocPages (uallocPages m.alloc 1).2 1).2

/-- **ONE TURN** takes a page, and one for the page table where there is none. -/
theorem Copying.turn (h : Copying K D ds m₀ m) (hdir : dir ∈ K :: ds) (hi : i < 1024)
    (hj : j < 1024) (hmaps : Maps m₀.mem dir i j) (hgiven : PageGiven cr3 D i j m) :
    Copying K D ds m₀
        (copyEntry cr3 D (frameOf (m₀.mem dir (BitVec.ofNat 10 i))) i m j) ∧
      (∀ x, Present ((copyEntry cr3 D (frameOf (m₀.mem dir (BitVec.ofNat 10 i))) i m j).mem
          D x) ↔ Present (m.mem D x) ∨ x = BitVec.ofNat 10 i ∧
            (kallocPages (uallocPages m.alloc 1).2 1).1 ≠ 0) ∧
      (copyEntry cr3 D (frameOf (m₀.mem dir (BitVec.ofNat 10 i))) i m j).alloc
        = turnAlloc D i m := by
  have hD : D ∈ K :: D :: ds := by simp
  have hpte := (h.entry_iff hdir hi hj ((OutOfMemory.maps_iff hi hj).mp hmaps).1).mpr hmaps
  have hpage := uallocPages_gives (a := m.alloc) h.allocated.range
  have hg := uallocPages_grows m.alloc (Nat.le_refl 1)
  unfold PageGiven at hgiven
  unfold turnAlloc
  obtain ⟨u, hu⟩ : ∃ u, uallocPages m.alloc 1 = u := ⟨_, rfl⟩
  rw [hu] at hpage hg hgiven ⊢
  have ha := h.allocated.grows hg
  obtain ⟨perm, m', hm', hturn, -⟩ := copyEntry_present cr3 D i hu hpte
  have hmap := mapsInNew ha (entryVaddr i j) u.1 perm
  rw [hm'] at hmap
  have hslot := vaddrDir_entry hi hj
  -- the copy goes to a page that is not in use, or is not made
  have hframes : ∀ f, InUse entryFormat (K :: D :: ds) m'.mem f →
      copyPage cr3 (frameOf u.1) (entryVaddr i j) m'.mem f = m'.mem f := by
    intro f hf
    unfold copyPage
    rcases hgiven with hz | ⟨hmissing, hfailed, hwalk⟩
    · have hgives := hpage hz
      have hunused := mapOne_unused ha hD (h.allocated.unused hgives) hgives.held
        (entryVaddr i j) u.1 perm
      rw [hm'] at hunused
      have hne : f ≠ frameOf u.1 := fun hc => hunused (hc ▸ hf)
      cases walk entryFormat m'.mem cr3 (vaddrDir (entryVaddr i j))
          (vaddrTable (entryVaddr i j)) with
      | some pte => exact funext fun _ => if_neg hne
      | none => rfl
    · have hmiss : Misses D (entryVaddr i j) ⟨m.mem, u.2⟩ := misses_of_failed hmissing hfailed
      have hsame := (mapLoop_misses hmiss 0 u.1 perm).1
      rw [hm'] at hsame
      rw [hsame]
      rw [show walk entryFormat m.mem cr3 (vaddrDir (entryVaddr i j))
        (vaddrTable (entryVaddr i j)) = none from hwalk]
  rw [hturn]
  refine ⟨⟨?_, ?_, ?_⟩, fun x => ?_, ?_⟩
  · exact hmap.allocated.congr hframes (Grows.refl _)
  · intro d hd
    exact (hframes d (Or.inl (mem_all hd))).trans ((hmap.rows d hd).trans (h.rows d hd))
  · intro d hd w
    have hcopied : walkAt (copyPage cr3 (frameOf u.1) (entryVaddr i j) m'.mem) d w
        = walkAt m'.mem d w := walk_congr hframes (mem_all hd) _ _
    dsimp only
    rw [hcopied, ← h.walks d hd w]
    rcases hmap.walks d hd w with hsame | ⟨h0, hpageOf, hsome⟩
    · exact congrArg Option.isSome hsame
    · -- the shared entry was there: `dir` has the shared table too
      rw [hsome]
      refine Eq.symm ?_
      have hthere : (walkAt m.mem dir (entryVaddr i j)).isSome = true :=
        (h.maps_iff hdir).mpr hmaps
      have hrow : ∀ e ∈ K :: ds, m.mem e 0 = m.mem K 0 := by
        intro e he
        rcases List.mem_cons.mp he with rfl | he
        · rfl
        · exact h.allocated.trees.shared e (List.mem_cons_of_mem D he)
      rw [walkAt_congr hpageOf]
      unfold walkAt walk at hthere ⊢
      rw [h0] at hthere ⊢
      rw [hrow dir hdir] at hthere
      rw [hrow d hd]
      exact hthere
  · dsimp only
    rw [hframes D (Or.inl hD), hmap.entries x, hslot]
  · dsimp only
    rw [hmap.alloc, hslot]

end Turns

/-! ## The two loops -/

section Loops

variable {K D cr3 dir : Frame} {ds : List Frame} {m₀ m₁ m : Mmu} {i j : Nat}

/-- Before entry `j` of the table at `i`. -/
def stateAt (cr3 D dir : Frame) (m₀ m₁ : Mmu) (i j : Nat) : Mmu :=
  (List.range j).foldl (copyEntry cr3 D (frameOf (m₀.mem dir (BitVec.ofNat 10 i))) i)
    ((List.range i).foldl (copyTable cr3 D dir) m₁)

/-- The state after one entry more. -/
theorem stateAt_succ : stateAt cr3 D dir m₀ m₁ i (j + 1)
    = copyEntry cr3 D (frameOf (m₀.mem dir (BitVec.ofNat 10 i))) i
        (stateAt cr3 D dir m₀ m₁ i j) j := by
  unfold stateAt
  rw [List.range_succ, List.foldl_append]
  rfl

/-- The inner loop runs where `dir` has a table. -/
theorem stateAt_next (hdir : dir ∈ K :: ds)
    (h : Copying K D ds m₀ (stateAt cr3 D dir m₀ m₁ i 0)) :
    stateAt cr3 D dir m₀ m₁ (i + 1) 0
      = if Present (m₀.mem dir (BitVec.ofNat 10 i)) then stateAt cr3 D dir m₀ m₁ i 1024
        else stateAt cr3 D dir m₀ m₁ i 0 := by
  have hrow := congrFun (h.rows dir hdir) (BitVec.ofNat 10 i)
  have hnext : stateAt cr3 D dir m₀ m₁ (i + 1) 0
      = copyTable cr3 D dir (stateAt cr3 D dir m₀ m₁ i 0) i := by
    unfold stateAt
    rw [List.range_succ, List.foldl_append]
    rfl
  rw [hnext]
  unfold copyTable
  dsimp only
  rw [hrow]
  rfl

/-- **BOTH LOOPS** keep what the turns keep and the entries that map nothing.
    Induction over the entries of the directory, and of each table. -/
theorem loops_keep {P : Nat → Nat → Mmu → Prop} {n : Nat} (hdir : dir ∈ K :: ds) (hn : n ≤ 1024)
    (hturn : ∀ k j, i ≤ k → k < n → j < 1024 → Maps m₀.mem dir k j →
      Copying K D ds m₀ (stateAt cr3 D dir m₀ m₁ k 0) →
      Copying K D ds m₀ (stateAt cr3 D dir m₀ m₁ k j) →
      P k j (stateAt cr3 D dir m₀ m₁ k j) →
      Copying K D ds m₀ (stateAt cr3 D dir m₀ m₁ k (j + 1)) ∧
        P k (j + 1) (stateAt cr3 D dir m₀ m₁ k (j + 1)))
    (hskip : ∀ k j m, ¬ Maps m₀.mem dir k j → P k j m → P k (j + 1) m)
    (hnext : ∀ k m, P k 1024 m → P (k + 1) 0 m)
    (h₀ : Copying K D ds m₀ (stateAt cr3 D dir m₀ m₁ i 0))
    (hP : P i 0 (stateAt cr3 D dir m₀ m₁ i 0)) :
    ∀ k, i ≤ k → k ≤ n →
      Copying K D ds m₀ (stateAt cr3 D dir m₀ m₁ k 0) ∧
      P k 0 (stateAt cr3 D dir m₀ m₁ k 0) ∧
      (k < n → Present (m₀.mem dir (BitVec.ofNat 10 k)) → ∀ j ≤ 1024,
        Copying K D ds m₀ (stateAt cr3 D dir m₀ m₁ k j) ∧
        P k j (stateAt cr3 D dir m₀ m₁ k j)) := by
  have hinner : ∀ k, i ≤ k → k < n → Copying K D ds m₀ (stateAt cr3 D dir m₀ m₁ k 0) →
      P k 0 (stateAt cr3 D dir m₀ m₁ k 0) → Present (m₀.mem dir (BitVec.ofNat 10 k)) →
      ∀ j ≤ 1024, Copying K D ds m₀ (stateAt cr3 D dir m₀ m₁ k j) ∧
        P k j (stateAt cr3 D dir m₀ m₁ k j) := by
    intro k hik hk hc hp hpresent j
    induction j with
    | zero => intro _; exact ⟨hc, hp⟩
    | succ j ih =>
        intro hj
        obtain ⟨hcj, hpj⟩ := ih (by omega)
        by_cases hmaps : Maps m₀.mem dir k j
        · exact hturn k j hik hk (by omega) hmaps hc hcj hpj
        · have habsent := mt (hcj.entry_iff hdir (by omega) (by omega) hpresent).mp hmaps
          rw [stateAt_succ, (copyEntry_absent cr3 D k habsent).1]
          exact ⟨hcj, hskip k j _ hmaps hpj⟩
  intro k
  induction k with
  | zero =>
      intro hi0 _
      obtain rfl := Nat.le_zero.mp hi0
      exact ⟨h₀, hP, fun hk => hinner 0 (Nat.le_refl 0) hk h₀ hP⟩
  | succ k ih =>
      intro hik hk
      have hthis : Copying K D ds m₀ (stateAt cr3 D dir m₀ m₁ (k + 1) 0) ∧
          P (k + 1) 0 (stateAt cr3 D dir m₀ m₁ (k + 1) 0) := by
        rcases Nat.lt_or_ge k i with hlt | hge
        · obtain rfl : i = k + 1 := by omega
          exact ⟨h₀, hP⟩
        obtain ⟨hc, hp, hrest⟩ := ih hge (by omega)
        rw [stateAt_next hdir hc]
        by_cases hpresent : Present (m₀.mem dir (BitVec.ofNat 10 k))
        · rw [if_pos hpresent]
          obtain ⟨hc', hp'⟩ := hrest (by omega) hpresent 1024 (Nat.le_refl _)
          exact ⟨hc', hnext k _ hp'⟩
        · rw [if_neg hpresent]
          -- nothing is mapped without a table
          have hnone : ∀ j ≤ 1024, P k j (stateAt cr3 D dir m₀ m₁ k 0) := by
            intro j
            induction j with
            | zero => intro _; exact hp
            | succ j ihj =>
                intro hj
                refine hskip k j _ (fun hmaps => hpresent ?_) (ihj (by omega))
                exact ((maps_iff (by omega) (by omega)).mp hmaps).1
          exact ⟨hc, hnext k _ (hnone 1024 (Nat.le_refl _))⟩
      exact ⟨hthis.1, hthis.2, fun hlt => hinner (k + 1) hik hlt hthis.1 hthis.2⟩

end Loops

/-! ## The requests of a turn -/

section Requests

variable {K : Frame} {ds : List Frame} {m : Mmu} {i j : Nat}

/-- A request that fails in a turn is that for the page or that for the table. -/
theorem failed_of_entry {D table : Frame} (h : Allocated K (D :: ds) m) (hi : i < 1024)
    (hj : j < 1024) (hf : .failed ∈ copyEntryEvents cr3 D table i m j) :
    (uallocPages m.alloc 1).1 = 0 ∨ ¬ Present (m.mem D (BitVec.ofNat 10 i)) ∧
      (kallocPages (uallocPages m.alloc 1).2 1).1 = 0 := by
  have hD : D ∈ K :: D :: ds := by simp
  have hg := uallocPages_grows m.alloc (Nat.le_refl 1)
  by_cases hp : Present (m.mem table (BitVec.ofNat 10 j))
  swap
  · rw [(copyEntry_absent cr3 D i hp).2] at hf
    exact absurd hf List.not_mem_nil
  obtain ⟨u, hu⟩ : ∃ u, uallocPages m.alloc 1 = u := ⟨_, rfl⟩
  rw [hu] at hg ⊢
  have ha := h.grows hg
  obtain ⟨perm, m', -, -, hevents⟩ := copyEntry_present cr3 D i hu hp
  rw [hevents] at hf
  rcases List.mem_append.mp hf with hf | hf
  · rcases List.mem_append.mp hf with hf | hf
    · split at hf
      · next hz => exact Or.inl hz
      · exact absurd hf List.not_mem_nil
    · rcases ha.findPte hD (entryVaddr i j) with hmiss | ⟨m₁, hfind⟩
      · have hmissing := hmiss.missing
        rw [vaddrDir_entry hi hj] at hmissing
        exact Or.inr ⟨hmissing, hmiss.failed⟩
      · rw [(mapLoop_finds hfind 0 _ perm).2] at hf
        rcases List.mem_append.mp hf with hf | hf
        · exact absurd hf (finds_not_failed hfind)
        · simp [mapEvents] at hf
  · split at hf
    · simp at hf
    · exact absurd hf List.not_mem_nil

end Requests

end LittleOS.OutOfMemory
