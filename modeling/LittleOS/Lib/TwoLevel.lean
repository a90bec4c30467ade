import Mathlib.Algebra.Order.Ring.Int
import Mathlib.Data.List.Nodup
import Mathlib.Tactic.TypeStar

/-! # Two-level translation trees in one store

    A store of frames of entries holds several trees of depth two: the entries
    of a root point to tables, the entries of a table are the leaves.  The root
    `K` is special: every other root copies its entry at slot `z`, so that the
    table behind it belongs to all of them.

    * `Trees` — apart from that one table no table is reached twice, and none
      is a root;
    * `Trees.walk_setLeaf` — a leaf written through one root changes the walk
      of that root at that place and no other walk;
    * `Trees.addTable`, `Trees.addRoot` — new tables and new roots in frames
      that are not in use leave every walk alone. -/

namespace TwoLevel

variable {φ σ ω : Type*} [DecidableEq φ] [DecidableEq σ]

/-- What an entry says. -/
structure Format (ω φ : Type*) where
  present : ω → Bool
  target : ω → φ

/-- The entry in each slot of each frame. -/
abbrev Store (φ σ ω : Type*) := φ → σ → ω

/-- Write an entry. -/
def Store.set (mem : Store φ σ ω) (f : φ) (i : σ) (v : ω) : Store φ σ ω :=
  fun g j => if g = f ∧ j = i then v else mem g j

/-- Write every entry of a frame. -/
def Store.fill (mem : Store φ σ ω) (f : φ) (v : ω) : Store φ σ ω :=
  fun g j => if g = f then v else mem g j

section Store

variable {mem : Store φ σ ω} {f g : φ} {i j : σ} {v : ω}

/-- The entry that was written. -/
@[simp] theorem set_self : mem.set f i v f i = v := if_pos ⟨rfl, rfl⟩

/-- Other frames are the same. -/
theorem set_of_ne (h : g ≠ f) : mem.set f i v g j = mem g j :=
  if_neg (fun hc => h hc.1)

/-- Other entries of the frame are the same. -/
theorem set_of_slot_ne (h : j ≠ i) : mem.set f i v g j = mem g j :=
  if_neg (fun hc => h hc.2)

omit [DecidableEq σ] in
/-- An entry of the frame that was filled. -/
@[simp] theorem fill_self : mem.fill f v f j = v := if_pos rfl

omit [DecidableEq σ] in
/-- Other frames are the same. -/
theorem fill_of_ne (h : g ≠ f) : mem.fill f v g j = mem g j := if_neg h

end Store

variable (F : Format ω φ)

/-- The leaf a walk from `root` ends at, when both entries are present. -/
def walk (mem : Store φ σ ω) (root : φ) (i j : σ) : Option ω :=
  if F.present (mem root i) then
    let leaf := mem (F.target (mem root i)) j
    if F.present leaf then some leaf else none
  else none

omit [DecidableEq φ] [DecidableEq σ] in
/-- A lookup through a table that is there. -/
theorem walk_present {mem : Store φ σ ω} {d : φ} {i : σ}
    (hp : F.present (mem d i) = true) (j : σ) :
    walk F mem d i j
      = if F.present (mem (F.target (mem d i)) j)
        then some (mem (F.target (mem d i)) j) else none := if_pos hp

omit [DecidableEq φ] [DecidableEq σ] in
/-- A lookup without a table. -/
theorem walk_absent {mem : Store φ σ ω} {d : φ} {i : σ}
    (hp : ¬ F.present (mem d i) = true) (j : σ) : walk F mem d i j = none :=
  if_neg hp

/-- The frame is a root or a table of one. -/
def InUse (roots : List φ) (mem : Store φ σ ω) (f : φ) : Prop :=
  f ∈ roots ∨ ∃ d ∈ roots, ∃ i, F.present (mem d i) = true ∧
    F.target (mem d i) = f

/-- The trees share the table behind slot `z` of `K` and nothing else. -/
structure Trees (K : φ) (z : σ) (dirs : List φ) (mem : Store φ σ ω) : Prop where
  nodup : (K :: dirs).Nodup
  shared : ∀ d ∈ dirs, mem d z = mem K z
  inj : ∀ d ∈ K :: dirs, ∀ d' ∈ K :: dirs, ∀ i i',
    (d = K ∨ i ≠ z) → (d' = K ∨ i' ≠ z) →
    F.present (mem d i) = true → F.present (mem d' i') = true →
    F.target (mem d i) = F.target (mem d' i') → d = d' ∧ i = i'
  apart : ∀ d ∈ K :: dirs, ∀ i, F.present (mem d i) = true →
    F.target (mem d i) ∉ K :: dirs

variable {F} {K : φ} {z : σ} {dirs : List φ} {mem mem' : Store φ σ ω}

omit [DecidableEq φ] [DecidableEq σ] in
/-- The walks only read frames in use. -/
theorem walk_congr {roots : List φ} (h : ∀ f, InUse F roots mem f → mem' f = mem f)
    {d : φ} (hd : d ∈ roots) (i j : σ) : walk F mem' d i j = walk F mem d i j := by
  unfold walk
  rw [h d (Or.inl hd)]
  by_cases hp : F.present (mem d i) = true
  · rw [if_pos hp, if_pos hp, h _ (Or.inr ⟨d, hd, i, hp, rfl⟩)]
  · rw [if_neg hp, if_neg hp]

omit [DecidableEq φ] [DecidableEq σ] in
/-- The rows of the roots say which frames are in use. -/
theorem InUse.of_rows {roots : List φ} (h : ∀ d ∈ roots, mem' d = mem d) {f : φ}
    (hf : InUse F roots mem' f) : InUse F roots mem f := by
  rcases hf with hf | ⟨d, hd, i, hp, ht⟩
  · exact Or.inl hf
  · rw [h d hd] at hp ht
    exact Or.inr ⟨d, hd, i, hp, ht⟩

namespace Trees

omit [DecidableEq φ] [DecidableEq σ] in
/-- A root without entries is a tree. -/
theorem init (h : ∀ i, ¬ F.present (mem K i) = true) : Trees F K z [] mem where
  nodup := List.nodup_singleton K
  shared := by simp
  inj := by
    intro d hd d' _ i i' _ _ hp
    rw [List.mem_singleton.mp hd] at hp
    exact absurd hp (h i)
  apart := by
    intro d hd i hp
    rw [List.mem_singleton.mp hd] at hp
    exact absurd hp (h i)

omit [DecidableEq φ] [DecidableEq σ] in
/-- Trees only depend on the frames in use. -/
theorem congr (h : Trees F K z dirs mem)
    (heq : ∀ f, InUse F (K :: dirs) mem f → mem' f = mem f) :
    Trees F K z dirs mem' := by
  have hroot : ∀ d ∈ K :: dirs, mem' d = mem d := fun d hd => heq d (Or.inl hd)
  refine ⟨h.nodup, ?_, ?_, ?_⟩
  · intro d hd
    rw [hroot d (List.mem_cons_of_mem _ hd), hroot K (by simp)]
    exact h.shared d hd
  · intro d hd d' hd' i i'
    rw [hroot d hd, hroot d' hd']
    exact h.inj d hd d' hd' i i'
  · intro d hd i
    rw [hroot d hd]
    exact h.apart d hd i

omit [DecidableEq φ] [DecidableEq σ] in
/-- **ONE WAY IN**: a table outside the shared slot, or with `K` alone any
    table, is reached by one root at one slot. -/
theorem one_way (h : Trees F K z dirs mem) {d d' : φ} {i i' : σ}
    (hd : d ∈ K :: dirs) (hd' : d' ∈ K :: dirs) (hown : i ≠ z ∨ dirs = [])
    (hp : F.present (mem d i) = true) (hp' : F.present (mem d' i') = true)
    (ht : F.target (mem d' i') = F.target (mem d i)) : d' = d ∧ i' = i := by
  have hdown : d = K ∨ i ≠ z := by
    rcases hown with hi | rfl
    · exact Or.inr hi
    · exact Or.inl (List.mem_singleton.mp hd)
  by_cases hd'own : d' = K ∨ i' ≠ z
  · exact h.inj d' hd' d hd i' i hd'own hdown hp' hp ht
  · -- the entry is a copy of the one of `K`
    obtain ⟨hne, hz⟩ := not_or.mp hd'own
    have hz : i' = z := not_not.mp hz
    subst hz
    have hmem : d' ∈ dirs := (List.mem_cons.mp hd').resolve_left hne
    rw [h.shared d' hmem] at hp' ht
    obtain ⟨rfl, rfl⟩ := h.inj K (by simp) d hd i' i (Or.inl rfl) hdown hp' hp ht
    rcases hown with hi | rfl
    · exact absurd rfl hi
    · exact absurd hmem List.not_mem_nil

/-! ## Writing a leaf -/

section Leaf

variable {d : φ} {i : σ}

omit [DecidableEq φ] [DecidableEq σ] in
/-- No directory is a table. -/
theorem root_ne_table (h : Trees F K z dirs mem) {d' : φ} (hd : d ∈ K :: dirs)
    (hd' : d' ∈ K :: dirs) (hp : F.present (mem d i) = true) :
    d' ≠ F.target (mem d i) := by
  rintro rfl
  exact h.apart d hd i hp hd'

/-- The roots are not touched by a leaf. -/
theorem setLeaf (h : Trees F K z dirs mem) (hd : d ∈ K :: dirs)
    (hp : F.present (mem d i) = true) (j : σ) (v : ω) :
    Trees F K z dirs (mem.set (F.target (mem d i)) j v) := by
  have hroot : ∀ d' ∈ K :: dirs, ∀ i',
      mem.set (F.target (mem d i)) j v d' i' = mem d' i' :=
    fun d' hd' i' => set_of_ne (h.root_ne_table hd hd' hp)
  refine ⟨h.nodup, ?_, ?_, ?_⟩
  · intro d' hd'
    rw [hroot d' (List.mem_cons_of_mem _ hd'), hroot K (by simp)]
    exact h.shared d' hd'
  · intro d₁ h₁ d₂ h₂ i₁ i₂
    rw [hroot d₁ h₁, hroot d₂ h₂]
    exact h.inj d₁ h₁ d₂ h₂ i₁ i₂
  · intro d' hd' i'
    rw [hroot d' hd']
    exact h.apart d' hd' i'

/-- A leaf changes a walk that ends there and, where no other slot leads to its
    table, no other walk. -/
theorem walk_setLeaf_of (h : Trees F K z dirs mem) (hd : d ∈ K :: dirs)
    (hp : F.present (mem d i) = true) {v : ω} (hv : F.present v = true) (j : σ)
    {d' : φ} (hd' : d' ∈ K :: dirs) {i' : σ} (j' : σ)
    (hone : F.present (mem d' i') = true → F.target (mem d' i') = F.target (mem d i) →
      d' = d ∧ i' = i) :
    walk F (mem.set (F.target (mem d i)) j v) d' i' j'
      = if d' = d ∧ i' = i ∧ j' = j then some v else walk F mem d' i' j' := by
  have hroot : mem.set (F.target (mem d i)) j v d' i' = mem d' i' :=
    set_of_ne (h.root_ne_table hd hd' hp)
  by_cases hp' : F.present (mem d' i') = true
  · rw [walk_present F (by rw [hroot]; exact hp'), walk_present F hp', hroot]
    by_cases ht : F.target (mem d' i') = F.target (mem d i)
    · obtain ⟨hd'd, hi'i⟩ := hone hp' ht
      by_cases hj : j' = j
      · have hall : d' = d ∧ i' = i ∧ j' = j := ⟨hd'd, hi'i, hj⟩
        rw [if_pos hall, ht, hj, set_self, if_pos hv]
      · have hne : ¬ (d' = d ∧ i' = i ∧ j' = j) := fun hc => hj hc.2.2
        rw [if_neg hne, set_of_slot_ne hj]
    · have hne : ¬ (d' = d ∧ i' = i ∧ j' = j) := by
        rintro ⟨rfl, rfl, -⟩
        exact ht rfl
      rw [if_neg hne, set_of_ne ht]
  · have hne : ¬ (d' = d ∧ i' = i ∧ j' = j) := by
      rintro ⟨rfl, rfl, -⟩
      exact hp' hp
    rw [walk_absent F (by rw [hroot]; exact hp'), walk_absent F hp', if_neg hne]

/-- **A LEAF** outside the shared table changes the walk that ends there and no
    other. -/
theorem walk_setLeaf (h : Trees F K z dirs mem) (hd : d ∈ K :: dirs)
    (hown : i ≠ z ∨ dirs = []) (hp : F.present (mem d i) = true) {v : ω}
    (hv : F.present v = true) (j : σ) {d' : φ} (hd' : d' ∈ K :: dirs)
    (i' j' : σ) :
    walk F (mem.set (F.target (mem d i)) j v) d' i' j'
      = if d' = d ∧ i' = i ∧ j' = j then some v else walk F mem d' i' j' :=
  h.walk_setLeaf_of hd hp hv j hd' j' (fun hp' ht => h.one_way hd hd' hown hp hp' ht)

omit [DecidableEq φ] [DecidableEq σ] in
/-- Two slots of one root lead to two tables. -/
theorem slot_unique (h : Trees F K z dirs mem) (hd : d ∈ K :: dirs) {i' : σ}
    (hp : F.present (mem d i) = true) (hp' : F.present (mem d i') = true)
    (ht : F.target (mem d i') = F.target (mem d i)) : i' = i := by
  by_cases hK : d = K
  · exact (h.inj d hd d hd i' i (Or.inl hK) (Or.inl hK) hp' hp ht).2
  · have hmem := (List.mem_cons.mp hd).resolve_left hK
    by_cases hi : i = z
    · by_cases hi' : i' = z
      · rw [hi, hi']
      · -- the shared entry is read as the one of `K`
        rw [hi, h.shared d hmem] at hp ht
        exact absurd (h.inj d hd K (by simp) i' z (Or.inr hi') (Or.inl rfl) hp' hp ht).1 hK
    · by_cases hi' : i' = z
      · rw [hi', h.shared d hmem] at hp' ht
        exact absurd (h.inj d hd K (by simp) i z (Or.inr hi) (Or.inl rfl) hp hp' ht.symm).1
          hK
      · exact (h.inj d hd d hd i' i (Or.inr hi') (Or.inr hi) hp' hp ht).2

/-- Seen from its own root, a leaf of any table changes one walk. -/
theorem walk_setLeaf_self (h : Trees F K z dirs mem) (hd : d ∈ K :: dirs)
    (hp : F.present (mem d i) = true) {v : ω} (hv : F.present v = true) (j i' j' : σ) :
    walk F (mem.set (F.target (mem d i)) j v) d i' j'
      = if i' = i ∧ j' = j then some v else walk F mem d i' j' := by
  rw [h.walk_setLeaf_of hd hp hv j hd j'
    (fun hp' ht => ⟨rfl, h.slot_unique hd hp hp' ht⟩)]
  exact if_congr (and_iff_right rfl) rfl rfl

end Leaf

/-! ## A new table -/

section Table

variable {d : φ} {i : σ} {e b : ω}

/-- The entries of the roots after a new table: the new one, the old ones
    elsewhere. -/
theorem addTable_root {d' : φ} (hd' : d' ≠ F.target e) (i' : σ) :
    (mem.set d i e).fill (F.target e) b d' i'
      = if d' = d ∧ i' = i then e else mem d' i' := by
  rw [fill_of_ne hd']
  rfl

/-- A new table is the one frame more in use. -/
theorem inUse_addTable {roots : List φ} (hroot : ∀ d' ∈ roots, d' ≠ F.target e) {f : φ}
    (hf : InUse F roots ((mem.set d i e).fill (F.target e) b) f) :
    InUse F roots mem f ∨ f = F.target e := by
  rcases hf with hf | ⟨d', hd', i', hp, ht⟩
  · exact Or.inl (Or.inl hf)
  · rw [addTable_root (hroot d' hd')] at hp ht
    by_cases hc : d' = d ∧ i' = i
    · rw [if_pos hc] at ht
      exact Or.inr ht.symm
    · rw [if_neg hc] at hp ht
      exact Or.inl (Or.inr ⟨d', hd', i', hp, ht⟩)

/-- **A NEW TABLE** in a frame that is not in use, with no entry present. -/
theorem addTable (h : Trees F K z dirs mem) (hown : i ≠ z ∨ dirs = [])
    (hfree : ¬ InUse F (K :: dirs) mem (F.target e)) :
    Trees F K z dirs ((mem.set d i e).fill (F.target e) b) := by
  have hne : ∀ d' ∈ K :: dirs, d' ≠ F.target e := by
    rintro d' hd' rfl
    exact hfree (Or.inl hd')
  -- an entry is the new one or an old one whose table is another frame
  have hcase : ∀ d' ∈ K :: dirs, ∀ i',
      F.present ((mem.set d i e).fill (F.target e) b d' i') = true →
      (d' = d ∧ i' = i ∧ (mem.set d i e).fill (F.target e) b d' i' = e) ∨
      ((mem.set d i e).fill (F.target e) b d' i' = mem d' i' ∧
        F.present (mem d' i') = true ∧ F.target (mem d' i') ≠ F.target e) := by
    intro d' hd' i' hp
    rw [addTable_root (hne d' hd')] at hp ⊢
    by_cases hc : d' = d ∧ i' = i
    · exact Or.inl ⟨hc.1, hc.2, if_pos hc⟩
    · rw [if_neg hc] at hp ⊢
      exact Or.inr ⟨rfl, hp, fun ht => hfree (Or.inr ⟨d', hd', i', hp, ht⟩)⟩
  refine ⟨h.nodup, ?_, ?_, ?_⟩
  · intro d' hd'
    rw [addTable_root (hne d' (List.mem_cons_of_mem _ hd')),
      addTable_root (hne K (by simp))]
    rcases hown with hi | rfl
    · rw [if_neg (fun hc => hi hc.2.symm), if_neg (fun hc => hi hc.2.symm)]
      exact h.shared d' hd'
    · exact absurd hd' List.not_mem_nil
  · intro d₁ h₁ d₂ h₂ i₁ i₂ o₁ o₂ p₁ p₂ ht
    rcases hcase d₁ h₁ i₁ p₁ with ⟨rfl, rfl, e₁⟩ | ⟨e₁, q₁, n₁⟩
    · rcases hcase d₂ h₂ i₂ p₂ with ⟨rfl, rfl, -⟩ | ⟨e₂, -, n₂⟩
      · exact ⟨rfl, rfl⟩
      · rw [e₁, e₂] at ht
        exact absurd ht.symm n₂
    · rcases hcase d₂ h₂ i₂ p₂ with ⟨rfl, rfl, e₂⟩ | ⟨e₂, q₂, -⟩
      · rw [e₁, e₂] at ht
        exact absurd ht n₁
      · rw [e₁, e₂] at ht
        exact h.inj d₁ h₁ d₂ h₂ i₁ i₂ o₁ o₂ q₁ q₂ ht
  · intro d' hd' i' hp
    rcases hcase d' hd' i' hp with ⟨-, -, he'⟩ | ⟨he', hq, -⟩
    · rw [he']
      exact fun hm => hfree (Or.inl hm)
    · rw [he']
      exact h.apart d' hd' i' hq

/-- A new table leaves every walk alone. -/
theorem walk_addTable (h : Trees F K z dirs mem) (hd : d ∈ K :: dirs)
    (he : F.present e = true) (hb : ¬ F.present b = true)
    (habs : ¬ F.present (mem d i) = true)
    (hfree : ¬ InUse F (K :: dirs) mem (F.target e)) {d' : φ} (hd' : d' ∈ K :: dirs)
    (i' j' : σ) :
    walk F ((mem.set d i e).fill (F.target e) b) d' i' j'
      = walk F mem d' i' j' := by
  have hne : d' ≠ F.target e := fun hc => hfree (hc ▸ Or.inl hd')
  have hroot : (mem.set d i e).fill (F.target e) b d' i'
      = if d' = d ∧ i' = i then e else mem d' i' := addTable_root hne i'
  by_cases hc : d' = d ∧ i' = i
  · rw [if_pos hc] at hroot
    rw [walk_present F (by rw [hroot]; exact he), hroot, fill_self, if_neg hb,
      hc.1, hc.2, walk_absent F habs]
  · rw [if_neg hc] at hroot
    by_cases hp : F.present (mem d' i') = true
    · have ht : F.target (mem d' i') ≠ F.target e :=
        fun hq => hfree (Or.inr ⟨d', hd', i', hp, hq⟩)
      have htd : F.target (mem d' i') ≠ d :=
        fun hq => h.apart d' hd' i' hp (hq ▸ hd)
      rw [walk_present F (by rw [hroot]; exact hp), walk_present F hp, hroot,
        fill_of_ne ht, set_of_ne htd]
    · rw [walk_absent F (by rw [hroot]; exact hp), walk_absent F hp]

end Table

/-! ## A new root -/

section Root

variable {D : φ} {b : ω}

/-- The frames in use are untouched by a new root elsewhere. -/
theorem addRoot_frame (hfree : ¬ InUse F (K :: dirs) mem D) {f : φ}
    (hf : InUse F (K :: dirs) mem f) :
    (mem.fill D b).set D z (mem K z) f = mem f := by
  have hne : f ≠ D := fun hc => hfree (hc ▸ hf)
  funext j
  rw [set_of_ne hne, fill_of_ne hne]

/-- The entries of a new directory. -/
theorem addRoot_entry (i : σ) :
    (mem.fill D b).set D z (mem K z) D i = if i = z then mem K z else b := by
  by_cases hi : i = z
  · rw [hi, set_self, if_pos rfl]
  · rw [set_of_slot_ne hi, fill_self, if_neg hi]

omit [DecidableEq φ] in
/-- The directories with the new one. -/
theorem root_cases {d : φ} (hd : d ∈ K :: D :: dirs) : d = D ∨ d ∈ K :: dirs := by
  rcases List.mem_cons.mp hd with rfl | hd
  · exact Or.inr List.mem_cons_self
  · exact (List.mem_cons.mp hd).imp_right (List.mem_cons_of_mem K)

/-- A new root is the one frame more in use: the table behind its entry at `z` is
    that of `K`. -/
theorem inUse_addRoot (hb : ¬ F.present b = true)
    (hfree : ¬ InUse F (K :: dirs) mem D) {f : φ}
    (hf : InUse F (K :: D :: dirs) ((mem.fill D b).set D z (mem K z)) f) :
    f = D ∨ InUse F (K :: dirs) mem f := by
  rcases hf with hf | ⟨d, hd, j, hp, ht⟩
  · exact (root_cases hf).imp_right Or.inl
  · refine Or.inr (Or.inr ?_)
    by_cases hdD : d = D
    · rw [hdD, addRoot_entry] at hp ht
      by_cases hj : j = z
      · rw [if_pos hj] at hp ht
        exact ⟨K, List.mem_cons_self, z, hp, ht⟩
      · rw [if_neg hj] at hp
        exact absurd hp hb
    · have hd' := (root_cases hd).resolve_left hdD
      rw [addRoot_frame hfree (Or.inl hd')] at hp ht
      exact ⟨d, hd', j, hp, ht⟩

/-- **A NEW ROOT** in a frame that is not in use, with the shared entry. -/
theorem addRoot (h : Trees F K z dirs mem) (hb : ¬ F.present b = true)
    (hfree : ¬ InUse F (K :: dirs) mem D) :
    Trees F K z (D :: dirs) ((mem.fill D b).set D z (mem K z)) := by
  have hold : ∀ d ∈ K :: dirs, (mem.fill D b).set D z (mem K z) d = mem d :=
    fun d hd => addRoot_frame hfree (Or.inl hd)
  have hDne : D ∉ K :: dirs := fun hm => hfree (Or.inl hm)
  -- an entry present in the new root is the shared one
  have hnew : ∀ i, F.present ((mem.fill D b).set D z (mem K z) D i) = true →
      i = z ∧ (mem.fill D b).set D z (mem K z) D i = mem K z := by
    intro i hp
    rw [addRoot_entry] at hp ⊢
    by_cases hi : i = z
    · exact ⟨hi, if_pos hi⟩
    · rw [if_neg hi] at hp
      exact absurd hp hb
  have htarget : ∀ d ∈ K :: dirs, ∀ i, F.present (mem d i) = true →
      F.target (mem d i) ∉ K :: D :: dirs := by
    intro d hd i hp hm
    rcases root_cases hm with hD | hold
    · exact hfree (Or.inr ⟨d, hd, i, hp, hD⟩)
    · exact h.apart d hd i hp hold
  refine ⟨?_, ?_, ?_, ?_⟩
  · have hnd := List.nodup_cons.mp h.nodup
    simp only [List.mem_cons, not_or] at hDne
    refine List.nodup_cons.mpr ⟨?_, List.nodup_cons.mpr ⟨hDne.2, hnd.2⟩⟩
    simp only [List.mem_cons, not_or]
    exact ⟨fun hc => hDne.1 hc.symm, hnd.1⟩
  · intro d hd
    rw [hold K (by simp)]
    rcases List.mem_cons.mp hd with rfl | hd
    · rw [addRoot_entry, if_pos rfl]
    · rw [hold d (List.mem_cons_of_mem _ hd)]
      exact h.shared d hd
  · intro d₁ h₁ d₂ h₂ i₁ i₂ o₁ o₂ p₁ p₂ ht
    have hno : ∀ {d : φ} {i : σ}, (d = K ∨ i ≠ z) → d = D →
        F.present ((mem.fill D b).set D z (mem K z) d i) = true → False := by
      rintro d i ho rfl hp
      rcases ho with rfl | hi
      · exact hDne (by simp)
      · exact hi (hnew i hp).1
    have h₁' := (root_cases h₁).resolve_left (fun hc => hno o₁ hc p₁)
    have h₂' := (root_cases h₂).resolve_left (fun hc => hno o₂ hc p₂)
    rw [hold d₁ h₁'] at p₁ ht
    rw [hold d₂ h₂'] at p₂ ht
    exact h.inj d₁ h₁' d₂ h₂' i₁ i₂ o₁ o₂ p₁ p₂ ht
  · intro d hd i hp
    rcases root_cases hd with rfl | hd
    · obtain ⟨hi, he⟩ := hnew i hp
      rw [he] at hp ⊢
      exact htarget K (by simp) z hp
    · rw [hold d hd] at hp ⊢
      exact htarget d hd i hp

/-- A new root leaves the walks of the others alone. -/
theorem walk_addRoot (hfree : ¬ InUse F (K :: dirs) mem D) {d : φ}
    (hd : d ∈ K :: dirs) (i j : σ) :
    walk F ((mem.fill D b).set D z (mem K z)) d i j = walk F mem d i j :=
  walk_congr (fun _ hf => addRoot_frame hfree hf) hd i j

end Root

end Trees

end TwoLevel
