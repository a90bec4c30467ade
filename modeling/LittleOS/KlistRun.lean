import Mathlib.Data.List.Lattice
import Mathlib.Data.List.Perm.Subperm
import Mathlib.Data.Set.Insert
import LittleOS.Klist

/-! # Runs of list operations

    A collection of lists, each started by `klist_init`, and any run of
    `klist_push`, `klist_append`, `klist_pop`, `klist_remove` and `klist_find`
    on them.  The abstract state gives each list its sequence of nodes; `Op.spec`
    is what an operation is for, in terms of these sequences, and `Op.exec` is
    the code.

    * `Layout` — lists and nodes are disjoint objects of a 32-bit memory;
    * `Holds` — the invariant: the memory represents the abstract state;
    * `exec_holds` — one operation keeps it and answers what the specification
      answers;
    * `klist_run_correct` — so does every run. -/

namespace LittleOS.KlistRun

open Words Dll Klist

/-- The sequence of nodes each list holds. -/
abbrev Contents := Nat → List Nat

/-- List structures and nodes are disjoint objects inside a 32-bit memory. -/
structure Layout (lists : List Nat) (nodes : Set Nat) : Prop where
  list_pos : ∀ l ∈ lists, 0 < l
  node_pos : ∀ n ∈ nodes, 0 < n
  node_end : ∀ n ∈ nodes, n + 8 ≤ 2 ^ 32
  lists_apart : ∀ l ∈ lists, ∀ l' ∈ lists, l ≠ l' → l + 20 ≤ l' ∨ l' + 20 ≤ l
  nodes_apart : ∀ n ∈ nodes, ∀ n' ∈ nodes, n ≠ n' → n + 8 ≤ n' ∨ n' + 8 ≤ n
  off_lists : ∀ n ∈ nodes, ∀ l ∈ lists, n + 8 ≤ l ∨ l + 20 ≤ n

/-- The operations on several lists. -/
inductive Op where
  | push (list node : Nat)
  | append (list node : Nat)
  | pop (list : Nat)
  | remove (list node : Nat)
  | find (list node : Nat)
deriving DecidableEq, Repr

namespace Op

/-- The list an operation is called on. -/
def list : Op → Nat
  | push l _ => l
  | append l _ => l
  | pop l => l
  | remove l _ => l
  | find l _ => l

/-- The code: the memory after the call and the pointer it returns, if it
    returns one. -/
def exec (fuel : Nat) : Op → Mem → Option (Mem × Option Nat)
  | push l n, m => some (klistPush m l n, none)
  | append l n, m => some (klistAppend m l n, none)
  | pop l, m => some ((klistPop m l).1, some (klistPop m l).2)
  | remove l n, m => (klistRemove fuel m l n).map (fun r => (r.1, some r.2))
  | find l n, m => (klistFind fuel m l n).map (fun r => (m, some r))

/-- The purpose of each operation, on sequences. -/
def spec : Op → Contents → Contents × Option Nat
  | push l n, σ => (Function.update σ l (n :: σ l), none)
  | append l n, σ => (Function.update σ l (σ l ++ [n]), none)
  | pop l, σ => (Function.update σ l (σ l).tail, some ((σ l).headD 0))
  | remove l n, σ =>
      if n ∈ σ l then (Function.update σ l ((σ l).erase n), some n)
      else (σ, some 0)
  | find l n, σ => (σ, some (if n ∈ σ l then n else 0))

/-- A removal erases, also where there is nothing to erase. -/
theorem spec_remove (l n : Nat) (σ : Contents) :
    (spec (.remove l n) σ).1 = Function.update σ l ((σ l).erase n) := by
  by_cases hn : n ∈ σ l
  · simp only [spec, if_pos hn]
  · simp only [spec, if_neg hn]
    rw [List.erase_of_not_mem hn, Function.update_eq_self]

/-- The calls a caller may make: a node to insert is linked in no list, a list
    to pop from is not empty, a node to look for is not a sentinel. -/
def Allowed (lists : List Nat) (nodes : Set Nat) (σ : Contents) : Op → Prop
  | push l n => l ∈ lists ∧ n ∈ nodes ∧ ∀ l' ∈ lists, n ∉ σ l'
  | append l n => l ∈ lists ∧ n ∈ nodes ∧ ∀ l' ∈ lists, n ∉ σ l'
  | pop l => l ∈ lists ∧ σ l ≠ []
  | remove l n => l ∈ lists ∧ ∀ l' ∈ lists, n ≠ head l' ∧ n ≠ tail l'
  | find l n => l ∈ lists ∧ ∀ l' ∈ lists, n ≠ head l' ∧ n ≠ tail l'

/-- The operation only looks: a search, or the removal of a node that is not
    in the list. -/
def Quiet (σ : Contents) : Op → Prop
  | remove l n => n ∉ σ l
  | find _ _ => True
  | _ => False

end Op

/-! ## The invariant -/

/-- The memory represents the contents `σ` of every list. -/
structure Holds (lists : List Nat) (nodes : Set Nat) (σ : Contents)
    (m : Mem) : Prop where
  isList : ∀ l ∈ lists, IsList m l (σ l)
  mem_nodes : ∀ l ∈ lists, ∀ x ∈ σ l, x ∈ nodes
  nodup : ∀ l ∈ lists, (σ l).Nodup
  disjoint : ∀ l ∈ lists, ∀ l' ∈ lists, l ≠ l' → List.Disjoint (σ l) (σ l')

variable {lists : List Nat} {nodes : Set Nat} {σ : Contents} {m : Mem}

/-- Distinct nodes of the layout are placed apart from each of its lists. -/
theorem Layout.placed (lay : Layout lists nodes) {l : Nat} {xs : List Nat}
    (hl : l ∈ lists) (hx : ∀ x ∈ xs, x ∈ nodes) (hnd : xs.Nodup) :
    Placed l xs where
  list_pos := lay.list_pos l hl
  node_pos := fun x h => lay.node_pos x (hx x h)
  off_list := fun x h => lay.off_lists x (hx x h) l hl
  apart := fun x h y h' => lay.nodes_apart x (hx x h) y (hx y h')
  nodup := hnd

/-- Each list with its nodes is apart in memory. -/
theorem Holds.placed (h : Holds lists nodes σ m) (lay : Layout lists nodes)
    {l : Nat} (hl : l ∈ lists) : Placed l (σ l) :=
  lay.placed hl (h.mem_nodes l hl) (h.nodup l hl)

/-- A change of words that no list uses. -/
theorem Holds.frame {m' : Mem} (h : Holds lists nodes σ m)
    (hm : ∀ l ∈ lists, ∀ w, Covers l (σ l) w → m' w = m w) :
    Holds lists nodes σ m' :=
  ⟨fun l hl => (h.isList l hl).frame (hm l hl), h.mem_nodes, h.nodup, h.disjoint⟩

/-- Only the contents of the lists matter. -/
theorem Holds.congr {σ' : Contents} (h : Holds lists nodes σ m)
    (hσ : ∀ l ∈ lists, σ' l = σ l) : Holds lists nodes σ' m where
  isList := fun l hl => hσ l hl ▸ h.isList l hl
  mem_nodes := fun l hl => hσ l hl ▸ h.mem_nodes l hl
  nodup := fun l hl => hσ l hl ▸ h.nodup l hl
  disjoint := fun l hl l' hl' => hσ l hl ▸ hσ l' hl' ▸ h.disjoint l hl l' hl'

/-- Two lists with different nodes share no word. -/
theorem Layout.covers_disjoint (lay : Layout lists nodes) {l l' : Nat}
    {xs xs' : List Nat} (hl : l ∈ lists) (hl' : l' ∈ lists) (hne : l ≠ l')
    (hx : ∀ x ∈ xs, x ∈ nodes) (hx' : ∀ x ∈ xs', x ∈ nodes)
    (hd : List.Disjoint xs xs') {w : Nat} (hw : Covers l xs w) :
    ¬ Covers l' xs' w := by
  have hll := lay.lists_apart l hl l' hl' hne
  -- a word of a list is in its structure or in one of its nodes
  have hsplit : ∀ {k : Nat} {ys : List Nat}, Covers k ys w →
      (k ≤ w ∧ w < k + 20) ∨ ∃ c ∈ ys, c ≤ w ∧ w < c + 8 := by
    intro k ys hk
    rcases hk with h16 | ⟨c, hc, hcw⟩
    · left; omega
    · rcases mem_cells.mp hc with h1 | h1 | h1
      · left; omega
      · right; exact ⟨c, h1, by omega, by omega⟩
      · left; omega
  intro hw'
  rcases hsplit hw with h1 | ⟨c, hc, h1⟩ <;>
    rcases hsplit hw' with h2 | ⟨c', hc', h2⟩
  · omega
  · have := lay.off_lists c' (hx' c' hc') l hl
    omega
  · have := lay.off_lists c (hx c hc) l' hl'
    omega
  · have hcc : c ≠ c' := fun he => hd hc (he ▸ hc')
    have := lay.nodes_apart c (hx c hc) c' (hx' c' hc') hcc
    omega

/-- Nodes of one list fit in the address space, so its length is far below
    the range of the counter. -/
theorem Layout.length_le (lay : Layout lists nodes) {xs : List Nat}
    (hx : ∀ x ∈ xs, x ∈ nodes) (hnd : xs.Nodup) : xs.length ≤ 2 ^ 29 := by
  have hinj : (xs.map (· / 8)).Nodup := by
    refine hnd.map_on ?_
    intro x hxm y hym hxy
    by_contra hne
    have := lay.nodes_apart x (hx x hxm) y (hx y hym) hne
    omega
  have hsub : xs.map (· / 8) ⊆ List.range (2 ^ 29) := by
    intro k hk
    obtain ⟨x, hxm, rfl⟩ := List.mem_map.mp hk
    have := lay.node_end x (hx x hxm)
    rw [List.mem_range]
    omega
  have := (hinj.subperm hsub).length_le
  simpa using this

/-- Replacing the nodes of one list: the others are untouched when only words
    of that list changed. -/
theorem Holds.update (h : Holds lists nodes σ m) (lay : Layout lists nodes)
    {l : Nat} {xs ys : List Nat} {m' : Mem} (hl : l ∈ lists)
    (hr : IsList m' l xs) (hx : ∀ x ∈ xs, x ∈ ys) (hnd : xs.Nodup)
    (hy : ∀ y ∈ ys, y ∈ nodes)
    (hd : ∀ l' ∈ lists, l ≠ l' → List.Disjoint ys (σ l'))
    (hm : ∀ w, ¬ Covers l ys w → m' w = m w) :
    Holds lists nodes (Function.update σ l xs) m' := by
  have hdx : ∀ l' ∈ lists, l ≠ l' → List.Disjoint xs (σ l') :=
    fun l' hl' hne x hxm => hd l' hl' hne (hx x hxm)
  constructor
  · intro k hk
    by_cases hkl : k = l
    · subst hkl
      rw [Function.update_self]
      exact hr
    · rw [Function.update_of_ne hkl]
      refine (h.isList k hk).frame ?_
      intro w hw
      -- words of other lists are not covered by the nodes of this one
      refine hm w ?_
      exact lay.covers_disjoint hk hl hkl (h.mem_nodes k hk) hy
        (hd k hk (Ne.symm hkl)).symm hw
  · intro k hk
    by_cases hkl : k = l
    · subst hkl
      rw [Function.update_self]
      exact fun x hxm => hy x (hx x hxm)
    · rw [Function.update_of_ne hkl]
      exact h.mem_nodes k hk
  · intro k hk
    by_cases hkl : k = l
    · subst hkl
      rw [Function.update_self]
      exact hnd
    · rw [Function.update_of_ne hkl]
      exact h.nodup k hk
  · intro k hk k' hk' hne
    by_cases hkl : k = l
    · subst hkl
      rw [Function.update_self, Function.update_of_ne (Ne.symm hne)]
      exact hdx k' hk' hne
    · rw [Function.update_of_ne hkl]
      by_cases hkl' : k' = l
      · subst hkl'
        rw [Function.update_self]
        exact (hdx k hk (Ne.symm hne)).symm
      · rw [Function.update_of_ne hkl']
        exact h.disjoint k hk k' hk' hne

/-- `klist_init` on every list, one after another. -/
def initAll (lists : List Nat) (m : Mem) : Mem := lists.foldl klistInit m

/-- Initialising lists writes their own words only. -/
theorem initAll_frame {w : Nat} :
    ∀ (ls : List Nat) (m : Mem), (∀ l ∈ ls, w < l ∨ l + 20 ≤ w) →
      initAll ls m w = m w := by
  intro ls
  induction ls with
  | nil => intro m _; rfl
  | cons l rest ih =>
      intro m hw
      show initAll rest (klistInit m l) w = m w
      rw [ih (klistInit m l) (fun k hk => hw k (List.mem_cons_of_mem _ hk))]
      exact klistInit_frame (hw l (by simp))

/-- Each of them is empty afterwards; the induction is on the lists. -/
theorem initAll_isList {l : Nat} :
    ∀ (ls : List Nat) (m : Mem), l ∈ ls →
      (∀ k ∈ ls, k ≠ l → k + 20 ≤ l ∨ l + 20 ≤ k) →
      IsList (initAll ls m) l [] := by
  intro ls
  induction ls with
  | nil => intro m hl; exact nomatch hl
  | cons k rest ih =>
      intro m hl hap
      show IsList (initAll rest (klistInit m k)) l []
      by_cases hrest : l ∈ rest
      · exact ih (klistInit m k) hrest
          (fun j hj => hap j (List.mem_cons_of_mem _ hj))
      · have hk : l = k := (List.mem_cons.mp hl).resolve_right hrest
        subst hk
        refine (klistInit_isList m l).frame ?_
        intro w hw
        refine initAll_frame rest (klistInit m l) ?_
        intro j hj
        have hjl : j ≠ l := fun he => hrest (he ▸ hj)
        have hsep := hap j (List.mem_cons_of_mem _ hj) hjl
        rcases hw with h16 | ⟨c, hc, hcw⟩
        · omega
        · rcases mem_cells.mp hc with h1 | h1 | h1
          · omega
          · exact nomatch h1
          · omega

/-- After the `klist_init` calls every list is empty. -/
theorem initAll_holds (lay : Layout lists nodes) (m : Mem) :
    Holds lists nodes (fun _ => []) (initAll lists m) where
  isList := fun l hl => initAll_isList lists m hl
    (fun k hk hne => lay.lists_apart k hk l hl hne)
  mem_nodes := fun _ _ _ hx => nomatch hx
  nodup := fun _ _ => List.nodup_nil
  disjoint := fun _ _ _ _ _ => List.disjoint_nil_left _

/-! ## One operation -/

/-- **ONE OPERATION** keeps the invariant, answers what its specification
    answers, and writes words of its list and of nodes in no other list. -/
theorem exec_touches (lay : Layout lists nodes) (h : Holds lists nodes σ m)
    {op : Op} (ha : op.Allowed lists nodes σ) {fuel : Nat}
    (hf : 2 ^ 29 + 2 ≤ fuel) :
    ∃ m' ys, op.exec fuel m = some (m', (op.spec σ).2) ∧
      Holds lists nodes (op.spec σ).1 m' ∧
      op.list ∈ lists ∧ (∀ y ∈ ys, y ∈ nodes) ∧
      (∀ l ∈ lists, op.list ≠ l → List.Disjoint ys (σ l)) ∧
      (∀ w, ¬ Covers op.list ys w → m' w = m w) ∧
      (op.Quiet σ → m' = m) := by
  have hlen : ∀ l ∈ lists, (σ l).length + 1 < fuel := by
    intro l hl
    have := lay.length_le (h.mem_nodes l hl) (h.nodup l hl)
    omega
  -- each operation writes in its list with the node it adds or takes
  cases op with
  | push l n =>
      obtain ⟨hl, hn, hfresh⟩ := ha
      have hnd : (n :: σ l).Nodup := List.nodup_cons.mpr ⟨hfresh l hl, h.nodup l hl⟩
      have hy : ∀ y ∈ n :: σ l, y ∈ nodes := by
        intro y hym
        rcases List.mem_cons.mp hym with rfl | hym
        · exact hn
        · exact h.mem_nodes l hl y hym
      have hd : ∀ l' ∈ lists, l ≠ l' → List.Disjoint (n :: σ l) (σ l') :=
        fun l' hl' hne => List.disjoint_cons_left.mpr
          ⟨hfresh l' hl', h.disjoint l hl l' hl' hne⟩
      obtain ⟨hr, hm⟩ := klistPush_isList (h.isList l hl) (lay.placed hl hy hnd)
      exact ⟨_, _, rfl, h.update lay hl hr (fun _ hx => hx) hnd hy hd hm,
        hl, hy, hd, hm, fun hq => hq.elim⟩
  | append l n =>
      obtain ⟨hl, hn, hfresh⟩ := ha
      have hnd : (σ l ++ [n]).Nodup := by
        rw [List.nodup_append]
        refine ⟨h.nodup l hl, List.nodup_singleton n, ?_⟩
        intro x hx y hy hxy
        exact hfresh l hl (by rw [← List.mem_singleton.mp hy, ← hxy]; exact hx)
      have hy : ∀ y ∈ σ l ++ [n], y ∈ nodes := by
        intro y hym
        rcases List.mem_append.mp hym with hym | hym
        · exact h.mem_nodes l hl y hym
        · rw [List.mem_singleton.mp hym]; exact hn
      have hd : ∀ l' ∈ lists, l ≠ l' → List.Disjoint (σ l ++ [n]) (σ l') :=
        fun l' hl' hne => List.disjoint_append_left.mpr
          ⟨h.disjoint l hl l' hl' hne,
            List.singleton_disjoint.mpr (hfresh l' hl')⟩
      obtain ⟨hr, hm⟩ := klistAppend_isList (h.isList l hl) (lay.placed hl hy hnd)
      exact ⟨_, _, rfl, h.update lay hl hr (fun _ hx => hx) hnd hy hd hm,
        hl, hy, hd, hm, fun hq => hq.elim⟩
  | pop l =>
      obtain ⟨hl, hne⟩ := ha
      obtain ⟨n, xs, hxs⟩ := List.exists_cons_of_ne_nil hne
      have hd : ∀ l' ∈ lists, l ≠ l' → List.Disjoint (n :: xs) (σ l') :=
        fun l' hl' hne => hxs ▸ h.disjoint l hl l' hl' hne
      have hnd : (n :: xs).Nodup := hxs ▸ h.nodup l hl
      have hy : ∀ y ∈ n :: xs, y ∈ nodes := hxs ▸ h.mem_nodes l hl
      obtain ⟨hret, hr, hm⟩ :=
        klistPop_isList (hxs ▸ h.isList l hl) (lay.placed hl hy hnd)
      refine ⟨(klistPop m l).1, _, ?_, ?_, hl, hy, hd, hm, fun hq => hq.elim⟩
      · simp [Op.exec, Op.spec, hxs, hret]
      · simp only [Op.spec, hxs, List.tail_cons]
        exact h.update lay hl hr (fun _ hx => List.mem_cons_of_mem _ hx)
          (List.nodup_cons.mp hnd).2 hy hd hm
  | remove l n =>
      obtain ⟨hl, hns⟩ := ha
      have hp := h.placed lay hl
      have hy := h.mem_nodes l hl
      have hd := h.disjoint l hl
      by_cases hn : n ∈ σ l
      · obtain ⟨hr, hm⟩ := klistUnlink_isList (h.isList l hl) hp hn
        refine ⟨klistUnlink m l n, _, ?_, ?_, hl, hy, hd, hm, fun hq => absurd hn hq⟩
        · simp [Op.exec, Op.spec, hn,
            klistRemove_mem (h.isList l hl) hp hn (hlen l hl)]
        · simp only [Op.spec, if_pos hn]
          exact h.update lay hl hr (fun _ hx => List.mem_of_mem_erase hx)
            ((h.nodup l hl).erase n) hy hd hm
      -- a node of no list is searched for and not found
      · refine ⟨m, _, ?_, ?_, hl, hy, hd, fun _ _ => rfl, fun _ => rfl⟩
        · simp [Op.exec, Op.spec, hn,
            klistRemove_absent (h.isList l hl) hp (hns l hl).2 hn (hlen l hl)]
        · simp only [Op.spec, if_neg hn]
          exact h
  | find l n =>
      obtain ⟨hl, hns⟩ := ha
      refine ⟨m, _, ?_, h, hl, h.mem_nodes l hl, h.disjoint l hl,
        fun _ _ => rfl, fun _ => rfl⟩
      simp [Op.exec, Op.spec,
        klistFind_isList (h.isList l hl) (h.placed lay hl) (hns l hl).2 (hlen l hl)]

/-- An operation leaves every word of every other list alone, and changes
    nothing at all when it only looks. -/
theorem exec_holds (lay : Layout lists nodes) (h : Holds lists nodes σ m)
    {op : Op} (ha : op.Allowed lists nodes σ) {fuel : Nat}
    (hf : 2 ^ 29 + 2 ≤ fuel) :
    ∃ m', op.exec fuel m = some (m', (op.spec σ).2) ∧
      Holds lists nodes (op.spec σ).1 m' ∧
      (∀ l ∈ lists, l ≠ op.list → ∀ w, Covers l (σ l) w → m' w = m w) ∧
      (op.Quiet σ → m' = m) := by
  obtain ⟨m', ys, hex, hh, hl, hy, hd, hm, hq⟩ := exec_touches lay h ha hf
  refine ⟨m', hex, hh, ?_, hq⟩
  intro k hk hkl w hw
  exact hm w (lay.covers_disjoint hk hl hkl (h.mem_nodes k hk) hy
    (hd k hk (Ne.symm hkl)).symm hw)

/-- A word outside every list structure and every node. -/
structure Apart (lists : List Nat) (nodes : Set Nat) (w : Nat) : Prop where
  lists : ∀ l ∈ lists, w < l ∨ l + 20 ≤ w
  nodes : ∀ n ∈ nodes, w < n ∨ n + 8 ≤ w

/-- An address that is apart is in no list. -/
theorem Apart.not_covers {w l : Nat} {xs : List Nat} (hw : Apart lists nodes w)
    (hl : l ∈ lists) (hx : ∀ x ∈ xs, x ∈ nodes) : ¬ Covers l xs w := by
  have hoff := hw.lists l hl
  rintro (h16 | ⟨c, hc, hcw⟩)
  · omega
  · rcases mem_cells.mp hc with hc | hc | hc
    · omega
    · have := hw.nodes c (hx c hc)
      omega
    · omega

/-- An operation writes no word outside the lists and their nodes. -/
theorem exec_apart (lay : Layout lists nodes) (h : Holds lists nodes σ m)
    {op : Op} (ha : op.Allowed lists nodes σ) {fuel : Nat}
    (hf : 2 ^ 29 + 2 ≤ fuel) :
    ∃ m', op.exec fuel m = some (m', (op.spec σ).2) ∧
      Holds lists nodes (op.spec σ).1 m' ∧
      ∀ w, Apart lists nodes w → m' w = m w := by
  obtain ⟨m', ys, hex, hh, hl, hy, -, hm, -⟩ := exec_touches lay h ha hf
  exact ⟨m', hex, hh, fun w hw => hm w (hw.not_covers hl hy)⟩

/-! ## Runs -/

/-- The code over a run: the final memory and every returned pointer. -/
def run (fuel : Nat) : List Op → Mem → Option (Mem × List (Option Nat))
  | [], m => some (m, [])
  | op :: ops, m =>
      (op.exec fuel m).bind (fun r =>
        (run fuel ops r.1).map (fun rs => (rs.1, r.2 :: rs.2)))

/-- The specification over a run. -/
def specRun : List Op → Contents → Contents × List (Option Nat)
  | [], σ => (σ, [])
  | op :: ops, σ =>
      ((specRun ops (op.spec σ).1).1, (op.spec σ).2 :: (specRun ops (op.spec σ).1).2)

/-- Every call of the run is allowed where it is made. -/
def AllowedRun (lists : List Nat) (nodes : Set Nat) : List Op → Contents → Prop
  | [], _ => True
  | op :: ops, σ =>
      op.Allowed lists nodes σ ∧ AllowedRun lists nodes ops (op.spec σ).1

/-- **RUNS** keep the invariant and answer what the specification answers. -/
theorem run_holds (lay : Layout lists nodes) {fuel : Nat}
    (hf : 2 ^ 29 + 2 ≤ fuel) :
    ∀ (ops : List Op) (σ : Contents) (m : Mem), Holds lists nodes σ m →
      AllowedRun lists nodes ops σ →
      ∃ m', run fuel ops m = some (m', (specRun ops σ).2) ∧
        Holds lists nodes (specRun ops σ).1 m' := by
  intro ops
  induction ops with
  | nil => intro σ m h _; exact ⟨m, rfl, h⟩
  | cons op ops ih =>
      intro σ m h ha
      obtain ⟨m₁, hex, h₁, -, -⟩ := exec_holds lay h ha.1 hf
      obtain ⟨m₂, hrun, h₂⟩ := ih (op.spec σ).1 m₁ h₁ ha.2
      exact ⟨m₂, by simp [run, specRun, hex, hrun], h₂⟩

/-- What a reader of the memory sees of a list: its nodes forwards from
    `head`, backwards from `tail`, and their number in `len`. -/
def Shows (fuel : Nat) (m : Mem) (list : Nat) (xs : List Nat) : Prop :=
  xs.Nodup ∧
    forward (next m) (tail list) fuel (next m (head list)) = some xs ∧
    forward (prev m) (head list) fuel (prev m (tail list)) = some xs.reverse ∧
    m (len list) = xs.length

/-- Each list shows its sequence: forwards, backwards and by its length. -/
theorem Holds.shows (h : Holds lists nodes σ m) (lay : Layout lists nodes)
    {l fuel : Nat} (hl : l ∈ lists) (hf : 2 ^ 29 + 2 ≤ fuel) :
    Shows fuel m l (σ l) := by
  have hr := h.isList l hl
  have hle := lay.length_le (h.mem_nodes l hl) (h.nodup l hl)
  have hoff := (h.placed lay hl).off_list
  refine ⟨h.nodup l hl, ?_, ?_, ?_⟩
  · refine forward_linked (next m) (prev m) (σ l) (head l) fuel hr.linked ?_
      (by omega)
    intro ht
    have := hoff _ ht
    simp only [tail] at this
    omega
  · refine backward_linked hr.linked ?_ (by omega)
    intro hh
    have := hoff l hh
    omega
  · rw [hr.len_eq]
    omega

/-- Every run of allowed operations from freshly initialised lists returns, its
    answers are those of the specification, and the memory then shows each list
    to hold its specified sequence, no node in two lists.  The next operation
    leaves the words of the other lists alone, and the memory as it was when it
    only looks. -/
theorem klist_run_correct (lay : Layout lists nodes) (m₀ : Mem) (ops : List Op)
    (ha : AllowedRun lists nodes ops (fun _ => [])) (fuel : Nat)
    (hf : 2 ^ 29 + 2 ≤ fuel) :
    ∃ m, run fuel ops (initAll lists m₀)
        = some (m, (specRun ops (fun _ => [])).2) ∧
      (∀ l ∈ lists, Shows fuel m l ((specRun ops (fun _ => [])).1 l)) ∧
      (∀ l ∈ lists, ∀ l' ∈ lists, l ≠ l' →
        List.Disjoint ((specRun ops (fun _ => [])).1 l)
          ((specRun ops (fun _ => [])).1 l')) ∧
      ∀ op : Op, op.Allowed lists nodes (specRun ops (fun _ => [])).1 →
        ∃ m', op.exec fuel m
            = some (m', (op.spec (specRun ops (fun _ => [])).1).2) ∧
          (∀ l ∈ lists, l ≠ op.list → ∀ w,
            Covers l ((specRun ops (fun _ => [])).1 l) w → m' w = m w) ∧
          (op.Quiet (specRun ops (fun _ => [])).1 → m' = m) := by
  obtain ⟨m, hrun, h⟩ :=
    run_holds lay hf ops _ _ (initAll_holds lay m₀) ha
  refine ⟨m, hrun, fun l hl => h.shows lay hl hf, h.disjoint, ?_⟩
  intro op hop
  obtain ⟨m', hex, -, hother, hquiet⟩ := exec_holds lay h hop hf
  exact ⟨m', hex, hother, hquiet⟩

/-- Two lists and two nodes. -/
def pairLists : List Nat := [4096, 4128]

/-- The node addresses of the two-list layout. -/
def pairNodes : Set Nat := {8192, 8200}

/-- Two lists and two nodes are apart in memory. -/
theorem pair_layout : Layout pairLists pairNodes where
  list_pos := by simp [pairLists]
  node_pos := by simp [pairNodes]
  node_end := by simp [pairNodes]
  lists_apart := by simp [pairLists]
  nodes_apart := by simp [pairNodes]
  off_lists := by simp [pairLists, pairNodes]

/-- A run over both lists: the search of the first list for a node of the
    second answers `NULL`. -/
def pairRun : List Op :=
  [.push 4096 8192, .append 4128 8200, .remove 4096 8200, .pop 4096,
    .push 4128 8192]

/-- A run in which a node goes from one list to the other. -/
theorem klist_run_correct_pair :
    ∃ m, run (2 ^ 29 + 2) pairRun (initAll pairLists (fun _ => 0))
        = some (m, [none, none, some 0, some 8192, none]) ∧
      Shows (2 ^ 29 + 2) m 4128 [8192, 8200] := by
  have ha : AllowedRun pairLists pairNodes pairRun (fun _ => []) := by
    simp [AllowedRun, pairRun, Op.Allowed, Op.spec, pairLists, pairNodes,
      Function.update_apply, head, tail]
  obtain ⟨m, hrun, hshow, -⟩ := klist_run_correct pair_layout (fun _ => 0)
    pairRun ha (2 ^ 29 + 2) (Nat.le_refl _)
  refine ⟨m, ?_, ?_⟩
  · rw [hrun]
    simp [specRun, pairRun, Op.spec]
  · have h := hshow 4128 (by simp [pairLists])
    simpa [specRun, pairRun, Op.spec, Function.update_apply] using h

end LittleOS.KlistRun
