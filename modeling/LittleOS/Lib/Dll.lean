import Mathlib.Algebra.Order.Ring.Int
import Mathlib.Data.List.Chain
import Mathlib.Data.List.Nodup

/-! # Doubly linked segments over two link functions

    A segment is a list of nodes in which every node's forward link is its
    right neighbour and every node's backward link its left neighbour.  Links
    are two functions `nxt prv : α → α`, so the same rules serve a heap, a
    flat word store or a table of records.

    * `Linked` — the segment predicate, a `List.IsChain`;
    * `Linked.congr` — it reads only the links inside the segment;
    * `Linked.insert`, `Linked.remove` — the two local edits;
    * `forward` — the traversal that follows one link up to a stop node, with
      `forward_linked` and `backward_linked` for the two directions. -/

namespace Dll

variable {α : Type*} {nxt prv nxt' prv' : α → α}

/-- Neighbours of `l` point at each other. -/
def Linked (nxt prv : α → α) (l : List α) : Prop :=
  l.IsChain (fun x y => nxt x = y ∧ prv y = x)

/-- A segment reads the forward link of every node but the last and the
    backward link of every node but the first. -/
theorem Linked.congr {l : List α} (h : Linked nxt prv l)
    (hn : ∀ x ∈ l.dropLast, nxt' x = nxt x)
    (hp : ∀ x ∈ l.tail, prv' x = prv x) : Linked nxt' prv' l := by
  refine List.isChain_iff_forall_rel_of_append_cons_cons.mpr ?_
  intro a b l₁ l₂ hl
  obtain ⟨h1, h2⟩ := List.isChain_iff_forall_rel_of_append_cons_cons.mp h hl
  have ha : a ∈ l.dropLast := by
    rw [hl, List.dropLast_append_of_ne_nil (by simp)]
    simp
  have hb : b ∈ l.tail := by
    rw [hl]
    cases l₁ <;> simp
  exact ⟨(hn a ha).trans h1, (hp b hb).trans h2⟩

/-- A segment survives any change of links outside it. -/
theorem Linked.frame {l : List α} (h : Linked nxt prv l)
    (hn : ∀ x ∈ l, nxt' x = nxt x) (hp : ∀ x ∈ l, prv' x = prv x) :
    Linked nxt' prv' l :=
  h.congr (fun x hx => hn x (List.dropLast_subset l hx))
    (fun x hx => hp x (List.mem_of_mem_tail hx))

/-- A segment read from its last node is a segment with the links swapped. -/
theorem Linked.reverse {l : List α} (h : Linked nxt prv l) :
    Linked prv nxt l.reverse := by
  refine List.isChain_reverse.mpr ?_
  exact h.imp (fun x y hxy => ⟨hxy.2, hxy.1⟩)

/-- Up to a node: what points away from it is not of the segment. -/
theorem Linked.upTo {l : List α} {a : α} (h : Linked nxt prv (l ++ [a]))
    (hn : ∀ x ∈ l, nxt' x = nxt x) (hp : ∀ x, x ∈ l ∨ x = a → prv' x = prv x) :
    Linked nxt' prv' (l ++ [a]) := by
  refine Linked.congr h ?_ ?_
  · intro x hx
    rw [List.dropLast_concat] at hx
    exact hn x hx
  · intro x hx
    exact hp x ((List.mem_append.mp (List.mem_of_mem_tail hx)).imp_right List.mem_singleton.mp)

/-- And from a node on. -/
theorem Linked.fromOn {l : List α} {b : α} (h : Linked nxt prv (b :: l))
    (hn : ∀ x ∈ b :: l, nxt' x = nxt x) (hp : ∀ x ∈ l, prv' x = prv x) :
    Linked nxt' prv' (b :: l) := by
  refine Linked.congr h ?_ ?_
  · intro x hx
    exact hn x (List.dropLast_subset _ hx)
  · intro x hx
    rw [List.tail_cons] at hx
    exact hp x hx

/-- **INSERTION** of a node between two neighbours. -/
theorem Linked.insert {l₁ l₂ : List α} {a b n : α}
    (h : Linked nxt prv (l₁ ++ a :: b :: l₂))
    (han : nxt' a = n) (hnb : nxt' n = b) (hpn : prv' n = a) (hpb : prv' b = n)
    (hn : ∀ x ∈ l₁ ++ b :: l₂, nxt' x = nxt x)
    (hp : ∀ x ∈ l₁ ++ a :: l₂, prv' x = prv x) :
    Linked nxt' prv' (l₁ ++ a :: n :: b :: l₂) := by
  obtain ⟨hleft, -, hright⟩ := List.isChain_append_cons_cons.mp h
  have hleft' : Linked nxt' prv' (l₁ ++ [a]) :=
    Linked.upTo hleft (fun x hx => hn x (by simp [hx])) (fun x hx => hp x (by simp; tauto))
  have hright' : Linked nxt' prv' (b :: l₂) :=
    Linked.fromOn hright (fun x hx => hn x (List.mem_append_right l₁ hx))
      (fun x hx => hp x (by simp [hx]))
  exact List.isChain_append_cons_cons.mpr
    ⟨hleft', ⟨han, hpn⟩, List.isChain_cons_cons.mpr ⟨⟨hnb, hpb⟩, hright'⟩⟩

/-- **REMOVAL** of a node from between two neighbours. -/
theorem Linked.remove {l₁ l₂ : List α} {a b n : α}
    (h : Linked nxt prv (l₁ ++ a :: n :: b :: l₂))
    (hab : nxt' a = b) (hpb : prv' b = a)
    (hn : ∀ x ∈ l₁ ++ b :: l₂, nxt' x = nxt x)
    (hp : ∀ x ∈ l₁ ++ a :: l₂, prv' x = prv x) :
    Linked nxt' prv' (l₁ ++ a :: b :: l₂) := by
  obtain ⟨hleft, -, hrest⟩ := List.isChain_append_cons_cons.mp h
  obtain ⟨-, hright⟩ := List.isChain_cons_cons.mp hrest
  have hleft' : Linked nxt' prv' (l₁ ++ [a]) :=
    Linked.upTo hleft (fun x hx => hn x (by simp [hx])) (fun x hx => hp x (by simp; tauto))
  have hright' : Linked nxt' prv' (b :: l₂) :=
    Linked.fromOn hright (fun x hx => hn x (List.mem_append_right l₁ hx))
      (fun x hx => hp x (by simp [hx]))
  exact List.isChain_append_cons_cons.mpr ⟨hleft', ⟨hab, hpb⟩, hright'⟩

/-- The neighbours of a node in the middle of a segment. -/
theorem Linked.neighbours {l₁ l₂ : List α} {a b n : α}
    (h : Linked nxt prv (l₁ ++ a :: n :: b :: l₂)) :
    prv n = a ∧ nxt n = b := by
  obtain ⟨-, h1, hrest⟩ := List.isChain_append_cons_cons.mp h
  obtain ⟨h2, -⟩ := List.isChain_cons_cons.mp hrest
  exact ⟨h1.2, h2.1⟩

/-- One more node in front of a part of a list. -/
theorem mem_insert_left {l₁ l₂ : List α} (n : α) {x : α} (h : x ∈ l₁ ++ l₂) :
    x ∈ l₁ ++ n :: l₂ :=
  ((List.sublist_cons_self n l₂).append_left l₁).subset h

/-- One more node behind the first of a part. -/
theorem mem_insert_right {l₁ l₂ : List α} {a : α} (n : α) {x : α}
    (h : x ∈ l₁ ++ a :: l₂) : x ∈ l₁ ++ a :: n :: l₂ :=
  (((List.sublist_cons_self n l₂).cons_cons a).append_left l₁).subset h

/-- Three neighbours of a duplicate-free list occur nowhere else in it. -/
theorem notMem_of_nodup {l₁ l₂ : List α} {a n b : α}
    (h : (l₁ ++ a :: n :: b :: l₂).Nodup) :
    a ∉ l₁ ++ b :: l₂ ∧ n ∉ l₁ ++ a :: b :: l₂ ∧ b ∉ l₁ ++ a :: l₂ := by
  have ha := (List.nodup_cons.mp (List.nodup_middle.mp h)).1
  have hn : n ∉ l₁ ++ [a] ++ b :: l₂ := by
    rw [List.append_cons, List.nodup_middle] at h
    exact (List.nodup_cons.mp h).1
  have hb : b ∉ l₁ ++ [a, n] ++ l₂ := by
    have h' : (l₁ ++ [a, n] ++ b :: l₂).Nodup := by simpa using h
    exact (List.nodup_cons.mp (List.nodup_middle.mp h')).1
  simp only [List.mem_append, List.mem_cons, List.not_mem_nil, or_false]
    at ha hn hb ⊢
  tauto

/-- The tail of a segment is a segment. -/
theorem Linked.of_cons {a : α} {l : List α} (h : Linked nxt prv (a :: l)) :
    Linked nxt prv l :=
  List.IsChain.tail h

/-- The first step into a segment. -/
theorem Linked.head_next {a b : α} {l : List α}
    (h : Linked nxt prv (a :: (l ++ [b]))) :
    nxt a = (l ++ [b]).headD b := by
  cases l with
  | nil => exact (List.isChain_cons_cons.mp h).1.1
  | cons c rest => exact (List.isChain_cons_cons.mp h).1.1

/-! ## Traversal -/

section Traversal

variable [DecidableEq α]

/-- Follow `step` from `x` and collect the nodes met before `stop`; `none`
    when the fuel runs out first. -/
def forward (step : α → α) (stop : α) : Nat → α → Option (List α)
  | 0, _ => none
  | fuel + 1, x =>
      if x = stop then some []
      else (forward step stop fuel (step x)).map (x :: ·)

/-- Following the forward links of a segment from its first node collects
    its inner nodes. -/
theorem forward_linked (nxt prv : α → α) {z : α} :
    ∀ (xs : List α) (a : α) (fuel : Nat),
      Linked nxt prv (a :: (xs ++ [z])) → z ∉ xs → xs.length < fuel →
      forward nxt z fuel (nxt a) = some xs := by
  intro xs
  induction xs with
  | nil =>
      intro a fuel h _ hf
      obtain ⟨k, rfl⟩ : ∃ k, fuel = k + 1 := ⟨fuel - 1, by simp at hf; omega⟩
      rw [show nxt a = z from h.head_next]
      simp [forward]
  | cons x rest ih =>
      intro a fuel h hz hf
      obtain ⟨k, rfl⟩ : ∃ k, fuel = k + 1 := ⟨fuel - 1, by simp at hf; omega⟩
      have hx : x ≠ z := fun he => hz (by simp [he])
      have hrest : forward nxt z k (nxt x) = some rest :=
        ih x k h.of_cons (fun hm => hz (List.mem_cons_of_mem _ hm))
          (by simp at hf; omega)
      rw [show nxt a = x from h.head_next]
      simp [forward, hx, hrest]

/-- Following the backward links of a segment from its last node collects
    its inner nodes in reverse. -/
theorem backward_linked {a z : α} {xs : List α} {fuel : Nat}
    (h : Linked nxt prv (a :: (xs ++ [z]))) (ha : a ∉ xs)
    (hf : xs.length < fuel) :
    forward prv a fuel (prv z) = some xs.reverse := by
  refine forward_linked prv nxt xs.reverse z fuel ?_ ?_ ?_
  · have hr := h.reverse
    simpa using hr
  · simpa using ha
  · simpa using hf

end Traversal

end Dll
