import LittleOS.Lib.Dll
import LittleOS.Lib.Words

/-! # The intrusive list of `tools/klist.c`

    `klist_node_t` is two words, `prev` and `next`; `kdouble_list_t` is two
    sentinel nodes and a counter:

        list + 0   head.prev      list + 8    tail.prev     list + 16  len
        list + 4   head.next      list + 12   tail.next

    The functions below are the ones of `klist.c`, statement by statement, over
    a flat word memory; a pointer is the address of a node and `NULL` is `0`.
    The two search loops follow `next` until they meet the node or `NULL`; they
    take a fuel and answer `none` when it runs out before the loop ends.

    `IsList m list xs` says that `list` holds the nodes `xs`; each operation has
    one theorem that says what it does to `IsList` and one that says which words
    it leaves alone. -/

namespace LittleOS.Klist

open Words Dll

/-! ## Fields -/

/-- `node->prev`. -/
abbrev prev (m : Mem) (node : Nat) : Nat := m node

/-- `node->next`. -/
abbrev next (m : Mem) (node : Nat) : Nat := m (node + 4)

/-- A store to `pre`. -/
abbrev setPrev (m : Mem) (node v : Nat) : Mem := m.write node v

/-- A store to `next`. -/
abbrev setNext (m : Mem) (node v : Nat) : Mem := m.write (node + 4) v

/-- `&list->head`. -/
abbrev head (list : Nat) : Nat := list

/-- `&list->tail`. -/
abbrev tail (list : Nat) : Nat := list + 8

/-- `&list->len`. -/
abbrev len (list : Nat) : Nat := list + 16

/-! ## The operations -/

/-- `klist_init` -/
def klistInit (m : Mem) (list : Nat) : Mem :=
  let m := setPrev m (head list) 0
  let m := setNext m (head list) (tail list)
  let m := setPrev m (tail list) (head list)
  let m := setNext m (tail list) 0
  m.write (len list) 0

/-- `klist_node_init` -/
def klistNodeInit (m : Mem) (node : Nat) : Mem :=
  setNext (setPrev m node 0) node 0

/-- `klist_push` -/
def klistPush (m : Mem) (list node : Nat) : Mem :=
  let m := setPrev m node (head list)
  let m := setNext m node (next m (head list))
  let m := setPrev m (next m (head list)) node
  let m := setNext m (head list) node
  m.write (len list) (inc32 (m (len list)))

/-- `klist_append` -/
def klistAppend (m : Mem) (list node : Nat) : Mem :=
  let m := setNext m node (tail list)
  let m := setPrev m node (prev m (tail list))
  let m := setNext m (prev m (tail list)) node
  let m := setPrev m (tail list) node
  m.write (len list) (inc32 (m (len list)))

/-- `klist_pop` -/
def klistPop (m : Mem) (list : Nat) : Mem × Nat :=
  let node := next m (head list)
  let m := setPrev m (next m (next m (head list))) (head list)
  let m := setNext m (head list) (next m (next m (head list)))
  (m.write (len list) (dec32 (m (len list))), node)

/-- The branch of `klist_remove` taken when `temp` is the node. -/
def klistUnlink (m : Mem) (list temp : Nat) : Mem :=
  let pre := prev m temp
  let m := setNext m pre (next m temp)
  let m := setPrev m (next m temp) pre
  m.write (len list) (dec32 (m (len list)))

/-- The loop of `klist_remove` from `temp` on. -/
def klistRemoveFrom (m : Mem) (list remove_node : Nat) :
    Nat → Nat → Option (Mem × Nat)
  | 0, _ => none
  | fuel + 1, temp =>
      if temp = 0 then some (m, 0)
      else if temp = remove_node then some (klistUnlink m list temp, remove_node)
      else klistRemoveFrom m list remove_node fuel (next m temp)

/-- `klist_remove`: the node is unlinked if the walk finds it. -/
def klistRemove (fuel : Nat) (m : Mem) (list remove_node : Nat) :
    Option (Mem × Nat) :=
  klistRemoveFrom m list remove_node fuel (next m (head list))

/-- The loop of `klist_find` from `temp` on. -/
def klistFindFrom (m : Mem) (target_node : Nat) : Nat → Nat → Option Nat
  | 0, _ => none
  | fuel + 1, temp =>
      if temp = 0 then some 0
      else if temp = target_node then some temp
      else klistFindFrom m target_node fuel (next m temp)

/-- `klist_find` -/
def klistFind (fuel : Nat) (m : Mem) (list target_node : Nat) : Option Nat :=
  klistFindFrom m target_node fuel (next m (head list))

/-- `klist_len` -/
def klistLen (m : Mem) (list : Nat) : Nat := m (len list)

/-- `klist_count` -/
def klistCount (m : Mem) (list : Nat) : Nat := m (len list)

/-- `klist_get_first_node` -/
def klistGetFirstNode (m : Mem) (list : Nat) : Nat := next m (head list)

/-- `klist_get_next_node` -/
def klistGetNextNode (m : Mem) (curr : Nat) : Nat := next m curr

/-! ## What a list holds -/

/-- `list` and the nodes `xs` lie apart from each other in memory. -/
structure Placed (list : Nat) (xs : List Nat) : Prop where
  list_pos : 0 < list
  node_pos : ∀ x ∈ xs, 0 < x
  off_list : ∀ x ∈ xs, x + 8 ≤ list ∨ list + 20 ≤ x
  apart : ∀ x ∈ xs, ∀ y ∈ xs, x ≠ y → x + 8 ≤ y ∨ y + 8 ≤ x
  nodup : xs.Nodup

/-- The nodes of a list from the head sentinel to the tail sentinel. -/
abbrev cells (list : Nat) (xs : List Nat) : List Nat :=
  head list :: (xs ++ [tail list])

/-- `list` holds the nodes `xs`, in order. -/
structure IsList (m : Mem) (list : Nat) (xs : List Nat) : Prop where
  linked : Linked (next m) (prev m) (cells list xs)
  head_prev : prev m (head list) = 0
  tail_next : next m (tail list) = 0
  len_eq : m (len list) = xs.length % 2 ^ 32

/-- The cells of a list are its two ends and its nodes. -/
theorem mem_cells {list x : Nat} {xs : List Nat} :
    x ∈ cells list xs ↔ x = list ∨ x ∈ xs ∨ x = list + 8 := by
  simp

/-- Fewer nodes are still apart. -/
theorem Placed.subset {list : Nat} {xs ys : List Nat} (h : Placed list xs)
    (hs : ∀ y ∈ ys, y ∈ xs) (hn : ys.Nodup) : Placed list ys where
  list_pos := h.list_pos
  node_pos := fun y hy => h.node_pos y (hs y hy)
  off_list := fun y hy => h.off_list y (hs y hy)
  apart := fun x hx y hy => h.apart x (hs x hx) y (hs y hy)
  nodup := hn

/-- Two nodes of a list, sentinels included, do not overlap. -/
theorem Placed.cells_apart {list x y : Nat} {xs : List Nat}
    (h : Placed list xs) (hx : x ∈ cells list xs) (hy : y ∈ cells list xs)
    (hne : x ≠ y) : x + 8 ≤ y ∨ y + 8 ≤ x := by
  rcases mem_cells.mp hx with hx1 | hx1 | hx1 <;>
    rcases mem_cells.mp hy with hy1 | hy1 | hy1
  · omega
  · have := h.off_list y hy1; omega
  · omega
  · have := h.off_list x hx1; omega
  · exact h.apart x hx1 y hy1 hne
  · have := h.off_list x hx1; omega
  · omega
  · have := h.off_list y hy1; omega
  · omega

/-- No node of a list covers its counter. -/
theorem Placed.cells_off_len {list x : Nat} {xs : List Nat}
    (h : Placed list xs) (hx : x ∈ cells list xs) :
    x + 8 ≤ list + 16 ∨ list + 20 ≤ x := by
  rcases mem_cells.mp hx with hx1 | hx1 | hx1
  · omega
  · have := h.off_list x hx1; omega
  · omega

/-- The sentinels and the nodes are distinct. -/
theorem Placed.cells_nodup {list : Nat} {xs : List Nat} (h : Placed list xs) :
    (cells list xs).Nodup := by
  have hhead : list ∉ xs := fun hm => by
    have := h.off_list list hm
    omega
  have htail : list + 8 ∉ xs := fun hm => by
    have := h.off_list (list + 8) hm
    omega
  refine List.nodup_cons.mpr ⟨by simp [hhead], ?_⟩
  refine List.nodup_append.mpr ⟨h.nodup, by simp, ?_⟩
  intro x hx y hy hxy
  have hx8 : x = list + 8 := hxy.trans (List.mem_singleton.mp hy)
  exact htail (hx8 ▸ hx)

/-- The words of `list` and of the nodes `xs`. -/
def Covers (list : Nat) (xs : List Nat) (w : Nat) : Prop :=
  w = list + 16 ∨ ∃ c ∈ cells list xs, w = c ∨ w = c + 4

/-- A list keeps its nodes when no word of it changes. -/
theorem IsList.frame {m m' : Mem} {list : Nat} {xs : List Nat}
    (h : IsList m list xs) (hw : ∀ w, Covers list xs w → m' w = m w) :
    IsList m' list xs where
  linked := h.linked.frame
    (fun c hc => hw (c + 4) (Or.inr ⟨c, hc, Or.inr rfl⟩))
    (fun c hc => hw c (Or.inr ⟨c, hc, Or.inl rfl⟩))
  head_prev := (hw list (Or.inr ⟨list, by simp, Or.inl rfl⟩)).trans h.head_prev
  tail_next := (hw (list + 12)
    (Or.inr ⟨list + 8, by simp, Or.inr rfl⟩)).trans h.tail_next
  len_eq := (hw (list + 16) (Or.inl rfl)).trans h.len_eq

/-- **LINKING** a node between two neighbours: five words change. -/
theorem IsList.link {m m' : Mem} {list a b n : Nat} {xs xs' l₁ l₂ : List Nat}
    (h : IsList m list xs) (hp : Placed list xs')
    (hc : cells list xs = l₁ ++ a :: b :: l₂)
    (hc' : cells list xs' = l₁ ++ a :: n :: b :: l₂)
    (ha : a ≠ list + 8) (hb : b ≠ list) (hn : n ∈ xs')
    (han : m' (a + 4) = n) (hna : m' n = a) (hnb : m' (n + 4) = b)
    (hbn : m' b = n) (hlen : m' (list + 16) = xs'.length % 2 ^ 32)
    (hm : ∀ w, w ≠ a + 4 → w ≠ b → w ≠ n → w ≠ n + 4 → w ≠ list + 16 →
      m' w = m w) : IsList m' list xs' := by
  have hin : ∀ c ∈ l₁ ++ a :: n :: b :: l₂, c ∈ cells list xs' :=
    fun c hmem => hc' ▸ hmem
  have hac := hin a (by simp)
  have hbc := hin b (by simp)
  have hnc := hin n (by simp)
  -- the forward link of `c` changes at `a` and `n` only
  have hnext : ∀ c ∈ cells list xs', c ≠ a → c ≠ n → next m' c = next m c := by
    intro c hcm hca hcn
    have hlc := hp.cells_off_len hcm
    have hna := hp.cells_apart hcm hnc hcn
    refine hm (c + 4) (by omega) ?_ (by omega) (by omega) (by omega)
    intro he
    have := hp.cells_apart hcm hbc (by omega)
    omega
  -- the backward link of `c` changes at `b` and `n` only
  have hprev : ∀ c ∈ cells list xs', c ≠ b → c ≠ n → prev m' c = prev m c := by
    intro c hcm hcb hcn
    have hlc := hp.cells_off_len hcm
    have hna := hp.cells_apart hcm hnc hcn
    refine hm c ?_ hcb hcn (by omega) (by omega)
    intro he
    have := hp.cells_apart hcm hac (by omega)
    omega
  have hnd : (l₁ ++ a :: n :: b :: l₂).Nodup := hc' ▸ hp.cells_nodup
  obtain ⟨haa, hna', hbb⟩ := notMem_of_nodup hnd
  have hoff := hp.off_list n hn
  constructor
  · rw [hc']
    refine Linked.insert (hc ▸ h.linked) han hnb hna hbn ?_ ?_
    · intro c hcm
      have hcn : c ≠ n := fun he => hna' (he ▸ mem_insert_left a hcm)
      exact hnext c (hin c (mem_insert_left a (mem_insert_left n hcm)))
        (fun he => haa (he ▸ hcm)) hcn
    · intro c hcm
      have hcn : c ≠ n := fun he => hna' (he ▸ mem_insert_right b hcm)
      exact hprev c (hin c (mem_insert_right n (mem_insert_right b hcm)))
        (fun he => hbb (he ▸ hcm)) hcn
  · rw [hprev list (by simp) (Ne.symm hb) (by omega)]
    exact h.head_prev
  · rw [hnext (list + 8) (by simp) (Ne.symm ha) (by omega)]
    exact h.tail_next
  · exact hlen

/-- **UNLINKING** a node from between its neighbours: three words change. -/
theorem IsList.unlink {m m' : Mem} {list a b n : Nat} {xs xs' l₁ l₂ : List Nat}
    (h : IsList m list xs) (hp : Placed list xs)
    (hc : cells list xs = l₁ ++ a :: n :: b :: l₂)
    (hc' : cells list xs' = l₁ ++ a :: b :: l₂)
    (ha : a ≠ list + 8) (hb : b ≠ list)
    (hab : m' (a + 4) = b) (hba : m' b = a)
    (hlen : m' (list + 16) = xs'.length % 2 ^ 32)
    (hm : ∀ w, w ≠ a + 4 → w ≠ b → w ≠ list + 16 → m' w = m w) :
    IsList m' list xs' := by
  have hin : ∀ c ∈ l₁ ++ a :: n :: b :: l₂, c ∈ cells list xs :=
    fun c hmem => hc ▸ hmem
  have hac := hin a (by simp)
  have hbc := hin b (by simp)
  have hnext : ∀ c ∈ cells list xs, c ≠ a → next m' c = next m c := by
    intro c hcm hca
    have hlc := hp.cells_off_len hcm
    refine hm (c + 4) (by omega) ?_ (by omega)
    intro he
    have := hp.cells_apart hcm hbc (by omega)
    omega
  have hprev : ∀ c ∈ cells list xs, c ≠ b → prev m' c = prev m c := by
    intro c hcm hcb
    have hlc := hp.cells_off_len hcm
    refine hm c ?_ hcb (by omega)
    intro he
    have := hp.cells_apart hcm hac (by omega)
    omega
  have hnd : (l₁ ++ a :: n :: b :: l₂).Nodup := hc ▸ hp.cells_nodup
  obtain ⟨haa, -, hbb⟩ := notMem_of_nodup hnd
  constructor
  · rw [hc']
    refine Linked.remove (hc ▸ h.linked) hab hba ?_ ?_
    · intro c hcm
      exact hnext c (hin c (mem_insert_left a (mem_insert_left n hcm)))
        (fun he => haa (he ▸ hcm))
    · intro c hcm
      exact hprev c (hin c (mem_insert_right n (mem_insert_right b hcm)))
        (fun he => hbb (he ▸ hcm))
  · rw [hprev list (by simp) (Ne.symm hb)]
    exact h.head_prev
  · rw [hnext (list + 8) (by simp) (Ne.symm ha)]
    exact h.tail_next
  · exact hlen

/-! ## `klist_init` -/

/-- A list is empty after its initialisation. -/
theorem klistInit_isList (m : Mem) (list : Nat) :
    IsList (klistInit m list) list [] where
  linked := by
    refine List.isChain_cons_cons.mpr ⟨⟨?_, ?_⟩, List.isChain_singleton _⟩
    · simp [klistInit]
    · simp [klistInit]
  head_prev := by simp [klistInit, Mem.write_apply]
  tail_next := by simp [klistInit]
  len_eq := by simp [klistInit]

/-- Initialising a list writes its own words only. -/
theorem klistInit_frame {m : Mem} {list w : Nat} (h : w < list ∨ list + 20 ≤ w) :
    klistInit m list w = m w := by
  have h1 : w ≠ list := by omega
  have h2 : w ≠ list + 4 := by omega
  have h3 : w ≠ list + 8 := by omega
  have h4 : w ≠ list + 8 + 4 := by omega
  have h5 : w ≠ list + 16 := by omega
  simp only [klistInit, Mem.write_apply, head, tail, len, if_neg h1, if_neg h2,
    if_neg h3, if_neg h4, if_neg h5]

/-! ## `klist_push` and `klist_append` -/

/-- `klist_push` changes five words. -/
theorem klistPush_apply (m : Mem) (list node w : Nat)
    (hn : node + 8 ≤ list ∨ list + 20 ≤ node) (hh : m (list + 4) ≠ list + 16) :
    klistPush m list node w
      = if w = list + 16 then inc32 (m (list + 16))
        else if w = list + 4 then node
        else if w = m (list + 4) then node
        else if w = node + 4 then m (list + 4)
        else if w = node then list
        else m w := by
  have h1 : list + 4 ≠ node := by omega
  have h2 : list ≠ node := by omega
  have h3 : list + 16 ≠ node := by omega
  have h4 : list + 16 ≠ node + 4 := by omega
  have h5 : list + 16 ≠ m (list + 4) := Ne.symm hh
  simp [klistPush, Mem.write_apply, h1, h2, h3, h4, h5]

/-- `klist_append` changes five words. -/
theorem klistAppend_apply (m : Mem) (list node w : Nat)
    (hn : node + 8 ≤ list ∨ list + 20 ≤ node)
    (ht : m (list + 8) + 4 ≠ list + 16) :
    klistAppend m list node w
      = if w = list + 16 then inc32 (m (list + 16))
        else if w = list + 8 then node
        else if w = m (list + 8) + 4 then node
        else if w = node then m (list + 8)
        else if w = node + 4 then list + 8
        else m w := by
  have h1 : list + 8 ≠ node := by omega
  have h2 : list + 8 ≠ node + 4 := by omega
  have h3 : list + 16 ≠ node := by omega
  have h4 : list + 16 ≠ node + 4 := by omega
  have h5 : list + 16 ≠ m (list + 8) + 4 := Ne.symm ht
  simp [klistAppend, Mem.write_apply, h1, h2, h3, h4, h5]

/-- The first node after the head sentinel. -/
theorem IsList.first {m : Mem} {list b : Nat} {xs l₂ : List Nat}
    (h : IsList m list xs) (hb : xs ++ [tail list] = b :: l₂) :
    m (list + 4) = b := by
  have hl := h.linked
  rw [cells, hb] at hl
  exact (List.isChain_cons_cons.mp hl).1.1

/-- The last node before the tail sentinel. -/
theorem IsList.last {m : Mem} {list a : Nat} {xs l₁ : List Nat}
    (h : IsList m list xs) (ha : head list :: xs = l₁ ++ [a]) :
    m (list + 8) = a := by
  have hl := h.linked
  rw [cells, ← List.cons_append, ha, List.append_assoc] at hl
  exact (List.isChain_append_cons_cons.mp hl).2.1.2

/-- **PUSH** prepends. -/
theorem klistPush_isList {m : Mem} {list node : Nat} {xs : List Nat}
    (h : IsList m list xs) (hp : Placed list (node :: xs)) :
    IsList (klistPush m list node) list (node :: xs) ∧
      ∀ w, ¬ Covers list (node :: xs) w → klistPush m list node w = m w := by
  have hoff := hp.off_list node (by simp)
  -- `b` is the old first node, or the tail sentinel of an empty list
  obtain ⟨b, l₂, hb⟩ : ∃ b l₂, xs ++ [tail list] = b :: l₂ := by
    cases xs with
    | nil => exact ⟨_, _, rfl⟩
    | cons x rest => exact ⟨_, _, rfl⟩
  have hfirst : m (list + 4) = b := h.first hb
  have hnd : (list :: node :: b :: l₂).Nodup := by
    have := hp.cells_nodup
    rwa [cells, List.cons_append, hb] at this
  have hbc : b ∈ cells list (node :: xs) := by
    rw [cells, List.cons_append, hb]; simp
  have hbh : b ≠ list := fun he => by simp [he] at hnd
  have hbn : b ≠ node := fun he => by simp [he] at hnd
  have hlen := hp.cells_off_len hbc
  have hsep : b + 8 ≤ node ∨ node + 8 ≤ b :=
    hp.cells_apart hbc (by simp) hbn
  have hsep' : b + 8 ≤ list ∨ list + 8 ≤ b :=
    hp.cells_apart hbc (by simp) hbh
  have heff := fun w => klistPush_apply m list node w hoff
    (by rw [hfirst]; omega)
  rw [hfirst] at heff
  have hc : cells list xs = [] ++ list :: b :: l₂ := by simp [cells, hb]
  have hc' : cells list (node :: xs) = [] ++ list :: node :: b :: l₂ := by
    simp [cells, hb]
  refine ⟨h.link hp hc hc' (by omega) hbh (by simp) ?_ ?_ ?_ ?_ ?_ ?_, ?_⟩
  · rw [heff, if_neg (by omega), if_pos rfl]
  · rw [heff, if_neg (by omega), if_neg (by omega), if_neg (by omega),
      if_neg (by omega), if_pos rfl]
  · rw [heff, if_neg (by omega), if_neg (by omega), if_neg (by omega),
      if_pos rfl]
  · rw [heff, if_neg (by omega), if_neg (by omega), if_pos rfl]
  · rw [heff, if_pos rfl, h.len_eq, inc32_mod, List.length_cons]
  · intro w h1 h2 h3 h4 h5
    rw [heff, if_neg h5, if_neg h1, if_neg h2, if_neg h4, if_neg h3]
  · intro w hw
    have hnc : node ∈ cells list (node :: xs) := by simp
    rw [heff, if_neg (fun he => hw (Or.inl he)),
      if_neg (fun he => hw (Or.inr ⟨list, by simp, Or.inr he⟩)),
      if_neg (fun he => hw (Or.inr ⟨b, hbc, Or.inl he⟩)),
      if_neg (fun he => hw (Or.inr ⟨node, hnc, Or.inr he⟩)),
      if_neg (fun he => hw (Or.inr ⟨node, hnc, Or.inl he⟩))]

/-- **APPEND** appends. -/
theorem klistAppend_isList {m : Mem} {list node : Nat} {xs : List Nat}
    (h : IsList m list xs) (hp : Placed list (xs ++ [node])) :
    IsList (klistAppend m list node) list (xs ++ [node]) ∧
      ∀ w, ¬ Covers list (xs ++ [node]) w → klistAppend m list node w = m w := by
  have hoff := hp.off_list node (by simp)
  -- `a` is the old last node, or the head sentinel of an empty list
  obtain ⟨l₁, a, ha⟩ : ∃ l₁ a, head list :: xs = l₁ ++ [a] :=
    ⟨_, _, (List.dropLast_concat_getLast (List.cons_ne_nil _ _)).symm⟩
  have hlast : m (list + 8) = a := h.last ha
  have hcells : cells list (xs ++ [node]) = l₁ ++ [a, node, list + 8] := by
    have : cells list (xs ++ [node]) = (head list :: xs) ++ [node, list + 8] := by
      simp
    rw [this, ha]; simp
  have hnd : (l₁ ++ [a, node, list + 8]).Nodup := hcells ▸ hp.cells_nodup
  have hac : a ∈ cells list (xs ++ [node]) := by rw [hcells]; simp
  have hat : a ≠ list + 8 := fun he => by
    simp [he, List.nodup_append] at hnd
  have han : a ≠ node := fun he => by
    simp [he, List.nodup_append] at hnd
  have hlen := hp.cells_off_len hac
  have hsep : a + 8 ≤ node ∨ node + 8 ≤ a :=
    hp.cells_apart hac (by simp) han
  have hsep' : a + 8 ≤ list + 8 ∨ list + 8 + 8 ≤ a :=
    hp.cells_apart hac (by simp) hat
  have heff := fun w => klistAppend_apply m list node w hoff
    (by rw [hlast]; omega)
  rw [hlast] at heff
  have hc : cells list xs = l₁ ++ [a, list + 8] := by
    rw [cells, ← List.cons_append, ha]; simp
  refine ⟨h.link hp hc hcells hat (by omega) (by simp) ?_ ?_ ?_ ?_ ?_ ?_, ?_⟩
  · rw [heff, if_neg (by omega), if_neg (by omega), if_pos rfl]
  · rw [heff, if_neg (by omega), if_neg (by omega), if_neg (by omega),
      if_pos rfl]
  · rw [heff, if_neg (by omega), if_neg (by omega), if_neg (by omega),
      if_neg (by omega), if_pos rfl]
  · rw [heff, if_neg (by omega), if_pos rfl]
  · rw [heff, if_pos rfl, h.len_eq, inc32_mod, List.length_append]; rfl
  · intro w h1 h2 h3 h4 h5
    rw [heff, if_neg h5, if_neg h2, if_neg h1, if_neg h3, if_neg h4]
  · intro w hw
    have hnc : node ∈ cells list (xs ++ [node]) := by simp
    rw [heff, if_neg (fun he => hw (Or.inl he)),
      if_neg (fun he => hw (Or.inr ⟨list + 8, by simp, Or.inl he⟩)),
      if_neg (fun he => hw (Or.inr ⟨a, hac, Or.inr he⟩)),
      if_neg (fun he => hw (Or.inr ⟨node, hnc, Or.inl he⟩)),
      if_neg (fun he => hw (Or.inr ⟨node, hnc, Or.inr he⟩))]

/-! ## `klist_pop`, `klist_find` and `klist_remove` -/

/-- **POP** returns and drops the first node. -/
theorem klistPop_isList {m : Mem} {list node : Nat} {xs : List Nat}
    (h : IsList m list (node :: xs)) (hp : Placed list (node :: xs)) :
    (klistPop m list).2 = node ∧ IsList (klistPop m list).1 list xs ∧
      ∀ w, ¬ Covers list (node :: xs) w → (klistPop m list).1 w = m w := by
  obtain ⟨b, l₂, hb⟩ : ∃ b l₂, xs ++ [tail list] = b :: l₂ := by
    cases xs with
    | nil => exact ⟨_, _, rfl⟩
    | cons x rest => exact ⟨_, _, rfl⟩
  have hc : cells list (node :: xs) = [] ++ list :: node :: b :: l₂ := by
    simp [cells, hb]
  have hc' : cells list xs = [] ++ list :: b :: l₂ := by simp [cells, hb]
  obtain ⟨-, hnb⟩ := Linked.neighbours (hc ▸ h.linked)
  have hfirst : m (list + 4) = node := h.first (List.cons_append ..)
  have hnext : m (node + 4) = b := hnb
  have hnd : (list :: node :: b :: l₂).Nodup := by
    have := hp.cells_nodup
    rwa [hc] at this
  have hbc : b ∈ cells list (node :: xs) := by rw [hc]; simp
  have hbh : b ≠ list := fun he => by simp [he] at hnd
  have hbn : b ≠ node := fun he => by simp [he] at hnd
  have hlen := hp.cells_off_len hbc
  have hoff := hp.off_list node (by simp)
  have hsep : b + 8 ≤ node ∨ node + 8 ≤ b :=
    hp.cells_apart hbc (by simp) hbn
  have hsep' : b + 8 ≤ list ∨ list + 8 ≤ b :=
    hp.cells_apart hbc (by simp) hbh
  -- the two links written lie in different words
  have heff : ∀ w, (klistPop m list).1 w
      = if w = list + 16 then dec32 (m (list + 16))
        else if w = list + 4 then b
        else if w = b then list
        else m w := by
    intro w
    have h1 : list + 4 ≠ b := by omega
    have h2 : node + 4 ≠ b := by omega
    have h3 : list + 16 ≠ b := by omega
    simp [klistPop, Mem.write_apply, hfirst, hnext, h1, h2, h3]
  refine ⟨hfirst, h.unlink hp hc hc' (by omega) hbh ?_ ?_ ?_ ?_, ?_⟩
  · rw [heff, if_neg (by omega), if_pos rfl]
  · rw [heff, if_neg (by omega), if_neg (by omega), if_pos rfl]
  · rw [heff, if_pos rfl, h.len_eq, List.length_cons, dec32_mod]
  · intro w h1 h2 h3
    rw [heff, if_neg h3, if_neg h1, if_neg h2]
  · intro w hw
    rw [heff, if_neg (fun he => hw (Or.inl he)),
      if_neg (fun he => hw (Or.inr ⟨list, by simp, Or.inr he⟩)),
      if_neg (fun he => hw (Or.inr ⟨b, hbc, Or.inl he⟩))]

/-- `klist_remove` is `klist_find` followed by the unlinking of what it
    found: the two loops make the same steps. -/
theorem klistRemove_eq_find (m : Mem) (list node fuel : Nat) :
    klistRemove fuel m list node = (klistFind fuel m list node).map
      (fun r => if r = 0 then (m, 0) else (klistUnlink m list node, node)) := by
  unfold klistRemove klistFind
  generalize next m (head list) = temp
  induction fuel generalizing temp with
  | zero => rfl
  | succ fuel ih =>
      rw [klistRemoveFrom, klistFindFrom]
      by_cases h0 : temp = 0
      · simp [h0]
      · by_cases ht : temp = node
        · subst ht
          simp [h0]
        · rw [if_neg h0, if_neg ht, if_neg h0, if_neg ht]
          exact ih (next m temp)

/-- The search loop over a segment that ends in a sentinel whose `next` is
    `NULL`: it answers the node or, past the sentinel, `NULL`. -/
theorem klistFindFrom_linked {m : Mem} {node z : Nat} (hz : next m z = 0)
    (hz0 : z ≠ 0) (hnz : node ≠ z) :
    ∀ (xs : List Nat) (a fuel : Nat),
      Linked (next m) (prev m) (a :: (xs ++ [z])) → (∀ x ∈ xs, x ≠ 0) →
      xs.length + 1 < fuel →
      klistFindFrom m node fuel (next m a)
        = some (if node ∈ xs then node else 0) := by
  intro xs
  induction xs with
  | nil =>
      intro a fuel hl _ hf
      obtain ⟨k, rfl⟩ : ∃ k, fuel = k + 2 := ⟨fuel - 2, by simp at hf; omega⟩
      rw [show next m a = z from hl.head_next, klistFindFrom, if_neg hz0,
        if_neg (Ne.symm hnz), hz, klistFindFrom]
      simp
  | cons x rest ih =>
      intro a fuel hl h0 hf
      obtain ⟨k, rfl⟩ : ∃ k, fuel = k + 1 := ⟨fuel - 1, by simp at hf; omega⟩
      rw [show next m a = x from hl.head_next, klistFindFrom,
        if_neg (h0 x (by simp))]
      by_cases hx : x = node
      · rw [if_pos hx, if_pos (by simp [hx]), hx]
      · rw [if_neg hx, ih x k hl.of_cons
          (fun y hy => h0 y (List.mem_cons_of_mem _ hy))
          (by simp at hf; omega)]
        simp [Ne.symm hx]

/-- **FIND** answers the node when the list holds it and `NULL` otherwise. -/
theorem klistFind_isList {m : Mem} {list node fuel : Nat} {xs : List Nat}
    (h : IsList m list xs) (hp : Placed list xs) (hn : node ≠ tail list)
    (hf : xs.length + 1 < fuel) :
    klistFind fuel m list node = some (if node ∈ xs then node else 0) :=
  klistFindFrom_linked h.tail_next (by simp) hn xs (head list) fuel h.linked
    (fun x hx => Nat.pos_iff_ne_zero.mp (hp.node_pos x hx)) hf

/-- **REMOVE** answers `NULL` and changes nothing when the list does not hold
    the node. -/
theorem klistRemove_absent {m : Mem} {list node fuel : Nat} {xs : List Nat}
    (h : IsList m list xs) (hp : Placed list xs) (hn : node ≠ tail list)
    (hx : node ∉ xs) (hf : xs.length + 1 < fuel) :
    klistRemove fuel m list node = some (m, 0) := by
  rw [klistRemove_eq_find, klistFind_isList h hp hn hf, if_neg hx]
  rfl

/-- A node of a list with its two neighbours. -/
theorem cells_split {list node : Nat} {xs : List Nat} (hp : Placed list xs)
    (hx : node ∈ xs) :
    ∃ l₁ a b l₂, cells list xs = l₁ ++ a :: node :: b :: l₂ ∧
      cells list (xs.erase node) = l₁ ++ a :: b :: l₂ ∧
      a ≠ list + 8 ∧ b ≠ list := by
  obtain ⟨p, q, -, hxs, he⟩ := List.exists_erase_eq hx
  obtain ⟨l₁, a, ha⟩ : ∃ l₁ a, head list :: p = l₁ ++ [a] :=
    ⟨_, _, (List.dropLast_concat_getLast (List.cons_ne_nil _ _)).symm⟩
  obtain ⟨b, l₂, hb⟩ : ∃ b l₂, q ++ [tail list] = b :: l₂ := by
    cases q with
    | nil => exact ⟨_, _, rfl⟩
    | cons x rest => exact ⟨_, _, rfl⟩
  refine ⟨l₁, a, b, l₂, ?_, ?_, ?_, ?_⟩
  · have : cells list xs = (head list :: p) ++ node :: (q ++ [tail list]) := by
      simp [hxs]
    rw [this, ha, hb]; simp
  · have : cells list (xs.erase node) = (head list :: p) ++ (q ++ [tail list]) := by
      simp [he]
    rw [this, ha, hb]; simp
  · intro hat
    have ham : a ∈ list :: p := by rw [show list :: p = l₁ ++ [a] from ha]; simp
    rcases List.mem_cons.mp ham with h1 | h1
    · omega
    · have := hp.off_list a (by simp [hxs, h1]); omega
  · intro hbh
    have hbm : b ∈ q ++ [list + 8] := by
      rw [show q ++ [list + 8] = b :: l₂ from hb]; simp
    rcases List.mem_append.mp hbm with h1 | h1
    · have := hp.off_list b (by simp [hxs, h1]); omega
    · rw [List.mem_singleton] at h1; omega

/-- Unlinking a node of the list: the list loses it, and only words of the
    list and its nodes change. -/
theorem klistUnlink_isList {m : Mem} {list node : Nat} {xs : List Nat}
    (h : IsList m list xs) (hp : Placed list xs) (hx : node ∈ xs) :
    IsList (klistUnlink m list node) list (xs.erase node) ∧
      ∀ w, ¬ Covers list xs w → klistUnlink m list node w = m w := by
  obtain ⟨l₁, a, b, l₂, hc, hc', hat, hbh⟩ := cells_split hp hx
  obtain ⟨hna, hnb⟩ := Linked.neighbours (hc ▸ h.linked)
  have hna' : m node = a := hna
  have hnb' : m (node + 4) = b := hnb
  have hin : ∀ c ∈ l₁ ++ a :: node :: b :: l₂, c ∈ cells list xs :=
    fun c hmem => hc ▸ hmem
  have hac := hin a (by simp)
  have hbc := hin b (by simp)
  have hnc := hin node (by simp)
  have hnd : (l₁ ++ a :: node :: b :: l₂).Nodup := hc ▸ hp.cells_nodup
  obtain ⟨-, hmid, -⟩ := notMem_of_nodup hnd
  have han : a ≠ node := fun he => hmid (by simp [he])
  have hbn : b ≠ node := fun he => hmid (by simp [he])
  have hla := hp.cells_off_len hac
  have hlb := hp.cells_off_len hbc
  have hsa := hp.cells_apart hac hnc han
  have hsb := hp.cells_apart hbc hnc hbn
  -- the links of `node` itself are not written: it keeps pointing into the list
  have heff : ∀ w, klistUnlink m list node w
      = if w = list + 16 then dec32 (m (list + 16))
        else if w = b then a
        else if w = a + 4 then b
        else m w := by
    intro w
    have h1 : node + 4 ≠ a + 4 := by omega
    have h2 : list + 16 ≠ a + 4 := by omega
    have h3 : list + 16 ≠ b := by omega
    simp [klistUnlink, Mem.write_apply, hna', hnb', h2, h3]
  have hab : a + 4 ≠ b := by
    intro he
    have := hp.cells_apart hac hbc (by omega)
    omega
  have hlen : xs.length = (xs.erase node).length + 1 := by
    rw [List.length_erase_of_mem hx]
    have := List.length_pos_of_mem hx
    omega
  refine ⟨h.unlink hp hc hc' hat hbh ?_ ?_ ?_ ?_, ?_⟩
  · rw [heff, if_neg (by omega), if_neg hab, if_pos rfl]
  · rw [heff, if_neg (by omega), if_pos rfl]
  · rw [heff, if_pos rfl, h.len_eq, hlen, dec32_mod]
  · intro w h1 h2 h3
    rw [heff, if_neg h3, if_neg h2, if_neg h1]
  · intro w hw
    rw [heff, if_neg (fun he => hw (Or.inl he)),
      if_neg (fun he => hw (Or.inr ⟨b, hbc, Or.inl he⟩)),
      if_neg (fun he => hw (Or.inr ⟨a, hac, Or.inr he⟩))]

/-- **REMOVE** answers a node of the list and deletes it. -/
theorem klistRemove_mem {m : Mem} {list node fuel : Nat} {xs : List Nat}
    (h : IsList m list xs) (hp : Placed list xs) (hx : node ∈ xs)
    (hf : xs.length + 1 < fuel) :
    klistRemove fuel m list node = some (klistUnlink m list node, node) := by
  have hn : node ≠ tail list := fun he => by
    have := hp.off_list node hx
    simp only [tail] at he
    omega
  have h0 := hp.node_pos node hx
  rw [klistRemove_eq_find, klistFind_isList h hp hn hf, if_pos hx, Option.map_some,
    if_neg (by omega)]

end LittleOS.Klist
