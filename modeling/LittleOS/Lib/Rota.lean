import Mathlib.Data.List.Nodup
import Mathlib.Data.List.Rotate
import Mathlib.Logic.Function.Basic
import LittleOS.Lib.Runs

/-! # A rota

    The first of a queue has the turn for `slice` ticks and then goes to its
    end; who joins goes there too.  `due` is when the turn of a member ends, in
    ticks from now.

    * `due_tick`, `due_join` — a tick brings the end of a turn nearer by one, and
      who joins changes nothing;
    * `due_le_slice` — a member has the turn when it ends within a slice;
    * `Run.due` — a run of so many ticks, whoever joins meanwhile;
    * `Run.share` — when nobody joins, every member has had `slice` ticks each
      time the rota is through. -/

open Runs

variable {τ : Type*} [DecidableEq τ] {slice : Nat}

/-- The queue, the ticks left to its first, and the ticks that each member has
    had so far. -/
@[ext]
structure Rota (τ : Type*) (slice : Nat) where
  queue : List τ
  left : Nat
  had : τ → Nat
  nodup : queue.Nodup
  left_pos : 0 < left
  left_le : left ≤ slice

namespace Rota

/-- One more tick for the first. -/
def charge (queue : List τ) (had : τ → Nat) : τ → Nat :=
  match queue with
  | [] => had
  | t :: _ => Function.update had t (had t + 1)

/-- A tick: the head of the queue is charged, and goes to the end when its slice is used up. -/
def tick (r : Rota τ slice) : Rota τ slice :=
  if h : r.left ≤ 1 then
    { queue := r.queue.rotate 1
      left := slice
      had := charge r.queue r.had
      nodup := List.nodup_rotate.mpr r.nodup
      left_pos := Nat.lt_of_lt_of_le r.left_pos r.left_le
      left_le := Nat.le_refl slice }
  else
    { r with
      left := r.left - 1
      had := charge r.queue r.had
      left_pos := Nat.sub_pos_of_lt (Nat.lt_of_not_le h)
      left_le := (Nat.sub_le ..).trans r.left_le }

/-- Somebody new comes last. -/
def join (r : Rota τ slice) (t : τ) (h : t ∉ r.queue) : Rota τ slice :=
  { r with
    queue := r.queue ++ [t]
    nodup := r.nodup.append (List.nodup_singleton t)
      (List.disjoint_singleton.mpr h) }

/-- What can happen to a rota. -/
inductive Event (τ : Type*) where
  | tick
  | join (t : τ)
deriving DecidableEq, Repr

/-- The rota after an event: nobody joins twice. -/
def step : Event τ → Rota τ slice → Option (Rota τ slice)
  | .tick, r => some r.tick
  | .join t, r => if h : t ∈ r.queue then none else some (r.join t h)

/-- What makes a rota the next one, at the last tick of a turn and before. -/
theorem eq_tick_of_last {r r' : Rota τ slice} (h : r.left = 1)
    (hqueue : r'.queue = r.queue.rotate 1) (hleft : r'.left = slice)
    (hhad : r'.had = charge r.queue r.had) : r' = r.tick := by
  unfold tick
  rw [dif_pos (Nat.le_of_eq h)]
  exact Rota.ext hqueue hleft hhad

/-- A tick within a slice, recognized by its parts. -/
theorem eq_tick_of_more {r r' : Rota τ slice} (h : r.left ≠ 1) (hqueue : r'.queue = r.queue)
    (hleft : r'.left = r.left - 1) (hhad : r'.had = charge r.queue r.had) : r' = r.tick := by
  have hpos := r.left_pos
  unfold tick
  rw [dif_neg (by omega)]
  exact Rota.ext hqueue hleft hhad

/-- When the turn of `t` ends. -/
def due (r : Rota τ slice) (t : τ) : Nat := r.left + slice * r.queue.idxOf t

/-- The ticks of a run. -/
def ticks (es : List (Event τ)) : Nat := es.count .tick

section Members

variable {r : Rota τ slice} {t u : τ}

/-- Nobody is due before the next tick. -/
theorem due_pos (r : Rota τ slice) (t : τ) : 0 < r.due t :=
  Nat.add_pos_left r.left_pos _

/-- Nobody waits longer than a whole round. -/
theorem due_le (h : t ∈ r.queue) : r.due t ≤ slice * r.queue.length := by
  have hlt := List.idxOf_lt_length_of_mem h
  calc r.due t ≤ slice + slice * r.queue.idxOf t := Nat.add_le_add_right r.left_le _
    _ = slice * (r.queue.idxOf t + 1) := by rw [Nat.mul_succ, Nat.add_comm]
    _ ≤ slice * r.queue.length := Nat.mul_le_mul_left _ hlt

/-- **WHO HAS THE TURN** has it until it ends, less than a slice away. -/
theorem due_le_slice (h : t ∈ r.queue) :
    r.due t ≤ slice ↔ r.queue.head? = some t := by
  have hpos := r.left_pos
  have hle := r.left_le
  unfold due
  cases hq : r.queue with
  | nil => rw [hq] at h; exact nomatch h
  | cons u rest =>
      by_cases hut : u = t
      · subst hut
        simpa using hle
      · have hmul : slice ≤ slice * (rest.idxOf t).succ :=
          Nat.le_mul_of_pos_right _ (Nat.succ_pos _)
        rw [List.idxOf_cons_ne _ hut]
        simp only [List.head?_cons, Option.some.injEq, hut, iff_false]
        omega

/-- A tick sends nobody away. -/
theorem mem_tick : t ∈ r.tick.queue ↔ t ∈ r.queue := by
  unfold tick
  split
  · exact List.mem_rotate
  · exact Iff.rfl

/-- The queue keeps its length. -/
theorem length_tick : r.tick.queue.length = r.queue.length := by
  unfold tick
  split
  · exact List.length_rotate ..
  · rfl

/-- **A TICK** brings the end of a turn nearer, or the turn ends. -/
theorem due_tick (h : t ∈ r.queue) :
    r.tick.due t + 1 = if r.due t = 1 then slice * r.queue.length + 1 else r.due t := by
  have hpos := r.left_pos
  have hle := r.left_le
  obtain ⟨u, rest, hq⟩ : ∃ u rest, r.queue = u :: rest :=
    List.exists_cons_of_ne_nil (List.ne_nil_of_mem h)
  have hnd := r.nodup
  rw [hq] at h hnd
  unfold tick due
  by_cases hut : u = t
  · -- the turn of `t` goes on, or it ends and `t` is last
    subst hut
    have hlast : (rest ++ [u]).idxOf u = rest.length := by
      rw [List.idxOf_append_of_notMem (List.nodup_cons.mp hnd).1, List.idxOf_cons_self,
        Nat.add_zero]
    by_cases hend : r.left ≤ 1
    · rw [dif_pos hend, if_pos (by rw [hq, List.idxOf_cons_self]; omega)]
      simp only [hq, List.rotate_cons_succ, List.rotate_zero, hlast, List.length_cons,
        Nat.mul_succ]
      omega
    · rw [dif_neg hend, if_neg (by rw [hq, List.idxOf_cons_self]; omega)]
      simp only [hq, List.idxOf_cons_self]
      omega
  · -- `t` comes a place nearer when the turn of the first ends
    have ht : t ∈ rest := (List.mem_cons.mp h).resolve_left (Ne.symm hut)
    have hidx : r.queue.idxOf t = rest.idxOf t + 1 := by rw [hq, List.idxOf_cons_ne _ hut]
    rw [hidx, Nat.mul_succ, if_neg (by omega)]
    by_cases hend : r.left ≤ 1
    · rw [dif_pos hend]
      simp only [hq, List.rotate_cons_succ, List.rotate_zero,
        List.idxOf_append_of_mem ht]
      omega
    · rw [dif_neg hend]
      simp only [hidx, Nat.mul_succ]
      omega

/-- Who comes later does not change when a turn is due. -/
theorem due_join (h : t ∈ r.queue) (hu : u ∉ r.queue) : (r.join u hu).due t = r.due t := by
  unfold due join
  rw [List.idxOf_append_of_mem h]

/-- A tick is charged to the head alone. -/
theorem tick_had (r : Rota τ slice) (t : τ) :
    r.tick.had t = r.had t + if r.queue.head? = some t then 1 else 0 := by
  have hcharge : r.tick.had = charge r.queue r.had := by
    unfold tick
    split <;> rfl
  rw [hcharge]
  unfold charge
  cases r.queue with
  | nil => rfl
  | cons u rest =>
      by_cases h : u = t
      · subst h
        simp
      · simp [h, Function.update_of_ne (Ne.symm h)]

/-- What a join does. -/
theorem step_join {r' : Rota τ slice} (h : step (.join u) r = some r') :
    ∃ hu : u ∉ r.queue, r' = r.join u hu := by
  unfold step at h
  dsimp only at h
  split at h
  · exact nomatch h
  · next hu => exact ⟨hu, (Option.some.inj h).symm⟩

end Members

/-! ## Runs -/

section Runs

variable {r r' : Rota τ slice} {t : τ} {es : List (Event τ)}
  {ok : Event τ → Rota τ slice → Prop}

/-- Ticks add up. -/
theorem ticks_append (es : List (Event τ)) (e : Event τ) :
    ticks (es ++ [e]) = ticks es + if e = .tick then 1 else 0 := by
  unfold ticks
  rw [List.count_append, List.count_singleton]
  simp only [beq_iff_eq]

/-- **A RUN** brings the end of a turn nearer by its ticks, whoever joins. -/
theorem Run.due (h : Run step ok r es r') (ht : t ∈ r.queue) (hn : ticks es < r.due t) :
    t ∈ r'.queue ∧ r'.due t + ticks es = r.due t := by
  have hinv := h.invariant_labels
    (P := fun es s => t ∈ s.queue ∧ (ticks es < r.due t → s.due t + ticks es = r.due t))
    ⟨ht, fun _ => rfl⟩ ?_
  · exact ⟨hinv.1, hinv.2 hn⟩
  · rintro es e s s' ⟨hmem, hdue⟩ - hstep
    rw [ticks_append]
    cases e with
    | tick =>
        obtain rfl := Option.some.inj hstep
        refine ⟨mem_tick.mpr hmem, fun hlt => ?_⟩
        rw [if_pos rfl] at hlt ⊢
        have hbefore := hdue (by omega)
        have hone := due_tick hmem
        rw [if_neg (by omega)] at hone
        omega
    | join u =>
        obtain ⟨hu, rfl⟩ := step_join hstep
        refine ⟨List.mem_append_left _ hmem, fun hlt => ?_⟩
        rw [if_neg (by simp)] at hlt ⊢
        rw [due_join hmem]
        exact hdue hlt

/-- **THE TURN** of `t`: it has one exactly from a slice before its end on. -/
theorem Run.turn (h : Run step ok r es r') (ht : t ∈ r.queue) (hn : ticks es < r.due t) :
    r'.queue.head? = some t ↔ r.due t ≤ slice + ticks es := by
  obtain ⟨hmem, hdue⟩ := Run.due h ht hn
  rw [← due_le_slice hmem]
  omega

/-- `w` turns of `t` have ended in `n` ticks from `r` to `s`. -/
structure Ended (t : τ) (r s : Rota τ slice) (n w : Nat) : Prop where
  mem : t ∈ s.queue
  length : s.queue.length = r.queue.length
  due : n + s.due t = r.due t + slice * r.queue.length * w
  had : s.had t + min (s.due t) slice = r.had t + min (r.due t) slice + slice * w

/-- One tick more, during the turn or while it is awaited. -/
theorem Ended.tick {s : Rota τ slice} {n w : Nat} (h : Ended t r s n w) :
    ∃ w', Ended t r s.tick (n + 1) w' := by
  have hdue := h.due
  have hhad := h.had
  have hone := due_tick h.mem
  have hpos := s.due_pos t
  have hturn := due_le_slice h.mem
  have hslice := Nat.lt_of_lt_of_le s.left_pos s.left_le
  have hlong : slice ≤ slice * s.queue.length :=
    Nat.le_mul_of_pos_right _ (List.length_pos_of_mem h.mem)
  have hgot := s.tick_had t
  by_cases hend : s.due t = 1
  · refine ⟨w + 1, mem_tick.mpr h.mem, length_tick.trans h.length, ?_, ?_⟩
    · rw [if_pos hend] at hone
      rw [h.length] at hone
      rw [Nat.mul_succ]
      omega
    · rw [if_pos hend] at hone
      rw [if_pos (hturn.mp (by omega))] at hgot
      rw [hgot, Nat.mul_succ, show s.tick.due t = slice * s.queue.length by omega]
      omega
  · rw [if_neg hend] at hone
    refine ⟨w, mem_tick.mpr h.mem, length_tick.trans h.length, by omega, ?_⟩
    rw [hgot]
    by_cases hhas : s.due t ≤ slice
    · rw [if_pos (hturn.mp hhas)]
      omega
    · rw [if_neg (fun hh => hhas (hturn.mpr hh))]
      omega

/-- **EQUAL SHARES**: when nobody joins and the rota is through `k` times, every
    member has had `k` slices. -/
theorem Run.share (h : Run step (fun e _ => e = .tick) r es r') (ht : t ∈ r.queue) {k : Nat}
    (hn : ticks es = slice * r.queue.length * k) : r'.had t = r.had t + slice * k := by
  obtain ⟨w, hended⟩ := h.invariant_labels (P := fun es s => ∃ w, Ended t r s (ticks es) w)
    ⟨0, ht, rfl, by simp [ticks], rfl⟩ (by
      rintro es e s s' ⟨w, hs⟩ rfl hstep
      obtain rfl := Option.some.inj hstep
      rw [ticks_append, if_pos rfl]
      exact hs.tick)
  have hdue := hended.due
  have hhad := hended.had
  have hle := due_le ht
  have hle' := due_le hended.mem
  have hpos := r.due_pos t
  have hpos' := r'.due_pos t
  rw [hended.length] at hle'
  rw [hn] at hdue
  obtain rfl : k = w := by
    rcases Nat.lt_trichotomy k w with hlt | heq | hlt
    · have := Nat.mul_le_mul_left (slice * r.queue.length) (Nat.succ_le_of_lt hlt)
      rw [Nat.mul_succ] at this
      omega
    · exact heq
    · have := Nat.mul_le_mul_left (slice * r.queue.length) (Nat.succ_le_of_lt hlt)
      rw [Nat.mul_succ] at this
      omega
  obtain heq : r'.due t = r.due t := by omega
  rw [heq] at hhad
  omega

end Runs

end Rota
