import Mathlib.Data.Nat.ModEq
import MoltOS.ArrayQueue

/-! A queue in a circular buffer of `n` cells with the indices of the first cell in use and
of the first free one. One cell stays free, so that equal indices mean empty: the buffer is
a bounded queue of `n - 1` items. -/
namespace MoltOS

structure RingBuffer (α : Type) (n : Nat) where
  buf : Vector α n
  head : Nat
  tail : Nat
  head_lt : head < n
  tail_lt : tail < n

namespace RingBuffer
variable {α : Type} {n : Nat}

theorem pos (r : RingBuffer α n) : 0 < n := Nat.zero_lt_of_lt r.head_lt

def empty (x : α) (h : 0 < n) : RingBuffer α n := ⟨Vector.replicate n x, 0, 0, h, h⟩

def push (r : RingBuffer α n) (x : α) : RingBuffer α n :=
  if (r.tail + 1) % n ≠ r.head then
    { r with
      buf := r.buf.set r.tail x r.tail_lt
      tail := (r.tail + 1) % n
      tail_lt := Nat.mod_lt _ r.pos }
  else r

def pop (r : RingBuffer α n) : Option α × RingBuffer α n :=
  if r.head = r.tail then (none, r)
  else (some (r.buf.get ⟨r.head, r.head_lt⟩),
    { r with head := (r.head + 1) % n, head_lt := Nat.mod_lt _ r.pos })

def count (r : RingBuffer α n) : Nat :=
  if r.head ≤ r.tail then r.tail - r.head else r.tail + n - r.head

def cell (r : RingBuffer α n) (i : Nat) : α := r.buf.get ⟨(r.head + i) % n, Nat.mod_lt _ r.pos⟩

def items (r : RingBuffer α n) : List α := (List.range r.count).map r.cell

@[simp] theorem items_length (r : RingBuffer α n) : r.items.length = r.count := by simp [items]

@[simp] theorem items_empty (x : α) (h : 0 < n) : (empty x h).items = [] := rfl

theorem count_lt (r : RingBuffer α n) : r.count < n := by
  have := r.head_lt
  have := r.tail_lt
  unfold count
  split <;> omega

theorem head_add_count (r : RingBuffer α n) : (r.head + r.count) % n = r.tail := by
  have := r.head_lt
  have ht := r.tail_lt
  unfold count
  split
  · rw [show r.head + (r.tail - r.head) = r.tail by omega, Nat.mod_eq_of_lt ht]
  · rw [show r.head + (r.tail + n - r.head) = r.tail + n by omega, Nat.add_mod_right,
      Nat.mod_eq_of_lt ht]

theorem succ_mod {i : Nat} (h : i < n) : (i + 1) % n = if i + 1 = n then 0 else i + 1 := by
  split
  next hi => rw [hi, Nat.mod_self]
  next hi => exact Nat.mod_eq_of_lt (by omega)

/-- The indices meet again exactly when one cell is left. -/
theorem full_iff (r : RingBuffer α n) : (r.tail + 1) % n = r.head ↔ r.count + 1 = n := by
  have := r.head_lt
  have := r.tail_lt
  rw [succ_mod r.tail_lt]
  unfold count
  split <;> split <;> omega

theorem count_eq_zero_iff (r : RingBuffer α n) : r.count = 0 ↔ r.head = r.tail := by
  have := r.head_lt
  have := r.tail_lt
  unfold count
  split <;> omega

theorem push_of_full {r : RingBuffer α n} (x : α) (h : r.count + 1 = n) : r.push x = r :=
  if_neg (not_not.mpr (r.full_iff.mpr h))

theorem push_of_room {r : RingBuffer α n} (x : α) (h : r.count + 1 < n) : r.push x =
    { r with
      buf := r.buf.set r.tail x r.tail_lt
      tail := (r.tail + 1) % n
      tail_lt := Nat.mod_lt _ r.pos } :=
  if_pos fun hf => absurd (r.full_iff.mp hf) (Nat.ne_of_lt h)

theorem push_count {r : RingBuffer α n} (x : α) (h : r.count + 1 < n) :
    (r.push x).count = r.count + 1 := by
  have hh := r.head_lt
  have ht := r.tail_lt
  rw [push_of_room x h]
  unfold count at h ⊢
  simp only [succ_mod ht]
  split at h <;> split <;> split <;> omega

theorem get_set {v : Vector α n} {x : α} {i j : Nat} (hi : i < n) (hj : j < n) :
    (v.set i x hi).get ⟨j, hj⟩ = if i = j then x else v.get ⟨j, hj⟩ := Vector.getElem_set hi hj

theorem push_cell {r : RingBuffer α n} (x : α) {i : Nat} (h : r.count + 1 < n)
    (hi : i ≤ r.count) : (r.push x).cell i = if i = r.count then x else r.cell i := by
  rw [push_of_room x h]
  simp only [cell, get_set]
  by_cases hc : i = r.count
  · rw [if_pos hc, if_pos (by rw [hc, r.head_add_count])]
  · have hne : r.tail ≠ (r.head + i) % n := by
      rw [← r.head_add_count]
      intro heq
      have hmod : r.count ≡ i [MOD n] := Nat.ModEq.add_left_cancel' r.head heq
      exact hc (hmod.eq_of_lt_of_lt r.count_lt (hi.trans_lt r.count_lt)).symm
    rw [if_neg hc, if_neg hne]

/-- With a cell to spare a push appends to the queue. -/
theorem items_push {r : RingBuffer α n} (x : α) (h : r.count + 1 < n) :
    (r.push x).items = r.items ++ [x] := by
  unfold items
  rw [push_count x h, List.range_succ, List.map_append]
  congr 1
  · refine List.map_congr_left fun i hi => ?_
    have hlt : i < r.count := List.mem_range.mp hi
    rw [push_cell x h (Nat.le_of_lt hlt), if_neg (Nat.ne_of_lt hlt)]
  · simp [push_cell x h]

theorem pop_of_empty {r : RingBuffer α n} (h : r.items = []) : r.pop = (none, r) :=
  if_pos (r.count_eq_zero_iff.mp (by simpa using congrArg List.length h))

/-- A pop of a queue with something in it takes its oldest item. -/
theorem pop_items {r : RingBuffer α n} (h : r.items ≠ []) :
    ∃ x, r.pop.1 = some x ∧ r.items = x :: r.pop.2.items := by
  have hpos : r.count ≠ 0 := fun h0 => h (List.length_eq_zero_iff.mp (r.items_length.trans h0))
  have hne : r.head ≠ r.tail := fun he => hpos (r.count_eq_zero_iff.mpr he)
  have hpop : r.pop = (some (r.buf.get ⟨r.head, r.head_lt⟩),
      { r with head := (r.head + 1) % n, head_lt := Nat.mod_lt _ r.pos }) := if_neg hne
  have hcount : r.count = r.pop.2.count + 1 := by
    have := r.head_lt
    have := r.tail_lt
    rw [hpop]
    simp only [count, succ_mod r.head_lt]
    split <;> split <;> split <;> omega
  refine ⟨_, congrArg Prod.fst hpop, ?_⟩
  unfold items
  rw [hcount, List.range_succ_eq_map, List.map_cons, List.map_map]
  congr 1
  · simp [cell, Nat.mod_eq_of_lt r.head_lt]
  · refine List.map_congr_left fun i _ => ?_
    simp only [Function.comp, hpop, cell, Nat.mod_add_mod]
    congr 3
    omega

def queue (r : RingBuffer α n) : ArrayQueue α (n - 1) :=
  ⟨r.items, r.items_length ▸ Nat.le_sub_one_of_lt r.count_lt⟩

theorem queue_push (r : RingBuffer α n) (x : α) : (r.push x).queue = r.queue.offer x := by
  have hlen : r.queue.items.length = r.count := r.items_length
  have hlt := r.count_lt
  by_cases hfull : r.count + 1 = n
  · rw [push_of_full x hfull, ArrayQueue.offer_of_full x (by omega)]
  · refine ArrayQueue.eq_of_items ?_
    rw [ArrayQueue.offer_of_room x (by omega)]
    exact items_push x (by omega)

theorem queue_pop (r : RingBuffer α n) : (r.pop.1, r.pop.2.queue) = r.queue.take := by
  by_cases hempty : r.items = []
  · rw [pop_of_empty hempty, ArrayQueue.take_of_empty hempty]
  · obtain ⟨x, hpop, hitems⟩ := pop_items hempty
    have hnext : r.queue.items = x :: r.pop.2.queue.items := hitems
    rw [hpop, ArrayQueue.take_of_items hnext]

def run : RingBuffer α n → List (ArrayQueue.Op α) → List (Option α) × RingBuffer α n
  | r, [] => ([], r)
  | r, .push x :: ops => run (r.push x) ops
  | r, .pop :: ops => (r.pop.1 :: (run r.pop.2 ops).1, (run r.pop.2 ops).2)

/-- Any calls on the buffer return what they return on the queue. -/
theorem run_queue (r : RingBuffer α n) (ops : List (ArrayQueue.Op α)) :
    ((r.run ops).1, (r.run ops).2.queue) = r.queue.run ops := by
  induction ops generalizing r with
  | nil => rfl
  | cons op ops ih =>
    cases op with
    | push x =>
      rw [run, ih, queue_push]
      rfl
    | pop =>
      rw [ArrayQueue.run, ← queue_pop]
      exact congrArg (fun t => (r.pop.1 :: t.1, t.2)) (ih r.pop.2)

theorem pop_eq_none_iff (r : RingBuffer α n) : r.pop.1 = none ↔ r.items = [] := by
  constructor
  · intro h
    by_contra hne
    obtain ⟨x, hpop, -⟩ := pop_items hne
    exact absurd (hpop.symm.trans h) (Option.some_ne_none x)
  · intro h
    rw [pop_of_empty h]

end RingBuffer
end MoltOS
