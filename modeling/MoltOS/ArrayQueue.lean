import Mathlib.Data.List.ReduceOption

/-! A first-in first-out queue of bounded capacity, and sequences of calls on one that drops
what finds it full. -/
namespace MoltOS

structure ArrayQueue (α : Type) (cap : Nat) where
  items : List α
  bounded : items.length ≤ cap

namespace ArrayQueue
variable {α : Type} {cap : Nat} {q q' : ArrayQueue α cap} {x : α}

def empty (α : Type) (cap : Nat) : ArrayQueue α cap := ⟨[], Nat.zero_le cap⟩

def push (q : ArrayQueue α cap) (x : α) : Option (ArrayQueue α cap) :=
  if h : q.items.length < cap then some ⟨q.items ++ [x], by rw [List.length_append]; exact h⟩ else none

def pop (q : ArrayQueue α cap) : Option (α × ArrayQueue α cap) :=
  match h : q.items with
  | [] => none
  | x :: xs => some (x, ⟨xs, Nat.le_of_succ_le (by simpa [h] using q.bounded)⟩)

def isEmpty (q : ArrayQueue α cap) : Bool := q.items.isEmpty

theorem push_eq_some : q.push x = some q' ↔ q.items.length < cap ∧ q'.items = q.items ++ [x] := by
  obtain ⟨l, hl⟩ := q
  obtain ⟨l', hl'⟩ := q'
  unfold push
  by_cases h : l.length < cap
  · simp [h, eq_comm]
  · simp [h]

theorem push_eq_none : q.push x = none ↔ cap ≤ q.items.length := by
  unfold push
  by_cases h : q.items.length < cap
  · simp [h]
  · simp only [dif_neg h, true_iff]
    exact Nat.le_of_not_lt h

theorem pop_eq_some : q.pop = some (x, q') ↔ q.items = x :: q'.items := by
  obtain ⟨l, hl⟩ := q
  obtain ⟨l', hl'⟩ := q'
  cases l with
  | nil => simp [pop]
  | cons y ys => simp [pop]

theorem pop_eq_none : q.pop = none ↔ q.items = [] := by
  obtain ⟨l, hl⟩ := q
  cases l <;> simp [pop]

theorem eq_of_items (h : q.items = q'.items) : q = q' := by
  obtain ⟨l, hl⟩ := q
  obtain ⟨l', hl'⟩ := q'
  obtain rfl : l = l' := h
  rfl

def offer (q : ArrayQueue α cap) (x : α) : ArrayQueue α cap := (q.push x).getD q

def take (q : ArrayQueue α cap) : Option α × ArrayQueue α cap :=
  match q.pop with
  | none => (none, q)
  | some (x, q) => (some x, q)

theorem offer_of_room (x : α) (h : q.items.length < cap) : (q.offer x).items = q.items ++ [x] := by
  rw [offer, push, dif_pos h]
  rfl

theorem offer_of_full (x : α) (h : cap ≤ q.items.length) : q.offer x = q := by
  rw [offer, push_eq_none.mpr h]
  rfl

theorem take_of_empty (h : q.items = []) : q.take = (none, q) := by
  rw [take, pop_eq_none.mpr h]

theorem take_of_items (h : q.items = x :: q'.items) : q.take = (some x, q') := by
  rw [take, pop_eq_some.mpr h]

theorem take_items (q : ArrayQueue α cap) : q.items = q.take.1.toList ++ q.take.2.items := by
  cases h : q.pop with
  | none => simp [take, h]
  | some r => simpa [take, h] using pop_eq_some.mp h

inductive Op (α : Type) where
  | push (x : α)
  | pop

def run : ArrayQueue α cap → List (Op α) → List (Option α) × ArrayQueue α cap
  | q, [] => ([], q)
  | q, .push x :: ops => run (q.offer x) ops
  | q, .pop :: ops => (q.take.1 :: (run q.take.2 ops).1, (run q.take.2 ops).2)

def accepted : ArrayQueue α cap → List (Op α) → List α
  | _, [] => []
  | q, .push x :: ops => (if q.items.length < cap then [x] else []) ++ accepted (q.offer x) ops
  | q, .pop :: ops => accepted q.take.2 ops

theorem offer_items (q : ArrayQueue α cap) (x : α) :
    (q.offer x).items = q.items ++ if q.items.length < cap then [x] else [] := by
  split
  next h => exact offer_of_room x h
  next h => rw [offer_of_full x (Nat.le_of_not_lt h), List.append_nil]

/-- What was in the queue and what it accepted is what came out and what is still in it, in
this order. -/
theorem items_append_accepted (q : ArrayQueue α cap) (ops : List (Op α)) :
    q.items ++ q.accepted ops = (q.run ops).1.reduceOption ++ (q.run ops).2.items := by
  induction ops generalizing q with
  | nil => simp [accepted, run]
  | cons op ops ih =>
    cases op with
    | push x =>
      rw [accepted, ← List.append_assoc, ← offer_items, ih]
      rfl
    | pop =>
      have hrest := ih q.take.2
      have hitems := q.take_items
      cases hx : q.take.1 with
      | none =>
        rw [hx] at hitems
        rw [accepted, run, hx, List.reduceOption_cons_of_none, ← hrest, hitems]
        rfl
      | some x =>
        rw [hx] at hitems
        rw [accepted, run, hx, List.reduceOption_cons_of_some, List.cons_append, ← hrest, hitems]
        rfl

end ArrayQueue
end MoltOS
