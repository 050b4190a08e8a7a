import Mathlib.Data.List.Basic

/-! A position in a list that cannot leave it: going to a position, and reading on from it. -/
namespace MoltOS

structure Cursor (α : Type*) where
  data : List α
  pos : Nat
  inRange : pos ≤ data.length

namespace Cursor
variable {α : Type*}

@[ext]
theorem ext {c d : Cursor α} (hdata : c.data = d.data) (hpos : c.pos = d.pos) : c = d := by
  obtain ⟨data, pos, _⟩ := c
  obtain ⟨data', pos', _⟩ := d
  obtain rfl : data = data' := hdata
  obtain rfl : pos = pos' := hpos
  rfl

def start (data : List α) : Cursor α := ⟨data, 0, Nat.zero_le _⟩

def seek (c : Cursor α) (target : Int) : Option (Cursor α) :=
  if h : 0 ≤ target ∧ target ≤ c.data.length then some ⟨c.data, target.toNat, by omega⟩ else none

def left (c : Cursor α) : Nat := c.data.length - c.pos

def read (c : Cursor α) (n : Nat) : List α × Cursor α :=
  ((c.data.drop c.pos).take n, ⟨c.data, c.pos + min n c.left, by
    have := c.inRange
    unfold left
    omega⟩)

theorem read_length (c : Cursor α) (n : Nat) : (c.read n).1.length = min n c.left := by
  rw [read, List.length_take, List.length_drop]
  rfl

theorem read_zero (c : Cursor α) : c.read 0 = ([], c) := by
  refine Prod.ext rfl (Cursor.ext rfl ?_)
  exact (congrArg (c.pos + ·) (Nat.zero_min _)).trans (Nat.add_zero _)

/-- Two reads deliver what one read of both lengths does: nothing is skipped or repeated. -/
theorem read_read (c : Cursor α) (m n : Nat) :
    ((c.read m).1 ++ ((c.read m).2.read n).1, ((c.read m).2.read n).2) = c.read (m + n) := by
  have hrange := c.inRange
  refine Prod.ext ?_ (Cursor.ext rfl ?_)
  · simp only [read, left]
    rw [← List.drop_drop, List.take_add]
    by_cases hm : m ≤ c.data.length - c.pos
    · rw [Nat.min_eq_left hm]
    · have hnil : ∀ k, c.data.length - c.pos ≤ k → (c.data.drop c.pos).drop k = [] :=
        fun k hk => List.drop_eq_nil_of_le (by rwa [List.length_drop])
      rw [Nat.min_eq_right (by omega), hnil _ (Nat.le_refl _), hnil m (by omega)]
  · simp only [read, left]
    omega

/-- What is read lies between the two positions. -/
theorem read_between (c : Cursor α) (n : Nat) :
    (c.read n).1 = (c.data.drop c.pos).take ((c.read n).2.pos - c.pos) := by
  simp only [read, Nat.add_sub_cancel_left]
  rw [left, ← List.length_drop, List.take_eq_take_iff]
  omega

end Cursor
end MoltOS
