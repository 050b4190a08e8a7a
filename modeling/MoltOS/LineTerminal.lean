import Mathlib.Algebra.GroupWithZero.Nat
import Mathlib.Data.List.Basic

/-! A terminal as a pile of rows: the rows finished so far and the row under the cursor. -/
namespace MoltOS

/- The finished rows stand newest first. -/
structure LineTerminal (α : Type) (width : Nat) where
  finished : List (List α)
  current : List α
  fits : current.length ≤ width

namespace LineTerminal
variable {α : Type} {width : Nat}

def empty (α : Type) (width : Nat) : LineTerminal α width := ⟨[], [], Nat.zero_le width⟩

def newline (t : LineTerminal α width) : LineTerminal α width :=
  ⟨t.current :: t.finished, [], Nat.zero_le width⟩

def backspace (t : LineTerminal α width) : LineTerminal α width :=
  ⟨t.finished, t.current.dropLast,
    by rw [List.length_dropLast]; exact Nat.le_trans (Nat.sub_le _ _) t.fits⟩

def put [NeZero width] (t : LineTerminal α width) (x : α) : LineTerminal α width :=
  if h : t.current.length < width then
    ⟨t.finished, t.current ++ [x], by rw [List.length_append]; exact h⟩
  else ⟨t.current :: t.finished, [x], Nat.one_le_iff_ne_zero.mpr (NeZero.ne width)⟩

def row (t : LineTerminal α width) (i : Nat) : List α := ((t.current :: t.finished)[i]?).getD []

def textSince (t : LineTerminal α width) (k : Nat) : List α :=
  (t.finished.take k).reverse.flatten ++ t.current

variable {t : LineTerminal α width}

theorem row_zero : t.row 0 = t.current := rfl

theorem row_newline (i : Nat) : t.newline.row (i + 1) = t.row i := rfl

section Put
variable [NeZero width] {x : α}

theorem put_of_lt (h : t.current.length < width) :
    t.put x = ⟨t.finished, t.current ++ [x], by rw [List.length_append]; exact h⟩ := dif_pos h

/-- A full row is finished before the next cell is put. -/
theorem put_of_full (h : width ≤ t.current.length) : t.put x = t.newline.put x := by
  have hpos : t.newline.current.length < width := Nat.pos_of_ne_zero (NeZero.ne width)
  rw [put_of_lt hpos, put, dif_neg (Nat.not_lt.mpr h)]
  rfl

theorem textSince_put_of_lt (h : t.current.length < width) (k : Nat) :
    (t.put x).textSince k = t.textSince k ++ [x] := by
  rw [put_of_lt h, textSince, textSince, List.append_assoc]

theorem textSince_put_of_full (h : width ≤ t.current.length) (k : Nat) :
    (t.put x).textSince (k + 1) = t.textSince k ++ [x] := by
  rw [put, dif_neg (Nat.not_lt.mpr h)]
  simp [textSince]

end Put

theorem textSince_backspace (h : t.current ≠ []) (k : Nat) :
    t.backspace.textSince k = (t.textSince k).dropLast := by
  rw [textSince, textSince, List.dropLast_append_of_ne_nil h]
  rfl

theorem textSince_suffix {j k : Nat} (h : j ≤ k) : t.textSince j <:+ t.textSince k := by
  have hsplit := (List.take_append_drop j (t.finished.take k)).symm
  rw [List.take_take, Nat.min_eq_left h] at hsplit
  have hrows : (t.finished.take k).reverse.flatten =
      ((t.finished.take k).drop j).reverse.flatten ++ (t.finished.take j).reverse.flatten := by
    conv_lhs => rw [hsplit, List.reverse_append, List.flatten_append]
  rw [textSince, textSince, hrows, List.append_assoc]
  exact List.suffix_append _ _

end LineTerminal
end MoltOS
