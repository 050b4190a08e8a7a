import Mathlib.Data.List.Basic

/-! Strings that a NUL byte ends, and pointers into them. A pointer is the list of the bytes
from it to the terminator, so the empty list points past the terminator. -/
namespace MoltOS.CString

abbrev ch (c : Char) : UInt8 := c.toNat.toUInt8

structure CStr where
  bytes : List UInt8
  noNul : ∀ b ∈ bytes, b ≠ 0

def CStr.lit (bytes : List UInt8) (h : bytes.all (· ≠ 0) = true) : CStr :=
  ⟨bytes, fun b hb => of_decide_eq_true (List.all_eq_true.mp h b hb)⟩

def CStr.mem (s : CStr) : List UInt8 := s.bytes ++ [0]

def Terminated : List UInt8 → Prop
  | [] => False
  | c :: p => if c = 0 then p = [] else Terminated p

theorem terminated_mem (s : CStr) : Terminated s.mem := by
  obtain ⟨l, hl⟩ := s
  unfold CStr.mem
  induction l with
  | nil => rfl
  | cons c l ih =>
    have hc : c ≠ 0 := hl c List.mem_cons_self
    rw [List.cons_append, Terminated, if_neg hc]
    exact ih fun b hb => hl b (List.mem_cons_of_mem _ hb)

theorem Terminated.next {c : UInt8} {p : List UInt8} (h : Terminated (c :: p)) (hc : c ≠ 0) :
    Terminated p := by
  rwa [Terminated, if_neg hc] at h

theorem Terminated.nul {p : List UInt8} (h : Terminated (0 :: p)) : p = [] := by
  rwa [Terminated, if_pos rfl] at h

end MoltOS.CString
