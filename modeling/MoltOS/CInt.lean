import Mathlib.Data.Int.Basic
import Mathlib.Tactic.Ring

/-! Signed integers of a fixed width, on a target where they wrap around. -/
namespace MoltOS.CInt

def wrap (w : Nat) (x : Int) : Int := Int.bmod x (2 ^ w)

variable {w : Nat}

theorem wrap_zero : wrap w 0 = 0 := Int.zero_bmod

theorem wrap_neg (v : Int) : wrap w (-wrap w v) = wrap w (-v) := Int.bmod_neg_bmod

/-- One digit more wraps the same, whether or not the number before it has wrapped. -/
theorem wrap_mul_add (v b d : Int) : wrap w (wrap w v * b + d) = wrap w (v * b + d) := by
  unfold wrap
  rw [← Int.bmod_add_bmod, Int.bmod_mul_bmod, Int.bmod_add_bmod]

theorem wrap_of_fits {x : Int} (h : -2 ^ w ≤ x) (h' : x < 2 ^ w) : wrap (w + 1) x = x := by
  unfold wrap
  have hpow : (2 ^ (w + 1) : Nat) = 2 * 2 ^ w := by ring
  have hcast : ((2 ^ w : Nat) : Int) = 2 ^ w := by push_cast; rfl
  rw [hpow]
  rw [Int.bmod_eq_of_le] <;> omega

theorem wrap_lt (x : Int) : wrap (w + 1) x < 2 ^ w := by
  have hpow : (2 ^ (w + 1) : Nat) = 2 * 2 ^ w := by ring
  have hcast : ((2 ^ w : Nat) : Int) = 2 ^ w := by push_cast; rfl
  have hpos : 0 < 2 ^ w := Nat.two_pow_pos w
  unfold wrap
  rw [hpow]
  have h := Int.bmod_lt (x := x) (m := 2 * 2 ^ w) (by omega)
  omega

theorem wrap_le (n : Nat) : wrap w n ≤ n := by
  unfold wrap
  rw [Int.bmod_def]
  have hmod : (n : Int) % (2 ^ w : Nat) ≤ n := by
    rw [← Int.natCast_mod]
    exact Int.ofNat_le.mpr (Nat.mod_le _ _)
  split <;> omega

end MoltOS.CInt
