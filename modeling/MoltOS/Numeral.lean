import Mathlib.Data.Nat.Digits.Lemmas

/-! Positional numerals in bases up to 16, as printed most significant digit first. -/
namespace MoltOS.Numeral

def digitTable (upper : Bool) : List UInt8 :=
  [48, 49, 50, 51, 52, 53, 54, 55, 56, 57] ++
    if upper then [65, 66, 67, 68, 69, 70] else [97, 98, 99, 100, 101, 102]

def digitChar (upper : Bool) (d : Nat) : UInt8 := (digitTable upper).getD d 0

def digitVal (c : UInt8) : Option Nat :=
  if 48 ≤ c ∧ c ≤ 57 then some (c.toNat - 48)
  else if 97 ≤ c ∧ c ≤ 102 then some (c.toNat - 97 + 10)
  else if 65 ≤ c ∧ c ≤ 70 then some (c.toNat - 65 + 10)
  else none

def numeral (upper : Bool) (base n : Nat) : List UInt8 :=
  if n = 0 then [48] else ((Nat.digits base n).map (digitChar upper)).reverse

def value (base acc : Nat) (ds : List UInt8) : Nat :=
  ds.foldl (fun v c => v * base + (digitVal c).getD 0) acc

def isDigit (base : Nat) (c : UInt8) : Bool := (digitVal c).any (· < base)

variable {upper : Bool} {base n d : Nat}

theorem digitVal_digitChar (hd : d < 16) : digitVal (digitChar upper d) = some d := by
  have h : ∀ u : Bool, ∀ i : Fin 16, digitVal (digitChar u i) = some (i : Nat) := by decide
  exact h upper ⟨d, hd⟩

theorem isDigit_digitChar (hb : base ≤ 16) (hd : d < base) :
    isDigit base (digitChar upper d) = true := by
  rw [isDigit, digitVal_digitChar (hd.trans_le hb)]
  exact decide_eq_true hd

theorem isDigit_of_mem_numeral (hb : 1 < base) (hb' : base ≤ 16) {c : UInt8}
    (hc : c ∈ numeral upper base n) : isDigit base c = true := by
  unfold numeral at hc
  split at hc
  · rw [List.mem_singleton.mp hc]
    exact decide_eq_true (show 0 < base by omega)
  · obtain ⟨d, hd, rfl⟩ := List.mem_map.mp (List.mem_reverse.mp hc)
    exact isDigit_digitChar hb' (Nat.digits_lt_base hb hd)

theorem numeral_ne_nil : numeral upper base n ≠ [] := by
  unfold numeral
  split
  · exact List.cons_ne_nil _ _
  next h => simpa [Nat.digits_eq_nil_iff_eq_zero] using h

theorem value_append (acc : Nat) (xs ys : List UInt8) :
    value base acc (xs ++ ys) = value base (value base acc xs) ys := List.foldl_append

/-- Leading zeros do not count. -/
theorem value_zeros (k : Nat) (ds : List UInt8) :
    value base 0 (List.replicate k 48 ++ ds) = value base 0 ds := by
  induction k with
  | zero => rfl
  | succ k ih =>
    rw [List.replicate_succ, List.cons_append]
    refine Eq.trans ?_ ih
    simp [value, digitVal]

theorem value_reverse_map (ds : List Nat) (h : ∀ d ∈ ds, d < 16) :
    value base 0 (ds.map (digitChar upper)).reverse = Nat.ofDigits base ds := by
  induction ds with
  | nil => rfl
  | cons d ds ih =>
    rw [List.map_cons, List.reverse_cons, value_append, ih fun e he => h e (List.mem_cons_of_mem _ he),
      Nat.ofDigits_cons]
    simp only [value, List.foldl_cons, List.foldl_nil, digitVal_digitChar (h d List.mem_cons_self)]
    simp only [Option.getD_some]
    ring

/-- A printed number reads back as itself. -/
theorem value_numeral (hb : 1 < base) (hb' : base ≤ 16) :
    value base 0 (numeral upper base n) = n := by
  unfold numeral
  split
  next h => simp [h, value, digitVal]
  next h =>
    rw [value_reverse_map _ fun d hd => (Nat.digits_lt_base hb hd).trans_le hb', Nat.ofDigits_digits]

theorem numeral_of_lt (hn : n < base) : numeral upper base n = [digitChar upper n] := by
  unfold numeral
  split
  next h =>
    rw [h]
    cases upper <;> rfl
  next h =>
    rw [Nat.digits_of_lt base n h hn]
    rfl

/-- The last step of printing: the leading digits, then the lowest one. -/
theorem numeral_of_le (hb : 1 < base) (hn : base ≤ n) :
    numeral upper base n = numeral upper base (n / base) ++ [digitChar upper (n % base)] := by
  have hpos : n / base ≠ 0 := (Nat.div_pos hn (by omega)).ne'
  unfold numeral
  rw [if_neg (by omega), if_neg hpos, Nat.digits_def' hb (by omega), List.map_cons,
    List.reverse_cons]

theorem digitChar_ne_zero (hd : d < 16) (h0 : d ≠ 0) : digitChar upper d ≠ 48 := by
  have h : ∀ u : Bool, ∀ i : Fin 16, (i : Nat) ≠ 0 → digitChar u i ≠ 48 := by decide
  exact h upper ⟨d, hd⟩ h0

/-- Only the number zero is printed with a leading zero. -/
theorem head_numeral_ne (hb : 1 < base) (hb' : base ≤ 16) (hn : n ≠ 0) :
    (numeral upper base n).head? ≠ some 48 := by
  induction n using Nat.strong_induction_on with
  | _ n ih =>
    by_cases hlt : n < base
    · rw [numeral_of_lt hlt, List.head?_cons]
      exact fun h => digitChar_ne_zero (hlt.trans_le hb') hn (Option.some.inj h)
    · have hle := Nat.not_lt.mp hlt
      rw [numeral_of_le hb hle, List.head?_append_of_ne_nil _ numeral_ne_nil]
      exact ih _ (Nat.div_lt_self (Nat.pos_of_ne_zero hn) hb) (Nat.div_pos hle (by omega)).ne'

/-- The leading digits below a smaller base are the number if it is itself below that base. -/
theorem value_run_of_lt {b : Nat} (hb : b ≤ base) (hb' : base ≤ 16) (hn : n < b) :
    value b 0 ((numeral upper base n).takeWhile (isDigit b)) = n := by
  have hd : isDigit b (digitChar upper n) = true := isDigit_digitChar (hb.trans hb') hn
  rw [numeral_of_lt (hn.trans_le hb), List.takeWhile_cons_of_pos hd, List.takeWhile_nil]
  simp [value, digitVal_digitChar (hn.trans_le (hb.trans hb'))]

/-- Otherwise they stand for less in the smaller base. -/
theorem value_run_lt {b : Nat} (h0 : 0 < b) (hb : b < base) (hb' : base ≤ 16) (hn : b ≤ n) :
    value b 0 ((numeral upper base n).takeWhile (isDigit b)) < n := by
  induction n using Nat.strong_induction_on with
  | _ n ih =>
    by_cases hlt : n < base
    · have hd : ¬ isDigit b (digitChar upper n) = true := by
        rw [isDigit, digitVal_digitChar (hlt.trans_le hb')]
        simpa using hn
      rw [numeral_of_lt hlt, List.takeWhile_cons_of_neg hd]
      exact h0.trans_le hn
    · have hle := Nat.not_lt.mp hlt
      have hpos : 0 < n / base := Nat.div_pos hle (by omega)
      have hdiv : n / base < n := Nat.div_lt_self (by omega) (by omega)
      have hmod : n % base < base := Nat.mod_lt _ (by omega)
      -- the leading digits, by induction or because they are below the base themselves
      have hlead : value b 0 ((numeral upper base (n / base)).takeWhile (isDigit b)) ≤ n / base := by
        by_cases hsmall : n / base < b
        · exact (value_run_of_lt hb.le hb' hsmall).le
        · exact (ih _ hdiv (Nat.not_lt.mp hsmall)).le
      rw [numeral_of_le (by omega) hle, List.takeWhile_append]
      split
      next hall =>
        rw [List.IsPrefix.eq_of_length (List.takeWhile_prefix _) hall] at hlead
        have hstep : value b 0 (numeral upper base (n / base) ++
            [digitChar upper (n % base)].takeWhile (isDigit b)) ≤ n / base * b + n % base := by
          rw [value_append, List.takeWhile_cons]
          split
          · simp only [value, List.takeWhile_nil, List.foldl_cons, List.foldl_nil,
              digitVal_digitChar (hmod.trans_le hb'), Option.getD_some] at hlead ⊢
            exact Nat.add_le_add_right (Nat.mul_le_mul_right b hlead) _
          · exact hlead.trans ((Nat.le_mul_of_pos_right _ h0).trans (Nat.le_add_right _ _))
        calc _ ≤ n / base * b + n % base := hstep
          _ < n / base * base + n % base :=
            Nat.add_lt_add_right (Nat.mul_lt_mul_of_pos_left hb hpos) _
          _ = n := Nat.div_add_mod' n base
      next => exact hlead.trans_lt hdiv

theorem numeral_length_le {k : Nat} (hb : 1 < base) (hk : 0 < k) (hn : n < base ^ k) :
    (numeral upper base n).length ≤ k := by
  unfold numeral
  split
  · exact hk
  · rw [List.length_reverse, List.length_map]
    exact (Nat.digits_length_le_iff hb n).mpr hn

theorem mem_numeral_ne_zero (hb : 1 < base) (hb' : base ≤ 16) {c : UInt8}
    (hc : c ∈ numeral upper base n) : c ≠ 0 := by
  rintro rfl
  exact absurd (isDigit_of_mem_numeral hb hb' hc) (by simp [isDigit, digitVal])

end MoltOS.Numeral
