import Mathlib.Data.Int.Basic
import MoltOS.CInt
import MoltOS.CString
import MoltOS.Numeral

/-! `strtol` of `stubs.c`. A string is the list of its bytes before the NUL, and a pointer into
it the bytes from there on. -/
namespace MoltOS.Strtol
open MoltOS.CInt MoltOS.CString MoltOS.Numeral

def isBlank (c : UInt8) : Bool := c = ch ' ' ∨ c = ch '\t'

def isSign (c : UInt8) : Bool := c = ch '-' ∨ c = ch '+'

def readSign : List UInt8 → Bool × List UInt8
  | [] => (false, [])
  | c :: s => if c = ch '-' then (true, s) else if c = ch '+' then (false, s) else (false, c :: s)

def detectBase : List UInt8 → Nat × List UInt8
  | 48 :: c :: s => if c = ch 'x' ∨ c = ch 'X' then (16, s) else (8, 48 :: c :: s)
  | [48] => (8, [48])
  | s => (10, s)

def accumulate (base : Nat) : Int → List UInt8 → Int × List UInt8
  | val, [] => (val, [])
  | val, c :: s =>
    match digitVal c with
    | none => (val, c :: s)
    | some d => if d ≥ base then (val, c :: s) else accumulate base (wrap 64 (val * base + d)) s

/- The value, and the string from `*end` on. -/
def strtol (s : List UInt8) (base : Nat) : Int × List UInt8 :=
  let (neg, s) := readSign (s.dropWhile isBlank)
  let (base, s) := if base = 0 then detectBase s else (base, s)
  let (val, s) := accumulate base 0 s
  (if neg then wrap 64 (-val) else val, s)

variable {base : Nat}

/-- The loop reads the maximal run of digits and wraps once, wherever it overflows. -/
theorem accumulate_eq (base n : Nat) (s : List UInt8) : accumulate base (wrap 64 n) s =
    (wrap 64 (value base n (s.takeWhile (isDigit base))), s.dropWhile (isDigit base)) := by
  induction s generalizing n with
  | nil => rfl
  | cons c s ih =>
    cases hv : digitVal c with
    | none =>
      have hc : isDigit base c = false := by rw [isDigit, hv]; rfl
      rw [accumulate, hv, List.takeWhile_cons, List.dropWhile_cons, hc]
      rfl
    | some d =>
      by_cases hd : d < base
      · have hc : isDigit base c = true := by rw [isDigit, hv]; exact decide_eq_true hd
        have hval : value base n (c :: s.takeWhile (isDigit base)) =
            value base (n * base + d) (s.takeWhile (isDigit base)) := by
          simp only [value, List.foldl_cons, hv, Option.getD_some]
        rw [accumulate, hv, List.takeWhile_cons, List.dropWhile_cons, hc]
        simp only [if_neg (Nat.not_le.mpr hd), if_true, hval, wrap_mul_add]
        exact ih (n * base + d)
      · have hc : isDigit base c = false := by rw [isDigit, hv]; exact decide_eq_false hd
        rw [accumulate, hv, List.takeWhile_cons, List.dropWhile_cons, hc]
        simp only [if_pos (Nat.not_lt.mp hd)]
        rfl

theorem accumulate_zero (base : Nat) (s : List UInt8) : accumulate base 0 s =
    (wrap 64 (value base 0 (s.takeWhile (isDigit base))), s.dropWhile (isDigit base)) := by
  have h := accumulate_eq base 0 s
  rwa [Nat.cast_zero, wrap_zero] at h

def body (s : List UInt8) : List UInt8 := (readSign (s.dropWhile isBlank)).2

def isNegative (s : List UInt8) : Bool := (readSign (s.dropWhile isBlank)).1

def digitRun (base : Nat) (s : List UInt8) : List UInt8 := (body s).takeWhile (isDigit base)

def afterRun (base : Nat) (s : List UInt8) : List UInt8 := (body s).dropWhile (isDigit base)

def signedValue (base : Nat) (s : List UInt8) : Int :=
  if isNegative s then -(value base 0 (digitRun base s) : Int) else value base 0 (digitRun base s)

/-- The result in terms of the base and the string that the base detection leaves. -/
theorem strtol_split (s : List UInt8) (base : Nat) {b : Nat} {t : List UInt8}
    (h : (if base = 0 then detectBase (body s) else (base, body s)) = (b, t)) :
    strtol s base = (wrap 64 (if isNegative s then -(value b 0 (t.takeWhile (isDigit b)) : Int)
      else value b 0 (t.takeWhile (isDigit b))), t.dropWhile (isDigit b)) := by
  simp only [body] at h
  simp only [strtol, h, accumulate_zero, isNegative]
  obtain hneg | hneg := Bool.eq_false_or_eq_true (readSign (s.dropWhile isBlank)).1
  · simp only [hneg, if_true, wrap_neg]
  · simp only [hneg, Bool.false_eq_true, if_false]

theorem strtol_eq (hb : base ≠ 0) (s : List UInt8) :
    strtol s base = (wrap 64 (signedValue base s), afterRun base s) :=
  strtol_split s base (if_neg hb)

def Prefixed (s : List UInt8) : Prop := ∃ c ∈ s.head?, isBlank c ∨ isSign c

theorem body_of_not_prefixed {s : List UInt8} (h : ¬ Prefixed s) : body s = s := by
  cases s with
  | nil => rfl
  | cons c s =>
    have hc : ¬ (isBlank c ∨ isSign c) := fun hc => h ⟨c, rfl, hc⟩
    obtain ⟨hblank, hsign⟩ := not_or.mp hc
    simp only [isSign, decide_eq_true_eq, not_or] at hsign
    rw [body, List.dropWhile_cons_of_neg hblank, readSign, if_neg hsign.1, if_neg hsign.2]

theorem readSign_length (s : List UInt8) : (readSign s).2.length ≤ s.length := by
  cases s with
  | nil => exact Nat.le_refl _
  | cons c s =>
    rw [readSign]
    split
    · exact Nat.le_succ _
    · split
      · exact Nat.le_succ _
      · exact Nat.le_refl _

theorem body_length_of_prefixed {s : List UInt8} (h : Prefixed s) :
    (body s).length < s.length := by
  obtain ⟨c, hc, hpre⟩ := h
  cases s with
  | nil => cases hc
  | cons e s =>
    cases hc
    by_cases hblank : isBlank c
    · rw [body, List.dropWhile_cons_of_pos hblank]
      exact Nat.lt_succ_of_le ((readSign_length _).trans (List.dropWhile_suffix _).length_le)
    · have hsign : isSign c = true := hpre.resolve_left hblank
      simp only [isSign, decide_eq_true_eq] at hsign
      rw [body, List.dropWhile_cons_of_neg hblank, readSign]
      split
      · exact Nat.lt_succ_self _
      · rw [if_pos (hsign.resolve_left ‹_›)]
        exact Nat.lt_succ_self _

def Exact (base : Nat) (s : List UInt8) : Prop :=
  (digitRun base s = [] → strtol s base = (0, s)) ∧
  (digitRun base s ≠ [] → -2 ^ 63 ≤ signedValue base s → signedValue base s < 2 ^ 63 →
    strtol s base = (signedValue base s, afterRun base s))

/-- A run of digits is read as it should be. Without one `*end` is left behind the blanks and
the sign, so it is the start of the string only where there are none. -/
theorem exact_iff (hb : base ≠ 0) (s : List UInt8) :
    Exact base s ↔ digitRun base s ≠ [] ∨ ¬ Prefixed s := by
  have hval : digitRun base s = [] → strtol s base = (0, body s) := by
    intro hnil
    have hafter : afterRun base s = body s := by
      have hsplit := List.takeWhile_append_dropWhile (p := isDigit base) (l := body s)
      rwa [show (body s).takeWhile (isDigit base) = [] from hnil, List.nil_append] at hsplit
    have hzero : signedValue base s = 0 := by
      rw [signedValue, hnil]
      cases isNegative s <;> rfl
    rw [strtol_eq hb, hafter, hzero, wrap_zero]
  constructor
  · intro h
    by_contra hno
    obtain ⟨hnil, hpre⟩ := not_or.mp hno
    have hnil := not_not.mp hnil
    have heq := (hval hnil).symm.trans (h.1 hnil)
    have := body_length_of_prefixed (not_not.mp hpre)
    rw [(Prod.mk.inj heq).2] at this
    exact absurd this (Nat.lt_irrefl _)
  · intro h
    refine ⟨fun hnil => ?_, fun _ hlow hhigh => ?_⟩
    · rw [hval hnil, body_of_not_prefixed (h.resolve_left (not_not.mpr hnil))]
    · rw [strtol_eq hb, wrap_of_fits hlow hhigh]

/- What is read of `t` up to `rest` has a digit in it if `t` starts with one, and is nothing at
   all otherwise. -/
def Consumes (base : Nat) (t rest : List UInt8) : Prop :=
  ∃ used, t = used ++ rest ∧
    if t.head?.any (isDigit base) then ∃ c ∈ used, isDigit base c = true else used = []

theorem consumes_run {b : Nat} {t : List UInt8}
    (h : ∀ c ∈ t.head?, isDigit base c = isDigit b c) :
    Consumes base t (t.dropWhile (isDigit b)) := by
  refine ⟨t.takeWhile (isDigit b), List.takeWhile_append_dropWhile.symm, ?_⟩
  cases t with
  | nil => rfl
  | cons c t =>
    have hc := h c rfl
    rw [List.head?_cons, Option.any_some, hc]
    split
    next hd =>
      rw [List.takeWhile_cons_of_pos hd]
      exact ⟨c, List.mem_cons_self, hc.trans hd⟩
    next hd => exact List.takeWhile_cons_of_neg hd

/-- The first decimal digit is read as such or as the start of `0x`. -/
theorem detectBase_consumes (t : List UInt8) :
    Consumes 10 t ((detectBase t).2.dropWhile (isDigit (detectBase t).1)) := by
  unfold detectBase
  split
  next c t =>
    split
    · refine ⟨48 :: c :: t.takeWhile (isDigit 16), ?_, 48, List.mem_cons_self, rfl⟩
      rw [List.cons_append, List.cons_append, List.takeWhile_append_dropWhile]
    · refine consumes_run fun e he => ?_
      cases he
      rfl
  next =>
    refine consumes_run fun e he => ?_
    cases he
    rfl
  next => exact consumes_run fun e _ => rfl

theorem strtol_zero_consumes (s : List UInt8) : Consumes 10 (body s) (strtol s 0).2 := by
  rw [strtol_split s 0 rfl]
  exact detectBase_consumes (body s)

theorem strtol_consumes (hb : base ≠ 0) (s : List UInt8) :
    Consumes base (body s) (strtol s base).2 := by
  rw [strtol_eq hb]
  exact consumes_run fun c _ => rfl

end MoltOS.Strtol
