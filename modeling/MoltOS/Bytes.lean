import MoltOS.Rust

/-! Slices of bytes as Rust indexes them, little-endian numbers, and `str` as bytes that
are valid UTF-8. -/
namespace MoltOS.Rust
variable {α : Type}

/- `&l[a..]`, `&l[..b]` and `&l[a..b]`. -/
def sliceFrom (l : List α) (a : Nat) : Except Panic (List α) :=
  if a ≤ l.length then .ok (l.drop a) else .error .indexOutOfBounds

def sliceTo (l : List α) (b : Nat) : Except Panic (List α) :=
  if b ≤ l.length then .ok (l.take b) else .error .indexOutOfBounds

def slice (l : List α) (a b : Nat) : Except Panic (List α) :=
  if a ≤ b ∧ b ≤ l.length then .ok ((l.drop a).take (b - a)) else .error .indexOutOfBounds

theorem slice_append (pre mid post : List α) :
    slice (pre ++ (mid ++ post)) pre.length (pre.length + mid.length) = .ok mid := by
  unfold slice
  rw [if_pos ⟨Nat.le_add_right _ _, by simp⟩]
  simp

def toLeBytes : Nat → Nat → List UInt8
  | 0, _ => []
  | k + 1, n => UInt8.ofNat n :: toLeBytes k (n / 256)

def fromLeBytes : List UInt8 → Nat
  | [] => 0
  | b :: bs => b.toNat + 256 * fromLeBytes bs

@[simp] theorem toLeBytes_length (k n : Nat) : (toLeBytes k n).length = k := by
  induction k generalizing n with
  | zero => rfl
  | succ k ih => simp [toLeBytes, ih]

theorem fromLeBytes_toLeBytes (k n : Nat) (h : n < 256 ^ k) : fromLeBytes (toLeBytes k n) = n := by
  induction k generalizing n with
  | zero =>
    have hn : n = 0 := by simpa using h
    simp [hn, toLeBytes, fromLeBytes]
  | succ k ih =>
    have hdiv : n / 256 < 256 ^ k := by
      rw [Nat.div_lt_iff_lt_mul (by decide)]
      rwa [Nat.pow_succ] at h
    rw [toLeBytes, fromLeBytes, ih _ hdiv, UInt8.toNat_ofNat']
    omega

theorem fromLeBytes_lt (l : List UInt8) : fromLeBytes l < 256 ^ l.length := by
  induction l with
  | nil => simp [fromLeBytes]
  | cons b bs ih =>
    have hb := b.toNat_lt
    rw [fromLeBytes, List.length_cons, Nat.pow_succ]
    omega

def isContinuation (b : UInt8) : Bool := 0x80 ≤ b && b ≤ 0xBF

/- The well-formed second bytes after the first byte of a three-byte and of a four-byte
   sequence. -/
def secondOfThree (a b : UInt8) : Bool :=
  if a = 0xE0 then 0xA0 ≤ b && b ≤ 0xBF
  else if a = 0xED then 0x80 ≤ b && b ≤ 0x9F
  else isContinuation b

def secondOfFour (a b : UInt8) : Bool :=
  if a = 0xF0 then 0x90 ≤ b && b ≤ 0xBF
  else if a = 0xF4 then 0x80 ≤ b && b ≤ 0x8F
  else isContinuation b

def validUtf8 : List UInt8 → Bool
  | [] => true
  | a :: rest =>
    if a < 0x80 then validUtf8 rest
    else if 0xC2 ≤ a && a ≤ 0xDF then
      match rest with
      | b :: rest => isContinuation b && validUtf8 rest
      | _ => false
    else if 0xE0 ≤ a && a ≤ 0xEF then
      match rest with
      | b :: c :: rest => secondOfThree a b && isContinuation c && validUtf8 rest
      | _ => false
    else if 0xF0 ≤ a && a ≤ 0xF4 then
      match rest with
      | b :: c :: d :: rest =>
        secondOfFour a b && isContinuation c && isContinuation d && validUtf8 rest
      | _ => false
    else false

structure Str where
  bytes : List UInt8
  valid : validUtf8 bytes = true

def Str.fromUtf8 (l : List UInt8) : Option Str :=
  if h : validUtf8 l = true then some ⟨l, h⟩ else none

theorem validUtf8_of_ascii (l : List UInt8) (h : ∀ b ∈ l, b < 0x80) : validUtf8 l = true := by
  induction l with
  | nil => rfl
  | cons a rest ih =>
    unfold validUtf8
    rw [if_pos (h a (by simp))]
    exact ih fun b hb => h b (by simp [hb])

theorem isContinuation_ascii {c : UInt8} (hc : c < 0x80) : isContinuation c = false := by
  unfold isContinuation
  grind

theorem validUtf8_ascii_cons {a : UInt8} (ha : a < 0x80) (l : List UInt8) :
    validUtf8 (a :: l) = validUtf8 l := by
  conv_lhs => unfold validUtf8
  rw [if_pos ha]

/-- An ASCII byte at the end belongs to no longer sequence. -/
theorem validUtf8_snoc_ascii (l : List UInt8) {c : UInt8} (hc : c < 0x80) :
    validUtf8 (l ++ [c]) = validUtf8 l := by
  have hcont := isContinuation_ascii hc
  fun_induction validUtf8 l with
  | case1 => exact validUtf8_ascii_cons hc []
  | case2 a rest ha ih => rw [List.cons_append, validUtf8_ascii_cons ha, ih]
  | case3 a ha h2 b rest ih => simp [validUtf8, ha, h2, ih]
  | case4 a rest ha h2 hno =>
    cases rest with
    | nil => simp [validUtf8, ha, h2, hcont]
    | cons b rest => exact absurd rfl (hno b rest)
  | case5 a ha h2 h3 b c' rest ih => simp [validUtf8, ha, h2, h3, ih]
  | case6 a rest ha h2 h3 hno =>
    rcases rest with _ | ⟨b, _ | ⟨c', rest⟩⟩
    · simp [validUtf8, ha, h2, h3]
    · simp [validUtf8, ha, h2, h3, hcont]
    · exact absurd rfl (hno b c' rest)
  | case7 a ha h2 h3 h4 b c' d rest ih => simp [validUtf8, ha, h2, h3, h4, ih]
  | case8 a rest ha h2 h3 h4 hno =>
    rcases rest with _ | ⟨b, _ | ⟨c', _ | ⟨d, rest⟩⟩⟩
    · simp [validUtf8, ha, h2, h3, h4]
    · simp [validUtf8, ha, h2, h3, h4]
    · simp [validUtf8, ha, h2, h3, h4, hcont]
    · exact absurd rfl (hno b c' d rest)
  | case9 a rest ha h2 h3 h4 =>
    rw [List.cons_append]
    unfold validUtf8
    rw [if_neg ha, if_neg h2, if_neg h3, if_neg h4]

def toAsciiLowercase (b : UInt8) : UInt8 := if 65 ≤ b ∧ b ≤ 90 then b + 32 else b

def eqIgnoreAsciiCase : List UInt8 → List UInt8 → Bool
  | [], [] => true
  | a :: as, b :: bs => toAsciiLowercase a == toAsciiLowercase b && eqIgnoreAsciiCase as bs
  | _, _ => false

end MoltOS.Rust
