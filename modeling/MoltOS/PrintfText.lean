import MoltOS.Printf

/-! What a format says: the pieces it is made of, and the characters they stand for. A character
whose `OUT` also moves a pointer is marked, since it is lost for good only if there is room. -/
namespace MoltOS.Printf
open MoltOS.CInt MoltOS.CString MoltOS.Numeral

inductive Piece where
  | lit (c : UInt8)
  | percent
  | conv (d : Directive)

/- The pieces from a pointer on, without the first `skip` bytes; and whether the last
   conversion is cut off by the terminator. -/
def pieces : Nat → List UInt8 → List Piece × Bool
  | _, [] => ([], false)
  | skip + 1, _ :: fmt => pieces skip fmt
  | 0, c :: fmt =>
    if c = 0 then ([], false)
    else if c ≠ ch '%' then ((pieces 0 fmt).map (List.cons (.lit c)) id)
    else if fmt.head? = some 0 then ([], false)
    else if fmt.head? = some (ch '%') then ((pieces 1 fmt).map (List.cons .percent) id)
    else match directive fmt with
      | none => ([], true)
      | some (d, rest) =>
        if d.spec = 0 then ([], true)
        else (pieces (fmt.length - rest.length) fmt).map (List.cons (.conv d)) id

def Complete (fmt : CStr) : Prop := (pieces 0 fmt.mem).2 = false

structure Cell where
  byte : UInt8
  cursor : Bool
deriving DecidableEq

def Number.sign (n : Number) : List UInt8 := if n.neg then [ch '-'] else []

def Number.padding (n : Number) (ds : List UInt8) : Nat := (n.width - n.tlen ds).toNat

def Number.padded (n : Number) (ds : List UInt8) : List UInt8 :=
  if n.zeroPad then n.sign ++ (List.replicate (n.padding ds) (ch '0') ++ ds)
  else List.replicate (n.padding ds) (ch ' ') ++ (n.sign ++ ds)

def Number.text (n : Number) (val : Nat) : List UInt8 := n.padded (numeral n.upper n.base val)

/- The characters of a piece and the arguments left after it. `none` is a missing or
   mistyped argument; `%c` takes its argument only if there is room. -/
def Piece.cells (room : Bool) : Piece → List Arg → Option (List Cell × List Arg)
  | .lit c, ap => some ([⟨c, true⟩], ap)
  | .percent, ap => some ([⟨ch '%', false⟩], ap)
  | .conv d, ap =>
    if d.spec = ch 'c' then
      if room then (vaInt ap).map fun (v, ap) => ([⟨v.toNat.toUInt8, false⟩], ap) else some ([], ap)
    else if d.spec = ch 's' then
      (vaStr ap).map fun (s, ap) => (s.map fun c => ⟨c, true⟩, ap)
    else if isNumber d.spec then
      (number d ap).map fun (n, val, ap) => ((n.text val).map fun c => ⟨c, false⟩, ap)
    else some ([], ap)

def render (room : Nat → Bool) : Nat → List Piece → List Arg → Option (List Cell)
  | _, [], _ => some []
  | o, p :: ps, ap => do
    let (cs, ap) ← p.cells (room o) ap
    let rest ← render room (o + cs.length) ps ap
    some (cs ++ rest)

/- The text for an unlimited buffer; `none` if the arguments do not match the format. -/
def unlimited (fmt : CStr) (ap : List Arg) : Option (List Cell) :=
  render (fun _ => true) 0 (pieces 0 fmt.mem).1 ap

def limited (maxlen : Nat) (fmt : CStr) (ap : List Arg) : Option (List Cell) :=
  render (fun o => o + 1 < maxlen) 0 (pieces 0 fmt.mem).1 ap

def Fits (maxlen o : Nat) (cells : List Cell) : Prop :=
  ∀ i c, cells[i]? = some c → c.cursor → o + i + 1 < maxlen

section Format
variable {fmt rest : List UInt8} {d : Directive}

theorem accept_terminated {c : UInt8} (hc : c ≠ 0) (h : Terminated fmt) :
    ∃ b p, accept c fmt = some (b, p) ∧ Terminated p ∧ p <:+ fmt := by
  cases fmt with
  | nil => exact absurd h id
  | cons e fmt =>
    by_cases he : e = c
    · exact ⟨true, fmt, by rw [accept, if_pos he], h.next (he ▸ hc), List.suffix_cons e fmt⟩
    · exact ⟨false, e :: fmt, by rw [accept, if_neg he], h, List.suffix_refl _⟩

theorem readDigits_terminated (n : Int) (h : Terminated fmt) :
    ∃ m p, readDigits n fmt = some (m, p) ∧ Terminated p ∧ p <:+ fmt := by
  induction fmt generalizing n with
  | nil => exact absurd h id
  | cons e fmt ih =>
    unfold readDigits
    split
    next hd =>
      have he : e ≠ 0 := by
        rintro rfl
        exact absurd hd.1 (by decide)
      obtain ⟨m, p, hread, hp, hsuf⟩ := ih (wrap 32 (n * 10 + (e.toNat - 48))) (h.next he)
      exact ⟨m, p, hread, hp, hsuf.trans (List.suffix_cons e fmt)⟩
    next => exact ⟨n, e :: fmt, rfl, h, List.suffix_refl _⟩

theorem precision_terminated (h : Terminated fmt) :
    ∃ m p, precision fmt = some (m, p) ∧ Terminated p ∧ p <:+ fmt := by
  obtain ⟨dot, p, hacc, hp, hsuf⟩ := accept_terminated (c := ch '.') (by decide) h
  unfold precision
  rw [hacc]
  cases dot with
  | false => exact ⟨none, p, rfl, hp, hsuf⟩
  | true =>
    obtain ⟨m, q, hread, hq, hsuf'⟩ := readDigits_terminated 0 hp
    exact ⟨some m, q, by simp [hread], hq, hsuf'.trans hsuf⟩

theorem longModifier_terminated (h : Terminated fmt) :
    ∃ b p, longModifier fmt = some (b, p) ∧ Terminated p ∧ p <:+ fmt := by
  obtain ⟨l, p, hacc, hp, hsuf⟩ := accept_terminated (c := ch 'l') (by decide) h
  unfold longModifier
  rw [hacc]
  cases l with
  | false => exact ⟨false, p, rfl, hp, hsuf⟩
  | true =>
    obtain ⟨l', q, hacc', hq, hsuf'⟩ := accept_terminated (c := ch 'l') (by decide) hp
    exact ⟨true, q, by simp only [Option.bind_some, if_true, hacc']; rfl, hq, hsuf'.trans hsuf⟩

/-- Before the terminator a conversion can always be read; only its character may be the
terminator itself, and then the pointer is past it. -/
theorem directive_terminated (h : Terminated fmt) :
    ∃ d rest, directive fmt = some (d, rest) ∧ rest <:+ fmt ∧ rest.length < fmt.length ∧
      (d.spec = 0 → rest = []) ∧ (d.spec ≠ 0 → Terminated rest) := by
  obtain ⟨b, p₁, e₁, t₁, s₁⟩ := accept_terminated (c := ch '-') (by decide) h
  obtain ⟨z, p₂, e₂, t₂, s₂⟩ := accept_terminated (c := ch '0') (by decide) t₁
  obtain ⟨w, p₃, e₃, t₃, s₃⟩ := readDigits_terminated 0 t₂
  obtain ⟨prec, p₄, e₄, t₄, s₄⟩ := precision_terminated t₃
  obtain ⟨l, p₅, e₅, t₅, s₅⟩ := longModifier_terminated t₄
  have hsuf : p₅ <:+ fmt := s₅.trans (s₄.trans (s₃.trans (s₂.trans s₁)))
  cases p₅ with
  | nil => exact absurd t₅ id
  | cons c rest =>
    have hd : directive fmt =
        some (⟨(widen z w prec).1, (widen z w prec).2, l, c⟩, rest) := by
      simp only [directive, Option.bind_eq_bind, e₁, e₂, e₃, e₄, e₅, Option.bind_some]
      rfl
    refine ⟨_, rest, hd, (List.suffix_cons c rest).trans hsuf, Nat.lt_of_succ_le hsuf.length_le,
      fun hc => ?_, t₅.next⟩
    exact Terminated.nul ((show c = 0 from hc) ▸ t₅)

theorem pieces_skip (k : Nat) (fmt : List UInt8) : pieces k fmt = pieces 0 (fmt.drop k) := by
  induction fmt generalizing k with
  | nil => cases k <;> rfl
  | cons c fmt ih =>
    cases k with
    | zero => rfl
    | succ k => exact ih k

theorem pieces_lit {c : UInt8} (h0 : c ≠ 0) (hp : c ≠ ch '%') :
    pieces 0 (c :: fmt) = (pieces 0 fmt).map (List.cons (.lit c)) id := by
  rw [pieces, if_neg h0, if_pos hp]

theorem pieces_lone (rest : List UInt8) : pieces 0 (ch '%' :: 0 :: rest) = ([], false) := rfl

theorem pieces_percent (rest : List UInt8) : pieces 0 (ch '%' :: ch '%' :: rest) =
    (pieces 0 rest).map (List.cons .percent) id := by
  rw [pieces, if_neg (by decide), if_neg (by decide), if_neg (by simp), if_pos List.head?_cons,
    pieces_skip]
  rfl

theorem pieces_conv {c : UInt8} (h0 : c ≠ 0) (hp : c ≠ ch '%')
    (hd : directive (c :: fmt) = some (d, rest)) (hsuf : rest <:+ c :: fmt) (hs : d.spec ≠ 0) :
    pieces 0 (ch '%' :: c :: fmt) = (pieces 0 rest).map (List.cons (.conv d)) id := by
  have hfmt : (c :: fmt).drop ((c :: fmt).length - rest.length) = rest :=
    (List.suffix_iff_eq_drop.mp hsuf).symm
  rw [pieces, if_neg (by decide), if_neg (by decide), if_neg (by simpa using h0),
    if_neg (by simpa using hp), hd]
  simp only [if_neg hs]
  rw [pieces_skip, hfmt]

theorem pieces_cut {c : UInt8} (h0 : c ≠ 0) (hp : c ≠ ch '%')
    (hd : directive (c :: fmt) = some (d, rest)) (hs : d.spec = 0) :
    pieces 0 (ch '%' :: c :: fmt) = ([], true) := by
  rw [pieces, if_neg (by decide), if_neg (by decide), if_neg (by simpa using h0),
    if_neg (by simpa using hp), hd]
  simp only [if_pos hs]

end Format

section Room
variable {maxlen o : Nat} {cells : List Cell}

theorem fits_nil : Fits maxlen o [] := fun i c h => by simp at h

theorem fits_cons {c : Cell} :
    Fits maxlen o (c :: cells) ↔ (c.cursor → o + 1 < maxlen) ∧ Fits maxlen (o + 1) cells := by
  constructor
  · intro h
    refine ⟨h 0 c rfl, fun i e hi he => ?_⟩
    have := h (i + 1) e hi he
    omega
  · rintro ⟨hc, h⟩ i e hi he
    cases i with
    | zero =>
      cases hi
      exact hc he
    | succ i =>
      have := h i e hi he
      omega

theorem fits_append {xs ys : List Cell} :
    Fits maxlen o (xs ++ ys) ↔ Fits maxlen o xs ∧ Fits maxlen (o + xs.length) ys := by
  induction xs generalizing o with
  | nil => simp [fits_nil]
  | cons x xs ih =>
    rw [List.cons_append, fits_cons, fits_cons, ih, and_assoc, List.length_cons, Nat.add_assoc,
      Nat.add_comm 1]

/-- Text that leaves the last byte free finds room for every character. -/
theorem fits_of_length (h : o + cells.length < maxlen) : Fits maxlen o cells := by
  intro i c hi _
  obtain ⟨hlt, -⟩ := List.getElem?_eq_some_iff.mp hi
  omega

theorem fits_free {l : List UInt8} : Fits maxlen o (l.map fun c => ⟨c, false⟩) := by
  intro i c hi hc
  obtain ⟨b, -, rfl⟩ := List.mem_map.mp (List.mem_of_getElem? hi)
  cases hc

theorem Piece.cells_room {p : Piece} {ap ap' : List Arg} {cs : List Cell}
    (h : p.cells true ap = some (cs, ap')) (hlen : o + cs.length < maxlen) :
    p.cells (o + 1 < maxlen) ap = some (cs, ap') := by
  cases p with
  | lit c => exact h
  | percent => exact h
  | conv d =>
    by_cases hc : d.spec = ch 'c'
    · simp only [Piece.cells, if_pos hc, if_true] at h ⊢
      obtain ⟨⟨v, ap''⟩, hv, heq⟩ := Option.map_eq_some_iff.mp h
      cases heq
      have hroom : o + 1 < maxlen := hlen
      rw [if_pos (decide_eq_true hroom), hv]
      rfl
    · simp only [Piece.cells, if_neg hc] at h ⊢
      exact h

/-- Where the text fits, the buffer's limit does not show. -/
theorem render_room {ps : List Piece} {ap : List Arg}
    (h : render (fun _ => true) o ps ap = some cells) (hlen : o + cells.length < maxlen) :
    render (fun o => o + 1 < maxlen) o ps ap = some cells := by
  induction ps generalizing o ap cells with
  | nil => exact h
  | cons p ps ih =>
    simp only [render, Option.bind_eq_bind, Option.bind_eq_some_iff] at h ⊢
    obtain ⟨⟨cs, ap'⟩, hp, rest, hrest, heq⟩ := h
    cases heq
    simp only [List.length_append] at hlen
    have hrest' := ih hrest (show o + cs.length + rest.length < maxlen by omega)
    exact ⟨_, Piece.cells_room hp (by omega), rest, hrest', rfl⟩

end Room
end MoltOS.Printf
