import MoltOS.PrintfBuffer

/-! Printing one integer: the formats `%Nd`, `%0Nld`, `%Nlx` and `%.Nd` with any width or
precision, and the text they put out. -/
namespace MoltOS.Printf
open MoltOS.CInt MoltOS.CString MoltOS.Numeral MoltOS.Machine

def Prints (maxlen : Nat) (fmt : CStr) (ap : List Arg) (txt : List UInt8) : Prop :=
  ∃ t r, t ∈ fmtVsnprintf maxlen fmt ap ∧ t.ctl = .ret r ∧ Holds t.buf txt

theorem Holds.length_le {buf : Nat → Option UInt8} {xs ys : List UInt8} (hx : Holds buf xs)
    (hy : Holds buf ys) (h0 : ∀ c ∈ ys, c ≠ 0) : ys.length ≤ xs.length := by
  by_contra hlt
  have hget : ys[xs.length]? = some ys[xs.length] := List.getElem?_eq_getElem (by omega)
  have hnul := (hy.1 _ _ hget).symm.trans hx.2
  exact h0 _ (List.getElem_mem _) (Option.some.inj hnul)

/-- A buffer holds one string without a NUL. -/
theorem Holds.unique {buf : Nat → Option UInt8} {xs ys : List UInt8} (hx : Holds buf xs)
    (hy : Holds buf ys) (hx0 : ∀ c ∈ xs, c ≠ 0) (hy0 : ∀ c ∈ ys, c ≠ 0) : xs = ys := by
  have hlen : xs.length = ys.length := (hy.length_le hx hx0).antisymm (hx.length_le hy hy0)
  refine List.ext_getElem hlen fun i hi hi' => ?_
  have hxi := hx.1 i _ (List.getElem?_eq_getElem hi)
  have hyi := hy.1 i _ (List.getElem?_eq_getElem hi')
  exact Option.some.inj (hxi.symm.trans hyi)

theorem Prints.unique {maxlen : Nat} {fmt : CStr} {ap : List Arg} {xs ys : List UInt8}
    (hx : Prints maxlen fmt ap xs) (hy : Prints maxlen fmt ap ys) (hx0 : ∀ c ∈ xs, c ≠ 0)
    (hy0 : ∀ c ∈ ys, c ≠ 0) : xs = ys := by
  obtain ⟨t, r, ht, -, hholds⟩ := hx
  obtain ⟨t', r', ht', -, hholds'⟩ := hy
  rw [Part.mem_unique ht' ht] at hholds'
  exact hholds.unique hholds' hx0 hy0

section Spelling

theorem decimal_digit {c : UInt8} (h : isDigit 10 c = true) :
    (ch '0' ≤ c ∧ c ≤ ch '9') ∧ digitVal c = some (c.toNat - 48) ∧ 48 ≤ c.toNat := by
  have hall : ∀ c : UInt8, isDigit 10 c = true →
      (ch '0' ≤ c ∧ c ≤ ch '9') ∧ digitVal c = some (c.toNat - 48) ∧ 48 ≤ c.toNat := by
    rintro ⟨f⟩
    revert f
    decide +kernel
  exact hall c h

theorem readDigits_append {ds : List UInt8} (hd : ∀ c ∈ ds, isDigit 10 c = true) (n : Nat)
    {c : UInt8} (hc : ¬ (ch '0' ≤ c ∧ c ≤ ch '9')) (rest : List UInt8) :
    readDigits (wrap 32 n) (ds ++ c :: rest) = some (wrap 32 (value 10 n ds), c :: rest) := by
  induction ds generalizing n with
  | nil => exact if_neg hc
  | cons e ds ih =>
    obtain ⟨hrange, hval, hlow⟩ := decimal_digit (hd e List.mem_cons_self)
    have hvalue : value 10 n (e :: ds) = value 10 (n * 10 + (e.toNat - 48)) ds := by
      simp only [value, List.foldl_cons, hval, Option.getD_some]
    have hcast : ((n * 10 + (e.toNat - 48) : Nat) : Int) = n * 10 + (e.toNat - 48) := by
      omega
    rw [List.cons_append, readDigits, if_pos hrange, wrap_mul_add, hvalue, ← hcast]
    exact ih (fun f hf => hd f (List.mem_cons_of_mem _ hf)) _

theorem readDigits_zero {ds : List UInt8} (hd : ∀ c ∈ ds, isDigit 10 c = true)
    {c : UInt8} (hc : ¬ (ch '0' ≤ c ∧ c ≤ ch '9')) (rest : List UInt8) :
    readDigits 0 (ds ++ c :: rest) = some (wrap 32 (value 10 0 ds), c :: rest) := by
  have h := readDigits_append hd 0 hc rest
  rwa [Nat.cast_zero, wrap_zero] at h

theorem accept_ne {c e : UInt8} (h : e ≠ c) (rest : List UInt8) :
    accept c (e :: rest) = some (false, e :: rest) := by rw [accept, if_neg h]

theorem accept_self (c : UInt8) (rest : List UInt8) : accept c (c :: rest) = some (true, rest) := by
  rw [accept, if_pos rfl]

theorem accept_minus {ds : List UInt8} (hd : ∀ c ∈ ds, isDigit 10 c = true) {c : UInt8}
    (hc : c ≠ ch '-') (rest : List UInt8) :
    accept (ch '-') (ds ++ c :: rest) = some (false, ds ++ c :: rest) := by
  cases ds with
  | nil => exact accept_ne hc rest
  | cons e ds =>
    refine accept_ne ?_ _
    rintro rfl
    exact absurd (hd _ List.mem_cons_self) (by decide)

/-- Flag and width together: a leading zero is the flag and does not change the width. -/
theorem flag_width {ds : List UInt8} (hd : ∀ c ∈ ds, isDigit 10 c = true) {c : UInt8}
    (hc : ¬ (ch '0' ≤ c ∧ c ≤ ch '9')) (rest : List UInt8) :
    ∃ p, accept (ch '0') (ds ++ c :: rest) = some (decide (ds.head? = some 48), p) ∧
      readDigits 0 p = some (wrap 32 (value 10 0 ds), c :: rest) := by
  cases ds with
  | nil =>
    refine ⟨c :: rest, accept_ne ?_ rest, readDigits_zero hd hc rest⟩
    rintro rfl
    exact hc (by decide)
  | cons e ds =>
    by_cases he : e = 48
    · subst he
      refine ⟨ds ++ c :: rest, accept_self _ _, ?_⟩
      have hvalue : value 10 0 (48 :: ds) = value 10 0 ds := value_zeros 1 ds
      rw [hvalue]
      exact readDigits_zero (fun f hf => hd f (List.mem_cons_of_mem _ hf)) hc rest
    · refine ⟨e :: ds ++ c :: rest, ?_, readDigits_zero hd hc rest⟩
      have hhead : ¬ (e :: ds).head? = some 48 := by simpa using he
      rw [decide_eq_false hhead]
      exact accept_ne he _

def IntSpec (spec : UInt8) : Prop := spec = ch 'd' ∨ spec = ch 'x' ∨ spec = ch 'X'

def ending (long : Bool) (spec : UInt8) : List UInt8 := (if long then [ch 'l'] else []) ++ [spec]

theorem directive_width {ds : List UInt8} (hd : ∀ c ∈ ds, isDigit 10 c = true) (long : Bool)
    {spec : UInt8} (hs : IntSpec spec) : directive (ds ++ (ending long spec ++ [0])) =
      some (⟨decide (ds.head? = some 48), wrap 32 (value 10 0 ds), long, spec⟩, [0]) := by
  obtain ⟨c, rest, hend, hdigit, hminus, hprec, hlong⟩ : ∃ c rest,
      ending long spec ++ [0] = c :: rest ∧ ¬ (ch '0' ≤ c ∧ c ≤ ch '9') ∧ c ≠ ch '-' ∧
      precision (c :: rest) = some (none, c :: rest) ∧
      longModifier (c :: rest) = some (long, [spec, 0]) := by
    cases long <;> obtain rfl | rfl | rfl := hs <;>
      exact ⟨_, _, rfl, by decide, by decide, rfl, rfl⟩
  obtain ⟨p, hflag, hwidth⟩ := flag_width hd hdigit rest
  rw [hend]
  simp only [directive, Option.bind_eq_bind, accept_minus hd hminus, hflag, hwidth, hprec, hlong,
    Option.bind_some, widen, List.head?_cons, List.tail_cons]

/-- A dot and digits: with a positive precision it is the width, padded with zeros. -/
theorem directive_prec {ds : List UInt8} (hd : ∀ c ∈ ds, isDigit 10 c = true) :
    directive (ch '.' :: (ds ++ [ch 'd', 0])) =
      some (⟨decide (0 < wrap 32 (value 10 0 ds)), max 0 (wrap 32 (value 10 0 ds)), false, ch 'd'⟩,
        [0]) := by
  have hprec : precision (ch '.' :: (ds ++ [ch 'd', 0])) =
      some (some (wrap 32 (value 10 0 ds)), [ch 'd', 0]) := by
    have hread := readDigits_zero hd (c := ch 'd') (by decide) [0]
    simp only [precision, accept_self, Option.bind_some, if_true, hread, Option.map_some,
      Prod.map_apply, id_eq]
  have hwiden : widen false 0 (some (wrap 32 (value 10 0 ds))) =
      (decide (0 < wrap 32 (value 10 0 ds)), max 0 (wrap 32 (value 10 0 ds))) := by
    rw [widen]
    split
    next h => rw [decide_eq_true h, max_eq_right (le_of_lt h)]
    next h => rw [decide_eq_false h, max_eq_left (not_lt.mp h)]
  have hminus : accept (ch '-') (ch '.' :: (ds ++ [ch 'd', 0])) =
      some (false, ch '.' :: (ds ++ [ch 'd', 0])) := accept_ne (by decide) _
  have hzero : accept (ch '0') (ch '.' :: (ds ++ [ch 'd', 0])) =
      some (false, ch '.' :: (ds ++ [ch 'd', 0])) := accept_ne (by decide) _
  have hwidth : readDigits 0 (ch '.' :: (ds ++ [ch 'd', 0])) =
      some (0, ch '.' :: (ds ++ [ch 'd', 0])) := if_neg (by decide)
  have hlong : longModifier [ch 'd', 0] = some (false, [ch 'd', 0]) := rfl
  simp only [directive, Option.bind_eq_bind, hminus, hzero, hwidth, hprec, hwiden, hlong,
    Option.bind_some, List.head?_cons, List.tail_cons]

end Spelling

section Formats

theorem isDigit_ne_zero {c : UInt8} (h : isDigit 10 c = true) : c ≠ 0 := by
  rintro rfl
  exact absurd h (by decide)

theorem mem_flag {flag : Bool} {c e : UInt8} (h : c ∈ if flag then [e] else []) : c = e := by
  cases flag with
  | true => exact List.mem_singleton.mp h
  | false => cases h

theorem numeral_digits (n : Nat) : ∀ c ∈ numeral false 10 n, isDigit 10 c = true :=
  fun _ hc => isDigit_of_mem_numeral (by decide) (by decide) hc

def widthDigits (zero : Bool) (width : Nat) : List UInt8 :=
  (if zero then [ch '0'] else []) ++ if width = 0 then [] else numeral false 10 width

theorem widthDigits_digits (zero : Bool) (width : Nat) :
    ∀ c ∈ widthDigits zero width, isDigit 10 c = true := by
  intro c hc
  obtain hc | hc := List.mem_append.mp hc
  · rw [mem_flag hc]
    decide
  · split at hc
    · cases hc
    · exact numeral_digits width c hc

theorem value_widthDigits (zero : Bool) (width : Nat) :
    value 10 0 (widthDigits zero width) = width := by
  have hwidth : value 10 0 (if width = 0 then [] else numeral false 10 width) = width := by
    split
    next h => exact h.symm
    next => exact value_numeral (by decide) (by decide)
  cases zero with
  | true => exact (value_zeros 1 _).trans hwidth
  | false => exact hwidth

/-- The zero flag is read where it is written and nowhere else. -/
theorem head_widthDigits (zero : Bool) (width : Nat) :
    decide ((widthDigits zero width).head? = some 48) = zero := by
  cases zero with
  | true => rfl
  | false =>
    refine decide_eq_false ?_
    simp only [widthDigits, Bool.false_eq_true, if_false, List.nil_append]
    split
    next => exact Option.some_ne_none _ ∘ Eq.symm
    next h => exact head_numeral_ne (by decide) (by decide) h

theorem ending_ne (long : Bool) {spec : UInt8} (hs : IntSpec spec) :
    ∀ c ∈ ending long spec, c ≠ 0 ∧ c ≠ ch '%' := by
  have hspec : spec ≠ 0 ∧ spec ≠ ch '%' := by obtain rfl | rfl | rfl := hs <;> decide
  intro c hc
  obtain hc | hc := List.mem_append.mp hc
  · rw [mem_flag hc]
    decide
  · rwa [List.mem_singleton.mp hc]

theorem widthDigits_ending_ne (zero : Bool) (width : Nat) (long : Bool) {spec : UInt8}
    (hs : IntSpec spec) {c : UInt8} (hc : c ∈ widthDigits zero width ++ ending long spec) :
    c ≠ 0 ∧ c ≠ ch '%' := by
  obtain hc | hc := List.mem_append.mp hc
  · have hdigit := widthDigits_digits zero width c hc
    refine ⟨isDigit_ne_zero hdigit, ?_⟩
    rintro rfl
    exact absurd hdigit (by decide)
  · exact ending_ne long hs c hc

/- `%`, an optional `0`, the width, an optional `l` and the conversion -/
def intFmt (zero : Bool) (width : Nat) (long : Bool) (spec : UInt8) (hs : IntSpec spec) : CStr where
  bytes := ch '%' :: (widthDigits zero width ++ ending long spec)
  noNul c hc := by
    obtain rfl | hc := List.mem_cons.mp hc
    · decide
    · exact (widthDigits_ending_ne zero width long hs hc).1

def precFmt (prec : Nat) : CStr where
  bytes := ch '%' :: ch '.' :: (numeral false 10 prec ++ [ch 'd'])
  noNul c hc := by
    obtain rfl | hc := List.mem_cons.mp hc
    · decide
    obtain rfl | hc := List.mem_cons.mp hc
    · decide
    obtain hc | hc := List.mem_append.mp hc
    · exact isDigit_ne_zero (numeral_digits prec c hc)
    · rw [List.mem_singleton.mp hc]
      decide

/-- A format that is one number conversion puts out the text of that number. -/
theorem unlimited_number {fmt : CStr} {rest : List UInt8} {c : UInt8} {d : Directive}
    {ap ap' : List Arg} {n : Number} {val : Nat} (hmem : fmt.mem = ch '%' :: c :: rest)
    (h0 : c ≠ 0) (hp : c ≠ ch '%') (hd : directive (c :: rest) = some (d, [0]))
    (hs : IntSpec d.spec) (hsuf : [0] <:+ c :: rest) (hn : number d ap = some (n, val, ap')) :
    Complete fmt ∧ unlimited fmt ap = some ((n.text val).map fun c => ⟨c, false⟩) := by
  have hspec : d.spec ≠ 0 ∧ d.spec ≠ ch 'c' ∧ d.spec ≠ ch 's' ∧ isNumber d.spec = true := by
    obtain h | h | h := hs <;> rw [h] <;> decide
  have hpieces : pieces 0 fmt.mem = ([.conv d], false) := by
    rw [hmem, pieces_conv h0 hp hd hsuf hspec.1]
    rfl
  have hcells : (Piece.conv d).cells true ap =
      some ((n.text val).map (fun c => ⟨c, false⟩), ap') := by
    simp only [Piece.cells, if_neg hspec.2.1, if_neg hspec.2.2.1, if_pos hspec.2.2.2, hn,
      Option.map_some]
  refine ⟨congrArg Prod.snd hpieces, ?_⟩
  rw [unlimited, hpieces]
  simp only [render, hcells, Option.bind_eq_bind, Option.bind_some, List.append_nil]

theorem prints_number {fmt : CStr} {rest : List UInt8} {c : UInt8} {d : Directive}
    {ap ap' : List Arg} {n : Number} {val maxlen : Nat} (hmem : fmt.mem = ch '%' :: c :: rest)
    (h0 : c ≠ 0) (hp : c ≠ ch '%') (hd : directive (c :: rest) = some (d, [0]))
    (hs : IntSpec d.spec) (hsuf : [0] <:+ c :: rest) (hn : number d ap = some (n, val, ap'))
    (hlen : (n.text val).length < maxlen) : Prints maxlen fmt ap (n.text val) := by
  obtain ⟨hcomplete, htext⟩ := unlimited_number hmem h0 hp hd hs hsuf hn
  obtain ⟨t, ht, hret, -, hholds⟩ := writes_text hcomplete htext (by rwa [List.length_map])
  rw [map_byte] at hholds
  refine ⟨t, _, StateTransition.mem_eval.mpr ⟨ht, ?_⟩, hret, hholds⟩
  simp only [step, hret]

theorem intFmt_prints (zero : Bool) (width : Nat) (long : Bool) {spec : UInt8} (hs : IntSpec spec)
    {ap ap' : List Arg} {n : Number} {val maxlen : Nat}
    (hn : number ⟨zero, wrap 32 width, long, spec⟩ ap = some (n, val, ap'))
    (hlen : (n.text val).length < maxlen) :
    Prints maxlen (intFmt zero width long spec hs) ap (n.text val) := by
  have hdir := directive_width (widthDigits_digits zero width) long hs
  rw [value_widthDigits, head_widthDigits, ← List.append_assoc] at hdir
  have hmem : (intFmt zero width long spec hs).mem =
      ch '%' :: (widthDigits zero width ++ ending long spec ++ [0]) := rfl
  obtain ⟨c, rest, hcons⟩ : ∃ c rest, widthDigits zero width ++ ending long spec = c :: rest :=
    List.exists_cons_of_ne_nil (by simp [ending])
  obtain ⟨h0, hp⟩ := widthDigits_ending_ne zero width long hs (hcons ▸ List.mem_cons_self)
  rw [hcons] at hmem hdir
  exact prints_number hmem h0 hp hdir hs (List.suffix_append (c :: rest) _) hn hlen

theorem precFmt_prints (prec : Nat) {ap ap' : List Arg} {n : Number} {val maxlen : Nat}
    (hn : number ⟨decide (0 < wrap 32 prec), max 0 (wrap 32 prec), false, ch 'd'⟩ ap =
      some (n, val, ap')) (hlen : (n.text val).length < maxlen) :
    Prints maxlen (precFmt prec) ap (n.text val) := by
  have hdir := directive_prec (numeral_digits prec)
  rw [value_numeral (by decide) (by decide)] at hdir
  have hmem : (precFmt prec).mem = ch '%' :: ch '.' :: (numeral false 10 prec ++ [ch 'd', 0]) := by
    simp [CStr.mem, precFmt]
  refine prints_number hmem (by decide) (by decide) hdir (.inl rfl) ?_ hn hlen
  have hsuf : [0] <:+ (ch '.' :: numeral false 10 prec ++ [ch 'd']) ++ [0] := List.suffix_append _ _
  simpa using hsuf

end Formats

section Values

theorem number_int {d : Directive} (hl : d.isLong = false) (hs : d.spec = ch 'd') (v : BitVec 32) :
    number d [.int v] = some (d.number (v.toInt < 0), v.toInt.natAbs, []) := by
  have hlow : -2 ^ 63 ≤ v.toInt := le_trans (by decide) (BitVec.le_toInt v)
  have hhigh : v.toInt < 2 ^ 63 := lt_trans BitVec.toInt_lt (by decide)
  have hva : vaSigned d.isLong [.int v] = some (v.toInt, []) := by rw [hl]; rfl
  rw [number, if_pos (by rw [hs]; rfl), hva, Option.map_some]
  simp only [magnitude_eq hlow hhigh]

theorem number_long {d : Directive} (hl : d.isLong = true) (hs : d.spec = ch 'd') (v : BitVec 64) :
    number d [.long v] = some (d.number (v.toInt < 0), v.toInt.natAbs, []) := by
  have hva : vaSigned d.isLong [.long v] = some (v.toInt, []) := by rw [hl]; rfl
  rw [number, if_pos (by rw [hs]; rfl), hva, Option.map_some]
  simp only [magnitude_eq (BitVec.le_toInt v) BitVec.toInt_lt]

theorem number_hex {d : Directive} (hl : d.isLong = true) (hs : d.spec = ch 'x' ∨ d.spec = ch 'X')
    (v : BitVec 64) : number d [.long v] = some (d.number false, v.toNat, []) := by
  have hva : vaUnsigned d.isLong [.long v] = some (v.toNat, []) := by rw [hl]; rfl
  have hunsigned : isSigned d.spec = false := by
    obtain h | h := hs <;> rw [h] <;> rfl
  rw [number, if_neg (by rw [hunsigned]; decide), hva]
  rfl

/- Blanks, sign, zeros and digits, of which blanks and zeros are never both there. -/
def laid (blanks : Nat) (neg : Bool) (zeros : Nat) (ds : List UInt8) : List UInt8 :=
  List.replicate blanks (ch ' ') ++ ((if neg then [ch '-'] else []) ++
    (List.replicate zeros (ch '0') ++ ds))

theorem text_eq_laid (n : Number) (val : Nat) : n.text val =
    laid (if n.zeroPad then 0 else n.padding (numeral n.upper n.base val)) n.neg
      (if n.zeroPad then n.padding (numeral n.upper n.base val) else 0)
      (numeral n.upper n.base val) := by
  unfold Number.text Number.padded laid Number.sign
  cases n.zeroPad <;> simp

def decimalPad (width : Int) (neg : Bool) (n : Nat) : Nat :=
  (width - ((numeral false 10 n).length + if neg then 1 else 0)).toNat

theorem decimal_text (zero : Bool) (width : Int) (long neg : Bool) (n : Nat) :
    (Directive.number ⟨zero, width, long, ch 'd'⟩ neg).text n =
      laid (if zero then 0 else decimalPad width neg n) neg
        (if zero then decimalPad width neg n else 0) (numeral false 10 n) :=
  text_eq_laid _ n

theorem laid_ne_zero {blanks zeros : Nat} {neg : Bool} {ds : List UInt8} (hd : ∀ c ∈ ds, c ≠ 0) :
    ∀ c ∈ laid blanks neg zeros ds, c ≠ 0 := by
  intro c hc
  obtain hc | hc := List.mem_append.mp hc
  · rw [List.eq_of_mem_replicate hc]
    decide
  obtain hc | hc := List.mem_append.mp hc
  · rw [mem_flag hc]
    decide
  obtain hc | hc := List.mem_append.mp hc
  · rw [List.eq_of_mem_replicate hc]
    decide
  · exact hd c hc

theorem laid_length {blanks zeros : Nat} {neg : Bool} {ds : List UInt8} :
    (laid blanks neg zeros ds).length = blanks + (if neg then 1 else 0) + zeros + ds.length := by
  cases neg <;> simp [laid] <;> omega

end Values

section Precision

def atLeastDigits (prec : Nat) (v : Int) : List UInt8 :=
  laid 0 (v < 0) (prec - (numeral false 10 v.natAbs).length) (numeral false 10 v.natAbs)

/-- What the code prints counts the sign among the digits and wraps the precision. -/
theorem prec_text (prec : Nat) (v : Int) :
    (Directive.number ⟨decide (0 < wrap 32 prec), max 0 (wrap 32 prec), false, ch 'd'⟩
      (decide (v < 0))).text v.natAbs =
    laid 0 (v < 0) (decimalPad (wrap 32 prec) (v < 0) v.natAbs) (numeral false 10 v.natAbs) := by
  rw [decimal_text]
  by_cases hp : 0 < wrap 32 prec
  · simp only [decide_eq_true hp, if_true, max_eq_right hp.le]
  · have hzero : ∀ w ≤ 0, decimalPad w (v < 0) v.natAbs = 0 := by
      intro w hw
      unfold decimalPad
      split <;> omega
    simp only [decide_eq_false hp, Bool.false_eq_true, if_false, max_eq_left (not_lt.mp hp),
      hzero _ (not_lt.mp hp), hzero 0 le_rfl]

/-- The zeros the code puts in front are as many as the precision asks for. -/
theorem decimalPad_eq_iff (prec : Nat) (v : BitVec 32) :
    decimalPad (wrap 32 prec) (v.toInt < 0) v.toInt.natAbs =
        prec - (numeral false 10 v.toInt.natAbs).length ↔
      prec < 2 ^ 31 ∧ (0 ≤ v.toInt ∨ prec ≤ (numeral false 10 v.toInt.natAbs).length) := by
  have hlow := BitVec.le_toInt v
  have hhigh : v.toInt < 2 ^ 31 := BitVec.toInt_lt
  have hdigits : (numeral false 10 v.toInt.natAbs).length ≤ 10 :=
    numeral_length_le (by decide) (by decide) (by omega)
  have hpos : 0 < (numeral false 10 v.toInt.natAbs).length :=
    List.length_pos_of_ne_nil numeral_ne_nil
  have hlt : wrap 32 prec < 2 ^ 31 := wrap_lt prec
  unfold decimalPad
  simp only [decide_eq_true_eq]
  by_cases hint : prec < 2 ^ 31
  · rw [wrap32_of_lt hint]
    split <;> omega
  · split <;> omega

theorem precFmt_prints_code {prec maxlen : Nat} {v : BitVec 32}
    (hlen : (atLeastDigits prec v.toInt).length < maxlen) :
    Prints maxlen (precFmt prec) [.int v]
      (laid 0 (v.toInt < 0) (decimalPad (wrap 32 prec) (v.toInt < 0) v.toInt.natAbs)
        (numeral false 10 v.toInt.natAbs)) := by
  have hle := wrap_le (w := 32) prec
  have hzeros : decimalPad (wrap 32 prec) (v.toInt < 0) v.toInt.natAbs ≤
      prec - (numeral false 10 v.toInt.natAbs).length := by
    unfold decimalPad
    split <;> omega
  rw [← prec_text]
  refine precFmt_prints prec (number_int rfl rfl v) ?_
  rw [prec_text, laid_length]
  rw [atLeastDigits, laid_length] at hlen
  omega

/-- `%.Nd` prints at least `N` digits exactly for a precision that is an `int` and a number
that is not negative or has that many digits anyway. -/
theorem prec_min_digits_iff (prec : Nat) (v : BitVec 32) (maxlen : Nat)
    (hlen : (atLeastDigits prec v.toInt).length < maxlen) :
    Prints maxlen (precFmt prec) [.int v] (atLeastDigits prec v.toInt) ↔
      prec < 2 ^ 31 ∧ (0 ≤ v.toInt ∨ prec ≤ (numeral false 10 v.toInt.natAbs).length) := by
  have hcode := precFmt_prints_code hlen
  have hds : ∀ c ∈ numeral false 10 v.toInt.natAbs, c ≠ 0 :=
    fun _ hc => mem_numeral_ne_zero (by decide) (by decide) hc
  rw [← decimalPad_eq_iff]
  constructor
  · intro h
    have htext := h.unique hcode (laid_ne_zero hds) (laid_ne_zero hds)
    have hlength := congrArg List.length htext
    rw [atLeastDigits, laid_length, laid_length] at hlength
    omega
  · intro h
    rw [h] at hcode
    exact hcode

theorem prec_three_digits : (atLeastDigits 3 (5#32).toInt).length < 16 ∧
    Prints 16 (precFmt 3) [.int 5] (atLeastDigits 3 (5#32).toInt) :=
  ⟨by decide, (prec_min_digits_iff 3 5 16 (by decide)).mpr (by decide)⟩

/-- `"%.3d"` of -5 is `-05`. -/
theorem prec_counts_sign :
    ¬ Prints 16 (precFmt 3) [.int (-5)] (atLeastDigits 3 (-5)) ∧
    atLeastDigits 3 (-5) = [45, 48, 48, 53] ∧ Prints 16 (precFmt 3) [.int (-5)] [45, 48, 53] := by
  have hcode : Prints 16 (precFmt 3) [.int (-5)] [45, 48, 53] :=
    @precFmt_prints_code 3 16 (-5) (by decide)
  have htext : atLeastDigits 3 (-5) = [45, 48, 48, 53] := by decide
  refine ⟨fun h => ?_, htext, hcode⟩
  rw [htext] at h
  exact absurd (h.unique hcode (by simp) (by simp)) (by decide)

end Precision
end MoltOS.Printf
