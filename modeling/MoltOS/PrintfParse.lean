import Mathlib.Data.List.TakeWhile
import MoltOS.PrintfInt
import MoltOS.Scanf

/-! Reading back what was printed: `strtol` in the base of the format, and `sscanf`, which
chooses the base by itself. -/
namespace MoltOS.Printf
open MoltOS.CInt MoltOS.CString MoltOS.Numeral MoltOS.Strtol
open MoltOS.Scanf (sscanf skipSpace scanNumber)

section Read
variable {blanks zeros base : Nat} {neg : Bool} {ds : List UInt8}

theorem digit_not_blank {c : UInt8} (h : isDigit 16 c = true) :
    isBlank c = false ∧ isSign c = false ∧ Scanf.isSpace c = false := by
  have hall : ∀ c : UInt8, isDigit 16 c = true →
      isBlank c = false ∧ isSign c = false ∧ Scanf.isSpace c = false := by
    rintro ⟨f⟩
    revert f
    decide +kernel
  exact hall c h

/-- Printed digits start with something that is neither a blank nor a sign. -/
theorem digits_cons (zeros : Nat) (hd : ∀ c ∈ ds, isDigit 16 c = true) (hne : ds ≠ []) : ∃ c rest,
    List.replicate zeros (ch '0') ++ ds = c :: rest ∧ isDigit 16 c = true := by
  cases zeros with
  | zero =>
    obtain ⟨c, rest, rfl⟩ := List.exists_cons_of_ne_nil hne
    exact ⟨c, rest, rfl, hd c List.mem_cons_self⟩
  | succ zeros => exact ⟨48, _, rfl, by decide⟩

theorem dropWhile_blanks {p : UInt8 → Bool} (hp : p (ch ' ') = true) (l : List UInt8) :
    (List.replicate blanks (ch ' ') ++ l).dropWhile p = l.dropWhile p := by
  induction blanks with
  | zero => rfl
  | succ blanks ih =>
    rw [List.replicate_succ, List.cons_append, List.dropWhile_cons_of_pos hp]
    exact ih

theorem readSign_laid (hd : ∀ c ∈ ds, isDigit 16 c = true) (hne : ds ≠ []) :
    readSign ((laid blanks neg zeros ds).dropWhile isBlank) =
      (neg, List.replicate zeros (ch '0') ++ ds) := by
  obtain ⟨c, rest, hcons, hc⟩ := digits_cons zeros hd hne
  obtain ⟨hblank, hsign, -⟩ := digit_not_blank hc
  rw [laid, dropWhile_blanks rfl]
  cases neg with
  | true => rfl
  | false =>
    simp only [Bool.false_eq_true, if_false, List.nil_append, hcons]
    simp only [isSign, decide_eq_false_iff_not, not_or] at hsign
    rw [List.dropWhile_cons_of_neg (by simp [hblank]), readSign, if_neg hsign.1, if_neg hsign.2]

theorem skipSpace_laid (hd : ∀ c ∈ ds, isDigit 16 c = true) (hne : ds ≠ []) :
    skipSpace (laid blanks neg zeros ds) = laid 0 neg zeros ds := by
  obtain ⟨c, rest, hcons, hc⟩ := digits_cons zeros hd hne
  obtain ⟨-, -, hspace⟩ := digit_not_blank hc
  rw [skipSpace, laid, dropWhile_blanks rfl, laid, List.replicate_zero, List.nil_append]
  cases neg with
  | true => rfl
  | false =>
    simp only [Bool.false_eq_true, if_false, List.nil_append, hcons]
    exact List.dropWhile_cons_of_neg (by simp [hspace])

theorem isNegative_laid (hd : ∀ c ∈ ds, isDigit 16 c = true) (hne : ds ≠ []) :
    isNegative (laid blanks neg zeros ds) = neg := congrArg Prod.fst (readSign_laid hd hne)

theorem body_laid (hd : ∀ c ∈ ds, isDigit 16 c = true) (hne : ds ≠ []) :
    body (laid blanks neg zeros ds) = List.replicate zeros (ch '0') ++ ds :=
  congrArg Prod.snd (readSign_laid hd hne)

theorem isDigit_mono {b : Nat} {c : UInt8} (hb : b ≤ base) (h : isDigit b c = true) :
    isDigit base c = true := by
  obtain ⟨d, hv, hd⟩ := (Option.any_eq_true _ _).mp h
  exact (Option.any_eq_true _ _).mpr ⟨d, hv, decide_eq_true ((of_decide_eq_true hd).trans_le hb)⟩

theorem zeros_digits (zeros : Nat) (hb : 0 < base) (hd : ∀ c ∈ ds, isDigit base c = true) :
    ∀ c ∈ List.replicate zeros (ch '0') ++ ds, isDigit base c = true := by
  intro c hc
  obtain hc | hc := List.mem_append.mp hc
  · rw [List.eq_of_mem_replicate hc]
    exact decide_eq_true hb
  · exact hd c hc

theorem numeral_digits16 {upper : Bool} {n : Nat} (hb : 1 < base) (hb' : base ≤ 16) :
    ∀ c ∈ numeral upper base n, isDigit 16 c = true :=
  fun _ hc => isDigit_mono hb' (isDigit_of_mem_numeral hb hb' hc)

def signed (neg : Bool) (n : Nat) : Int := if neg then -n else n

theorem signed_natAbs (v : Int) : signed (v < 0) v.natAbs = v := by
  unfold signed
  split
  next h => exact Int.neg_eq_comm.mp (Int.ofNat_natAbs_of_nonpos (of_decide_eq_true h).le).symm
  next h => exact Int.natAbs_of_nonneg (not_lt.mp (by simpa using h))

/-- A printed number is read back whole, with its sign, in the base it was printed in. -/
theorem strtol_laid {upper : Bool} {n : Nat} (hb : 1 < base) (hb' : base ≤ 16)
    (hlow : -2 ^ 63 ≤ signed neg n) (hhigh : signed neg n < 2 ^ 63) :
    strtol (laid blanks neg zeros (numeral upper base n)) base = (signed neg n, []) := by
  have hd : ∀ c ∈ numeral upper base n, isDigit base c = true :=
    fun _ hc => isDigit_of_mem_numeral hb hb' hc
  have hd16 : ∀ c ∈ numeral upper base n, isDigit 16 c = true := numeral_digits16 hb hb'
  have hall := zeros_digits zeros (by omega : 0 < base) hd
  have hvalue : value base 0 (List.replicate zeros (ch '0') ++ numeral upper base n) = n :=
    (value_zeros zeros _).trans (value_numeral hb hb')
  rw [strtol_split _ base (if_neg (by omega)), isNegative_laid hd16 numeral_ne_nil,
    body_laid hd16 numeral_ne_nil, List.takeWhile_eq_self_iff.mpr hall,
    List.dropWhile_eq_nil_iff.mpr hall, hvalue]
  exact congrArg (·, []) (wrap_of_fits hlow hhigh)

end Read

/-- What `%Nld`, `%0Nld`, `%Nlx` and the like print, `strtol` reads back up to the NUL. -/
theorem strtol_undoes_printf :
    (∀ (zero : Bool) (width : Nat) (v : BitVec 64), ∃ txt,
      (∀ maxlen, txt.length < maxlen →
        Prints maxlen (intFmt zero width true (ch 'd') (.inl rfl)) [.long v] txt) ∧
      strtol txt 10 = (v.toInt, [])) ∧
    ∀ (zero : Bool) (width : Nat) (v : BitVec 64) (spec : UInt8)
      (hs : spec = ch 'x' ∨ spec = ch 'X'), v.toNat < 2 ^ 63 → ∃ txt,
      (∀ maxlen, txt.length < maxlen →
        Prints maxlen (intFmt zero width true spec (.inr hs)) [.long v] txt) ∧
      strtol txt 16 = ((v.toNat : Int), []) := by
  constructor
  · intro zero width v
    have hsigned := signed_natAbs v.toInt
    refine ⟨_, fun maxlen hlen => intFmt_prints zero width true (.inl rfl)
      (number_long rfl rfl v) hlen, ?_⟩
    rw [decimal_text]
    refine (strtol_laid (by decide) (by decide) ?_ ?_).trans (congrArg (·, []) hsigned)
    · exact hsigned.symm ▸ BitVec.le_toInt v
    · exact hsigned.symm ▸ BitVec.toInt_lt
  · intro zero width v spec hs hv
    have hbase : (Directive.number ⟨zero, wrap 32 width, true, spec⟩ false).base = 16 := by
      obtain rfl | rfl := hs <;> rfl
    refine ⟨_, fun maxlen hlen => intFmt_prints zero width true (.inr hs)
      (number_hex rfl hs v) hlen, ?_⟩
    rw [text_eq_laid, hbase]
    have hpos : signed false v.toNat = v.toNat := rfl
    refine (strtol_laid (by decide) (by decide) ?_ ?_).trans (congrArg (·, []) hpos)
    · exact hpos.symm ▸ (by omega)
    · exact hpos.symm ▸ (by omega)

section Scan
variable {neg : Bool} {n : Nat}

/-- Without a base given, a leading zero means octal. -/
theorem detectBase_zero {ds : List UInt8} (hd : ∀ c ∈ ds, isDigit 10 c = true) :
    detectBase (48 :: ds) = (8, 48 :: ds) := by
  cases ds with
  | nil => rfl
  | cons c ds =>
    have hc : ¬ (c = ch 'x' ∨ c = ch 'X') := by
      rintro (rfl | rfl) <;> exact absurd (hd _ List.mem_cons_self) (by decide)
    rw [detectBase, if_neg hc]

theorem detectBase_nonzero {s : List UInt8} (h : s.head? ≠ some 48) : detectBase s = (10, s) := by
  unfold detectBase
  split
  · exact absurd rfl h
  · exact absurd rfl h
  · rfl

def readBack (zeros n : Nat) : Nat :=
  if zeros = 0 then n else value 8 0 ((numeral false 10 n).takeWhile (isDigit 8))

theorem detectBase_readBack (zeros n : Nat) : ∃ b,
    detectBase (List.replicate zeros (ch '0') ++ numeral false 10 n) =
      (b, List.replicate zeros (ch '0') ++ numeral false 10 n) ∧
    value b 0 ((List.replicate zeros (ch '0') ++ numeral false 10 n).takeWhile (isDigit b)) =
      readBack zeros n := by
  cases zeros with
  | zero =>
    rw [List.replicate_zero, List.nil_append, readBack, if_pos rfl]
    by_cases hn : n = 0
    · rw [hn]
      exact ⟨8, rfl, rfl⟩
    · refine ⟨10, detectBase_nonzero (head_numeral_ne (by decide) (by decide) hn), ?_⟩
      rw [List.takeWhile_eq_self_iff.mpr (numeral_digits n)]
      exact value_numeral (by decide) (by decide)
  | succ zeros =>
    refine ⟨8, detectBase_zero (zeros_digits zeros (by decide) (numeral_digits n)), ?_⟩
    have hzeros : ∀ c ∈ List.replicate (zeros + 1) (ch '0'), isDigit 8 c = true := by
      intro c hc
      rw [List.eq_of_mem_replicate hc]
      rfl
    rw [List.takeWhile_append_of_pos hzeros, readBack, if_neg (Nat.succ_ne_zero zeros)]
    exact value_zeros (zeros + 1) _

theorem readBack_le (zeros n : Nat) : readBack zeros n ≤ n := by
  unfold readBack
  split
  · exact le_rfl
  · by_cases hn : n < 8
    · exact (value_run_of_lt (by decide) (by decide) hn).le
    · exact (value_run_lt (by decide) (by decide) (by decide) (Nat.not_lt.mp hn)).le

/-- Zeros in front of a number of two octal digits or more change it. -/
theorem readBack_eq_iff (zeros n : Nat) : readBack zeros n = n ↔ zeros = 0 ∨ n < 8 := by
  unfold readBack
  split
  next h => exact iff_of_true rfl (.inl h)
  next h =>
    by_cases hn : n < 8
    · exact iff_of_true (value_run_of_lt (by decide) (by decide) hn) (.inr hn)
    · have hlt : value 8 0 ((numeral false 10 n).takeWhile (isDigit 8)) < n :=
        value_run_lt (by decide) (by decide) (by decide) (Nat.not_lt.mp hn)
      exact iff_of_false hlt.ne (not_or.mpr ⟨h, hn⟩)

theorem signed_readBack_eq_iff (zeros : Nat) :
    signed neg (readBack zeros n) = signed neg n ↔ zeros = 0 ∨ n < 8 := by
  rw [← readBack_eq_iff]
  cases neg with
  | true => exact neg_inj.trans Int.natCast_inj
  | false => exact Int.natCast_inj

theorem signed_fits {w m : Nat} (hm : m ≤ n) (hlow : -2 ^ w ≤ signed neg n)
    (hhigh : signed neg n < 2 ^ w) : -2 ^ w ≤ signed neg m ∧ signed neg m < 2 ^ w := by
  have hpos : (0 : Int) < 2 ^ w := by positivity
  cases neg <;> simp only [signed, Bool.false_eq_true, if_false, if_true] at * <;> omega

/-- The digits are read, so the rest is shorter than the text. -/
theorem strtol_moves (zeros : Nat) :
    (strtol (laid 0 neg zeros (numeral false 10 n)) 0).2 ≠ laid 0 neg zeros (numeral false 10 n) := by
  have hd16 : ∀ c ∈ numeral false 10 n, isDigit 16 c = true :=
    numeral_digits16 (by decide) (by decide)
  intro hend
  obtain ⟨used, hused, hsome⟩ := strtol_zero_consumes (laid 0 neg zeros (numeral false 10 n))
  rw [body_laid hd16 numeral_ne_nil] at hused hsome
  obtain ⟨c, rest, hcons, -⟩ := digits_cons zeros hd16 numeral_ne_nil
  have hc : isDigit 10 c = true :=
    zeros_digits zeros (by decide) (numeral_digits n) c (hcons ▸ List.mem_cons_self)
  rw [if_pos (by rw [hcons]; exact hc)] at hsome
  obtain ⟨e, he, -⟩ := hsome
  have hlen := congrArg List.length hused
  rw [hend, List.length_append, List.length_append, List.length_replicate, laid_length] at hlen
  have := List.length_pos_of_mem he
  omega

/-- Scanning a printed number with `%d`. -/
theorem sscanf_laid (blanks zeros p : Nat) (hlow : -2 ^ 31 ≤ signed neg n)
    (hhigh : signed neg n < 2 ^ 31) :
    sscanf (laid blanks neg zeros (numeral false 10 n)) Scanf.fmtInt [p] =
      some (1, [(p, .int (signed neg (readBack zeros n)))]) := by
  have hd16 : ∀ c ∈ numeral false 10 n, isDigit 16 c = true :=
    numeral_digits16 (by decide) (by decide)
  have hbody : body (laid 0 neg zeros (numeral false 10 n)) = _ := body_laid hd16 numeral_ne_nil
  obtain ⟨b, hbase, hvalue⟩ := detectBase_readBack zeros n
  have hread : (strtol (laid 0 neg zeros (numeral false 10 n)) 0).1 =
      wrap 64 (signed neg (readBack zeros n)) := by
    rw [← hbody] at hbase hvalue
    rw [strtol_split _ 0 hbase, isNegative_laid hd16 numeral_ne_nil, hvalue]
    rfl
  obtain ⟨hlow', hhigh'⟩ := signed_fits (readBack_le zeros n) hlow hhigh
  have hwrap : wrap 32 (wrap 64 (signed neg (readBack zeros n))) = signed neg (readBack zeros n) := by
    rw [wrap_of_fits (w := 63) (by omega) (by omega), wrap_of_fits hlow' hhigh']
  have hscan : scanNumber (ch 'd') (laid 0 neg zeros (numeral false 10 n)) =
      some (strtol (laid 0 neg zeros (numeral false 10 n)) 0) := if_neg (strtol_moves zeros)
  rw [Scanf.sscanf_fmtInt, skipSpace_laid hd16 numeral_ne_nil, hscan]
  simp only [hread, hwrap]

end Scan

/-- What `%Nd` and `%0Nd` print, `sscanf` reads back with `%d` unless zeros were put in front of
a number of two or more octal digits. -/
theorem sscanf_undoes_printf_iff (zero : Bool) (width : Nat) (v : BitVec 32) (p : Nat) : ∃ txt,
    (∀ maxlen, txt.length < maxlen →
      Prints maxlen (intFmt zero width false (ch 'd') (.inl rfl)) [.int v] txt) ∧
    (sscanf txt Scanf.fmtInt [p] = some (1, [(p, .int v.toInt)]) ↔
      ¬ (zero = true ∧ 8 ≤ v.toInt.natAbs ∧
        (numeral false 10 v.toInt.natAbs).length + (if v.toInt < 0 then 1 else 0) <
          wrap 32 width)) := by
  have hsigned := signed_natAbs v.toInt
  refine ⟨_, fun maxlen hlen => intFmt_prints zero width false (.inl rfl) (number_int rfl rfl v) hlen,
    ?_⟩
  rw [decimal_text, sscanf_laid _ _ p (hsigned.symm ▸ BitVec.le_toInt v)
    (hsigned.symm ▸ BitVec.toInt_lt)]
  have hiff := @signed_readBack_eq_iff (decide (v.toInt < 0)) v.toInt.natAbs
    (if zero then decimalPad (wrap 32 width) (v.toInt < 0) v.toInt.natAbs else 0)
  rw [hsigned] at hiff
  simp only [Option.some.injEq, Prod.mk.injEq, List.cons.injEq, Scanf.Stored.int.injEq, true_and,
    and_true, hiff]
  cases zero with
  | true =>
    simp only [if_true, decimalPad, decide_eq_true_eq, true_and]
    omega
  | false => simp

/-- `"%05d"` of 10 is `00010`, which `sscanf` with `%d` takes for 8. -/
theorem padded_ten_scans_as_eight :
    Prints 16 (intFmt true 5 false (ch 'd') (.inl rfl)) [.int 10] [48, 48, 48, 49, 48] ∧
    sscanf [48, 48, 48, 49, 48] Scanf.fmtInt [64] = some (1, [(64, .int 8)]) := by
  have hprints := @intFmt_prints true 5 false (ch 'd') (.inl rfl) _ _ _ _ 16
    (number_int rfl rfl 10) (by decide)
  exact ⟨hprints, @sscanf_laid false 10 0 3 64 (by decide) (by decide)⟩

end MoltOS.Printf
