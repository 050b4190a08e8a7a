import MoltOS.Strtol

/-! `vsscanf_impl` of `stubs.c`, and when it counts a number as read. -/
namespace MoltOS.Scanf
open MoltOS.CInt MoltOS.CString MoltOS.Numeral MoltOS.Strtol

inductive Stored where
  | char (c : UInt8)
  | str (s : List UInt8)
  | int (v : Int)
  | long (v : Int)
deriving DecidableEq

structure Scan where
  str : List UInt8
  ap : List Nat
  count : Nat
  stores : List (Nat × Stored)
deriving DecidableEq

def isSpace (c : UInt8) : Bool := c = ch ' ' ∨ c = ch '\t' ∨ c = ch '\n'

def skipSpace (str : List UInt8) : List UInt8 := str.dropWhile isSpace

def isNumber (spec : UInt8) : Bool :=
  spec = ch 'd' ∨ spec = ch 'i' ∨ spec = ch 'u' ∨ spec = ch 'x' ∨ spec = ch 'X' ∨ spec = ch 'o'

def baseOf (spec : UInt8) : Nat :=
  if spec = ch 'u' then 10
  else if spec = ch 'x' ∨ spec = ch 'X' then 16 else if spec = ch 'o' then 8 else 0

/- The value and the rest of the string, or `none` for `end == str`. -/
def scanNumber (spec : UInt8) (str : List UInt8) : Option (Int × List UInt8) :=
  let (val, rest) := strtol str (baseOf spec)
  if rest = str then none else some (val, rest)

def modifier : List UInt8 → Bool × List UInt8
  | 108 :: 108 :: fmt => (true, fmt)
  | 108 :: fmt => (true, fmt)
  | 104 :: 104 :: fmt => (false, fmt)
  | 104 :: fmt => (false, fmt)
  | fmt => (false, fmt)

def Scan.store (s : Scan) (v : Stored) (rest : List UInt8) : Option Scan :=
  match s.ap with
  | [] => none
  | p :: ap => some ⟨rest, ap, s.count + 1, s.stores ++ [(p, v)]⟩

/- One conversion, and whether the loop goes on after it; `none` is a missing argument. -/
def Scan.convert (s : Scan) (isLong : Bool) (spec : UInt8) : Option (Scan × Bool) :=
  if spec = ch 'c' then
    match s.str with
    | [] => s.ap.head?.map fun _ => ({ s with ap := s.ap.tail }, false)
    | c :: rest => (s.store (.char c) rest).map (·, true)
  else
    let s := { s with str := skipSpace s.str }
    if spec = ch 's' then
      match s.str with
      | [] => s.ap.head?.map fun _ => ({ s with ap := s.ap.tail }, false)
      | str => (s.store (.str (str.takeWhile fun c => !isSpace c))
          (str.dropWhile fun c => !isSpace c)).map (·, true)
    else if isNumber spec then
      match scanNumber spec s.str with
      | none => some (s, false)
      | some (val, rest) =>
        (s.store (if isLong then .long val else .int (wrap 32 val)) rest).map (·, true)
    else some (s, false)

theorem modifier_length (fmt : List UInt8) : (modifier fmt).2.length ≤ fmt.length := by
  unfold modifier
  split <;> simp only [List.length_cons] <;> omega

def vsscanfImpl (fmt : List UInt8) (s : Scan) : Option Scan :=
  match fmt with
  | [] => some s
  | c :: fmt =>
    if isSpace c then vsscanfImpl fmt { s with str := skipSpace s.str }
    else if c ≠ ch '%' then
      if s.str.head? = some c then vsscanfImpl fmt { s with str := s.str.tail } else some s
    else if fmt.head? = some (ch '%') then
      vsscanfImpl fmt.tail (if s.str.head? = some (ch '%') then { s with str := s.str.tail } else s)
    else
      -- the terminator as a conversion character ends the loop
      match s.convert (modifier fmt).1 ((modifier fmt).2.headD 0) with
      | none => none
      | some (s, true) => vsscanfImpl (modifier fmt).2.tail s
      | some (s, false) => some s
termination_by fmt.length
decreasing_by
  · exact Nat.lt_succ_self _
  · exact Nat.lt_succ_self _
  · rw [List.length_tail]
    exact Nat.lt_succ_of_le (Nat.sub_le _ _)
  · rw [List.length_tail]
    exact Nat.lt_succ_of_le ((Nat.sub_le _ _).trans (modifier_length fmt))

def sscanf (str fmt : List UInt8) (ap : List Nat) : Option (Nat × List (Nat × Stored)) :=
  (vsscanfImpl fmt ⟨str, ap, 0, []⟩).map fun s => (s.count, s.stores)

section Counts
variable {s : Scan} {spec : UInt8}

def digitBase (spec : UInt8) : Nat := if spec = ch 'x' then 16 else 10

def LoneSign (spec : UInt8) (str : List UInt8) : Prop :=
  ∃ c t, skipSpace str = c :: t ∧ isSign c = true ∧ t.head?.any (isDigit (digitBase spec)) = false

def CountsDigits (s : Scan) (spec : UInt8) : Prop :=
  ∀ isLong s', s.convert isLong spec = some (s', true) →
    ∃ used, skipSpace s.str = used ++ s'.str ∧ ∃ c ∈ used, isDigit (digitBase spec) c = true

theorem scan_consumes (hs : spec = ch 'd' ∨ spec = ch 'u' ∨ spec = ch 'x') (t : List UInt8) :
    Consumes (digitBase spec) (body t) (strtol t (baseOf spec)).2 := by
  obtain rfl | rfl | rfl := hs
  · exact strtol_zero_consumes t
  · exact strtol_consumes (by decide) t
  · exact strtol_consumes (by decide) t

theorem convert_number (isLong : Bool)
    (hs : spec = ch 'd' ∨ spec = ch 'u' ∨ spec = ch 'x') : s.convert isLong spec =
      match scanNumber spec (skipSpace s.str) with
      | none => some ({ s with str := skipSpace s.str }, false)
      | some (val, rest) => (Scan.store { s with str := skipSpace s.str }
          (if isLong then .long val else .int (wrap 32 val)) rest).map (·, true) := by
  obtain rfl | rfl | rfl := hs <;> rfl

theorem convert_counted {isLong : Bool} {s' : Scan}
    (hs : spec = ch 'd' ∨ spec = ch 'u' ∨ spec = ch 'x')
    (h : s.convert isLong spec = some (s', true)) :
    s'.str = (strtol (skipSpace s.str) (baseOf spec)).2 ∧ s'.str ≠ skipSpace s.str := by
  rw [convert_number isLong hs] at h
  unfold scanNumber at h
  by_cases hend : (strtol (skipSpace s.str) (baseOf spec)).2 = skipSpace s.str
  · simp only [if_pos hend] at h
    cases h
  · simp only [if_neg hend, Scan.store] at h
    split at h
    · cases h
    · cases h
      exact ⟨rfl, hend⟩

theorem convert_counts {p : Nat} {ap : List Nat}
    (hs : spec = ch 'd' ∨ spec = ch 'u' ∨ spec = ch 'x') (hp : s.ap = p :: ap)
    (hend : (strtol (skipSpace s.str) (baseOf spec)).2 ≠ skipSpace s.str) :
    ∃ s', s.convert false spec = some (s', true) ∧
      s'.str = (strtol (skipSpace s.str) (baseOf spec)).2 := by
  rw [convert_number false hs]
  simp only [scanNumber, if_neg hend, Scan.store, hp]
  exact ⟨_, rfl, rfl⟩

theorem head_skipSpace {str t : List UInt8} {c : UInt8} (h : skipSpace str = c :: t) :
    isSpace c = false := by
  have hhead := List.head?_dropWhile_not isSpace str
  rw [show str.dropWhile isSpace = c :: t from h] at hhead
  simpa using hhead

theorem body_skipSpace {str t : List UInt8} {c : UInt8} (h : skipSpace str = c :: t) :
    body (c :: t) = (readSign (c :: t)).2 := by
  have hspace := head_skipSpace h
  have hblank : ¬ isBlank c = true := by
    simp only [isSpace, isBlank, decide_eq_true_eq, decide_eq_false_iff_not] at hspace ⊢
    tauto
  rw [body, List.dropWhile_cons_of_neg hblank]

theorem readSign_sign {c : UInt8} (t : List UInt8) (h : isSign c = true) :
    (readSign (c :: t)).2 = t := by
  simp only [isSign, decide_eq_true_eq] at h
  rw [readSign]
  split
  · rfl
  · rw [if_pos (h.resolve_left ‹_›)]

theorem readSign_other {c : UInt8} (t : List UInt8) (h : isSign c = false) :
    (readSign (c :: t)).2 = c :: t := by
  simp only [isSign, decide_eq_false_iff_not, not_or] at h
  rw [readSign, if_neg h.1, if_neg h.2]

theorem not_isDigit_of_isSign {c : UInt8} (b : Nat) (h : isSign c = true) :
    isDigit b c = false := by
  simp only [isSign, decide_eq_true_eq] at h
  obtain rfl | rfl := h <;> rfl

/-- A lone sign is counted, with nothing but the sign read. -/
theorem loneSign_counted (hp : s.ap ≠ []) (hs : spec = ch 'd' ∨ spec = ch 'u' ∨ spec = ch 'x')
    (hlone : LoneSign spec s.str) : ¬ CountsDigits s spec := by
  intro h
  obtain ⟨c, t, ht, hsign, hno⟩ := hlone
  obtain ⟨used, hused, hnone⟩ := scan_consumes hs (skipSpace s.str)
  rw [ht, body_skipSpace ht, readSign_sign t hsign] at hused hnone
  rw [if_neg (by simp [hno])] at hnone
  rw [hnone, List.nil_append, ← ht] at hused
  obtain ⟨p, ap, hap⟩ := List.exists_cons_of_ne_nil hp
  obtain ⟨s', hconv, hstr⟩ := convert_counts hs hap (by
    rw [← hused, ht]
    exact (List.cons_ne_self c t).symm)
  obtain ⟨read, hread, e, he, hdigit⟩ := h false s' hconv
  rw [hstr, ← hused, ht] at hread
  have hone : [c] = read := List.append_cancel_right (show [c] ++ t = read ++ t from hread)
  rw [← hone, List.mem_singleton] at he
  rw [he, not_isDigit_of_isSign _ hsign] at hdigit
  cases hdigit

theorem countsDigits_of_digit (hs : spec = ch 'd' ∨ spec = ch 'u' ∨ spec = ch 'x')
    (hlone : ¬ LoneSign spec s.str) : CountsDigits s spec := by
  intro isLong s' hconv
  obtain ⟨hstr, hne⟩ := convert_counted hs hconv
  obtain ⟨used, hused, hdigit⟩ := scan_consumes hs (skipSpace s.str)
  rw [← hstr] at hused
  cases ht : skipSpace s.str with
  | nil =>
    rw [ht] at hused hne
    exact absurd (List.append_eq_nil_iff.mp hused.symm).2 hne
  | cons c t =>
    rw [ht, body_skipSpace ht] at hused hdigit
    by_cases hsign : isSign c = true
    · rw [readSign_sign t hsign] at hused hdigit
      have hsome : t.head?.any (isDigit (digitBase spec)) = true := by
        by_contra hno
        exact hlone ⟨c, t, ht, hsign, by simpa using hno⟩
      rw [if_pos hsome] at hdigit
      obtain ⟨e, he, hd⟩ := hdigit
      exact ⟨c :: used, by rw [List.cons_append, ← hused], e, List.mem_cons_of_mem _ he, hd⟩
    · rw [readSign_other t (by simpa using hsign)] at hused hdigit
      split at hdigit
      · exact ⟨used, hused, hdigit⟩
      · rw [hdigit, List.nil_append, ← ht] at hused
        exact absurd hused.symm hne

/-- A counted conversion has read a digit, except that a sign alone counts too. -/
theorem countsDigits_iff (hp : s.ap ≠ [])
    (hs : spec = ch 'd' ∨ spec = ch 'u' ∨ spec = ch 'x') :
    CountsDigits s spec ↔ ¬ LoneSign spec s.str :=
  ⟨fun h hlone => loneSign_counted hp hs hlone h, countsDigits_of_digit hs⟩

end Counts

/-- `strtol` reads exactly the numbers where there are digits, or neither a blank nor a sign;
and the scanner takes every number it counts from a digit, unless it finds a lone sign. -/
theorem numbers_accepted_iff (base : Nat) (hb : base = 10 ∨ base = 16) (str : List UInt8) (s : Scan)
    (hp : s.ap ≠ []) (spec : UInt8) (hs : spec = ch 'd' ∨ spec = ch 'u' ∨ spec = ch 'x') :
    (Exact base str ↔ digitRun base str ≠ [] ∨ ¬ Prefixed str) ∧
    (CountsDigits s spec ↔ ¬ LoneSign spec s.str) :=
  ⟨exact_iff (by omega) str, countsDigits_iff hp hs⟩

theorem minus_five_accepted :
    Exact 10 [45, 53] ∧ CountsDigits ⟨[45, 53], [8], 0, []⟩ (ch 'd') := by
  obtain ⟨hexact, hcounts⟩ := numbers_accepted_iff 10 (.inl rfl) [45, 53] ⟨[45, 53], [8], 0, []⟩
    (List.cons_ne_nil _ _) (ch 'd') (.inl rfl)
  refine ⟨hexact.mpr (.inl (by decide)), hcounts.mpr ?_⟩
  rintro ⟨c, t, hct, -, hno⟩
  cases hct
  exact absurd hno (by decide)

/- `"%d"` -/
def fmtInt : List UInt8 := [37, 100]

theorem sscanf_fmtInt (str : List UInt8) (p : Nat) : sscanf str fmtInt [p] =
    match scanNumber (ch 'd') (skipSpace str) with
    | none => some (0, [])
    | some (val, _) => some (1, [(p, .int (wrap 32 val))]) := by
  have hrun : vsscanfImpl fmtInt ⟨str, [p], 0, []⟩ =
      match Scan.convert ⟨str, [p], 0, []⟩ false (ch 'd') with
      | none => none
      | some (s, true) => vsscanfImpl [] s
      | some (s, false) => some s := by
    rw [fmtInt, vsscanfImpl]
    rfl
  rw [sscanf, hrun, convert_number false (.inl rfl)]
  cases scanNumber (ch 'd') (skipSpace str) with
  | none => rfl
  | some r =>
    simp only [Scan.store, Option.map_some]
    rw [vsscanfImpl]
    rfl

/-- `strtol("-", &end, 10)` moves `end`, and so `sscanf("-", "%d", &x)` counts a number. -/
theorem lone_minus_counts :
    digitRun 10 [45] = [] ∧ strtol [45] 10 = (0, []) ∧
      sscanf [45] fmtInt [8] = some (1, [(8, .int 0)]) := by
  refine ⟨by decide, by decide, ?_⟩
  rw [sscanf_fmtInt]
  decide

end MoltOS.Scanf
