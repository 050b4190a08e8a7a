import Mathlib.Algebra.Group.Nat.Defs
import Mathlib.Algebra.Order.Group.Int
import Mathlib.Data.List.Infix
import MoltOS.CString

/-! The string comparisons and the substring search of `stubs.c`. A pointer is the list of the
bytes that may be read from it on, and a read past them gives `none`. -/
namespace MoltOS.StringFns
open MoltOS.CString

def strlenFrom (n : BitVec 64) : List UInt8 → Option (BitVec 64)
  | [] => none
  | c :: s => if c = 0 then some n else strlenFrom (n + 1) s

def strlen (s : List UInt8) : Option (BitVec 64) := strlenFrom 0 s

/- `char` is signed on the target. -/
def char (c : UInt8) : Int := c.toBitVec.toInt

def toLower (c : Int) : Int := if 65 ≤ c ∧ c ≤ 90 then c + 32 else c

/- `while (n-- && *a && f(*a) == f(*b)) { a++; b++; }`, without the count for `none`. -/
def compareLoop (f : Int → Int) (n : Option (BitVec 64)) (a b : List UInt8) :
    Option (Option (BitVec 64) × List UInt8 × List UInt8) :=
  if n = some 0 then some (n.map (· - 1), a, b)
  else
    match a with
    | [] => none
    | c :: a' =>
      if c = 0 then some (n.map (· - 1), c :: a', b)
      else
        match b with
        | [] => none
        | d :: b' =>
          if f (char c) = f (char d) then compareLoop f (n.map (· - 1)) a' b'
          else some (n.map (· - 1), c :: a', d :: b')

def difference (f : Int → Int) (a b : List UInt8) : Option Int := do
  let c ← a.head?
  let d ← b.head?
  some (f c.toNat - f d.toNat)

def compareWith (f : Int → Int) (n : Option (BitVec 64)) (a b : List UInt8) : Option Int := do
  let (n, a, b) ← compareLoop f n a b
  -- the count has wrapped if it has run out
  if n = some (-1) then some 0 else difference f a b

def strcmp (a b : List UInt8) : Option Int := compareWith id none a b

def strncmp (a b : List UInt8) (n : BitVec 64) : Option Int := compareWith id (some n) a b

def strcasecmp (a b : List UInt8) : Option Int := compareWith toLower none a b

def strncasecmp (a b : List UInt8) (n : BitVec 64) : Option Int := compareWith toLower (some n) a b

/- The pointer returned, where `some none` is `NULL`. -/
def strstrLoop (needle : List UInt8) (nlen : BitVec 64) : List UInt8 → Option (Option (List UInt8))
  | [] => none
  | c :: haystack =>
    if c = 0 then some none
    else
      match strncmp (c :: haystack) needle nlen with
      | none => none
      | some r => if r = 0 then some (some (c :: haystack)) else strstrLoop needle nlen haystack

def strstr (haystack needle : List UInt8) : Option (Option (List UInt8)) := do
  let nlen ← strlen needle
  if nlen = 0 then some (some haystack) else strstrLoop needle nlen haystack

section Order

structure Compares (r : Int) (x y : List Int) : Prop where
  neg : r < 0 ↔ x < y
  zero : r = 0 ↔ x = y
  pos : 0 < r ↔ y < x

variable {r i j : Int} {x y : List Int}

theorem Compares.nil : Compares 0 [] [] := ⟨by simp, by simp, by simp⟩

theorem Compares.nil_cons (h : r < 0) : Compares r [] (j :: y) where
  neg := iff_of_true h (List.nil_lt_cons j y)
  zero := iff_of_false h.ne (List.cons_ne_nil j y).symm
  pos := iff_of_false h.not_gt (List.not_lt_nil _)

theorem Compares.cons_nil (h : 0 < r) : Compares r (i :: x) [] where
  neg := iff_of_false h.not_gt (List.not_lt_nil _)
  zero := iff_of_false h.ne' (List.cons_ne_nil i x)
  pos := iff_of_true h (List.nil_lt_cons i x)

theorem Compares.cons (h : Compares r x y) (i : Int) : Compares r (i :: x) (i :: y) where
  neg := h.neg.trans (by simp)
  zero := h.zero.trans (by simp)
  pos := h.pos.trans (by simp)

theorem Compares.head (h : i ≠ j) : Compares (i - j) (i :: x) (j :: y) where
  neg := by
    simp only [List.cons_lt_cons_iff, h, false_and, or_false]
    omega
  zero := by simp [sub_eq_zero, h]
  pos := by simp [List.cons_lt_cons_iff, h.symm]

structure Finds {α : Type} (needle hay : List α) (o : Option Nat) : Prop where
  absent : o = none ↔ ¬ needle <:+: hay
  first : ∀ i ∈ o, needle <+: hay.drop i ∧ ∀ j < i, ¬ needle <+: hay.drop j

variable {α : Type} {needle hay : List α} {o : Option Nat}

theorem Finds.nil (h : needle ≠ []) : Finds needle [] none where
  absent := iff_of_true rfl fun hin => h (List.infix_nil.mp hin)
  first := nofun

theorem Finds.here (h : needle <+: hay) : Finds needle hay (some 0) where
  absent := iff_of_false nofun fun hno => hno h.isInfix
  first := by
    rintro i ⟨⟩
    exact ⟨h, nofun⟩

theorem Finds.next {c : α} (hc : ¬ needle <+: c :: hay) (h : Finds needle hay o) :
    Finds needle (c :: hay) (o.map (· + 1)) where
  absent := by
    rw [Option.map_eq_none_iff, h.absent, List.infix_cons_iff, or_iff_right hc]
  first := by
    intro i hi
    obtain ⟨k, hk, rfl⟩ := Option.map_eq_some_iff.mp hi
    refine ⟨(h.first k hk).1, fun j hj => ?_⟩
    cases j with
    | zero => exact hc
    | succ j => exact (h.first k hk).2 j (Nat.lt_of_succ_lt_succ hj)

end Order

section Compare

/- What the comparisons need of the function they apply to a character: it does not matter
   whether it is taken as signed or as unsigned, and the terminator comes before all others. -/
structure Key (f : Int → Int) : Prop where
  same : ∀ c d : UInt8, f (char c) = f (char d) ↔ f c.toNat = f d.toNat
  nul : ∀ c : UInt8, c ≠ 0 → f (0 : UInt8).toNat < f c.toNat

theorem char_eq (c : UInt8) : char c = if c.toNat < 128 then (c.toNat : Int) else c.toNat - 256 := by
  have hlt := c.toNat_lt
  rw [char, BitVec.toInt_eq_toNat_cond, UInt8.toNat_toBitVec]
  split <;> split <;> omega

theorem key_id : Key id where
  same c d := by
    have hc := c.toNat_lt
    have hd := d.toNat_lt
    rw [char_eq, char_eq]
    simp only [id]
    split <;> split <;> omega
  nul c hc := by
    have hne : c.toNat ≠ 0 := fun h => hc (UInt8.toNat_inj.mp h)
    simp only [id, UInt8.toNat_zero]
    omega

/-- Lower case does not leave the ASCII range. -/
theorem toLower_range (c : UInt8) :
    if c.toNat < 128 then 0 ≤ toLower c.toNat ∧ toLower c.toNat < 128 else toLower c.toNat = c.toNat := by
  unfold toLower
  split <;> split <;> omega

theorem toLower_char (c : UInt8) :
    toLower (char c) = if c.toNat < 128 then toLower c.toNat else (c.toNat : Int) - 256 := by
  have hlt := c.toNat_lt
  rw [char_eq]
  split
  · rfl
  · rw [toLower, if_neg (by omega)]

theorem key_toLower : Key toLower where
  same c d := by
    have hc := c.toNat_lt
    have hd := d.toNat_lt
    have hrc := toLower_range c
    have hrd := toLower_range d
    rw [toLower_char, toLower_char]
    split at hrc <;> split at hrd <;> simp only [*, if_true, if_false] <;> omega
  nul c hc := by
    have hne : c.toNat ≠ 0 := fun h => hc (UInt8.toNat_inj.mp h)
    unfold toLower
    simp only [UInt8.toNat_zero]
    split <;> split <;> omega

def cut {α : Type} (n : Option (BitVec 64)) (l : List α) : List α := n.elim l fun n => l.take n.toNat

theorem cut_nil {α : Type} (n : Option (BitVec 64)) : cut n ([] : List α) = [] := by
  cases n with
  | none => rfl
  | some n => exact List.take_nil

theorem cut_cons {α : Type} {n : Option (BitVec 64)} (hn : n ≠ some 0) (x : α) (l : List α) :
    cut n (x :: l) = x :: cut (n.map (· - 1)) l := by
  cases n with
  | none => rfl
  | some n =>
    have hpos : n.toNat = (n - 1).toNat + 1 := by
      have : n ≠ 0 := fun h => hn (congrArg some h)
      bv_omega
    simp only [cut, Option.map_some, Option.elim_some]
    rw [hpos, List.take_succ_cons]

theorem count_left {n : Option (BitVec 64)} (hn : n ≠ some 0) : n.map (· - 1) ≠ some (-1) := by
  cases n with
  | none => exact nofun
  | some n =>
    have : n ≠ 0 := fun h => hn (congrArg some h)
    simp only [Option.map_some, ne_eq, Option.some.injEq]
    bv_omega

variable {f : Int → Int} {n : Option (BitVec 64)} {a b : List UInt8} {c d : UInt8}

theorem compareWith_spent : compareWith f (some 0) a b = some 0 := by
  cases a <;> rfl

theorem compareWith_nul (hn : n ≠ some 0) :
    compareWith f n (0 :: a) b = difference f (0 :: a) b := by
  rw [compareWith, compareLoop.eq_def, if_neg hn]
  exact if_neg (count_left hn)

theorem compareWith_same (hn : n ≠ some 0) (hc : c ≠ 0) (h : f (char c) = f (char d)) :
    compareWith f n (c :: a) (d :: b) = compareWith f (n.map (· - 1)) a b := by
  rw [compareWith, compareLoop, if_neg hn]
  simp only [if_neg hc, if_pos h]
  rfl

theorem compareWith_differ (hn : n ≠ some 0) (hc : c ≠ 0) (h : f (char c) ≠ f (char d)) :
    compareWith f n (c :: a) (d :: b) = some (f c.toNat - f d.toNat) := by
  rw [compareWith, compareLoop, if_neg hn]
  simp only [if_neg hc, if_neg h]
  exact if_neg (count_left hn)

/-- What holds behind two first characters holds of all memory that begins with them. -/
theorem compareWith_heads {l m : List UInt8} {r : Int} (hn : n ≠ some 0)
    (h : ∀ p q, cut (n.map (· - 1)) l <+: p → cut (n.map (· - 1)) m <+: q →
      compareWith f n (c :: p) (d :: q) = some r) (p q : List UInt8)
    (hp : cut n (c :: l) <+: p) (hq : cut n (d :: m) <+: q) : compareWith f n p q = some r := by
  rw [cut_cons hn] at hp hq
  obtain ⟨p', rfl, hp'⟩ := List.cons_prefix_iff.mp hp
  obtain ⟨q', rfl, hq'⟩ := List.cons_prefix_iff.mp hq
  exact h p' q' hp' hq'

/-- The comparison reads no further than the terminators and the count allow, and its result is
that of the keys of the characters counted. -/
theorem compareWith_spec (hf : Key f) {xs ys : List UInt8} (hx : ∀ c ∈ xs, c ≠ 0)
    (hy : ∀ c ∈ ys, c ≠ 0) (n : Option (BitVec 64)) : ∃ r,
      (∀ p q, cut n (xs ++ [0]) <+: p → cut n (ys ++ [0]) <+: q → compareWith f n p q = some r) ∧
      Compares r ((cut n xs).map fun c => f c.toNat) ((cut n ys).map fun c => f c.toNat) := by
  induction xs generalizing ys n with
  | nil =>
    obtain rfl | hn := eq_or_ne n (some 0)
    · exact ⟨0, fun p q _ _ => compareWith_spent, .nil⟩
    rw [cut_nil]
    cases ys with
    | nil =>
      refine ⟨_, compareWith_heads hn fun p q _ _ => compareWith_nul hn, ?_⟩
      rw [sub_self, cut_nil]
      exact .nil
    | cons d ys =>
      refine ⟨_, compareWith_heads hn fun p q _ _ => compareWith_nul hn, ?_⟩
      rw [cut_cons hn]
      exact .nil_cons (Int.sub_neg_of_lt (hf.nul d (hy d List.mem_cons_self)))
  | cons c xs ih =>
    obtain rfl | hn := eq_or_ne n (some 0)
    · exact ⟨0, fun p q _ _ => compareWith_spent, .nil⟩
    have hc : c ≠ 0 := hx c List.mem_cons_self
    rw [cut_cons hn]
    cases ys with
    | nil =>
      have hlt := hf.nul c hc
      have hne : f (char c) ≠ f (char 0) := fun h => hlt.ne' ((hf.same c 0).mp h)
      refine ⟨_, compareWith_heads hn fun p q _ _ => compareWith_differ hn hc hne, ?_⟩
      rw [cut_nil]
      exact .cons_nil (Int.sub_pos_of_lt hlt)
    | cons d ys =>
      rw [cut_cons hn, List.map_cons, List.map_cons]
      by_cases hsame : f (char c) = f (char d)
      · obtain ⟨r, hr, hcmp⟩ := ih (fun e he => hx e (List.mem_cons_of_mem _ he))
          (fun e he => hy e (List.mem_cons_of_mem _ he)) (n.map (· - 1))
        refine ⟨r, compareWith_heads hn fun p q hp hq => ?_, (hf.same c d).mp hsame ▸ hcmp.cons _⟩
        rw [compareWith_same hn hc hsame]
        exact hr p q hp hq
      · refine ⟨_, compareWith_heads hn fun p q _ _ => compareWith_differ hn hc hsame, .head fun h => ?_⟩
        exact hsame ((hf.same c d).mpr h)

theorem cut_isPrefix {α : Type} (n : Option (BitVec 64)) (l : List α) : cut n l <+: l := by
  cases n with
  | none => exact List.prefix_rfl
  | some n => exact List.take_prefix _ _

end Compare

section Search

variable {xs ys : List UInt8} {n : BitVec 64}

theorem strlenFrom_spec (hy : ∀ c ∈ ys, c ≠ 0) (k : BitVec 64) {q : List UInt8} (hq : ys ++ [0] <+: q) :
    strlenFrom k q = some (k + BitVec.ofNat 64 ys.length) := by
  induction ys generalizing k q with
  | nil =>
    obtain ⟨q', rfl, -⟩ := List.cons_prefix_iff.mp hq
    simp [strlenFrom]
  | cons d ys ih =>
    obtain ⟨q', rfl, hq'⟩ := List.cons_prefix_iff.mp hq
    have hd : d ≠ 0 := hy d List.mem_cons_self
    rw [strlenFrom, if_neg hd, ih (fun c hc => hy c (List.mem_cons_of_mem _ hc)) _ hq']
    rw [List.length_cons, BitVec.ofNat_add, BitVec.add_assoc, BitVec.add_comm 1]
    rfl

theorem unsigned_inj : Function.Injective fun c : UInt8 => id (c.toNat : Int) :=
  fun _ _ h => UInt8.toNat_inj.mp (Int.ofNat.inj h)

/-- Over the length of the second string the comparison is a test for a prefix. -/
theorem strncmp_prefix (hx : ∀ c ∈ xs, c ≠ 0) (hy : ∀ c ∈ ys, c ≠ 0) (hn : n.toNat = ys.length) :
    ∃ r, (∀ p q, xs ++ [0] <+: p → ys ++ [0] <+: q → strncmp p q n = some r) ∧ (r = 0 ↔ ys <+: xs) := by
  obtain ⟨r, hr, hcmp⟩ := compareWith_spec key_id hx hy (some n)
  refine ⟨r, fun p q hp hq => hr p q ((cut_isPrefix _ _).trans hp) ((cut_isPrefix _ _).trans hq), ?_⟩
  rw [hcmp.zero, unsigned_inj.list_map.eq_iff, List.prefix_iff_eq_take]
  simp only [cut, Option.elim_some]
  rw [hn, List.take_length, eq_comm]

theorem strstrLoop_spec (hx : ∀ c ∈ xs, c ≠ 0) (hy : ∀ c ∈ ys, c ≠ 0) (hne : ys ≠ [])
    (hn : n.toNat = ys.length) :
    ∃ o, (∀ p q, xs ++ [0] <+: p → ys ++ [0] <+: q → strstrLoop q n p = some (o.map p.drop)) ∧
      Finds ys xs o := by
  induction xs with
  | nil =>
    refine ⟨none, fun p q hp _ => ?_, .nil hne⟩
    obtain ⟨p', rfl, -⟩ := List.cons_prefix_iff.mp hp
    simp [strstrLoop]
  | cons c xs ih =>
    have hc : c ≠ 0 := hx c List.mem_cons_self
    obtain ⟨r, hr, hzero⟩ := strncmp_prefix hx hy hn
    by_cases h0 : r = 0
    · refine ⟨some 0, fun p q hp hq => ?_, .here (hzero.mp h0)⟩
      have hcmp := hr p q hp hq
      obtain ⟨p', rfl, -⟩ := List.cons_prefix_iff.mp hp
      simp [strstrLoop, hc, hcmp, h0]
    · obtain ⟨o, ho, hfinds⟩ := ih fun e he => hx e (List.mem_cons_of_mem _ he)
      refine ⟨o.map (· + 1), fun p q hp hq => ?_, hfinds.next fun h => h0 (hzero.mpr h)⟩
      have hcmp := hr p q hp hq
      obtain ⟨p', rfl, hp'⟩ := List.cons_prefix_iff.mp hp
      simp [strstrLoop, hc, hcmp, h0, ho p' q hp' hq, Function.comp_def]

structure Counted extends CStr where
  fits : bytes.length < 2 ^ 64

theorem strstr_spec (hx : ∀ c ∈ xs, c ≠ 0) (s : Counted) :
    ∃ o, (∀ p q, xs ++ [0] <+: p → s.mem <+: q → strstr p q = some (o.map p.drop)) ∧
      Finds s.bytes xs o := by
  have hlen : ∀ q, s.mem <+: q → strlen q = some (BitVec.ofNat 64 s.bytes.length) := by
    intro q hq
    exact (strlenFrom_spec s.noNul 0#64 hq).trans (congrArg some (BitVec.zero_add _))
  have hn : (BitVec.ofNat 64 s.bytes.length).toNat = s.bytes.length := by
    rw [BitVec.toNat_ofNat, Nat.mod_eq_of_lt s.fits]
  by_cases hne : s.bytes = []
  · refine ⟨some 0, fun p q _ hq => ?_, .here (hne ▸ List.nil_prefix)⟩
    simp [strstr, hlen q hq, hne]
  · obtain ⟨o, ho, hfinds⟩ := strstrLoop_spec hx s.noNul hne hn
    refine ⟨o, fun p q hp hq => ?_, hfinds⟩
    have hpos : BitVec.ofNat 64 s.bytes.length ≠ 0 := by
      intro h
      rw [h] at hn
      exact hne (List.length_eq_zero_iff.mp hn.symm)
    rw [strstr, hlen q hq]
    exact (if_neg hpos).trans (ho p q hp hq)

end Search

def unsigned (l : List UInt8) : List Int := l.map fun c => (c.toNat : Int)

theorem strcmp_compares (a b : CStr) :
    ∃ r, (∀ p q, a.mem <+: p → b.mem <+: q → strcmp p q = some r) ∧
      Compares r (unsigned a.bytes) (unsigned b.bytes) :=
  compareWith_spec key_id a.noNul b.noNul none

theorem strcasecmp_compares (a b : CStr) :
    ∃ r, (∀ p q, a.mem <+: p → b.mem <+: q → strcasecmp p q = some r) ∧
      Compares r ((unsigned a.bytes).map toLower) ((unsigned b.bytes).map toLower) := by
  simp only [unsigned, List.map_map]
  exact compareWith_spec key_toLower a.noNul b.noNul none

/-- The bounded comparisons order the strings by their first `n` bytes, with memory needed only up
to the terminators and the count, and the search returns the first occurrence, with memory needed
only up to the terminators. -/
theorem bounded_compare_and_search (a b haystack : CStr) (needle : Counted) (n : BitVec 64) :
    (∃ r, (∀ p q, a.mem.take n.toNat <+: p → b.mem.take n.toNat <+: q → strncmp p q n = some r) ∧
      Compares r (unsigned (a.bytes.take n.toNat)) (unsigned (b.bytes.take n.toNat))) ∧
    (∃ r, (∀ p q, a.mem.take n.toNat <+: p → b.mem.take n.toNat <+: q → strncasecmp p q n = some r) ∧
      Compares r ((unsigned (a.bytes.take n.toNat)).map toLower)
        ((unsigned (b.bytes.take n.toNat)).map toLower)) ∧
    ∃ o, (∀ p q, haystack.mem <+: p → needle.mem <+: q → strstr p q = some (o.map p.drop)) ∧
      Finds needle.bytes haystack.bytes o := by
  refine ⟨compareWith_spec key_id a.noNul b.noNul (some n), ?_, strstr_spec haystack.noNul needle⟩
  simp only [unsigned, List.map_map]
  exact compareWith_spec key_toLower a.noNul b.noNul (some n)

end MoltOS.StringFns
