import Mathlib.Logic.Function.Basic
import MoltOS.CInt
import MoltOS.CString
import MoltOS.Machine
import MoltOS.Numeral

/-! `fmt_vsnprintf` of `stubs.c` as a machine with one control point per loop that writes. The
format is read through a pointer that may not pass the terminator, and the buffer records what
has been stored in each of its bytes. Signed arithmetic wraps, as on the target. -/
namespace MoltOS.Printf
open MoltOS.CInt MoltOS.CString MoltOS.Numeral

/- A variable argument as `va_arg` finds it; `str none` is a null pointer. -/
inductive Arg where
  | int (v : BitVec 32)
  | long (v : BitVec 64)
  | str (s : Option CStr)

inductive Fault where
  | overread
  | vaArg
  | tmpOverrun
deriving DecidableEq

/- `while (*fmt >= '0' && *fmt <= '9') { n = n * 10 + (*fmt++ - '0'); }` -/
def readDigits : Int → List UInt8 → Option (Int × List UInt8)
  | _, [] => none
  | n, c :: fmt =>
    if ch '0' ≤ c ∧ c ≤ ch '9' then readDigits (wrap 32 (n * 10 + (c.toNat - 48))) fmt
    else some (n, c :: fmt)

/- `if (*fmt == c) { ...; fmt++; }` -/
def accept (c : UInt8) : List UInt8 → Option (Bool × List UInt8)
  | [] => none
  | d :: fmt => some (if d = c then (true, fmt) else (false, d :: fmt))

structure Directive where
  zeroPad : Bool
  width : Int
  isLong : Bool
  spec : UInt8

def precision (fmt : List UInt8) : Option (Option Int × List UInt8) :=
  (accept (ch '.') fmt).bind fun (dot, fmt) =>
    if dot then (readDigits 0 fmt).map (Prod.map some id) else some (none, fmt)

def longModifier (fmt : List UInt8) : Option (Bool × List UInt8) :=
  (accept (ch 'l') fmt).bind fun (isLong, fmt) =>
    if isLong then (accept (ch 'l') fmt).map (Prod.map (fun _ => true) id) else some (false, fmt)

/- `if (prec > width) { width = prec; zero_pad = 1; }` -/
def widen (zeroPad : Bool) (width : Int) : Option Int → Bool × Int
  | none => (zeroPad, width)
  | some prec => if prec > width then (true, prec) else (zeroPad, width)

/- From the byte after `%` to the conversion character, which may be the terminator. -/
def directive (fmt : List UInt8) : Option (Directive × List UInt8) := do
  let (_, fmt) ← accept (ch '-') fmt
  let (zeroPad, fmt) ← accept (ch '0') fmt
  let (width, fmt) ← readDigits 0 fmt
  let (prec, fmt) ← precision fmt
  let (zeroPad, width) := widen zeroPad width prec
  let (isLong, fmt) ← longModifier fmt
  let spec ← fmt.head?
  some (⟨zeroPad, width, isLong, spec⟩, fmt.tail)

def vaInt : List Arg → Option (BitVec 32 × List Arg)
  | .int v :: ap => some (v, ap)
  | _ => none

def vaLong : List Arg → Option (BitVec 64 × List Arg)
  | .long v :: ap => some (v, ap)
  | _ => none

def null : List UInt8 := [40, 110, 117, 108, 108, 41]

def vaStr : List Arg → Option (List UInt8 × List Arg)
  | .str s :: ap => some (s.elim null CStr.bytes, ap)
  | _ => none

structure Number where
  zeroPad : Bool
  width : Int
  neg : Bool
  base : Nat
  upper : Bool

def isSigned (spec : UInt8) : Bool := spec = ch 'd' ∨ spec = ch 'i'

def isHex (spec : UInt8) : Bool := spec = ch 'x' ∨ spec = ch 'X'

def isNumber (spec : UInt8) : Bool := isSigned spec ∨ spec = ch 'u' ∨ isHex spec

def Directive.number (d : Directive) (neg : Bool) : Number :=
  ⟨d.zeroPad, d.width, neg, if isHex d.spec then 16 else 10, d.spec = ch 'X'⟩

/- `is_long ? va_arg(ap, long) : va_arg(ap, int)` -/
def vaSigned (isLong : Bool) (ap : List Arg) : Option (Int × List Arg) :=
  if isLong then (vaLong ap).map (Prod.map BitVec.toInt id)
  else (vaInt ap).map (Prod.map BitVec.toInt id)

def vaUnsigned (isLong : Bool) (ap : List Arg) : Option (Nat × List Arg) :=
  if isLong then (vaLong ap).map (Prod.map BitVec.toNat id)
  else (vaInt ap).map (Prod.map BitVec.toNat id)

/- `(unsigned long long)-sv` -/
def magnitude (sv : Int) : Nat := if sv < 0 then ((-sv) % 2 ^ 64).toNat else sv.toNat

def number (d : Directive) (ap : List Arg) : Option (Number × Nat × List Arg) :=
  if isSigned d.spec then
    (vaSigned d.isLong ap).map fun (sv, ap) => (d.number (sv < 0), magnitude sv, ap)
  else (vaUnsigned d.isLong ap).map fun (val, ap) => (d.number false, val, ap)

/- `tmp` has the digit stored last in front: `tlen` is its length and `tmp[tlen - 1]` its
   head. -/
inductive Ctl where
  | loop
  | str (s : List UInt8)
  | digits (n : Number) (val : Nat) (tmp : List UInt8)
  | blanks (n : Number) (tmp : List UInt8) (total : Int)
  | zeros (n : Number) (tmp : List UInt8) (width : Int)
  | flush (tmp : List UInt8)
  | ret (r : Int)
  | fault (e : Fault)

structure State where
  fmt : List UInt8
  ap : List Arg
  pos : Nat
  buf : Nat → Option UInt8
  ctl : Ctl

def State.start (fmt : CStr) (ap : List Arg) : State := ⟨fmt.mem, ap, 0, fun _ => none, .loop⟩

def State.goto (s : State) (ctl : Ctl) : State := { s with ctl := ctl }

def State.put (s : State) (c : UInt8) : State :=
  { s with buf := Function.update s.buf s.pos (some c), pos := s.pos + 1 }

def Number.tlen (n : Number) (tmp : List UInt8) : Int := tmp.length + if n.neg then 1 else 0

section Steps
variable (maxlen : Nat)

def State.out (s : State) (c : UInt8) : State := if s.pos + 1 < maxlen then s.put c else s

/- `OUT(*p++)` does not move the pointer when the buffer is full: the state stays. -/
def State.outNext (s : State) (c : UInt8) (moved : State → State) : State :=
  if s.pos + 1 < maxlen then moved (s.put c) else s

def State.finish (s : State) : State :=
  { s with
    buf := if s.pos < maxlen then Function.update s.buf s.pos (some 0)
      else if 0 < maxlen then Function.update s.buf (maxlen - 1) (some 0) else s.buf
    ctl := .ret (wrap 32 s.pos) }

def State.pushDigit (s : State) (n : Number) (val : Nat) (tmp : List UInt8) : State :=
  if tmp.length < 32 then
    s.goto (.digits n (val / n.base) (digitChar n.upper (val % n.base) :: tmp))
  else s.goto (.fault .tmpOverrun)

/- From `char spec = *fmt++` on; any other character is skipped. -/
def State.convert (s : State) (d : Directive) (fmt : List UInt8) : State :=
  if d.spec = ch 'c' then
    -- `va_arg` stands inside `OUT`: with a full buffer the argument is not taken
    if s.pos + 1 < maxlen then
      match vaInt s.ap with
      | none => s.goto (.fault .vaArg)
      | some (v, ap) => { s with fmt := fmt, ap := ap }.put v.toNat.toUInt8
    else { s with fmt := fmt }
  else if d.spec = ch 's' then
    match vaStr s.ap with
    | none => s.goto (.fault .vaArg)
    | some (str, ap) => { s with fmt := fmt, ap := ap, ctl := .str str }
  else if isNumber d.spec then
    match number d s.ap with
    | none => s.goto (.fault .vaArg)
    | some (n, val, ap) =>
      { s with fmt := fmt, ap := ap
               ctl := if val = 0 then .blanks n [ch '0'] (n.tlen [ch '0']) else .digits n val [] }
  else { s with fmt := fmt }

section
variable {d : Directive}

theorem State.convert_char (s : State) (fmt : List UInt8) (hc : d.spec = ch 'c') :
    s.convert maxlen d fmt =
      if s.pos + 1 < maxlen then
        (vaInt s.ap).elim (s.goto (.fault .vaArg)) fun r =>
          { s with fmt := fmt, ap := r.2 }.put r.1.toNat.toUInt8
      else { s with fmt := fmt } := by
  rw [State.convert, if_pos hc]
  cases vaInt s.ap <;> rfl

theorem State.convert_str (s : State) (fmt : List UInt8) (hc : d.spec ≠ ch 'c')
    (hs : d.spec = ch 's') : s.convert maxlen d fmt =
      (vaStr s.ap).elim (s.goto (.fault .vaArg)) fun r =>
        { s with fmt := fmt, ap := r.2, ctl := .str r.1 } := by
  rw [State.convert, if_neg hc, if_pos hs]
  cases vaStr s.ap <;> rfl

theorem State.convert_number (s : State) (fmt : List UInt8) (hc : d.spec ≠ ch 'c')
    (hs : d.spec ≠ ch 's') (hn : isNumber d.spec) : s.convert maxlen d fmt =
      (number d s.ap).elim (s.goto (.fault .vaArg)) fun r =>
        { s with fmt := fmt, ap := r.2.2
                 ctl := if r.2.1 = 0 then .blanks r.1 [ch '0'] (r.1.tlen [ch '0'])
                   else .digits r.1 r.2.1 [] } := by
  rw [State.convert, if_neg hc, if_neg hs, if_pos hn]
  cases number d s.ap <;> rfl

end

def State.round (s : State) : State :=
  match s.fmt with
  | [] => s.goto (.fault .overread)
  | c :: fmt =>
    if c = 0 then s.finish maxlen
    else if c ≠ ch '%' then s.outNext maxlen c fun t => { t with fmt := fmt }
    else match fmt with
      | [] => s.goto (.fault .overread)
      | c' :: fmt' =>
        if c' = 0 then { s with fmt := fmt }.finish maxlen
        else if c' = ch '%' then { s with fmt := fmt' }.out maxlen (ch '%')
        else match directive fmt with
          | none => s.goto (.fault .overread)
          | some (d, fmt) => s.convert maxlen d fmt

def step (s : State) : Option State :=
  match s.ctl with
  | .loop => some (s.round maxlen)
  | .str [] => some (s.goto .loop)
  | .str (c :: str) => some (s.outNext maxlen c fun t => t.goto (.str str))
  | .digits n val tmp =>
    if val = 0 then some (s.goto (.blanks n tmp (n.tlen tmp))) else some (s.pushDigit n val tmp)
  | .blanks n tmp total =>
    if n.zeroPad = false ∧ total < n.width then
      some ((s.out maxlen (ch ' ')).goto (.blanks n tmp (total + 1)))
    else some ((if n.neg then s.out maxlen (ch '-') else s).goto (.zeros n tmp n.width))
  | .zeros n tmp width =>
    if n.zeroPad ∧ n.tlen tmp < width then
      some ((s.out maxlen (ch '0')).goto (.zeros n tmp (width - 1)))
    else some (s.goto (.flush tmp))
  | .flush [] => some (s.goto .loop)
  | .flush (c :: tmp) => some ((s.out maxlen c).goto (.flush tmp))
  | .ret _ => none
  | .fault _ => none

end Steps

def fmtVsnprintf (maxlen : Nat) (fmt : CStr) (ap : List Arg) : Part State :=
  StateTransition.eval (step maxlen) (State.start fmt ap)

/- The contents of `char buf[512]` up to the first NUL go to the serial port. -/
def vprintfImpl (fmt : CStr) (ap : List Arg) : Part (List UInt8) :=
  (fmtVsnprintf 512 fmt ap).map fun s =>
    ((List.range 512).map fun i => (s.buf i).getD 0).takeWhile fun c => c ≠ 0

end MoltOS.Printf
