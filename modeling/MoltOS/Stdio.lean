import MoltOS.Cursor
import MoltOS.FsSafe

/-! The read-only streams of `stubs.c`: `fopen` over the archive, `fseek`, `ftell` and `fread`
with 64-bit arithmetic, and the cursor that an open file is over any sequence of calls. -/
namespace MoltOS.Stdio
open MoltOS.Rust MoltOS.Fs

/- A `memcpy` that leaves the data of the file, and a division by zero. -/
inductive Fault where
  | outside
  | divide
deriving DecidableEq

/- `FILE`, where `data` may be null; a stream that is null itself is `none` below. -/
structure File where
  data : Option (List UInt8)
  size : BitVec 64
  pos : BitVec 64
deriving DecidableEq

/- `allocated` says whether `malloc` found room for the `FILE`. -/
def fopen (p : Profile) (archive : Option (List UInt8)) (path : List UInt8) (allocated : Bool) :
    Except Panic (Option File) := do
  match ← rustFsOpen p archive path with
  | none => pure none
  | some data =>
    pure (if allocated then some ⟨some data, BitVec.ofNat 64 data.length, 0⟩ else none)

def memcpy (src : List UInt8) (pos n : Nat) : Except Fault (List UInt8) :=
  if pos + n ≤ src.length then .ok ((src.drop pos).take n) else .error .outside

def fread (size nmemb : BitVec 64) (f : Option File) :
    Except Fault (BitVec 64 × List UInt8 × Option File) :=
  match f with
  | none => .ok (0, [], none)
  | some f =>
    match f.data with
    | none => .ok (0, [], some f)
    | some data => do
      let avail := f.size - f.pos
      let bytes := if size * nmemb > avail then avail else size * nmemb
      let copied ← memcpy data f.pos.toNat bytes.toNat
      if size = 0 then .error .divide
      else .ok (bytes / size, copied, some { f with pos := f.pos + bytes })

def fseek (offset : BitVec 64) (whence : BitVec 32) (f : Option File) : Int × Option File :=
  match f with
  | none => (-1, none)
  | some f =>
    let pos :=
      if whence = 0 then offset else if whence = 1 then f.pos + offset else f.size + offset
    if pos > f.size then (-1, some f) else (0, some { f with pos := pos })

def ftell (f : Option File) : Int :=
  match f with
  | none => -1
  | some f => f.pos.toInt

inductive Call where
  | fseek (offset : BitVec 64) (whence : BitVec 32)
  | ftell
  | fread (size nmemb : BitVec 64)

inductive Reply where
  | status (r : Int)
  | position (r : Int)
  | items (n : BitVec 64) (bytes : List UInt8)

def call (k : Call) (f : Option File) : Except Fault (Reply × Option File) :=
  match k with
  | .fseek offset whence =>
    let (r, f) := Stdio.fseek offset whence f
    .ok (.status r, f)
  | .ftell => .ok (.position (Stdio.ftell f), f)
  | .fread size nmemb => do
    let (n, bytes, f) ← Stdio.fread size nmemb f
    .ok (.items n bytes, f)

def run (ks : List Call) (f : Option File) : Except Fault (List Reply × Option File) :=
  match ks with
  | [] => .ok ([], f)
  | k :: ks => do
    let (r, f) ← call k f
    let (rs, f) ← run ks f
    .ok (r :: rs, f)

def delivered (rs : List Reply) : List UInt8 :=
  rs.flatMap fun
    | .items _ bytes => bytes
    | _ => []

section Cursor
variable {c : Cursor UInt8}

def target (pos size : Nat) (offset : BitVec 64) (whence : BitVec 32) : Int :=
  (if whence = 0 then 0 else if whence = 1 then (pos : Int) else size) + offset.toInt

def ofCursor (c : Cursor UInt8) : File :=
  ⟨some c.data, BitVec.ofNat 64 c.data.length, BitVec.ofNat 64 c.pos⟩

def Call.on (k : Call) (c : Cursor UInt8) : Reply × Cursor UInt8 :=
  match k with
  | .fseek offset whence =>
    match c.seek (target c.pos c.data.length offset whence) with
    | some c => (.status 0, c)
    | none => (.status (-1), c)
  | .ftell => (.position c.pos, c)
  | .fread size nmemb =>
    let (bytes, c) := c.read (size * nmemb).toNat
    (.items (BitVec.ofNat 64 bytes.length / size) bytes, c)

def onAll (ks : List Call) (c : Cursor UInt8) : List Reply × Cursor UInt8 :=
  match ks with
  | [] => ([], c)
  | k :: ks => ((k.on c).1 :: (onAll ks (k.on c).2).1, (onAll ks (k.on c).2).2)

def Call.Sized : Call → Prop
  | .fread size _ => size ≠ 0
  | _ => True

def Call.Seeks : Call → Prop
  | .fseek _ _ => True
  | _ => False

theorem toNat_length (h : c.data.length < 2 ^ 64) :
    (BitVec.ofNat 64 c.data.length).toNat = c.data.length := by
  rw [BitVec.toNat_ofNat, Nat.mod_eq_of_lt h]

theorem toNat_pos (h : c.data.length < 2 ^ 64) : (BitVec.ofNat 64 c.pos).toNat = c.pos := by
  rw [BitVec.toNat_ofNat, Nat.mod_eq_of_lt (c.inRange.trans_lt h)]

/-- The position computed modulo `2 ^ 64` is in range exactly if the one asked for is, and is
then the same. -/
theorem wrapped_position {base size : Nat} (hbase : base ≤ size) (h : size < 2 ^ 63)
    (offset : BitVec 64) :
    ((BitVec.ofNat 64 base + offset).toNat ≤ size ↔
      0 ≤ base + offset.toInt ∧ base + offset.toInt ≤ size) ∧
    (0 ≤ base + offset.toInt → base + offset.toInt ≤ size →
      BitVec.ofNat 64 base + offset = BitVec.ofNat 64 (base + offset.toInt).toNat) := by
  have hlow := BitVec.le_toInt offset
  have hhigh := BitVec.toInt_lt (x := offset)
  have hlt := offset.isLt
  have hsum : (BitVec.ofNat 64 base + offset).toNat = (base + offset.toNat) % 2 ^ 64 := by
    rw [BitVec.toNat_add, BitVec.toNat_ofNat, Nat.mod_add_mod]
  have hint : offset.toInt = offset.toNat ∨ offset.toInt = offset.toNat - 2 ^ 64 ∧
      2 ^ 63 ≤ offset.toNat := by
    rw [BitVec.toInt_eq_toNat_cond]
    split <;> omega
  refine ⟨by rw [hsum]; omega, fun h0 h1 => BitVec.eq_of_toNat_eq ?_⟩
  rw [hsum, BitVec.toNat_ofNat]
  omega

theorem fseek_ofCursor (h : c.data.length < 2 ^ 63) (offset : BitVec 64) (whence : BitVec 32) :
    fseek offset whence (some (ofCursor c)) =
      match c.seek (target c.pos c.data.length offset whence) with
      | some c' => (0, some (ofCursor c'))
      | none => (-1, some (ofCursor c)) := by
  obtain ⟨base, hbase, htarget, hpos⟩ : ∃ base ≤ c.data.length,
      target c.pos c.data.length offset whence = base + offset.toInt ∧
      (if whence = 0 then offset else if whence = 1 then (ofCursor c).pos + offset
        else (ofCursor c).size + offset) = BitVec.ofNat 64 base + offset := by
    unfold target
    split
    · exact ⟨0, Nat.zero_le _, rfl, (BitVec.zero_add offset).symm⟩
    · split
      · exact ⟨c.pos, c.inRange, rfl, rfl⟩
      · exact ⟨c.data.length, Nat.le_refl _, rfl, rfl⟩
  obtain ⟨hrange, hsame⟩ := wrapped_position hbase h offset
  simp only [fseek, hpos, htarget, Cursor.seek]
  have hguard : (ofCursor c).size < BitVec.ofNat 64 base + offset ↔
      ¬ (0 ≤ base + offset.toInt ∧ base + offset.toInt ≤ c.data.length) := by
    rw [← hrange, BitVec.lt_def, Nat.not_le]
    exact iff_of_eq (congrArg (· < _) (toNat_length (by omega)))
  by_cases hin : 0 ≤ base + offset.toInt ∧ base + offset.toInt ≤ c.data.length
  · rw [if_neg (not_not.mpr hin ∘ hguard.mp), dif_pos hin, hsame hin.1 hin.2]
    rfl
  · rw [if_pos (hguard.mpr hin), dif_neg hin]

theorem ftell_ofCursor (h : c.data.length < 2 ^ 63) : ftell (some (ofCursor c)) = c.pos := by
  have hpos : (BitVec.ofNat 64 c.pos).toNat = c.pos := toNat_pos (by omega)
  have := c.inRange
  simp only [ftell, ofCursor]
  rw [BitVec.toInt_eq_toNat_of_lt (by omega), hpos]

/-- The clamped count is the length of what the cursor reads. -/
theorem clamped_count (h : c.data.length < 2 ^ 64) (bytes : BitVec 64) :
    (if bytes > (ofCursor c).size - (ofCursor c).pos then (ofCursor c).size - (ofCursor c).pos
      else bytes) = BitVec.ofNat 64 (c.read bytes.toNat).1.length := by
  have havail : ((ofCursor c).size - (ofCursor c).pos).toNat = c.left := by
    rw [BitVec.toNat_sub_of_le]
    · exact congrArg₂ _ (toNat_length h) (toNat_pos h)
    · rw [BitVec.le_def]
      exact (toNat_pos h).trans_le (c.inRange.trans_eq (toNat_length h).symm)
  have hself : ∀ x : BitVec 64, x = BitVec.ofNat 64 x.toNat := fun x => (BitVec.ofNat_toNat 64 x).symm
  rw [Cursor.read_length]
  split
  next hover =>
    rw [gt_iff_lt, BitVec.lt_def, havail] at hover
    rw [Nat.min_eq_right hover.le, ← havail, ← hself]
  next hfits =>
    rw [gt_iff_lt, BitVec.lt_def, havail, Nat.not_lt] at hfits
    rw [Nat.min_eq_left hfits, ← hself]

theorem memcpy_read (h : c.data.length < 2 ^ 64) (n : Nat) :
    memcpy c.data (ofCursor c).pos.toNat (BitVec.ofNat 64 (c.read n).1.length).toNat =
      .ok (c.read n).1 := by
  have hrange := c.inRange
  have hlen := c.read_length n
  have hle : c.left = c.data.length - c.pos := rfl
  have hcount : (BitVec.ofNat 64 (c.read n).1.length).toNat = (c.read n).1.length := by
    rw [BitVec.toNat_ofNat, Nat.mod_eq_of_lt (by omega)]
  rw [hcount, show (ofCursor c).pos.toNat = c.pos from toNat_pos h, memcpy, if_pos (by omega)]
  refine congrArg Except.ok ?_
  rw [Cursor.read, List.take_eq_take_iff, List.length_take]
  omega

/-- A read of the open file: the cursor's read of the product modulo `2 ^ 64`, divided by the
item size, which no one has checked. -/
theorem fread_eq (h : c.data.length < 2 ^ 64) (size nmemb : BitVec 64) :
    fread size nmemb (some (ofCursor c)) = if size = 0 then .error .divide
      else .ok (BitVec.ofNat 64 (c.read (size * nmemb).toNat).1.length / size,
        (c.read (size * nmemb).toNat).1, some (ofCursor (c.read (size * nmemb).toNat).2)) := by
  have hnext : (ofCursor c).pos + BitVec.ofNat 64 (c.read (size * nmemb).toNat).1.length =
      (ofCursor (c.read (size * nmemb).toNat).2).pos := by
    rw [Cursor.read_length]
    exact (BitVec.ofNat_add _ _).symm
  have hfile : ∀ bytes, bytes = (if size * nmemb > (ofCursor c).size - (ofCursor c).pos
      then (ofCursor c).size - (ofCursor c).pos else size * nmemb) →
      fread size nmemb (some (ofCursor c)) =
        (memcpy c.data (ofCursor c).pos.toNat bytes.toNat).bind fun copied =>
        if size = 0 then .error .divide
        else .ok (bytes / size, copied, some ⟨some c.data, (ofCursor c).size,
          (ofCursor c).pos + bytes⟩) := by
    rintro bytes rfl
    rfl
  rw [hfile _ (clamped_count h _).symm, memcpy_read h, hnext]
  rfl

theorem items_toNat (h : c.data.length < 2 ^ 64) (bytes : Nat) (size : BitVec 64) :
    (BitVec.ofNat 64 (c.read bytes).1.length / size).toNat = min bytes c.left / size.toNat := by
  have hlt : (c.read bytes).1.length < 2 ^ 64 := by
    rw [c.read_length]
    exact (min_le_right _ _).trans_lt ((Nat.sub_le _ _).trans_lt h)
  rw [BitVec.toNat_udiv, BitVec.toNat_ofNat, Nat.mod_eq_of_lt hlt, c.read_length]

/-- A read delivers what is asked for, or what is left if that is less, and moves behind it. -/
theorem fread_delivers (h : c.data.length < 2 ^ 64) {size : BitVec 64} (hs : size ≠ 0)
    (nmemb : BitVec 64) : ∃ n g, fread size nmemb (some (ofCursor c)) =
        .ok (n, (c.data.drop c.pos).take (size * nmemb).toNat, some g) ∧
      n.toNat = min (size * nmemb).toNat (c.data.length - c.pos) / size.toNat ∧
      g.pos.toNat = c.pos + min (size * nmemb).toNat (c.data.length - c.pos) := by
  refine ⟨_, _, (fread_eq h size nmemb).trans (if_neg hs), items_toNat h _ size, ?_⟩
  exact toNat_pos (c := (c.read (size * nmemb).toNat).2) h

/-- One call on the open file is the call on the cursor. -/
theorem call_ofCursor (h : c.data.length < 2 ^ 63) {k : Call} (hk : k.Sized) :
    call k (some (ofCursor c)) = .ok ((k.on c).1, some (ofCursor (k.on c).2)) := by
  cases k with
  | fseek offset whence =>
    rw [call, fseek_ofCursor h, Call.on]
    cases c.seek (target c.pos c.data.length offset whence) <;> rfl
  | ftell => rw [call, ftell_ofCursor h, Call.on]
  | fread size nmemb =>
    rw [call, fread_eq (by omega), if_neg hk, Call.on]
    rfl

theorem on_data (k : Call) (c : Cursor UInt8) : (k.on c).2.data = c.data := by
  cases k with
  | fseek offset whence =>
    rw [Call.on, Cursor.seek]
    split
    next c' hseek =>
      split at hseek
      · cases hseek
        rfl
      · cases hseek
    next => rfl
  | ftell => rfl
  | fread size nmemb => rfl

theorem onAll_data (ks : List Call) (c : Cursor UInt8) : (onAll ks c).2.data = c.data := by
  induction ks generalizing c with
  | nil => rfl
  | cons k ks ih => exact (ih _).trans (on_data k c)

/-- And so is every sequence of calls; in particular none of them faults. -/
theorem run_ofCursor (h : c.data.length < 2 ^ 63) {ks : List Call} (hks : ∀ k ∈ ks, k.Sized) :
    run ks (some (ofCursor c)) = .ok ((onAll ks c).1, some (ofCursor (onAll ks c).2)) := by
  induction ks generalizing c with
  | nil => rfl
  | cons k ks ih =>
    have hk := call_ofCursor h (hks k List.mem_cons_self)
    have hdata : (k.on c).2.data.length < 2 ^ 63 := (on_data k c).symm ▸ h
    have hrest := ih hdata fun k' hk' => hks k' (List.mem_cons_of_mem _ hk')
    rw [run, hk]
    simp only [bind, Except.bind, hrest]
    rfl

/-- Without a seek, a run delivers what one read does. -/
theorem onAll_read {ks : List Call} (hks : ∀ k ∈ ks, ¬ k.Seeks) (c : Cursor UInt8) :
    ∃ n, (delivered (onAll ks c).1, (onAll ks c).2) = c.read n := by
  induction ks generalizing c with
  | nil => exact ⟨0, c.read_zero.symm⟩
  | cons k ks ih =>
    have hrest := ih fun k' hk' => hks k' (List.mem_cons_of_mem _ hk')
    cases k with
    | fseek offset whence => exact absurd trivial (hks _ List.mem_cons_self)
    | ftell => exact hrest c
    | fread size nmemb =>
      obtain ⟨n, hn⟩ := hrest (c.read (size * nmemb).toNat).2
      refine ⟨(size * nmemb).toNat + n, ?_⟩
      rw [← Cursor.read_read, ← hn]
      rfl

/-- A seek goes where it is asked to if that is in the file, and otherwise fails and leaves the
file as it is. -/
theorem fseek_target (h : c.data.length < 2 ^ 63) (offset : BitVec 64) (whence : BitVec 32) :
    if 0 ≤ target c.pos c.data.length offset whence ∧
      target c.pos c.data.length offset whence ≤ c.data.length
    then ∃ g, fseek offset whence (some (ofCursor c)) = (0, some g) ∧
      (g.pos.toNat : Int) = target c.pos c.data.length offset whence
    else fseek offset whence (some (ofCursor c)) = (-1, some (ofCursor c)) := by
  rw [fseek_ofCursor h, Cursor.seek]
  split
  next hin =>
    refine ⟨_, rfl, (congrArg Nat.cast ?_).trans (Int.toNat_of_nonneg hin.1)⟩
    exact toNat_pos (c := ⟨c.data, _, _⟩) (h.trans (by decide))
  next => rfl

/-- Reads with no seek between them deliver the bytes between the first position and the last. -/
theorem reads_consecutive (h : c.data.length < 2 ^ 63) {ks : List Call}
    (hks : ∀ k ∈ ks, k.Sized ∧ ¬ k.Seeks) : ∃ rs g, run ks (some (ofCursor c)) = .ok (rs, some g) ∧
      c.pos ≤ g.pos.toNat ∧ delivered rs = (c.data.drop c.pos).take (g.pos.toNat - c.pos) := by
  obtain ⟨n, hread⟩ := onAll_read (fun k hk => (hks k hk).2) c
  obtain ⟨hbytes, hcursor⟩ := Prod.mk.inj hread
  refine ⟨_, _, run_ofCursor h fun k hk => (hks k hk).1, ?_⟩
  have hdata : (onAll ks c).2.data.length < 2 ^ 63 := (onAll_data ks c).symm ▸ h
  have hpos : (ofCursor (onAll ks c).2).pos.toNat = (onAll ks c).2.pos := toNat_pos (by omega)
  rw [hpos, hcursor, hbytes]
  exact ⟨Nat.le_add_right _ _, c.read_between n⟩

end Cursor

theorem fopen_ofCursor {p : Profile} {archive : Option (List UInt8)} {path data : List UInt8}
    {allocated : Bool} {f : File} (hfile : rustFsOpen p archive path = .ok (some data))
    (hopen : fopen p archive path allocated = .ok (some f)) : f = ofCursor (.start data) := by
  rw [fopen, hfile] at hopen
  cases allocated with
  | true => exact (Option.some.inj (Except.ok.inj hopen)).symm
  | false => cases Except.ok.inj hopen

/-- After any calls on a file opened with `fopen`, the position is in the file and `ftell` says
it, a seek goes where it is asked to if that is in the file and fails without moving otherwise,
a read delivers what it is asked for as far as the file goes, and reads without a seek between
them deliver the bytes that follow. No call copies from outside the data. -/
theorem file_positions_in_range {p : Profile} {archive : Option (List UInt8)}
    {path data : List UInt8} {allocated : Bool} {f : File}
    (hfile : rustFsOpen p archive path = .ok (some data))
    (hopen : fopen p archive path allocated = .ok (some f)) (hsize : data.length < 2 ^ 63)
    (ks : List Call) (hks : ∀ k ∈ ks, k.Sized) :
    ∃ rs g, run ks (some f) = .ok (rs, some g) ∧
      g.data = some data ∧ g.size.toNat = data.length ∧ g.pos.toNat ≤ data.length ∧
      ftell (some g) = g.pos.toNat ∧
      (∀ offset whence,
        if 0 ≤ target g.pos.toNat data.length offset whence ∧
          target g.pos.toNat data.length offset whence ≤ data.length
        then ∃ g', fseek offset whence (some g) = (0, some g') ∧
          (g'.pos.toNat : Int) = target g.pos.toNat data.length offset whence
        else fseek offset whence (some g) = (-1, some g)) ∧
      (∀ size nmemb : BitVec 64, size ≠ 0 → ∃ n g', fread size nmemb (some g) =
          .ok (n, (data.drop g.pos.toNat).take (size * nmemb).toNat, some g') ∧
        n.toNat = min (size * nmemb).toNat (data.length - g.pos.toNat) / size.toNat ∧
        g'.pos.toNat = g.pos.toNat + min (size * nmemb).toNat (data.length - g.pos.toNat)) ∧
      ∀ reads : List Call, (∀ k ∈ reads, k.Sized ∧ ¬ k.Seeks) → ∃ rs' g',
        run reads (some g) = .ok (rs', some g') ∧ g.pos.toNat ≤ g'.pos.toNat ∧
        delivered rs' = (data.drop g.pos.toNat).take (g'.pos.toNat - g.pos.toNat) := by
  obtain rfl := fopen_ofCursor hfile hopen
  refine ⟨_, _, run_ofCursor hsize hks, ?_⟩
  obtain ⟨c, hc⟩ : ∃ c, c = (onAll ks (.start data)).2 := ⟨_, rfl⟩
  obtain rfl : c.data = data := hc ▸ onAll_data ks _
  have hpos : (ofCursor c).pos.toNat = c.pos := toNat_pos (by omega)
  rw [← hc, hpos]
  exact ⟨rfl, toNat_length (by omega), c.inRange, ftell_ofCursor hsize, fseek_target hsize,
    fun size nmemb hs => fread_delivers (by omega) hs nmemb,
    fun reads hreads => reads_consecutive hsize hreads⟩

theorem two_bytes_in_range :
    rustFsOpen .dev (some (oneFile 2 ++ [7, 8])) [65, 0] = .ok (some [7, 8]) ∧
    fopen .dev (some (oneFile 2 ++ [7, 8])) [65, 0] true = .ok (some ⟨some [7, 8], 2, 0⟩) ∧
    ∃ rs g, run [.fread 1 1, .fseek 2 1, .ftell, .fseek (-1) 2] (some ⟨some [7, 8], 2, 0⟩) =
      .ok (rs, some g) ∧ g.data = some [7, 8] ∧ g.pos.toNat ≤ 2 := by
  have hfile : rustFsOpen .dev (some (oneFile 2 ++ [7, 8])) [65, 0] = .ok (some [7, 8]) := by
    decide +kernel
  have hopen : fopen .dev (some (oneFile 2 ++ [7, 8])) [65, 0] true =
      .ok (some ⟨some [7, 8], 2, 0⟩) := by
    decide +kernel
  obtain ⟨rs, g, hrun, hdata, -, hpos, -⟩ := file_positions_in_range hfile hopen (by decide)
    [.fread 1 1, .fseek 2 1, .ftell, .fseek (-1) 2] (by simp [Call.Sized])
  exact ⟨hfile, hopen, rs, g, hrun, hdata, hpos⟩

section Contract
variable {f : File} {data : List UInt8}

structure Opened (f : File) (data : List UInt8) : Prop where
  file : f.data = some data
  length : f.size.toNat = data.length
  inRange : f.pos ≤ f.size

theorem Opened.ofCursor (h : Opened f data) : ∃ c : Cursor UInt8,
    c.data = data ∧ c.pos = f.pos.toNat ∧ data.length < 2 ^ 64 ∧ f = Stdio.ofCursor c := by
  obtain ⟨file, size, pos⟩ := f
  obtain ⟨rfl, hlen, hpos⟩ := h
  have hsize : BitVec.ofNat 64 data.length = size := by
    rw [← hlen, BitVec.ofNat_toNat, BitVec.setWidth_eq]
  have hself : BitVec.ofNat 64 pos.toNat = pos := by rw [BitVec.ofNat_toNat, BitVec.setWidth_eq]
  refine ⟨⟨data, pos.toNat, hlen ▸ hpos⟩, rfl, rfl, hlen ▸ size.isLt, ?_⟩
  exact (congrArg₂ (File.mk (some data)) hsize hself).symm

/- As many whole items as are asked for and left, with their bytes copied first of all, and
   nothing at all if there is nothing to read. -/
def Honours (size nmemb : BitVec 64) (f : File) (data : List UInt8) : Prop :=
  ∃ n copied g, fread size nmemb (some f) = .ok (n, copied, some g) ∧
    if size = 0 ∨ nmemb = 0 then n = 0 ∧ g.pos = f.pos
    else n.toNat = min nmemb.toNat ((data.length - f.pos.toNat) / size.toNat) ∧
      (data.drop f.pos.toNat).take (n.toNat * size.toNat) <+: copied ∧
      n.toNat * size.toNat ≤ copied.length

/-- Dividing the clamped product gives the number of items exactly if the product has not
wrapped, or has wrapped to no less than the whole items left. -/
theorem clamped_div_iff {size nmemb left bytes : Nat} (hs : 0 < size) (hleft : left < 2 ^ 64)
    (hbytes : bytes = size * nmemb % 2 ^ 64) :
    min bytes left / size = min nmemb (left / size) ↔
      size * nmemb < 2 ^ 64 ∨ left / size * size ≤ bytes := by
  by_cases hfits : size * nmemb < 2 ^ 64
  · rw [Nat.mod_eq_of_lt hfits] at hbytes
    refine iff_of_true (eq_of_forall_le_iff fun k => ?_) (.inl hfits)
    rw [Nat.le_div_iff_mul_le hs, le_min_iff, le_min_iff, Nat.le_div_iff_mul_le hs, hbytes,
      Nat.mul_comm size, Nat.mul_le_mul_right_iff hs]
  · -- more is asked for than any file has left
    have hmore : left / size ≤ nmemb := by
      refine Nat.le_of_lt (Nat.div_lt_of_lt_mul ?_)
      omega
    have hle : min bytes left / size ≤ left / size := Nat.div_le_div_right (min_le_right _ _)
    have hwhole : left / size * size ≤ left := Nat.div_mul_le_self left size
    rw [min_eq_right hmore, or_iff_right hfits, ← hle.ge_iff_eq, Nat.le_div_iff_mul_le hs,
      le_min_iff, and_iff_left hwhole]

/-- Whatever the count, the bytes of the items returned have been copied. -/
theorem items_copied (c : Cursor UInt8) (bytes size : Nat) :
    (c.data.drop c.pos).take (min bytes c.left / size * size) <+: (c.read bytes).1 ∧
      min bytes c.left / size * size ≤ (c.read bytes).1.length := by
  have hle : min bytes c.left / size * size ≤ (c.read bytes).1.length :=
    (Nat.div_mul_le_self _ _).trans_eq (c.read_length bytes).symm
  refine ⟨List.prefix_of_prefix_length_le (List.take_prefix _ _) (List.take_prefix _ _) ?_, hle⟩
  exact (List.length_take_le _ _).trans hle

theorem honours_iff {c : Cursor UInt8} (h : c.data.length < 2 ^ 64) (size nmemb : BitVec 64) :
    Honours size nmemb (Stdio.ofCursor c) c.data ↔ size ≠ 0 ∧
      (size.toNat * nmemb.toNat < 2 ^ 64 ∨
        c.left / size.toNat * size.toNat ≤ (size * nmemb).toNat) := by
  have hpos : (Stdio.ofCursor c).pos.toNat = c.pos := toNat_pos h
  have hleft : c.data.length - (Stdio.ofCursor c).pos.toNat = c.left := by rw [hpos]; rfl
  have hread := fread_eq h size nmemb
  by_cases hs : size = 0
  · refine iff_of_false ?_ fun hgood => hgood.1 hs
    rintro ⟨n, copied, g, hok, -⟩
    rw [hread, if_pos hs] at hok
    cases hok
  rw [if_neg hs] at hread
  have hcount := items_toNat h (size * nmemb).toNat size
  rw [and_iff_right hs]
  by_cases hn : nmemb = 0
  · subst hn
    refine iff_of_true ⟨_, _, _, hread, ?_⟩ (.inl (by simp))
    have hzero : (size * 0).toNat = 0 := by simp
    rw [if_pos (.inr rfl), hzero, c.read_zero]
    exact ⟨BitVec.zero_udiv, rfl⟩
  · have hsize : 0 < size.toNat := Nat.pos_of_ne_zero fun h0 => hs (BitVec.eq_of_toNat_eq h0)
    have hless : c.left < 2 ^ 64 := (Nat.sub_le _ _).trans_lt h
    have hiff := clamped_div_iff hsize hless (BitVec.toNat_mul size nmemb)
    have hneither : ¬ (size = 0 ∨ nmemb = 0) := not_or.mpr ⟨hs, hn⟩
    refine Iff.trans ⟨?_, fun heq => ?_⟩ hiff
    · rintro ⟨n, copied, g, hok, hcontract⟩
      rw [hread] at hok
      cases hok
      rw [if_neg hneither, hleft, hcount] at hcontract
      exact hcontract.1
    · refine ⟨_, _, _, hread, ?_⟩
      rw [if_neg hneither, hleft, hcount, hpos]
      exact ⟨heq, items_copied c _ _⟩

/-- `fread` keeps its contract exactly for items of at least one byte, and a product of size and
number that either fits a `size_t` or wraps to no less than the whole items left. -/
theorem fread_contract_iff (f : File) (data : List UInt8) (h : Opened f data)
    (size nmemb : BitVec 64) :
    Honours size nmemb f data ↔ size ≠ 0 ∧
      (size.toNat * nmemb.toNat < 2 ^ 64 ∨
        (data.length - f.pos.toNat) / size.toNat * size.toNat ≤ (size * nmemb).toNat) := by
  obtain ⟨c, rfl, hpos, hlen, rfl⟩ := h.ofCursor
  rw [← hpos]
  exact honours_iff hlen size nmemb

def fourBytes : File := ⟨some [1, 2, 3, 4], 4, 0⟩

theorem fourBytes_opened : Opened fourBytes [1, 2, 3, 4] := ⟨rfl, rfl, by decide⟩

theorem two_pairs_read : Opened fourBytes [1, 2, 3, 4] ∧ Honours 2 3 fourBytes [1, 2, 3, 4] :=
  ⟨fourBytes_opened, (fread_contract_iff _ _ fourBytes_opened 2 3).mpr (by decide)⟩

/-- An item size of 0 divides by zero; and `2 ^ 63 + 1` pairs make a product of 2, so that one
pair is returned where there are two. -/
theorem fread_breaks_contract : Opened fourBytes [1, 2, 3, 4] ∧
    fread 0 1 (some fourBytes) = .error .divide ∧ ¬ Honours 0 1 fourBytes [1, 2, 3, 4] ∧
    fread 2 0x8000000000000001 (some fourBytes) = .ok (1, [1, 2], some ⟨some [1, 2, 3, 4], 4, 2⟩) ∧
    ¬ Honours 2 0x8000000000000001 fourBytes [1, 2, 3, 4] := by
  have hzero : fread 0 1 (some fourBytes) = .error .divide := by decide +kernel
  have hwraps : fread 2 0x8000000000000001 (some fourBytes) =
      .ok (1, [1, 2], some ⟨some [1, 2, 3, 4], 4, 2⟩) := by decide +kernel
  refine ⟨fourBytes_opened, hzero, ?_, hwraps, ?_⟩
  · rintro ⟨n, copied, g, hok, -⟩
    rw [hzero] at hok
    cases hok
  · rintro ⟨n, copied, g, hok, hcontract⟩
    rw [hwraps] at hok
    cases hok
    exact absurd hcontract.1 (by decide)

end Contract

end MoltOS.Stdio
