import MoltOS.Bytes

/-! The CXFS archive as `fs::init` accepts it and `fs::open` reads it. `init` checks the
magic only; every position, offset and size is used as it stands on the disk. -/
namespace MoltOS.Fs
open MoltOS.Rust

def magic : List UInt8 := [0x43, 0x58, 0x46, 0x53]
def entrySize : Nat := 40
def nameLen : Nat := 32

inductive AtaError where
  | noDrive
  | diskError
  | overflow
deriving DecidableEq, Repr

inductive FsError where
  | noDrive
  | diskError
  | badMagic
deriving DecidableEq, Repr

/- What `ata::read_all` returned, and the archive cell before the call; with it the cell
   after the call, which keeps the first archive it is given. -/
def init (archive : Option (List UInt8)) (read : Except AtaError (List UInt8)) :
    Except FsError Nat × Option (List UInt8) :=
  match read with
  | .error .noDrive => (.error .noDrive, archive)
  | .error _ => (.error .diskError, archive)
  | .ok data =>
    if data.length < 8 ∨ data.take 4 ≠ magic then (.error .badMagic, archive)
    else (.ok (fromLeBytes ((data.drop 4).take 4)), some (archive.getD data))

def readEntry (p : Profile) (data : List UInt8) (i : Nat) : Except Panic (List UInt8) := do
  let offset ← mul p i entrySize
  let start ← add p 8 offset
  let rest ← sliceFrom data start
  sliceTo rest entrySize

def readName (entry : List UInt8) : Except Panic (Option Str) := do
  let rawName ← sliceTo entry nameLen
  let nul := (rawName.findIdx? fun b => b == 0).getD nameLen
  let name ← sliceTo rawName nul
  pure (Str.fromUtf8 name)

def readData (p : Profile) (data entry : List UInt8) : Except Panic (List UInt8) := do
  let offset ← slice entry 32 36
  let size ← slice entry 36 40
  let stop ← add p (fromLeBytes offset) (fromLeBytes size)
  slice data (fromLeBytes offset) stop

/- `n` more rounds of the loop from index `i` on. A name that is not valid UTF-8 makes
   the whole call return `None`. -/
def openLoop (p : Profile) (data : List UInt8) (name : Str) (i : Nat) :
    Nat → Except Panic (Option (List UInt8))
  | 0 => .ok none
  | n + 1 => do
    let entry ← readEntry p data i
    let entryName ← readName entry
    match entryName with
    | none => pure none
    | some entryName =>
      if eqIgnoreAsciiCase entryName.bytes name.bytes then do
        let found ← readData p data entry
        pure (some found)
      else openLoop p data name (i + 1) n

def openFile (p : Profile) (archive : Option (List UInt8)) (name : Str) :
    Except Panic (Option (List UInt8)) :=
  match archive with
  | none => .ok none
  | some data => do
    let count ← slice data 4 8
    openLoop p data name 0 (fromLeBytes count)

/- `name` is the memory from the pointer on. -/
def rustFsOpen (p : Profile) (archive : Option (List UInt8)) (name : List UInt8) :
    Except Panic (Option (List UInt8)) :=
  match Str.fromUtf8 (name.takeWhile fun b => b != 0) with
  | none => .ok none
  | some name => openFile p archive name

end MoltOS.Fs
