import MoltOS.Bytes

/-! The archive writer of `tools/mkcxfs.py`: header, one entry a file with a running data
offset, the blobs, and zeros up to a sector boundary. -/
namespace MoltOS.MkCxfs
open MoltOS.Rust

def magic : List UInt8 := [0x43, 0x58, 0x46, 0x53]
def nameLen : Nat := 32
def entrySize : Nat := 40
def sector : Nat := 512

structure File where
  name : String
  data : List UInt8

inductive BuildError where
  | unicodeEncode
  | nameTooLong
  | structPack
deriving DecidableEq, Repr

def asciiBytes (name : String) : List UInt8 := name.toList.map fun c => UInt8.ofNat c.toNat

def encodeAscii (name : String) : Except BuildError (List UInt8) :=
  if name.toList.all fun c => c.toNat < 128 then .ok (asciiBytes name) else .error .unicodeEncode

def packName (name : String) : Except BuildError (List UInt8) := do
  let b ← encodeAscii name
  if nameLen ≤ b.length then .error .nameTooLong
  else pure (b ++ List.replicate (nameLen - b.length) 0)

def packU32 (n : Nat) : Except BuildError (List UInt8) :=
  if n < 2 ^ 32 then .ok (toLeBytes 4 n) else .error .structPack

structure Entry where
  name : String
  offset : Nat
  size : Nat

def layout (cursor : Nat) : List File → List Entry
  | [] => []
  | f :: fs => ⟨f.name, cursor, f.data.length⟩ :: layout (cursor + f.data.length) fs

def packEntry (e : Entry) : Except BuildError (List UInt8) := do
  let name ← packName e.name
  let offset ← packU32 e.offset
  let size ← packU32 e.size
  pure (name ++ (offset ++ size))

def packEntries : List Entry → Except BuildError (List UInt8)
  | [] => .ok []
  | e :: es => do
    let head ← packEntry e
    let tail ← packEntries es
    pure (head ++ tail)

def blobs (files : List File) : List UInt8 := files.flatMap (·.data)

def padding (pos : Nat) : List UInt8 :=
  if pos % sector = 0 then [] else List.replicate (sector - pos % sector) 0

def build (files : List File) : Except BuildError (List UInt8) := do
  let count ← packU32 files.length
  let entries ← packEntries (layout (8 + files.length * entrySize) files)
  let written := magic ++ (count ++ (entries ++ blobs files))
  pure (written ++ padding written.length)

end MoltOS.MkCxfs
