import MoltOS.Playpal

/-! A VGA adapter as far as its 256-colour modes need it: the banks of registers behind the ports,
the four planes of memory with chained addressing, and the picture that is scanned out. Where the
registers ask for something else, a write or a pixel has no value here. -/
namespace MoltOS.VgaAdapter
open MoltOS.Playpal (Dac)

structure Bank where
  index : UInt8
  regs : UInt8 → UInt8

def Bank.select (b : Bank) (i : UInt8) : Bank := { b with index := i }

def Bank.put (b : Bank) (v : UInt8) : Bank := { b with regs := Function.update b.regs b.index v }

/- Bit 7 of register 0x11 protects the first eight registers of the CRTC, but for one bit of the
   line compare. -/
def Bank.putProtected (b : Bank) (v : UInt8) : Bank :=
  if b.index ≤ 7 ∧ b.regs 0x11 &&& 0x80 ≠ 0 then
    if b.index = 7 then b.put ((b.regs 7 &&& 0xEF) ||| (v &&& 0x10)) else b
  else b.put v

/- One port for index and data; `data` says which one is expected. Bit 5 of the index gives the
   palette to the display, and takes it from the processor. -/
structure Attribute where
  index : UInt8
  data : Bool
  regs : UInt8 → UInt8

def Attribute.write (a : Attribute) (v : UInt8) : Attribute :=
  if a.data then
    if a.index &&& 0x1F < 0x10 ∧ a.index &&& 0x20 ≠ 0 then { a with data := false }
    else { a with data := false, regs := Function.update a.regs (a.index &&& 0x1F) v }
  else { a with index := v, data := true }

/- `memory` is a byte for a plane and an address in it. -/
structure Adapter where
  misc : UInt8
  seq : Bank
  crtc : Bank
  gc : Bank
  ac : Attribute
  dac : Dac
  pelMask : UInt8
  memory : Nat × Nat → UInt8

namespace Adapter

def colour (a : Adapter) : Bool := a.misc &&& 1 = 1

def write (a : Adapter) (port : Nat) (v : UInt8) : Adapter :=
  match port with
  | 0x3C0 => { a with ac := a.ac.write v }
  | 0x3C2 => { a with misc := v }
  | 0x3C4 => { a with seq := a.seq.select v }
  | 0x3C5 => { a with seq := a.seq.put v }
  | 0x3C8 => { a with dac := a.dac.write (0x3C8, v) }
  | 0x3C9 => { a with dac := a.dac.write (0x3C9, v) }
  | 0x3CE => { a with gc := a.gc.select v }
  | 0x3CF => { a with gc := a.gc.put v }
  | 0x3D4 => if a.colour then { a with crtc := a.crtc.select v } else a
  | 0x3D5 => if a.colour then { a with crtc := a.crtc.putProtected v } else a
  | _ => a

/- A read of the input status makes the attribute controller expect an index. -/
def read (a : Adapter) (port : Nat) : UInt8 × Adapter :=
  match port with
  | 0x3D5 => (if a.colour then a.crtc.regs a.crtc.index else 0xFF, a)
  | 0x3DA =>
    (0, if a.colour then { a with ac := { a.ac with data := false } } else a)
  | _ => (0xFF, a)

def dword (n : Nat) : Nat := 4 * n + n / 4096 % 4

/- The window of 64 KiB at 0xA0000 with chained planes, written without the help of latches. -/
def Chained (a : Adapter) : Prop :=
  a.misc &&& 2 = 2 ∧ a.seq.regs 4 &&& 8 = 8 ∧ a.gc.regs 6 &&& 0xC = 4 ∧ a.gc.regs 1 &&& 0xF = 0 ∧
    a.gc.regs 3 &&& 0x1F = 0 ∧ a.gc.regs 5 &&& 3 = 0 ∧ a.gc.regs 8 = 0xFF

instance (a : Adapter) : Decidable a.Chained := by unfold Chained; infer_instance

def store (a : Adapter) (off : Nat) (v : UInt8) : Option Adapter :=
  if a.Chained ∧ off < 65536 ∧ (a.seq.regs 2).toNat.testBit (off % 4) then
    some { a with memory := Function.update a.memory (off % 4, dword (off / 4)) v }
  else none

/- The display is on, with 256 colours, addresses that step four bytes, and no panning. -/
def Scans256 (a : Adapter) : Prop :=
  a.seq.regs 0 &&& 3 = 3 ∧ a.seq.regs 1 &&& 0x21 = 1 ∧ a.crtc.regs 0x17 &&& 0x80 = 0x80 ∧
    a.ac.index &&& 0x20 = 0x20 ∧ a.gc.regs 5 &&& 0x40 = 0x40 ∧
    a.ac.regs 0x10 &&& 0x41 = 0x41 ∧ a.crtc.regs 0x14 &&& 0x40 = 0x40 ∧
    a.crtc.regs 8 = 0 ∧ a.ac.regs 0x13 &&& 0xF = 0

instance (a : Adapter) : Decidable a.Scans256 := by unfold Scans256; infer_instance

def bit (v : UInt8) (i : Nat) : Nat := (v.toNat.testBit i).toNat

def width (a : Adapter) : Nat := 4 * ((a.crtc.regs 1).toNat + 1)

def scanLines (a : Adapter) : Nat :=
  (a.crtc.regs 0x12).toNat + 256 * bit (a.crtc.regs 7) 1 + 512 * bit (a.crtc.regs 7) 6 + 1

def lineCompare (a : Adapter) : Nat :=
  (a.crtc.regs 0x18).toNat + 256 * bit (a.crtc.regs 7) 4 + 512 * bit (a.crtc.regs 9) 6

def linesPerRow (a : Adapter) : Nat :=
  ((a.crtc.regs 9 &&& 0x1F).toNat + 1) * (1 + bit (a.crtc.regs 9) 7)

def height (a : Adapter) : Nat := a.scanLines / a.linesPerRow

def startAddress (a : Adapter) : Nat := 256 * (a.crtc.regs 0xC).toNat + (a.crtc.regs 0xD).toNat

def counter (a : Adapter) (x y : Nat) : Nat :=
  a.startAddress + 2 * (a.crtc.regs 0x13).toNat * y + x / 4

def nibble (a : Adapter) (v : UInt8) : UInt8 :=
  a.ac.regs (v &&& a.ac.regs 0x12 &&& 0xF) &&& 0xF

def colourOf (a : Adapter) (v : UInt8) : UInt8 × UInt8 × UInt8 :=
  a.dac.colours ((a.nibble (v >>> 4) <<< 4 ||| a.nibble (v &&& 0xF)) &&& a.pelMask)

def pixel (a : Adapter) (x y : Nat) : Option (UInt8 × UInt8 × UInt8) :=
  if a.Scans256 ∧ x < a.width ∧ y < a.height ∧ (y + 1) * a.linesPerRow ≤ a.lineCompare then
    some (a.colourOf (a.memory (x % 4, dword (a.counter x y % 16384))))
  else none

end Adapter

/-! How a table of registers is written. -/

def assign (f : UInt8 → UInt8) (l : List (UInt8 × UInt8)) : UInt8 → UInt8 :=
  l.foldl (fun f r => Function.update f r.1 r.2) f

theorem assign_of_notMem {i : UInt8} {l : List (UInt8 × UInt8)} (f : UInt8 → UInt8)
    (h : i ∉ l.map Prod.fst) : assign f l i = f i := by
  induction l generalizing f with
  | nil => rfl
  | cons r l ih =>
    rw [List.map_cons, List.mem_cons, not_or] at h
    exact (ih _ h.2).trans (Function.update_of_ne h.1 _ _)

/-- A table without a repeated index leaves its values. -/
theorem assign_of_mem {i v : UInt8} {l : List (UInt8 × UInt8)} (f : UInt8 → UInt8)
    (hnodup : (l.map Prod.fst).Nodup) (h : (i, v) ∈ l) : assign f l i = v := by
  induction l generalizing f with
  | nil => cases h
  | cons r l ih =>
    obtain ⟨hr, hl⟩ := List.nodup_cons.mp hnodup
    rcases List.mem_cons.mp h with rfl | h
    · exact (assign_of_notMem _ hr).trans (Function.update_self _ _ _)
    · exact ih _ hl h

def Bank.load (b : Bank) (l : List (UInt8 × UInt8)) : Bank :=
  l.foldl (fun b r => (b.select r.1).put r.2) b

def Bank.loadProtected (b : Bank) (l : List (UInt8 × UInt8)) : Bank :=
  l.foldl (fun b r => (b.select r.1).putProtected r.2) b

theorem Bank.load_regs (b : Bank) (l : List (UInt8 × UInt8)) :
    (b.load l).regs = assign b.regs l := by
  induction l generalizing b with
  | nil => rfl
  | cons r l ih => exact ih _

/-- Unlocked, and not locked by the table, the protected bank takes all of it. -/
theorem Bank.loadProtected_eq {b : Bank} {l : List (UInt8 × UInt8)}
    (hb : b.regs 0x11 &&& 0x80 = 0) (hl : ∀ r ∈ l, r.1 = 0x11 → r.2 &&& 0x80 = 0) :
    b.loadProtected l = b.load l := by
  induction l generalizing b with
  | nil => rfl
  | cons r l ih =>
    obtain ⟨hr, hl⟩ := List.forall_mem_cons.mp hl
    have hput : (b.select r.1).putProtected r.2 = (b.select r.1).put r.2 := by
      rw [Bank.putProtected, if_neg fun h => h.2 hb]
    rw [Bank.loadProtected, List.foldl_cons, hput]
    refine ih ?_ hl
    by_cases hi : r.1 = 0x11
    · simpa [Bank.put, Bank.select, hi] using hr hi
    · simpa [Bank.put, Bank.select, Function.update_of_ne (Ne.symm hi)] using hb

def Attribute.load (a : Attribute) (l : List (UInt8 × UInt8)) : Attribute :=
  l.foldl (fun a r => (a.write r.1).write r.2) a

/-- Index and data alternate, and the palette stays with the processor. -/
theorem Attribute.load_spec {a : Attribute} {l : List (UInt8 × UInt8)} (ha : a.data = false)
    (hl : ∀ r ∈ l, r.1 &&& 0x1F = r.1 ∧ r.1 &&& 0x20 = 0) :
    (a.load l).data = false ∧ (a.load l).regs = assign a.regs l := by
  induction l generalizing a with
  | nil => exact ⟨ha, rfl⟩
  | cons r l ih =>
    obtain ⟨⟨hlow, hpas⟩, hl⟩ := List.forall_mem_cons.mp hl
    have hwrite : (a.write r.1).write r.2 =
        { index := r.1, data := false, regs := Function.update a.regs r.1 r.2 } := by
      simp [Attribute.write, ha, hlow, hpas]
    rw [Attribute.load, List.foldl_cons, hwrite]
    exact ih rfl hl

end MoltOS.VgaAdapter
