import MoltOS.Allocator
import MoltOS.Frames
import MoltOS.NodeTree

/-! The page tables of `memory.rs` and `allocator.rs`: `translate_addr`, and the mappings that
`kernel_main` adds with a mapper that it is handed. All physical memory is mapped at the offset
the bootloader chose, so a table is read and written at its frame. -/
namespace MoltOS.Paging
open MoltOS.Rust MoltOS.Frames MoltOS.NodeTree
open MoltOS.Allocator (heapStart heapSize)

structure VirtAddr where
  val : Nat
  canonical : val < 2 ^ 47 ∨ 2 ^ 64 - 2 ^ 47 ≤ val ∧ val < 2 ^ 64

namespace VirtAddr

def p1Index (a : VirtAddr) : Nat := a.val / 4096 % 512
def p2Index (a : VirtAddr) : Nat := a.val / 4096 / 512 % 512
def p3Index (a : VirtAddr) : Nat := a.val / 4096 / 512 / 512 % 512
def p4Index (a : VirtAddr) : Nat := a.val / 4096 / 512 / 512 / 512 % 512

def pageOffset (a : VirtAddr) : Nat := a.val % 4096

def tableIndexes (a : VirtAddr) : List Nat := [a.p4Index, a.p3Index, a.p2Index, a.p1Index]

end VirtAddr

abbrev Entry := BitVec 64

def present : Entry := 0x1
def writable : Entry := 0x2
def hugePage : Entry := 0x80
def addrMask : Entry := 0x000ffffffffff000

inductive FrameError where
  | frameNotPresent
  | hugeFrame
deriving DecidableEq, Repr

namespace Entry

def addr (e : Entry) : Nat := (e &&& addrMask).toNat

def contains (e flags : Entry) : Bool := e &&& flags == flags

def frame (e : Entry) : Except FrameError PhysFrame :=
  if !contains e present then .error .frameNotPresent
  else if contains e hugePage then .error .hugeFrame
  else .ok (containingAddress (addr e))

def setFrame (f : PhysFrame) (flags : Entry) : Entry := BitVec.ofNat 64 f.startAddress ||| flags

end Entry

abbrev Tables := PhysFrame → Nat → Entry

inductive Stop where
  | hugePages
  | heapFailed
  | mapFailed
  | fault (f : Fault)

def translateLoop (m : Tables) : PhysFrame → List Nat → Except Stop (Option PhysFrame)
  | frame, [] => .ok (some frame)
  | frame, i :: indexes => match Entry.frame (m frame i) with
    | .ok next => translateLoop m next indexes
    | .error .frameNotPresent => .ok none
    | .error .hugeFrame => .error .hugePages

def translateAddr (m : Tables) (cr3 : PhysFrame) (a : VirtAddr) : Except Stop (Option Nat) :=
  match translateLoop m cr3 a.tableIndexes with
  | .ok (some frame) => match physAddr (frame.startAddress + a.pageOffset) with
    | .ok x => .ok (some x)
    | .error f => .error (.fault f)
  | .ok none => .ok none
  | .error x => .error x

structure State where
  tables : Tables
  frames : BootInfoFrameAllocator

def mapFlags : Entry := present ||| writable

inductive Ends where
  | notPresent
  | reserved
  | large (bits base : Nat)
deriving DecidableEq, Repr

/- How the processor reads an entry: bit 7 is reserved in the first table, makes a page of 1 GiB
   in the second and of 2 MiB in the third, and selects the memory type in the fourth. -/
def hardwareNext (d : Nat) (e : Entry) : Except Ends PhysFrame :=
  if !Entry.contains e present then .error .notPresent
  else if Entry.contains e hugePage then
    match d with
    | 0 => .error .reserved
    | 1 => .error (.large 30 (Entry.addr e))
    | 2 => .error (.large 21 (Entry.addr e))
    | _ => .ok (containingAddress (Entry.addr e))
  else .ok (containingAddress (Entry.addr e))

inductive PageFault where
  | notPresent
  | reserved
deriving DecidableEq, Repr

def hardware (m : Tables) (cr3 : PhysFrame) (a : VirtAddr) : Except PageFault Nat :=
  match walk hardwareNext m 0 cr3 a.tableIndexes with
  | .ok frame => .ok (frame.startAddress + a.pageOffset)
  | .error .notPresent => .error .notPresent
  | .error .reserved => .error .reserved
  | .error (.large bits base) => .ok (base / 2 ^ bits * 2 ^ bits + a.val % 2 ^ bits)

def softwareNext (_ : Nat) (e : Entry) : Except FrameError PhysFrame := Entry.frame e

section Bits
variable {e : Entry} {f : PhysFrame} {d : Nat}

theorem contains_present (e : Entry) : Entry.contains e present = e.getLsbD 0 := by
  have h : present = BitVec.twoPow 64 0 := by decide
  rw [Entry.contains, h, BitVec.and_twoPow]
  cases e.getLsbD 0 <;> decide

theorem contains_hugePage (e : Entry) : Entry.contains e hugePage = e.getLsbD 7 := by
  have h : hugePage = BitVec.twoPow 64 7 := by decide
  rw [Entry.contains, h, BitVec.and_twoPow]
  cases e.getLsbD 7 <;> decide

theorem addr_or_mapFlags (e : Entry) : Entry.addr (e ||| mapFlags) = Entry.addr e := by
  have h : mapFlags &&& addrMask = 0#64 := by decide
  rw [Entry.addr, BitVec.and_or_distrib_right, h, BitVec.or_zero, Entry.addr]

structure Frame (f : PhysFrame) : Prop where
  aligned : frameSize ∣ f.startAddress
  bounded : f.startAddress < 2 ^ 52

theorem addrMask_bit (i : Nat) (h : i < 64) :
    addrMask.getLsbD i = (decide (12 ≤ i) && decide (i < 52)) := by
  have hall : ∀ i : Fin 64, addrMask.getLsbD i.1 = (decide (12 ≤ i.1) && decide (i.1 < 52)) := by
    decide
  exact hall ⟨i, h⟩

theorem Frame.bit (h : Frame f) (i : Nat) (hi : i < 12 ∨ 52 ≤ i) :
    f.startAddress.testBit i = false := by
  obtain ⟨k, hk⟩ := h.aligned
  obtain hi | hi := hi
  · have hpow : frameSize = 2 ^ 12 := rfl
    rw [hk, hpow, Nat.testBit_two_pow_mul]
    simp [show ¬ i ≥ 12 by omega]
  · exact Nat.testBit_lt_two_pow (h.bounded.trans_le (Nat.pow_le_pow_right (by decide) hi))

theorem Frame.addr (h : Frame f) :
    Entry.addr (BitVec.ofNat 64 f.startAddress) = f.startAddress := by
  have hmask : BitVec.ofNat 64 f.startAddress &&& addrMask = BitVec.ofNat 64 f.startAddress := by
    refine BitVec.eq_of_getLsbD_eq fun i hi => ?_
    rw [BitVec.getLsbD_and, addrMask_bit i hi, BitVec.getLsbD_ofNat]
    by_cases hin : 12 ≤ i ∧ i < 52
    · simp [hin]
    · simp [h.bit i (by omega)]
  have hlt := h.bounded
  rw [Entry.addr, hmask, BitVec.toNat_ofNat]
  omega

theorem Frame.containing (h : Frame f) : containingAddress f.startAddress = f := by
  rw [containingAddress_of_dvd h.aligned]

theorem or_mapFlags_present (e : Entry) : Entry.contains (e ||| mapFlags) present = true := by
  rw [contains_present, BitVec.getLsbD_or, show mapFlags.getLsbD 0 = true by decide, Bool.or_true]

theorem or_mapFlags_hugePage (e : Entry) :
    Entry.contains (e ||| mapFlags) hugePage = Entry.contains e hugePage := by
  rw [contains_hugePage, contains_hugePage, BitVec.getLsbD_or,
    show mapFlags.getLsbD 7 = false by decide, Bool.or_false]

theorem Frame.not_hugePage (h : Frame f) :
    Entry.contains (BitVec.ofNat 64 f.startAddress) hugePage = false := by
  rw [contains_hugePage, BitVec.getLsbD_ofNat, h.bit 7 (by omega), Bool.and_false]

end Bits

/-- What the kernel's and the processor's reading of the entries have in common. -/
structure Reading {ε : Type} (next : Nat → Entry → Except ε PhysFrame) (absent : ε) : Prop where
  blank : ∀ d, next d 0 = .error absent
  framed : ∀ d f, Frame f → next d (Entry.setFrame f mapFlags) = .ok f
  tables : ∀ d e c, d < 3 → (next d e = .ok c ↔ Entry.frame e = .ok c)

theorem software_reading : Reading softwareNext .frameNotPresent where
  blank := fun _ => rfl
  framed := fun d f h => by
    simp [softwareNext, Entry.frame, Entry.setFrame, or_mapFlags_present, or_mapFlags_hugePage,
      h.not_hugePage, addr_or_mapFlags, h.addr, h.containing]
  tables := fun _ _ _ _ => Iff.rfl

theorem hardware_reading : Reading hardwareNext .notPresent where
  blank := fun _ => rfl
  framed := fun d f h => by
    simp [hardwareNext, Entry.setFrame, or_mapFlags_present, or_mapFlags_hugePage, h.not_hugePage,
      addr_or_mapFlags, h.addr, h.containing]
  tables := fun d e c hd => by
    unfold hardwareNext Entry.frame
    cases Entry.contains e present with
    | false => simp
    | true =>
      cases Entry.contains e hugePage with
      | false => simp
      | true =>
        obtain rfl | rfl | rfl : d = 0 ∨ d = 1 ∨ d = 2 := by omega
        all_goals simp

theorem frame_ok_hardware (d : Nat) (e : Entry) (c : PhysFrame) (h : softwareNext d e = .ok c) :
    hardwareNext d e = .ok c := by
  unfold softwareNext Entry.frame at h
  unfold hardwareNext
  cases hp : Entry.contains e present <;> cases hh : Entry.contains e hugePage <;> simp_all

theorem frame_absent_hardware (d : Nat) (e : Entry) (h : softwareNext d e = .error .frameNotPresent) :
    hardwareNext d e = .error .notPresent := by
  unfold softwareNext Entry.frame at h
  unfold hardwareNext
  cases hp : Entry.contains e present <;> cases hh : Entry.contains e hugePage <;> simp_all

section Translate
variable {m : Tables} {cr3 f : PhysFrame} {a : VirtAddr}

theorem translateLoop_eq (m : Tables) (f : PhysFrame) (d : Nat) (l : List Nat) :
    translateLoop m f l = match walk softwareNext m d f l with
      | .ok frame => .ok (some frame)
      | .error .frameNotPresent => .ok none
      | .error .hugeFrame => .error .hugePages := by
  induction l generalizing f d with
  | nil => rfl
  | cons i l ih =>
    unfold translateLoop walk softwareNext
    cases hframe : Entry.frame (m f i) with
    | ok next => exact ih next (d + 1)
    | error x => cases x <;> rfl

theorem frame_bounded {e : Entry} (h : Entry.frame e = .ok f) : f.startAddress + 4096 ≤ 2 ^ 52 := by
  have hmask : addrMask.toNat ≤ 2 ^ 52 - 4096 := by decide
  have hle : Entry.addr e ≤ addrMask.toNat := by
    rw [Entry.addr, BitVec.toNat_and]
    exact Nat.and_le_right
  unfold Entry.frame at h
  split at h
  · cases h
  · split at h
    · cases h
    · cases h
      simp only [containingAddress, frameSize]
      omega

/-- Where the walk comes to a frame, `translate_addr` returns the address in it. -/
theorem translateAddr_of_walk (h : walk softwareNext m 0 cr3 a.tableIndexes = .ok f) :
    translateAddr m cr3 a = .ok (some (f.startAddress + a.pageOffset)) := by
  obtain ⟨table, -, hlast⟩ := walk_snoc_ok (p := [a.p4Index, a.p3Index, a.p2Index]) h
  have hbound := frame_bounded hlast
  have hoffset : a.pageOffset < 4096 := Nat.mod_lt _ (by decide)
  have hphys : physAddr (f.startAddress + a.pageOffset) = .ok (f.startAddress + a.pageOffset) :=
    if_pos (by omega)
  simp only [translateAddr, translateLoop_eq m cr3 0, h, hphys]

theorem frame_huge {e : Entry} : Entry.frame e = .error .hugeFrame ↔
    Entry.contains e present = true ∧ Entry.contains e hugePage = true := by
  unfold Entry.frame
  cases Entry.contains e present <;> cases Entry.contains e hugePage <;> simp

/-- Bit 7 is never taken for a missing page: it ends the walk in the upper tables, and the last
one is the end of it anyway. -/
theorem hardware_of_huge (h : walk softwareNext m 0 cr3 a.tableIndexes = .error .hugeFrame) :
    walk hardwareNext m 0 cr3 a.tableIndexes ≠ .error .notPresent := by
  obtain ⟨q, i, r, table, he, hq, hi⟩ := walk_eq_error.mp h
  obtain ⟨hpresent, hhuge⟩ := frame_huge.mp hi
  have hlen : q.length + (r.length + 1) = 4 := by
    have := congrArg List.length he
    simpa [VirtAddr.tableIndexes, eq_comm] using this
  have hq' := walk_ok_of_reading 4 (fun d e c _ => frame_ok_hardware d e c) (by omega) hq
  rw [he, walk_append_ok hq', Nat.zero_add]
  obtain hd | hd | hd | ⟨hd, hr⟩ : q.length = 0 ∨ q.length = 1 ∨ q.length = 2 ∨
      q.length = 3 ∧ r.length = 0 := by omega
  · have hend : hardwareNext q.length (m table i) = .error .reserved := by
      simp [hardwareNext, hpresent, hhuge, hd]
    simp [walk_cons_error hend]
  · have hend : hardwareNext q.length (m table i) = .error (.large 30 (Entry.addr (m table i))) := by
      simp [hardwareNext, hpresent, hhuge, hd]
    simp [walk_cons_error hend]
  · have hend : hardwareNext q.length (m table i) = .error (.large 21 (Entry.addr (m table i))) := by
      simp [hardwareNext, hpresent, hhuge, hd]
    simp [walk_cons_error hend]
  · have hend : hardwareNext q.length (m table i) =
        .ok (containingAddress (Entry.addr (m table i))) := by
      simp [hardwareNext, hpresent, hhuge, hd]
    rw [walk_cons_ok hend, List.length_eq_zero_iff.mp hr, walk]
    simp

/-- `translate_addr` and the processor. An address that is returned is the one the processor goes
to; none is returned where the processor finds no page, and only there; and it panics where its
walk comes to an entry with bit 7 set: a large page, or a page of 4 KiB with another memory
type. -/
theorem translateAddr_agrees (m : Tables) (cr3 : PhysFrame) (a : VirtAddr) :
    (∀ x, translateAddr m cr3 a = .ok (some x) → hardware m cr3 a = .ok x) ∧
    (translateAddr m cr3 a = .ok none ↔ hardware m cr3 a = .error .notPresent) ∧
    ((∃ x, translateAddr m cr3 a = .error x) ↔ ∃ q i r table, a.tableIndexes = q ++ i :: r ∧
      walk softwareNext m 0 cr3 q = .ok table ∧ Entry.contains (m table i) present = true ∧
      Entry.contains (m table i) hugePage = true) := by
  have hbit : (∃ q i r table, a.tableIndexes = q ++ i :: r ∧
      walk softwareNext m 0 cr3 q = .ok table ∧ Entry.contains (m table i) present = true ∧
      Entry.contains (m table i) hugePage = true) ↔
      walk softwareNext m 0 cr3 a.tableIndexes = .error .hugeFrame := by
    rw [walk_eq_error]
    simp only [softwareNext, frame_huge]
  rw [hbit]
  cases hwalk : walk softwareNext m 0 cr3 a.tableIndexes with
  | ok frame =>
    have hhard := walk_ok_of_reading 4 (fun d e c _ => frame_ok_hardware d e c) (by rfl) hwalk
    rw [translateAddr_of_walk hwalk, hardware, hhard]
    simp
  | error y =>
    cases y with
    | hugeFrame =>
      have hhard := hardware_of_huge hwalk
      have htranslate : translateAddr m cr3 a = .error .hugePages := by
        simp [translateAddr, translateLoop_eq m cr3 0, hwalk]
      have hfault : hardware m cr3 a ≠ .error .notPresent := by
        unfold hardware
        split <;> simp_all
      simp [htranslate, hfault]
    | frameNotPresent =>
      have hhard := walk_error_of_reading frame_ok_hardware frame_absent_hardware hwalk
      simp [hardware, hhard, translateAddr, translateLoop_eq m cr3 0, hwalk]

end Translate

end MoltOS.Paging
