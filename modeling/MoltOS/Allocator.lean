import Mathlib.Data.Multiset.AddSub
import Mathlib.Logic.Function.Basic
import MoltOS.RawMemory
import MoltOS.Transition

/-! `FixedSizeBlockAllocator` over a fallback heap of which only the contract is known. A
free list is the list of its nodes here: each is owned by the head or by the node before
it. The links in the freed blocks are in `AllocatorRaw`. -/
namespace MoltOS.Allocator
open MoltOS.RawMemory MoltOS.Transition

/- `core::alloc::Layout`: the size rounded up to the alignment is at most `isize::MAX`. -/
structure Layout where
  size : Nat
  align : Nat
  powerOfTwo : align = 2 ^ align.log2
  fits : size + align ≤ 2 ^ 63
deriving DecidableEq

theorem Layout.one_powerOfTwo : 1 = 2 ^ Nat.log2 1 := by decide

theorem Layout.eight_powerOfTwo : 8 = 2 ^ Nat.log2 8 := by decide

theorem Layout.empty_fits : 0 + 1 ≤ 2 ^ 63 := by decide

inductive LayoutError where
  | mk
deriving DecidableEq, Repr

def Layout.fromSizeAlign (size align : Nat) : Except LayoutError Layout :=
  if h : align = 2 ^ align.log2 ∧ size + align ≤ 2 ^ 63 then .ok ⟨size, align, h.1, h.2⟩
  else .error .mk

theorem Layout.fromSizeAlign_eq_ok {size align : Nat} {l : Layout} :
    Layout.fromSizeAlign size align = .ok l ↔ l.size = size ∧ l.align = align := by
  unfold fromSizeAlign
  constructor
  · intro h
    split at h
    · cases h
      exact ⟨rfl, rfl⟩
    · cases h
  · rintro ⟨rfl, rfl⟩
    exact dif_pos ⟨l.powerOfTwo, l.fits⟩

/- What a call can end in other than a result: a failed `unwrap`, `assert!` or `expect`, or
   a call of an `unsafe` function outside its contract. -/
inductive Fault where
  | unwrapFailed
  | assertFailed
  | nullPointer
  | foreignBlock
  | overlap
deriving DecidableEq, Repr

def heapStart : Nat := 0x444444440000
def heapSize : Nat := 56 * 1024 * 1024

def blockSizes : List Nat := [8, 16, 32, 64, 128, 256, 512, 1024, 2048]

abbrev Class := Fin blockSizes.length

def blockSize (index : Class) : Nat := blockSizes.get index

def listNodeSize : Nat := 8
def listNodeAlign : Nat := 8

def listIndex (layout : Layout) : Option Class :=
  let required := max layout.size layout.align
  blockSizes.findFinIdx? fun s => required ≤ s

structure Block where
  ptr : Nat
  layout : Layout
deriving DecidableEq

def Block.region (b : Block) : Set Nat := span b.ptr b.layout.size

def Apart (b c : Block) : Prop := Disjoint b.region c.region

theorem apart_iff {b c : Block} : Apart b c ↔
    min (b.ptr + b.layout.size) (c.ptr + c.layout.size) ≤ max b.ptr c.ptr :=
  Set.Ico_disjoint_Ico

instance (b c : Block) : Decidable (Apart b c) := decidable_of_iff _ apart_iff.symm

def Block.Placed (b : Block) : Prop :=
  b.layout.align ∣ b.ptr ∧ heapStart ≤ b.ptr ∧ b.ptr + b.layout.size ≤ heapStart + heapSize

instance (b : Block) : Decidable b.Placed := inferInstanceAs (Decidable (_ ∧ _ ∧ _))

/- `linked_list_allocator::Heap` as the blocks it has handed out and not been given back,
   each with the layout it was asked for. -/
structure Heap where
  grants : Multiset Block

abbrev FirstFit := Layout → Option Nat

/-- The contract of `allocate_first_fit`: an error or a block of the layout's size, aligned,
inside the heap and disjoint from all that is handed out. A heap that keeps more bytes for
a block than were asked for keeps its blocks only further apart. -/
def Honest (grants : Multiset Block) (answer : FirstFit) : Prop :=
  ∀ layout ptr, answer layout = some ptr →
    Block.Placed ⟨ptr, layout⟩ ∧ ∀ b ∈ grants, Apart ⟨ptr, layout⟩ b

def Heap.allocateFirstFit (answer : FirstFit) (layout : Layout) (h : Heap) : Option Nat × Heap :=
  match answer layout with
  | some ptr => (some ptr, ⟨⟨ptr, layout⟩ ::ₘ h.grants⟩)
  | none => (none, h)

/- `unsafe`: the block must be one this heap handed out for this very layout. -/
def Heap.deallocate (ptr : Nat) (layout : Layout) (h : Heap) : Except Fault Heap :=
  if ⟨ptr, layout⟩ ∈ h.grants then .ok ⟨h.grants.erase ⟨ptr, layout⟩⟩ else .error .foreignBlock

structure FixedSizeBlockAllocator where
  listHeads : Class → List Nat
  fallback : Heap

namespace FixedSizeBlockAllocator

def new : FixedSizeBlockAllocator := ⟨fun _ => [], ⟨0⟩⟩

/- Raw pointers are addresses, null is 0. -/
def fallbackAlloc (answer : FirstFit) (layout : Layout) (a : FixedSizeBlockAllocator) :
    Nat × FixedSizeBlockAllocator :=
  match a.fallback.allocateFirstFit answer layout with
  | (some ptr, h) => (ptr, { a with fallback := h })
  | (none, h) => (0, { a with fallback := h })

def alloc (answer : FirstFit) (layout : Layout) (a : FixedSizeBlockAllocator) :
    Except Fault (Nat × FixedSizeBlockAllocator) :=
  match listIndex layout with
  | some index =>
    match a.listHeads index with
    | node :: next => .ok (node, { a with listHeads := Function.update a.listHeads index next })
    | [] =>
      match Layout.fromSizeAlign (blockSize index) (blockSize index) with
      | .ok layout => .ok (a.fallbackAlloc answer layout)
      | .error _ => .error .unwrapFailed
  | none => .ok (a.fallbackAlloc answer layout)

def dealloc (ptr : Nat) (layout : Layout) (a : FixedSizeBlockAllocator) :
    Except Fault FixedSizeBlockAllocator :=
  match listIndex layout with
  | some index =>
    if ¬ listNodeSize ≤ blockSize index then .error .assertFailed
    else if ¬ listNodeAlign ≤ blockSize index then .error .assertFailed
    else .ok { a with listHeads := Function.update a.listHeads index (ptr :: a.listHeads index) }
  | none => do
    if ptr = 0 then .error .nullPointer
    else
      let h ← a.fallback.deallocate ptr layout
      pure { a with fallback := h }

/- The copy of the contents is in `AllocatorRaw`. -/
def realloc (answer : FirstFit) (ptr : Nat) (layout : Layout) (newSize : Nat)
    (a : FixedSizeBlockAllocator) : Except Fault (Nat × FixedSizeBlockAllocator) :=
  match Layout.fromSizeAlign newSize layout.align with
  | .error _ => .ok (0, a)
  | .ok newLayout => do
    let (newPtr, a) ← a.alloc answer newLayout
    if newPtr ≠ 0 then do
      let a ← a.dealloc ptr layout
      pure (newPtr, a)
    else pure (newPtr, a)

end FixedSizeBlockAllocator

inductive Op where
  | alloc (layout : Layout)
  | dealloc (ptr : Nat) (layout : Layout)
  | realloc (ptr : Nat) (layout : Layout) (newSize : Nat)

def Op.track (live : Multiset Block) (ptr : Nat) : Op → Multiset Block
  | .alloc layout => if ptr = 0 then live else ⟨ptr, layout⟩ ::ₘ live
  | .dealloc old layout => live.erase ⟨old, layout⟩
  | .realloc old layout newSize =>
    match Layout.fromSizeAlign newSize layout.align with
    | .ok newLayout => if ptr = 0 then live else ⟨ptr, newLayout⟩ ::ₘ live.erase ⟨old, layout⟩
    | .error _ => live

def Op.Legal (live : Multiset Block) : Op → Prop
  | .alloc _ => True
  | .dealloc ptr layout => ⟨ptr, layout⟩ ∈ live
  | .realloc ptr layout _ => ⟨ptr, layout⟩ ∈ live

instance (live : Multiset Block) : (op : Op) → Decidable (op.Legal live)
  | .alloc _ => inferInstanceAs (Decidable True)
  | .dealloc _ _ => inferInstanceAs (Decidable (_ ∈ _))
  | .realloc _ _ _ => inferInstanceAs (Decidable (_ ∈ _))

structure System where
  allocator : FixedSizeBlockAllocator
  live : Multiset Block

namespace System

def new : System := ⟨FixedSizeBlockAllocator.new, 0⟩

def call (answer : FirstFit) (a : FixedSizeBlockAllocator) :
    Op → Except Fault (Nat × FixedSizeBlockAllocator)
  | .alloc layout => a.alloc answer layout
  | .dealloc ptr layout => do
    let a ← a.dealloc ptr layout
    pure (0, a)
  | .realloc ptr layout newSize => a.realloc answer ptr layout newSize

def apply (answer : FirstFit) (op : Op) (s : System) : Except Fault System := do
  let (ptr, a) ← call answer s.allocator op
  pure ⟨a, op.track s.live ptr⟩

def Step (s : System) (e : Op × FirstFit) (t : System) : Prop :=
  e.1.Legal s.live ∧ Honest s.allocator.fallback.grants e.2 ∧ apply e.2 e.1 s = .ok t

end System
end MoltOS.Allocator
