import MoltOS.AllocatorSafe

/-! The allocator on a byte memory. A free list is a chain through the first words of the
freed blocks, and the fallback heap keeps its own records in the memory it has not handed
out. -/
namespace MoltOS.Allocator
open MoltOS.RawMemory MoltOS.Transition

variable {H : Type*}

/- The two methods of the fallback heap, and the blocks its calls so far have handed out
   and not taken back. -/
structure Fallback (H : Type*) where
  allocateFirstFit : Layout → H → Mem → Option Nat × H × Mem
  deallocate : Nat → Layout → H → Mem → H × Mem
  grants : H → Multiset Block

/-- The contract of the fallback heap; `Sound` is what it needs of its records. It returns
aligned, large enough, disjoint blocks, writes only inside memory it owns, is unchanged
when it fails, and does not care what the others write into their blocks. -/
structure Fallback.Contract (heap : Fallback H) (Sound : H → Mem → Prop) : Prop where
  fails : ∀ {l h m h' m'}, Sound h m → heap.allocateFirstFit l h m = (none, h', m') →
    h' = h ∧ m' = m
  grant : ∀ {l h m p h' m'}, Sound h m → heap.allocateFirstFit l h m = (some p, h', m') →
    Block.Placed ⟨p, l⟩ ∧ (∀ b ∈ heap.grants h, Apart ⟨p, l⟩ b) ∧
      heap.grants h' = ⟨p, l⟩ ::ₘ heap.grants h ∧
      (∀ b ∈ heap.grants h, Set.EqOn m' m b.region) ∧ Sound h' m'
  release : ∀ {p l h m h' m'}, Sound h m → ⟨p, l⟩ ∈ heap.grants h →
    heap.deallocate p l h m = (h', m') →
    heap.grants h' = (heap.grants h).erase ⟨p, l⟩ ∧
      (∀ b ∈ heap.grants h', Set.EqOn m' m b.region) ∧ Sound h' m'
  foreign : ∀ {h m m' b}, Sound h m → b ∈ heap.grants h → Set.EqOn m' m b.regionᶜ → Sound h m'

def readNext (m : Mem) (node : Nat) : Option Nat :=
  if readWord m node = 0 then none else some (readWord m node)

def writeNext (m : Mem) (node : Nat) (next : Option Nat) : Mem := writeWord m node (next.getD 0)

structure Raw (H : Type*) where
  listHeads : Class → Option Nat
  fallback : H
  mem : Mem

namespace Raw

def fallbackAlloc (heap : Fallback H) (layout : Layout) (s : Raw H) : Nat × Raw H :=
  match heap.allocateFirstFit layout s.fallback s.mem with
  | (some ptr, h, m) => (ptr, { s with fallback := h, mem := m })
  | (none, h, m) => (0, { s with fallback := h, mem := m })

/- `node.next.take()` leaves `None` in the block. -/
def alloc (heap : Fallback H) (layout : Layout) (s : Raw H) : Except Fault (Nat × Raw H) :=
  match listIndex layout with
  | some index =>
    match s.listHeads index with
    | some node =>
      .ok (node, { s with
        listHeads := Function.update s.listHeads index (readNext s.mem node)
        mem := writeNext s.mem node none })
    | none =>
      match Layout.fromSizeAlign (blockSize index) (blockSize index) with
      | .ok layout => .ok (s.fallbackAlloc heap layout)
      | .error _ => .error .unwrapFailed
  | none => .ok (s.fallbackAlloc heap layout)

def dealloc (heap : Fallback H) (ptr : Nat) (layout : Layout) (s : Raw H) :
    Except Fault (Raw H) :=
  match listIndex layout with
  | some index =>
    if ¬ listNodeSize ≤ blockSize index then .error .assertFailed
    else if ¬ listNodeAlign ≤ blockSize index then .error .assertFailed
    else .ok { s with
      listHeads := Function.update s.listHeads index (some ptr)
      mem := writeNext s.mem ptr (s.listHeads index) }
  | none =>
    if ptr = 0 then .error .nullPointer
    else
      match heap.deallocate ptr layout s.fallback s.mem with
      | (h, m) => .ok { s with fallback := h, mem := m }

/- `unsafe`: the two spans must not overlap. -/
def copyNonoverlapping (src dst n : Nat) (s : Raw H) : Except Fault (Raw H) :=
  if src + n ≤ dst ∨ dst + n ≤ src then .ok { s with mem := write s.mem dst (read s.mem src n) }
  else .error .overlap

def realloc (heap : Fallback H) (ptr : Nat) (layout : Layout) (newSize : Nat) (s : Raw H) :
    Except Fault (Nat × Raw H) :=
  match Layout.fromSizeAlign newSize layout.align with
  | .error _ => .ok (0, s)
  | .ok newLayout => do
    let (newPtr, s) ← s.alloc heap newLayout
    if newPtr ≠ 0 then do
      let copySize := min layout.size newSize
      let s ← s.copyNonoverlapping ptr newPtr copySize
      let s ← s.dealloc heap ptr layout
      pure (newPtr, s)
    else pure (newPtr, s)

def call (heap : Fallback H) (s : Raw H) : Op → Except Fault (Nat × Raw H)
  | .alloc layout => s.alloc heap layout
  | .dealloc ptr layout => do
    let s ← s.dealloc heap ptr layout
    pure (0, s)
  | .realloc ptr layout newSize => s.realloc heap ptr layout newSize

end Raw

structure RawSystem (H : Type*) where
  raw : Raw H
  live : Multiset Block

inductive Event where
  | call (op : Op)
  | fill (b : Block) (contents : Nat → UInt8)

namespace RawSystem

def new (h : H) (m : Mem) : RawSystem H := ⟨⟨fun _ => none, h, m⟩, 0⟩

def fill (b : Block) (contents : Nat → UInt8) (s : RawSystem H) : RawSystem H :=
  { s with raw := { s.raw with
      mem := write s.raw.mem b.ptr ((List.range b.layout.size).map contents) } }

inductive Step (heap : Fallback H) : RawSystem H → Event → RawSystem H → Prop where
  | call {s : RawSystem H} {op : Op} {p : Nat} {raw : Raw H} : op.Legal s.live →
      s.raw.call heap op = .ok (p, raw) →
      Step heap s (.call op) ⟨raw, op.track s.live p⟩
  | fill {s : RawSystem H} {b : Block} {contents : Nat → UInt8} : b ∈ s.live →
      Step heap s (.fill b contents) (s.fill b contents)

end RawSystem
end MoltOS.Allocator
