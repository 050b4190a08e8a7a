import MoltOS.AllocatorRaw

/-! The C allocation functions of `stubs.c` over `rust_alloc` and `rust_free`, with 64-bit
`size_t` arithmetic and the size of every block in the word before it. -/
namespace MoltOS.Malloc
open MoltOS.Allocator MoltOS.RawMemory MoltOS.Transition

variable {H : Type*}

/- The global allocator as its callers see it: null is 0, and `blocks` are the blocks handed
   out and not taken back. -/
structure GlobalHeap (H : Type*) where
  alloc : Layout → H → Mem → Nat × H × Mem
  dealloc : Nat → Layout → H → Mem → H × Mem
  blocks : H → Multiset Block

/-- Null, or an aligned block of the size asked for, disjoint from all others. The heap
leaves the blocks it has handed out alone, and what is written into them does not matter
to it. `Sound` is what it needs of its own records. -/
structure GlobalHeap.Serves (heap : GlobalHeap H) (Sound : H → Mem → Prop) : Prop where
  null : ∀ {l h m h' m'}, Sound h m → heap.alloc l h m = (0, h', m') →
    heap.blocks h' = heap.blocks h ∧ (∀ b ∈ heap.blocks h, Set.EqOn m' m b.region) ∧ Sound h' m'
  grant : ∀ {l h m p h' m'}, Sound h m → p ≠ 0 → heap.alloc l h m = (p, h', m') →
    (l.align ∣ p ∧ p + l.size ≤ 2 ^ 64) ∧ (∀ b ∈ heap.blocks h, Apart ⟨p, l⟩ b) ∧
      heap.blocks h' = ⟨p, l⟩ ::ₘ heap.blocks h ∧
      (∀ b ∈ heap.blocks h, Set.EqOn m' m b.region) ∧ Sound h' m'
  release : ∀ {p l h m h' m'}, Sound h m → ⟨p, l⟩ ∈ heap.blocks h →
    heap.dealloc p l h m = (h', m') →
    heap.blocks h' = (heap.blocks h).erase ⟨p, l⟩ ∧
      (∀ b ∈ heap.blocks h', Set.EqOn m' m b.region) ∧ Sound h' m'
  foreign : ∀ {h m m' b}, Sound h m → b ∈ heap.blocks h → Set.EqOn m' m b.regionᶜ → Sound h m'

def ofFallback (f : Fallback H) : GlobalHeap H where
  alloc l h m :=
    match f.allocateFirstFit l h m with
    | (some p, h', m') => (p, h', m')
    | (none, h', m') => (0, h', m')
  dealloc := f.deallocate
  blocks := f.grants

theorem ofFallback_serves {f : Fallback H} {Sound : H → Mem → Prop} (hc : f.Contract Sound) :
    (ofFallback f).Serves Sound where
  null := by
    intro l h m h' m' hsound hcall
    simp only [ofFallback] at hcall
    split at hcall
    next p h'' m'' hfit =>
      cases hcall
      have hplaced := (hc.grant hsound hfit).1
      have hlow : heapStart ≤ 0 := hplaced.2.1
      exact absurd hlow (by decide)
    next h'' m'' hfit =>
      cases hcall
      obtain ⟨rfl, rfl⟩ := hc.fails hsound hfit
      exact ⟨rfl, fun b _ => Set.eqOn_refl _ _, hsound⟩
  grant := by
    intro l h m p h' m' hsound hp hcall
    simp only [ofFallback] at hcall
    split at hcall
    next q h'' m'' hfit =>
      cases hcall
      obtain ⟨hplaced, hrest⟩ := hc.grant hsound hfit
      have hhigh : p + l.size ≤ heapStart + heapSize := hplaced.2.2
      exact ⟨⟨hplaced.1, hhigh.trans (by decide)⟩, hrest⟩
    next h'' m'' hfit =>
      cases hcall
      exact absurd rfl hp
  release := hc.release
  foreign := hc.foreign

structure State (H : Type*) where
  heap : H
  mem : Mem

def word (n : Nat) : Nat := n % 2 ^ 64

def mallocHdr : Nat := 16

section Calls
variable (heap : GlobalHeap H)

def rustAlloc (size align : Nat) (s : State H) : Except Fault (Nat × State H) :=
  match Layout.fromSizeAlign size align with
  | .error _ => .error .unwrapFailed
  | .ok layout =>
    match heap.alloc layout s.heap s.mem with
    | (ptr, h, m) => .ok (ptr, ⟨h, m⟩)

/- `dealloc` is `unsafe`: the block must have been allocated with this layout. -/
def rustFree (ptr size align : Nat) (s : State H) : Except Fault (State H) :=
  match Layout.fromSizeAlign size align with
  | .error _ => .error .unwrapFailed
  | .ok layout =>
    if ⟨ptr, layout⟩ ∈ heap.blocks s.heap then
      match heap.dealloc ptr layout s.heap s.mem with
      | (h, m) => .ok ⟨h, m⟩
    else .error .foreignBlock

def malloc (size : Nat) (s : State H) : Except Fault (Nat × State H) := do
  let size := if size = 0 then 1 else size
  let (raw, s) ← rustAlloc heap (word (size + mallocHdr)) 16 s
  if raw = 0 then pure (0, s)
  else pure (word (raw + mallocHdr), { s with mem := writeWord s.mem raw size })

def header (ptr : Nat) : Nat := word (ptr + 2 ^ 64 - mallocHdr)

def free (ptr : Nat) (s : State H) : Except Fault (State H) :=
  if ptr = 0 then .ok s
  else
    let size := readWord s.mem (header ptr)
    rustFree heap (header ptr) (word (size + mallocHdr)) 16 s

def memset (m : Mem) (dst : Nat) (c : UInt8) (n : Nat) : Mem := write m dst (List.replicate n c)

def memcpy (m : Mem) (dst src n : Nat) : Mem := write m dst (read m src n)

def calloc (nmemb size : Nat) (s : State H) : Except Fault (Nat × State H) := do
  let total := word (nmemb * size)
  let (p, s) ← malloc heap total s
  if p = 0 then pure (p, s) else pure (p, { s with mem := memset s.mem p 0 total })

def realloc (ptr newSize : Nat) (s : State H) : Except Fault (Nat × State H) :=
  if ptr = 0 then malloc heap newSize s
  else if newSize = 0 then do
    let s ← free heap ptr s
    pure (0, s)
  else do
    let oldSize := readWord s.mem (header ptr)
    let (n, s) ← malloc heap newSize s
    if n = 0 then pure (0, s)
    else do
      let m := memcpy s.mem n ptr (if oldSize < newSize then oldSize else newSize)
      let s ← free heap ptr { s with mem := m }
      pure (n, s)

/- `len` is what `strlen(src)` returns. -/
def strdup (src len : Nat) (s : State H) : Except Fault (Nat × State H) := do
  let n := word (len + 1)
  let (p, s) ← malloc heap n s
  if p = 0 then pure (p, s) else pure (p, { s with mem := memcpy s.mem p src n })

end Calls

def IsStrlen (m : Mem) (src len : Nat) : Prop := m (src + len) = 0 ∧ ∀ i < len, m (src + i) ≠ 0

structure User where
  ptr : Nat
  size : Nat
deriving DecidableEq, Repr

/- `none` is a null pointer; `store` is a write of the client. -/
inductive Op where
  | malloc (size : Nat)
  | calloc (nmemb size : Nat)
  | realloc (old : Option User) (newSize : Nat)
  | strdup (src len : Nat)
  | free (old : Option User)
  | store (block : User) (offset : Nat) (bytes : List UInt8)

def address (u : Option User) : Nat := (u.map User.ptr).getD 0

structure System (H : Type*) where
  state : State H
  live : Multiset User

namespace Op

def call (heap : GlobalHeap H) (s : State H) : Op → Except Fault (Nat × State H)
  | .malloc size => Malloc.malloc heap size s
  | .calloc nmemb size => Malloc.calloc heap nmemb size s
  | .realloc old newSize => Malloc.realloc heap (address old) newSize s
  | .strdup src len => Malloc.strdup heap src len s
  | .free old => do
    let s ← Malloc.free heap (address old) s
    pure (0, s)
  | .store block offset bytes => .ok (0, { s with mem := write s.mem (block.ptr + offset) bytes })

def bytes : Op → Nat
  | .malloc size => size
  | .calloc nmemb size => nmemb * size
  | .realloc _ newSize => newSize
  | .strdup _ len => len + 1
  | .free _ | .store _ _ _ => 0

def forget (live : Multiset User) : Option User → Multiset User
  | none => live
  | some u => live.erase u

def track (live : Multiset User) (p : Nat) : Op → Multiset User
  | .realloc old newSize =>
    if address old ≠ 0 ∧ newSize = 0 then forget live old
    else if p = 0 then live
    else ⟨p, newSize⟩ ::ₘ forget live old
  | .free old => forget live old
  | .store _ _ _ => live
  | op => if p = 0 then live else ⟨p, op.bytes⟩ ::ₘ live

/- Arguments of type `size_t`; the client frees what it holds and writes inside what it
   asked for. -/
def Legal (s : System H) : Op → Prop
  | .malloc size => size < 2 ^ 64
  | .calloc nmemb size => nmemb < 2 ^ 64 ∧ size < 2 ^ 64
  | .realloc old newSize => newSize < 2 ^ 64 ∧ ∀ u, old = some u → u ∈ s.live
  | .strdup src len => IsStrlen s.state.mem src len
  | .free old => ∀ u, old = some u → u ∈ s.live
  | .store block offset bytes => block ∈ s.live ∧ offset + bytes.length ≤ block.size

end Op

def Step (heap : GlobalHeap H) (s : System H) (op : Op) (t : System H) : Prop :=
  op.Legal s ∧ ∃ p state, op.call heap s.state = .ok (p, state) ∧ t = ⟨state, op.track s.live p⟩

end MoltOS.Malloc
