import MoltOS.AllocatorRefine
import MoltOS.LinkedListSafe

/-! `LinkedListAllocator` on a byte memory. A node holds the size of its region and the
address of the next node; `find_region` walks along the links and unlinks the node it takes.
Each call does to the chain of nodes what `LinkedList` does to the list. -/
namespace MoltOS.LinkedList
open MoltOS.Allocator (Layout Block readNext writeNext readNext_writeNext writeNext_eqOn)
open MoltOS.RawMemory MoltOS.Rust

/- A failed check, a failed `unwrap`, or a walk that is still under way. -/
inductive RawFault where
  | fault (f : Fault)
  | unwrapFailed
  | walking
deriving DecidableEq, Repr

def liftRaw {α : Type} (x : Except Fault α) : Except RawFault α := x.mapError .fault

structure Raw where
  head : Option Nat
  mem : Mem

namespace Raw

def new (m : Mem) : Raw := ⟨none, m⟩

def sizeOf (s : Raw) (node : Nat) : Nat := readWord s.mem node

def regionAt (s : Raw) (node : Nat) : Region := ⟨node, s.sizeOf node⟩

def next (s : Raw) : Option Nat → Option Nat
  | none => s.head
  | some node => readNext s.mem (node + 8)

def setNext (s : Raw) : Option Nat → Option Nat → Raw
  | none, n => { s with head := n }
  | some node, n => { s with mem := writeNext s.mem (node + 8) n }

def addFreeRegion (p : Profile) (addr size : Nat) (s : Raw) : Except RawFault Raw := do
  let up ← liftRaw (lift .panic (alignUp p addr nodeAlign))
  if up ≠ addr then .error (.fault .unaligned)
  else if ¬ size ≥ nodeSize then .error (.fault .tooSmall)
  else
    let next := s.head
    let mem := writeNext (writeWord s.mem addr size) (addr + 8) next
    pure ⟨some addr, mem⟩

/- The two `take`s leave `None` behind before the link is set past the node. -/
def findRegion (p : Profile) (size align : Nat) :
    Nat → Option Nat → Raw → Except RawFault (Option (Nat × Nat) × Raw)
  | 0, _, _ => .error .walking
  | fuel + 1, current, s =>
    match s.next current with
    | none => .ok (none, s)
    | some region => do
      match ← liftRaw (lift .panic (allocFromRegion p (s.regionAt region) size align)) with
      | some allocStart =>
        let next := s.next (some region)
        let s := s.setNext (some region) none
        match s.next current with
        | none => .error .unwrapFailed
        | some found =>
          let s := (s.setNext current none).setNext current next
          pure (some (found, allocStart), s)
      | none =>
        match s.next current with
        | none => .error .unwrapFailed
        | some node => findRegion p size align fuel (some node) s

def alloc (p : Profile) (layout : Layout) (fuel : Nat) (s : Raw) : Except RawFault (Nat × Raw) := do
  let (size, align) ← liftRaw (sizeAlign layout)
  match ← findRegion p size align fuel none s with
  | (some (region, allocStart), s) =>
    match checkedAdd allocStart size with
    | none => .error (.fault .overflow)
    | some allocEnd => do
      let last ← liftRaw (lift .panic ((s.regionAt region).endAddr p))
      let excess ← liftRaw (lift .panic (sub p last allocEnd))
      if excess > 0 then do
        let s ← s.addFreeRegion p allocEnd excess
        pure (allocStart, s)
      else pure (allocStart, s)
  | (none, s) => pure (0, s)

def dealloc (p : Profile) (ptr : Nat) (layout : Layout) (s : Raw) : Except RawFault Raw := do
  let (size, _) ← liftRaw (sizeAlign layout)
  s.addFreeRegion p ptr size

def init (p : Profile) (heapStart heapSize : Nat) (s : Raw) : Except RawFault Raw :=
  s.addFreeRegion p heapStart heapSize

def call (p : Profile) (fuel : Nat) (s : Raw) : Op → Except RawFault (Nat × Raw)
  | .alloc layout => s.alloc p layout fuel
  | .dealloc b => do
    let s ← s.dealloc p b.ptr b.layout
    pure (0, s)

end Raw

structure RawSystem where
  raw : Raw
  live : Multiset Block

def Op.track (live : Multiset Block) (ptr : Nat) : Op → Multiset Block
  | .alloc layout => if ptr = 0 then live else ⟨ptr, layout⟩ ::ₘ live
  | .dealloc b => live.erase b

inductive Event where
  | call (op : Op)
  | fill (b : Block) (contents : Nat → UInt8)

namespace RawSystem

def fill (b : Block) (contents : Nat → UInt8) (s : RawSystem) : RawSystem :=
  { s with raw := { s.raw with
      mem := write s.raw.mem b.ptr ((List.range b.layout.size).map contents) } }

inductive Step (p : Profile) : RawSystem → Event → RawSystem → Prop where
  | call {s : RawSystem} {op : Op} {fuel ptr : Nat} {raw : Raw} : op.Legal s.live →
      s.raw.call p fuel op = .ok (ptr, raw) → Step p s (.call op) ⟨raw, op.track s.live ptr⟩
  | fill {s : RawSystem} {b : Block} {contents : Nat → UInt8} : b ∈ s.live →
      Step p s (.fill b contents) (s.fill b contents)

end RawSystem

def Chain (m : Mem) : Option Nat → List Region → Prop
  | link, [] => link = none
  | link, r :: rest =>
    link = some r.addr ∧ readWord m r.addr = r.size ∧ Chain m (readNext m (r.addr + 8)) rest

structure Region.Holds (r : Region) : Prop where
  pos : 0 < r.addr
  node : nodeSize ≤ r.size
  high : r.addr + r.size ≤ 2 ^ 64

structure Represents (s : Raw) (free : List Region) : Prop where
  chain : Chain s.mem s.head free
  holds : ∀ r ∈ free, r.Holds
  apart : free.Pairwise Region.Apart

section Chain
variable {m m' : Mem} {link : Option Nat} {free : List Region}

theorem node_words {a n : Nat} (h : nodeSize ≤ n) : span a 8 ⊆ span a n ∧ span (a + 8) 8 ⊆ span a n := by
  unfold nodeSize at h
  exact ⟨span_subset (by omega), Set.Ico_subset_Ico (by omega) (by omega)⟩

theorem readNext_congr {a : Nat} (h : Set.EqOn m' m (span a 8)) : readNext m' a = readNext m a := by
  rw [readNext, readNext, readWord_congr h]

/-- A chain stays where its nodes are not written. -/
theorem Chain.frame (h : Chain m link free)
    (hm : ∀ r ∈ free, Set.EqOn m' m (span r.addr nodeSize)) : Chain m' link free := by
  induction free generalizing link with
  | nil => exact h
  | cons r rest ih =>
    obtain ⟨hlink, hsize, hrest⟩ := h
    obtain ⟨hr, hm⟩ := List.forall_mem_cons.mp hm
    obtain ⟨hfirst, hsecond⟩ := node_words (a := r.addr) le_rfl
    refine ⟨hlink, ?_, ?_⟩
    · rw [readWord_congr (hr.mono hfirst), hsize]
    · rw [readNext_congr (hr.mono hsecond)]
      exact ih hrest hm

theorem Chain.link_fits (h : Chain m link free) (hfree : ∀ r ∈ free, r.Holds) (a : Nat)
    (ha : link = some a) : 0 < a ∧ a < 2 ^ 64 := by
  cases free with
  | nil =>
    rw [show link = none from h] at ha
    cases ha
  | cons r rest =>
    have hr := hfree r List.mem_cons_self
    have hhigh := hr.high
    have hnode := hr.node
    obtain rfl := Option.some.inj (h.1.symm.trans ha)
    unfold nodeSize at hnode
    exact ⟨hr.pos, by omega⟩

theorem Represents.nil (m : Mem) : Represents (Raw.new m) [] :=
  ⟨rfl, nofun, List.Pairwise.nil⟩

end Chain

section Push
variable {p : Profile} {s : Raw} {free : List Region} {r : Region}

/-- A region that is apart from the free ones becomes the first node. -/
theorem Represents.addFreeRegion (hs : Represents s free) (hpos : 0 < r.addr)
    (haligned : nodeAlign ∣ r.addr) (hnode : nodeSize ≤ r.size) (hend : r.addr + r.size ≤ u64Max)
    (hapart : ∀ q ∈ free, r.Apart q) :
    ∃ s', s.addFreeRegion p r.addr r.size = .ok s' ∧ Represents s' (r :: free) ∧
      Set.EqOn s'.mem s.mem (span r.addr r.size)ᶜ := by
  have hup : alignUp p r.addr nodeAlign = .ok r.addr := by
    refine alignUp_node haligned ?_
    unfold nodeSize at hnode
    unfold nodeAlign
    omega
  obtain ⟨hfirst, hsecond⟩ := node_words (a := r.addr) hnode
  let m₁ := writeWord s.mem r.addr r.size
  let m₂ := writeNext m₁ (r.addr + 8) s.head
  have h₁ : Set.EqOn m₁ s.mem (span r.addr 8)ᶜ := writeWord_eqOn _ _ _
  have h₂ : Set.EqOn m₂ m₁ (span (r.addr + 8) 8)ᶜ := writeNext_eqOn _ _ _
  have hout : Set.EqOn m₂ s.mem (span r.addr r.size)ᶜ :=
    (h₂.mono (Set.compl_subset_compl.mpr hsecond)).trans (h₁.mono (Set.compl_subset_compl.mpr hfirst))
  refine ⟨⟨some r.addr, m₂⟩, ?_, ⟨⟨rfl, ?_, ?_⟩, ?_, ?_⟩, hout⟩
  · simp only [Raw.addFreeRegion, hup, lift, liftRaw, Except.mapError, bind, Except.bind]
    rw [if_neg (not_not.mpr rfl), if_neg (not_not.mpr hnode)]
    rfl
  · have hsep : span r.addr 8 ⊆ (span (r.addr + 8) 8)ᶜ := by
      intro x hx hx'
      have := hx.2
      have := hx'.1
      omega
    rw [readWord_congr (h₂.mono hsep)]
    exact readWord_writeWord _ _ (by unfold u64Max at hend; omega)
  · rw [readNext_writeNext _ _ (hs.chain.link_fits hs.holds)]
    refine hs.chain.frame fun q hq => hout.mono ?_
    exact (span_subset (hs.holds q hq).node).trans (hapart q hq).symm.subset_compl_right
  · exact List.forall_mem_cons.mpr ⟨⟨hpos, hnode, by unfold u64Max at hend; omega⟩, hs.holds⟩
  · exact List.pairwise_cons.mpr ⟨hapart, hs.apart⟩

end Push

section Links
variable {s t : Raw} {current n : Option Nat}

def linkWord : Option Nat → Set Nat
  | none => ∅
  | some node => span (node + 8) 8

structure Untouched (current : Option Nat) (region : Set Nat) (s t : Raw) : Prop where
  head : current ≠ none → t.head = s.head
  mem : Set.EqOn t.mem s.mem (linkWord current ∪ region)ᶜ

theorem setNext_untouched (s : Raw) (current n : Option Nat) :
    Untouched current ∅ s (s.setNext current n) := by
  cases current with
  | none => exact ⟨fun h => absurd rfl h, Set.eqOn_refl _ _⟩
  | some node =>
    refine ⟨fun _ => rfl, ?_⟩
    rw [Set.union_empty]
    exact writeNext_eqOn s.mem (node + 8) n

theorem Untouched.trans {u : Raw} {region : Set Nat} (h : Untouched current region s t)
    (h' : Untouched current region t u) : Untouched current region s u :=
  ⟨fun hc => (h'.head hc).trans (h.head hc), h'.mem.trans h.mem⟩

theorem next_setNext (s : Raw) (current : Option Nat)
    (h : ∀ a, n = some a → 0 < a ∧ a < 2 ^ 64) : (s.setNext current n).next current = n := by
  cases current with
  | none => rfl
  | some node => exact readNext_writeNext s.mem (node + 8) h

theorem next_congr (hhead : current = none → t.head = s.head)
    (hmem : Set.EqOn t.mem s.mem (linkWord current)) : t.next current = s.next current := by
  cases current with
  | none => exact hhead rfl
  | some node => exact readNext_congr hmem

end Links

def covered (free : List Region) : Set Nat := {x | ∃ r ∈ free, x ∈ span r.addr r.size}

section Unlink
variable {s : Raw} {current : Option Nat} {r : Region} {rest : List Region}

theorem covered_cons : covered (r :: rest) = span r.addr r.size ∪ covered rest := by
  ext x
  simp [covered]

theorem disjoint_covered {a : Set Nat} :
    Disjoint a (covered rest) ↔ ∀ r ∈ rest, Disjoint a (span r.addr r.size) := by
  simp only [Set.disjoint_left, covered, Set.mem_ofPred_eq]
  grind

theorem sizeWord_disjoint (a : Nat) : Disjoint (linkWord (some a)) (span a 8) := by
  refine Set.disjoint_left.mpr fun x hx hx' => ?_
  have hlow := hx.1
  have hhigh := hx'.2
  omega

theorem linkWord_subset (h : r.Holds) : linkWord (some r.addr) ⊆ span r.addr r.size :=
  (node_words h.node).2

structure Ahead (s : Raw) (current : Option Nat) (rest : List Region) : Prop where
  chain : Chain s.mem (s.next current) rest
  holds : ∀ r ∈ rest, r.Holds
  apart : rest.Pairwise Region.Apart
  outside : ∀ r ∈ rest, Disjoint (linkWord current) (span r.addr r.size)

theorem Ahead.next_eq (h : Ahead s current (r :: rest)) : s.next current = some r.addr := h.chain.1

theorem Ahead.regionAt_eq (h : Ahead s current (r :: rest)) : s.regionAt r.addr = r := by
  rw [Raw.regionAt, Raw.sizeOf, h.chain.2.1]

theorem Ahead.advance (h : Ahead s current (r :: rest)) : Ahead s (some r.addr) rest where
  chain := h.chain.2.2
  holds := (List.forall_mem_cons.mp h.holds).2
  apart := (List.pairwise_cons.mp h.apart).2
  outside q hq :=
    ((List.pairwise_cons.mp h.apart).1 q hq).mono_left
      (linkWord_subset (h.holds r List.mem_cons_self))

theorem Ahead.next_frame {t : Raw} {region : Set Nat} (h : Ahead s current (r :: rest))
    (ht : Untouched (some r.addr) region s t) (hregion : Disjoint (linkWord current) region) :
    t.next current = s.next current := by
  have hnode := h.outside r List.mem_cons_self
  refine next_congr (fun _ => ht.head nofun) (ht.mem.mono ?_)
  refine Disjoint.subset_compl_right (Set.disjoint_union_right.mpr ⟨?_, hregion⟩)
  exact hnode.mono_right (linkWord_subset (h.holds r List.mem_cons_self))

/-- Where a later node was taken out, the one the walk has passed is still in its place. -/
theorem Ahead.passed {t : Raw} {left : List Region} (h : Ahead s current (r :: rest))
    (hchain : Chain t.mem (t.next (some r.addr)) left)
    (ht : Untouched (some r.addr) (covered rest) s t) :
    Chain t.mem (t.next current) (r :: left) ∧ Untouched current (covered (r :: rest)) s t := by
  have hr := h.holds r List.mem_cons_self
  have hrest := (List.forall_mem_cons.mp h.outside).2
  have hword : Set.EqOn t.mem s.mem (span r.addr 8) := by
    refine ht.mem.mono (Disjoint.subset_compl_left (Set.disjoint_union_left.mpr ⟨?_, ?_⟩))
    · exact sizeWord_disjoint r.addr
    · refine (disjoint_covered.mpr fun q hq => ?_).symm
      exact ((List.pairwise_cons.mp h.apart).1 q hq).mono_left (node_words hr.node).1
  refine ⟨⟨?_, ?_, hchain⟩, fun _ => ht.head nofun, ?_⟩
  · rw [h.next_frame ht (disjoint_covered.mpr hrest), h.next_eq]
  · rw [readWord_congr hword, h.chain.2.1]
  · rw [covered_cons]
    refine ht.mem.mono (Set.compl_subset_compl.mpr ?_)
    exact (Set.union_subset_union_left _ (linkWord_subset hr)).trans Set.subset_union_right

/-- The two `take`s and the new link take the node out of the chain. -/
theorem Ahead.unlink (h : Ahead s current (r :: rest)) {s₁ t : Raw}
    (hs₁ : s₁ = s.setNext (some r.addr) none)
    (ht : t = (s₁.setNext current none).setNext current (s.next (some r.addr))) :
    s₁.next current = some r.addr ∧ Chain t.mem (t.next current) rest ∧ t.regionAt r.addr = r ∧
      Untouched current (covered (r :: rest)) s t := by
  have hr := h.holds r List.mem_cons_self
  have hrest := h.advance
  have hstep₁ : Untouched (some r.addr) ∅ s s₁ := hs₁ ▸ setNext_untouched s (some r.addr) none
  have hstep₂ : Untouched current ∅ s₁ t :=
    ht ▸ (setNext_untouched s₁ current none).trans (setNext_untouched _ current _)
  have hmem : Set.EqOn t.mem s.mem (linkWord current ∪ linkWord (some r.addr))ᶜ := by
    have h₁ := hstep₁.mem
    have h₂ := hstep₂.mem
    rw [Set.union_empty] at h₁ h₂
    exact (h₂.mono (Set.compl_subset_compl.mpr Set.subset_union_left)).trans
      (h₁.mono (Set.compl_subset_compl.mpr Set.subset_union_right))
  have hlink : t.next current = s.next (some r.addr) :=
    ht ▸ next_setNext _ current (hrest.chain.link_fits hrest.holds)
  refine ⟨?_, ?_, ?_, ?_, ?_⟩
  · rw [h.next_frame hstep₁ (Set.disjoint_empty _), h.next_eq]
  · rw [hlink]
    refine hrest.chain.frame fun q hq => hmem.mono ?_
    have hnode : span q.addr nodeSize ⊆ span q.addr q.size := span_subset (hrest.holds q hq).node
    refine Disjoint.subset_compl_left (Set.disjoint_union_left.mpr ⟨?_, ?_⟩)
    · exact (h.outside q (List.mem_cons_of_mem r hq)).mono_right hnode
    · exact (hrest.outside q hq).mono_right hnode
  · have hword : Set.EqOn t.mem s.mem (span r.addr 8) := by
      refine hmem.mono (Disjoint.subset_compl_left (Set.disjoint_union_left.mpr ⟨?_, ?_⟩))
      · exact (h.outside r List.mem_cons_self).mono_right (node_words hr.node).1
      · exact sizeWord_disjoint r.addr
    rw [Raw.regionAt, Raw.sizeOf, readWord_congr hword]
    exact h.regionAt_eq
  · intro hc
    exact (hstep₂.head hc).trans (hstep₁.head nofun)
  · rw [covered_cons]
    refine hmem.mono (Set.compl_subset_compl.mpr (Set.union_subset_union_right _ ?_))
    exact (linkWord_subset hr).trans Set.subset_union_left

end Unlink
end MoltOS.LinkedList
