import MoltOS.AllocatorSafe
import MoltOS.LinkedListSafe

/-! `BumpAllocator`: blocks one behind the other, and all memory back at once when the last
block is given back. -/
namespace MoltOS.Bump
open MoltOS.Allocator (Layout Block Apart)
open MoltOS.LinkedList (Op alignUp alignUp_of_power roundUp le_roundUp dvd_roundUp)
open MoltOS.RawMemory MoltOS.Rust MoltOS.Transition

structure BumpAllocator where
  heapStart : Nat
  heapEnd : Nat
  next : Nat
  allocations : Nat
deriving DecidableEq, Repr

namespace BumpAllocator

def new : BumpAllocator := ⟨0, 0, 0, 0⟩

def init (p : Profile) (_ : BumpAllocator) (heapStart heapSize : Nat) :
    Except Panic BumpAllocator := do
  let heapEnd ← add p heapStart heapSize
  pure ⟨heapStart, heapEnd, heapStart, 0⟩

/- Null is 0. -/
def alloc (p : Profile) (layout : Layout) (bump : BumpAllocator) :
    Except Panic (Nat × BumpAllocator) := do
  let allocStart ← alignUp p bump.next layout.align
  match checkedAdd allocStart layout.size with
  | none => pure (0, bump)
  | some allocEnd =>
    if allocEnd > bump.heapEnd then pure (0, bump)
    else do
      let allocations ← add p bump.allocations 1
      pure (allocStart, { bump with next := allocEnd, allocations := allocations })

/- Neither the pointer nor the layout is looked at. -/
def dealloc (p : Profile) (bump : BumpAllocator) : Except Panic BumpAllocator := do
  let allocations ← sub p bump.allocations 1
  if allocations = 0 then
    pure { bump with allocations := allocations, next := bump.heapStart }
  else pure { bump with allocations := allocations }

end BumpAllocator

structure System where
  bump : BumpAllocator
  live : Multiset Block

def System.apply (p : Profile) (s : System) : Op → Except Panic System
  | .alloc layout => do
    let (ptr, bump) ← s.bump.alloc p layout
    pure ⟨bump, if ptr = 0 then s.live else ⟨ptr, layout⟩ ::ₘ s.live⟩
  | .dealloc b => do
    let bump ← s.bump.dealloc p
    pure ⟨bump, s.live.erase b⟩

def Step (p : Profile) (s : System) (op : Op) (t : System) : Prop :=
  op.Legal s.live ∧ s.apply p op = .ok t

/- The counter is checked, or it can count the block that is allocated. -/
def Counted (p : Profile) (s : System) : Op → Prop
  | .alloc _ => p = .dev ∨ Multiset.card s.live < u64Max
  | .dealloc _ => True

structure Safe (heapStart heapEnd : Nat) (s : System) : Prop where
  start : s.bump.heapStart = heapStart
  stop : s.bump.heapEnd = heapEnd
  count : s.bump.allocations = Multiset.card s.live
  low : heapStart ≤ s.bump.next
  high : s.bump.next ≤ heapEnd
  apart : s.live.Pairwise Apart
  placed : ∀ b ∈ s.live, b.layout.align ∣ b.ptr ∧ heapStart ≤ b.ptr ∧
    b.ptr + b.layout.size ≤ s.bump.next

section Calls
variable {p : Profile} {layout : Layout} {bump bump' : BumpAllocator} {ptr heapStart heapEnd : Nat}

theorem le_roundUp_layout (addr : Nat) (layout : Layout) : addr ≤ roundUp addr layout.align := by
  refine le_roundUp ?_
  rw [layout.powerOfTwo]
  exact Nat.two_pow_pos _

theorem alignUp_layout {addr : Nat} (h : addr + layout.align ≤ u64Max) :
    alignUp p addr layout.align = .ok (roundUp addr layout.align) :=
  alignUp_of_power layout.powerOfTwo ((Nat.le_add_left _ _).trans layout.fits) h

/-- Below 2^63 `align_up` rounds up whenever it returns: the one sum that overflows wraps
around to the right address. -/
theorem alignUp_rounds {addr start : Nat} (haddr : addr ≤ 2 ^ 63)
    (h : alignUp p addr layout.align = .ok start) : start = roundUp addr layout.align := by
  by_cases hsum : addr + layout.align ≤ u64Max
  · rw [alignUp_layout hsum] at h
    exact (Except.ok.inj h).symm
  · have hfits := layout.fits
    unfold u64Max at hsum
    have haddr' : addr = 2 ^ 63 := by omega
    have halign : layout.align = 2 ^ 63 := by omega
    rw [haddr', halign] at h ⊢
    cases p with
    | dev => cases h
    | release =>
      cases h
      decide

/-- A call of `alloc` that returns either found no room and changed nothing, or moved `next`
behind a block right after it. -/
theorem alloc_cases (hhigh : bump.heapEnd ≤ 2 ^ 63) (hnext : bump.next ≤ bump.heapEnd)
    (h : bump.alloc p layout = .ok (ptr, bump')) :
    (ptr = 0 ∧ bump' = bump) ∨
    (ptr = roundUp bump.next layout.align ∧ ptr + layout.size ≤ bump.heapEnd ∧
      ∃ n, add p bump.allocations 1 = .ok n ∧
        bump' = { bump with next := ptr + layout.size, allocations := n }) := by
  simp only [BumpAllocator.alloc, bind_eq_ok] at h
  obtain ⟨start, hstart, h⟩ := h
  have hround := alignUp_rounds (hnext.trans hhigh) hstart
  split at h
  · cases h
    exact Or.inl ⟨rfl, rfl⟩
  next allocEnd hend =>
    obtain ⟨_, hsome⟩ := Option.ite_none_right_eq_some.mp hend
    obtain rfl := Option.some.inj hsome
    split at h
    · cases h
      exact Or.inl ⟨rfl, rfl⟩
    next hroom =>
      simp only [bind_eq_ok, pure_eq_ok, Prod.mk.injEq] at h
      obtain ⟨n, hn, rfl, rfl⟩ := h
      exact Or.inr ⟨hround, by omega, n, hn, rfl⟩

theorem alloc_returns (hsum : bump.next + layout.align ≤ u64Max)
    (hcount : bump.allocations < u64Max) : ∃ r, bump.alloc p layout = .ok r := by
  have hadd : add p bump.allocations 1 = .ok (bump.allocations + 1) := fit_of_le p hcount
  simp only [BumpAllocator.alloc, alignUp_layout hsum, hadd, bind, Except.bind]
  split
  · exact ⟨_, rfl⟩
  · split <;> exact ⟨_, rfl⟩

theorem dealloc_eq (h : 0 < bump.allocations) : bump.dealloc p = .ok
    { bump with
      allocations := bump.allocations - 1
      next := if bump.allocations = 1 then bump.heapStart else bump.next } := by
  simp only [BumpAllocator.dealloc, sub_of_le p h, bind, Except.bind]
  by_cases hone : bump.allocations = 1
  · rw [if_pos hone, if_pos (by omega)]
    rfl
  · rw [if_neg hone, if_neg (by omega)]
    rfl

end Calls

section Run
variable {p : Profile} {heapStart heapEnd : Nat} {s t : System} {layout : Layout} {b : Block}

/-- A block behind all others is apart from them. -/
theorem Safe.fresh (hs : Safe heapStart heapEnd s) {ptr : Nat} (h : s.bump.next ≤ ptr) :
    ∀ b ∈ s.live, Apart ⟨ptr, layout⟩ b := by
  intro b hb
  have hend := (hs.placed b hb).2.2
  refine Set.disjoint_left.mpr fun x hx hx' => ?_
  have hlow := hx.1
  have hup := hx'.2
  simp only at hlow
  omega

theorem Safe.push (hs : Safe heapStart heapEnd s)
    (hroom : roundUp s.bump.next layout.align + layout.size ≤ heapEnd) :
    Safe heapStart heapEnd ⟨{ s.bump with
      next := roundUp s.bump.next layout.align + layout.size
      allocations := s.bump.allocations + 1 },
      ⟨roundUp s.bump.next layout.align, layout⟩ ::ₘ s.live⟩ := by
  have hlow := hs.low
  have hle := le_roundUp_layout s.bump.next layout
  refine ⟨hs.start, hs.stop, ?_, by simp only; omega, hroom,
    pairwise_cons.mpr ⟨hs.fresh hle, hs.apart⟩, fun b hb => ?_⟩
  · rw [Multiset.card_cons, hs.count]
  · rcases Multiset.mem_cons.mp hb with rfl | hb
    · exact ⟨dvd_roundUp, hlow.trans hle, le_rfl⟩
    · obtain ⟨halign, hstart, hend⟩ := hs.placed b hb
      exact ⟨halign, hstart, by simp only; omega⟩

theorem Safe.alloc (hs : Safe heapStart heapEnd s) (hpos : 0 < heapStart)
    (hhigh : heapEnd ≤ 2 ^ 63) (hcount : Counted p s (.alloc layout))
    (h : s.apply p (.alloc layout) = .ok t) :
    (t = s ∨ t.live ≠ 0 ∧ s.bump.next ≤ t.bump.next) ∧ Safe heapStart heapEnd t := by
  simp only [System.apply, bind_eq_ok, pure_eq_ok] at h
  obtain ⟨⟨ptr, bump⟩, hcall, rfl⟩ := h
  have hstop := hs.stop
  obtain ⟨rfl, rfl⟩ | ⟨rfl, hroom, n, hn, rfl⟩ :=
    alloc_cases (hstop ▸ hhigh) (hstop ▸ hs.high) hcall
  · rw [if_pos rfl]
    exact ⟨Or.inl rfl, hs⟩
  · have hnext : n = s.bump.allocations + 1 := by
      have hfits : p = .release → s.bump.allocations + 1 ≤ u64Max := by
        rintro rfl
        rw [hs.count]
        exact (hcount.resolve_left (by decide))
      cases p with
      | dev => exact (fit_dev.mp hn).1
      | release => exact (Except.ok.inj ((fit_of_le _ (hfits rfl)).symm.trans hn)).symm
    have hle := le_roundUp_layout s.bump.next layout
    have hlow := hs.low
    subst hnext
    rw [if_neg (by omega)]
    refine ⟨Or.inr ⟨Multiset.cons_ne_zero, by simp only; omega⟩, hs.push (hstop ▸ hroom)⟩

theorem Safe.dealloc (hs : Safe heapStart heapEnd s) (hb : b ∈ s.live)
    (h : s.apply p (.dealloc b) = .ok t) :
    (t.bump.next = if t.live = 0 then heapStart else s.bump.next) ∧ Safe heapStart heapEnd t := by
  have hcard := Multiset.card_erase_add_one hb
  have hcount := hs.count
  simp only [System.apply, dealloc_eq (p := p) (show 0 < s.bump.allocations by omega), bind_eq_ok,
    pure_eq_ok, Except.ok.injEq, exists_eq_left'] at h
  subst h
  have hzero : s.bump.allocations = 1 ↔ s.live.erase b = 0 := by
    rw [← Multiset.card_eq_zero]
    omega
  simp only [hzero]
  refine ⟨by rw [hs.start], hs.start, hs.stop, by simp only; omega, ?_, ?_, ?_, ?_⟩
  · simp only
    split
    · exact hs.start.ge
    · exact hs.low
  · simp only
    split
    · exact hs.start.le.trans (hs.low.trans hs.high)
    · exact hs.high
  · have hcons := hs.apart
    rw [← Multiset.cons_erase hb] at hcons
    exact (pairwise_cons.mp hcons).2
  · intro c hc
    simp only at hc ⊢
    rw [if_neg (fun h0 => by rw [h0] at hc; exact Multiset.notMem_zero c hc)]
    exact hs.placed c (Multiset.mem_of_mem_erase hc)

theorem Safe.step (hs : Safe heapStart heapEnd s) (hpos : 0 < heapStart) (hhigh : heapEnd ≤ 2 ^ 63)
    {op : Op} (h : Restrict (Step p) (Counted p) s op t) : Safe heapStart heapEnd t := by
  obtain ⟨⟨hlegal, happ⟩, hcount⟩ := h
  cases op with
  | alloc layout => exact (hs.alloc hpos hhigh hcount happ).2
  | dealloc b => exact (hs.dealloc hlegal happ).2

end Run

/-- Bump allocator safety, for a heap that does not start at the null address. In every run
the counter is the number of live blocks, which are aligned, pairwise disjoint and in front of
`next`; `next` goes back only when no block is live, and null leaves everything as it was. -/
theorem bump_safe (p : Profile) (heapStart heapSize : Nat) (hpos : 0 < heapStart)
    (hend : heapStart + heapSize ≤ 2 ^ 63) (bump : BumpAllocator)
    (hinit : BumpAllocator.new.init p heapStart heapSize = .ok bump) (s : System)
    (h : Reachable (Restrict (Step p) (Counted p)) ⟨bump, 0⟩ s) :
    s.bump.allocations = Multiset.card s.live ∧
    heapStart ≤ s.bump.next ∧ s.bump.next ≤ heapStart + heapSize ∧
    s.live.Pairwise Apart ∧
    (∀ b ∈ s.live, b.layout.align ∣ b.ptr ∧ heapStart ≤ b.ptr ∧
      b.ptr + b.layout.size ≤ s.bump.next) ∧
    (∀ b ∈ s.live, ∃ t, s.apply p (.dealloc b) = .ok t) ∧
    (∀ layout, s.bump.next + layout.align < 2 ^ 64 → Multiset.card s.live < u64Max →
      ∃ r, s.bump.alloc p layout = .ok r) ∧
    (∀ op t, Restrict (Step p) (Counted p) s op t → t.bump.next < s.bump.next → t.live = 0) ∧
    ∀ layout bump', s.bump.alloc p layout = .ok (0, bump') → bump' = s.bump := by
  have hsum : add p heapStart heapSize = .ok (heapStart + heapSize) :=
    fit_of_le p (by unfold u64Max; omega)
  simp only [BumpAllocator.init, hsum, bind_eq_ok, pure_eq_ok, Except.ok.injEq,
    exists_eq_left'] at hinit
  subst hinit
  have hs : Safe heapStart (heapStart + heapSize) s := by
    refine h.invariant (fun u op v hu hv => hu.step hpos hend hv) ?_
    exact ⟨rfl, rfl, rfl, le_rfl, Nat.le_add_right _ _, Multiset.pairwise_zero _,
      fun b hb => absurd hb (Multiset.notMem_zero b)⟩
  have hlow := hs.low
  refine ⟨hs.count, hs.low, hs.high, hs.apart, hs.placed, ?_, ?_, ?_, ?_⟩
  · intro b hb
    have hcard := Multiset.card_pos_iff_exists_mem.mpr ⟨b, hb⟩
    simp only [System.apply, dealloc_eq (p := p) (hs.count ▸ hcard)]
    exact ⟨_, rfl⟩
  · intro layout hroom hcount
    exact alloc_returns (by unfold u64Max; omega) (hs.count ▸ hcount)
  · rintro op t ⟨⟨hlegal, happ⟩, hcount⟩ hlt
    cases op with
    | alloc layout =>
      obtain rfl | ⟨_, hle⟩ := (hs.alloc hpos hend hcount happ).1 <;> omega
    | dealloc b =>
      by_contra hne
      have hnext := (hs.dealloc hlegal happ).1
      rw [if_neg hne] at hnext
      omega
  · intro layout bump' hcall
    have hstop := hs.stop
    obtain ⟨_, rfl⟩ | ⟨hzero, _⟩ := alloc_cases (hstop ▸ hend) (hstop ▸ hs.high) hcall
    · rfl
    · have hle := le_roundUp_layout s.bump.next layout
      omega

def eightBytes : Layout := ⟨8, 8, Layout.eight_powerOfTwo, by decide⟩

def oddByte : Layout := ⟨1, 1, Layout.one_powerOfTwo, by decide⟩

def twoBlocks : System :=
  ⟨⟨4096, 4160, 4112, 2⟩, ⟨4104, eightBytes⟩ ::ₘ ⟨4096, oddByte⟩ ::ₘ 0⟩

theorem twoBlocks_reachable :
    Reachable (Restrict (Step .dev) (Counted .dev)) ⟨⟨4096, 4160, 4096, 0⟩, 0⟩ twoBlocks :=
  ⟨[.alloc oddByte, .alloc eightBytes],
    .cons ⟨⟨trivial, rfl⟩, Or.inl rfl⟩ (.cons ⟨⟨trivial, rfl⟩, Or.inl rfl⟩ (.nil _))⟩

theorem twoBlocks_safe : twoBlocks.live.Pairwise Apart ∧
    ∀ layout bump, twoBlocks.bump.alloc .dev layout = .ok (0, bump) → bump = twoBlocks.bump := by
  have h := bump_safe .dev 4096 64 (by decide) (by decide) _ rfl _ twoBlocks_reachable
  exact ⟨h.2.2.2.1, h.2.2.2.2.2.2.2.2⟩

def noBytes : Layout := ⟨0, 1, Layout.one_powerOfTwo, Layout.empty_fits⟩

/-- Without overflow checks the counter goes round under blocks that take no room. -/
theorem emptyBlocks_reachable (n : Nat) :
    Reachable (Step .release) ⟨⟨4096, 4160, 4096, 0⟩, 0⟩
      ⟨⟨4096, 4160, 4096, n % 2 ^ 64⟩, Multiset.replicate n ⟨4096, noBytes⟩⟩ := by
  induction n with
  | zero => exact ⟨[], .nil _⟩
  | succ n ih =>
    refine ih.step (e := .alloc noBytes) ⟨trivial, ?_⟩
    have hadd : add .release (n % 2 ^ 64) 1 = .ok ((n + 1) % 2 ^ 64) := by
      unfold add fit u64Max
      split
      · exact congrArg Except.ok (by omega)
      · exact congrArg Except.ok (by omega)
    have halloc : BumpAllocator.alloc .release noBytes ⟨4096, 4160, 4096, n % 2 ^ 64⟩ =
        .ok (4096, ⟨4096, 4160, 4096, (n + 1) % 2 ^ 64⟩) := by
      have hup : alignUp .release 4096 noBytes.align = .ok 4096 := rfl
      have hend : checkedAdd 4096 noBytes.size = some 4096 := rfl
      simp only [BumpAllocator.alloc, hup, hend, hadd, bind, Except.bind]
      rfl
    simp only [System.apply, halloc, bind, Except.bind]
    rfl

/-- On a heap at address 0 the first block is null to its caller, and is counted. And 2^64
live blocks leave an unchecked counter at 0. -/
theorem bump_limits :
    (∃ bump bump', BumpAllocator.new.init .dev 0 16 = .ok bump ∧
      bump.alloc .dev eightBytes = .ok (0, bump') ∧ bump' ≠ bump ∧ bump'.allocations = 1) ∧
    ∃ bump s, BumpAllocator.new.init .release 4096 64 = .ok bump ∧
      Reachable (Step .release) ⟨bump, 0⟩ s ∧ s.bump.allocations = 0 ∧
      Multiset.card s.live = 2 ^ 64 := by
  refine ⟨⟨⟨0, 16, 0, 0⟩, ⟨0, 16, 8, 1⟩, rfl, rfl, by decide, rfl⟩, ?_⟩
  exact ⟨_, _, rfl, emptyBlocks_reachable (2 ^ 64), rfl, Multiset.card_replicate _ _⟩

end MoltOS.Bump
