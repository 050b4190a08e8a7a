import Mathlib.Algebra.BigOperators.Group.Multiset.Basic
import MoltOS.LinkedList

/-! Every run of `alloc` and `dealloc` on a `LinkedListAllocator`: the free regions and the
live blocks stay apart, and a byte leaves both for good exactly when a block is cut out of a
region that does not start at a multiple of the block's alignment. -/
namespace MoltOS.LinkedList
open MoltOS.Allocator MoltOS.RawMemory MoltOS.Rust MoltOS.Transition

inductive Op where
  | alloc (layout : Layout)
  | dealloc (block : Block)

structure System where
  free : List Region
  live : Multiset Block

namespace System

def init (p : Profile) (heapStart heapSize : Nat) : Except Fault System := do
  let free ← LinkedList.init p heapStart heapSize
  pure ⟨free, 0⟩

def apply (p : Profile) (s : System) : Op → Except Fault System
  | .alloc layout => do
    let (ptr, free) ← alloc p layout s.free
    pure ⟨free, if ptr = 0 then s.live else ⟨ptr, layout⟩ ::ₘ s.live⟩
  | .dealloc b => do
    let free ← dealloc p b.ptr b.layout s.free
    pure ⟨free, s.live.erase b⟩

end System

def Op.Legal (live : Multiset Block) : Op → Prop
  | .alloc _ => True
  | .dealloc b => b ∈ live

instance (live : Multiset Block) : (op : Op) → Decidable (op.Legal live)
  | .alloc _ => isTrue trivial
  | .dealloc b => inferInstanceAs (Decidable (b ∈ live))

def Step (p : Profile) (s : System) (op : Op) (t : System) : Prop :=
  op.Legal s.live ∧ s.apply p op = .ok t

def Region.Apart (r r' : Region) : Prop := Disjoint (span r.addr r.size) (span r'.addr r'.size)

instance : Std.Symm Region.Apart := ⟨fun _ _ h => h.symm⟩

def extent (b : Block) : Region := ⟨b.ptr, roundedSize b.layout⟩

def System.regions (s : System) : Multiset Region := (s.free : Multiset Region) + s.live.map extent

structure Safe (heapStart heapSize : Nat) (s : System) : Prop where
  apart : s.regions.Pairwise Region.Apart
  inside : ∀ r ∈ s.regions, heapStart ≤ r.addr ∧ r.addr + r.size ≤ heapStart + heapSize
  free : ∀ r ∈ s.free, nodeAlign ∣ r.addr ∧ nodeSize ≤ r.size
  live : ∀ b ∈ s.live, b.layout.align ∣ b.ptr ∧ b.layout.size ≤ roundedSize b.layout

def freeBytes (s : System) : Nat := (s.free.map (·.size)).sum

def liveBytes (s : System) : Nat := (s.live.map fun b => roundedSize b.layout).sum

def total (m : Multiset Region) : Nat := (m.map (·.size)).sum

theorem total_regions (s : System) : total s.regions = freeBytes s + liveBytes s := by
  simp [total, System.regions, freeBytes, liveBytes, extent, Function.comp_def]

theorem total_cons (r : Region) (m : Multiset Region) : total (r ::ₘ m) = r.size + total m := by
  simp [total]

theorem total_add (m m' : Multiset Region) : total (m + m') = total m + total m' := by simp [total]

def Held (b : Block) : Prop :=
  ∃ align, sizeAlign b.layout = .ok (roundedSize b.layout, align) ∧ align ∣ b.ptr

structure Inv (heapStart heapSize : Nat) (s : System) : Prop where
  apart : s.regions.Pairwise Region.Apart
  inside : ∀ r ∈ s.regions, heapStart ≤ r.addr ∧ r.addr + r.size ≤ heapStart + heapSize
  free : ∀ r ∈ s.free, r.Valid
  live : ∀ b ∈ s.live, Held b

theorem roundedSize_eq {layout : Layout} {size align : Nat} (h : sizeAlign layout = .ok (size, align)) :
    roundedSize layout = size := by
  rw [roundedSize, h]

theorem Inv.safe {heapStart heapSize : Nat} {s : System} (h : Inv heapStart heapSize s) :
    Safe heapStart heapSize s := by
  refine ⟨h.apart, h.inside, fun r hr => ⟨(h.free r hr).aligned, (h.free r hr).big⟩, fun b hb => ?_⟩
  obtain ⟨align, hsize, hptr⟩ := h.live b hb
  have hround := sizeAlign_ok hsize
  exact ⟨hround.aligned.trans hptr, hround.big⟩

/-- Pieces of one region may take its place. -/
theorem pairwise_replace {r : Region} {pieces rest : Multiset Region}
    (h : (r ::ₘ rest).Pairwise Region.Apart) (hpieces : pieces.Pairwise Region.Apart)
    (hsub : ∀ q ∈ pieces, span q.addr q.size ⊆ span r.addr r.size) :
    (pieces + rest).Pairwise Region.Apart := by
  obtain ⟨hr, hrest⟩ := pairwise_cons.mp h
  refine pairwise_add.mpr ⟨hpieces, hrest, fun q hq q' hq' => ?_⟩
  exact Disjoint.mono_left (hsub q hq) (hr q' hq')

section Pieces
variable {r : Region} {size align start : Nat} {layout : Layout}

def pieces (r : Region) (start size : Nat) : Multiset Region :=
  ⟨start, size⟩ ::ₘ (tail r (start + size) : Multiset Region)

theorem le_start (ha : 0 < align) (h : Fits r size align start) : r.addr ≤ start :=
  h.first ▸ le_roundUp ha

theorem pieces_subset (ha : 0 < align) (h : Fits r size align start) :
    ∀ q ∈ pieces r start size, r.addr ≤ q.addr ∧ q.addr + q.size ≤ r.addr + r.size := by
  intro q hq
  have hle := le_start ha h
  have hinside := h.inside
  rcases Multiset.mem_cons.mp hq with rfl | hq
  · exact ⟨hle, hinside⟩
  · unfold tail at hq
    split at hq
    · rw [Multiset.mem_coe, List.mem_singleton] at hq
      subst hq
      exact ⟨by simp only; omega, by simp only; omega⟩
    · simp at hq

theorem pieces_apart : (pieces r start size).Pairwise Region.Apart := by
  unfold pieces tail
  split
  · refine pairwise_cons.mpr ⟨fun q hq => ?_, ?_⟩
    · rw [Multiset.mem_coe, List.mem_singleton] at hq
      subst hq
      exact Set.Ico_disjoint_Ico.mpr (by simp)
    · exact (Multiset.pairwise_coe_iff_pairwise).mpr (List.pairwise_singleton _ _)
  · exact pairwise_one _

theorem total_pieces (ha : 0 < align) (h : Fits r size align start) :
    total (pieces r start size) + (start - r.addr) = r.size := by
  have hle := le_start ha h
  have hinside := h.inside
  unfold pieces tail total
  split
  · simp
    omega
  · simp
    omega

/- What is left of the region: with a null block only the tail. -/
def kept (r : Region) (start size : Nat) : Multiset Region :=
  if start = 0 then (tail r (start + size) : Multiset Region) else pieces r start size

theorem kept_le (r : Region) (start size : Nat) : kept r start size ≤ pieces r start size := by
  unfold kept
  split
  · exact Multiset.le_cons_self _ _
  · exact le_rfl

theorem kept_apart (r : Region) (start size : Nat) : (kept r start size).Pairwise Region.Apart := by
  unfold kept
  split
  · exact (pairwise_cons.mp pieces_apart).2
  · exact pieces_apart

/- The bytes of the region that go to no block and back to no list. A block at address 0 is
   null to the caller. -/
def gap (r : Region) (start size : Nat) : Nat := start - r.addr + if start = 0 then size else 0

theorem total_kept (ha : 0 < align) (h : Fits r size align start) :
    total (kept r start size) + gap r start size = r.size := by
  have htotal := total_pieces ha h
  unfold kept gap
  split
  · rw [pieces, total_cons] at htotal
    simp only at htotal
    omega
  · omega

theorem gap_eq_zero_iff (hround : Rounded layout size align) (h : Fits r size align start) :
    gap r start size = 0 ↔ align ∣ r.addr ∧ r.addr ≠ 0 := by
  have ha := hround.pos
  have hle := le_start ha h
  have hsize : 0 < size := Nat.lt_of_lt_of_le (by decide) hround.atLeast
  have hstart : start = r.addr ↔ align ∣ r.addr := by
    constructor
    · intro he
      exact he ▸ h.first ▸ dvd_roundUp
    · intro hd
      rw [h.first, roundUp_of_dvd ha hd]
  rw [← hstart]
  unfold gap
  split <;> omega

end Pieces

section Step
variable {p : Profile} {heapStart heapSize : Nat} {s : System} {layout : Layout}

theorem regions_perm {r : Region} {rest : List Region} (h : s.free.Perm (r :: rest)) :
    s.regions = r ::ₘ ((rest : Multiset Region) + s.live.map extent) := by
  have hfree : (s.free : Multiset Region) = r ::ₘ (rest : Multiset Region) := Multiset.coe_eq_coe.mpr h
  rw [System.regions, hfree, Multiset.cons_add]

def carved (s : System) (layout : Layout) (r : Region) (start size : Nat) (rest : List Region) :
    System where
  free := tail r (start + size) ++ rest
  live := if start = 0 then s.live else ⟨start, layout⟩ ::ₘ s.live

def freed (s : System) (b : Block) : System := ⟨extent b :: s.free, s.live.erase b⟩

theorem regions_carved {r : Region} {start size align : Nat} {rest : List Region}
    (hsize : sizeAlign layout = .ok (size, align)) :
    (carved s layout r start size rest).regions =
      kept r start size + ((rest : Multiset Region) + s.live.map extent) := by
  have hextent : extent ⟨start, layout⟩ = ⟨start, size⟩ := by rw [extent, roundedSize_eq hsize]
  unfold carved System.regions kept pieces
  split
  · rw [← Multiset.coe_add, add_assoc]
  · rw [← Multiset.coe_add, Multiset.map_cons, hextent, add_assoc, Multiset.add_cons, Multiset.add_cons,
      Multiset.cons_add]

theorem inv_carved (h : Inv heapStart heapSize s) {r : Region} {start size align : Nat}
    {rest : List Region} (hsize : sizeAlign layout = .ok (size, align))
    (hperm : s.free.Perm (r :: rest)) (hfit : Fits r size align start) :
    Inv heapStart heapSize (carved s layout r start size rest) := by
  have hround := sizeAlign_ok hsize
  have hpos := hround.pos
  have hr : r.Valid := h.free r (hperm.mem_iff.mpr List.mem_cons_self)
  have hsub := pieces_subset hpos hfit
  have hregions := regions_perm hperm
  have hcarved := @regions_carved s layout r start size align rest hsize
  have hinside := h.inside r (by rw [hregions]; exact Multiset.mem_cons_self _ _)
  refine ⟨?_, fun q hq => ?_, fun q hq => ?_, fun b hb => ?_⟩
  · rw [hcarved]
    refine pairwise_replace (hregions ▸ h.apart) (kept_apart r start size) fun q hq => ?_
    obtain ⟨hlo, hhi⟩ := hsub q (Multiset.mem_of_le (kept_le r start size) hq)
    exact Set.Ico_subset_Ico hlo hhi
  · rw [hcarved] at hq
    rcases Multiset.mem_add.mp hq with hq | hq
    · obtain ⟨hlo, hhi⟩ := hsub q (Multiset.mem_of_le (kept_le r start size) hq)
      omega
    · exact h.inside q (by rw [hregions]; exact Multiset.mem_cons_of_mem hq)
  · rcases List.mem_append.mp hq with hq | hq
    · exact tail_valid hr hround hfit q hq
    · exact h.free q (hperm.mem_iff.mpr (List.mem_cons_of_mem _ hq))
  · have hnew : Held ⟨start, layout⟩ :=
      ⟨align, by rw [roundedSize_eq hsize]; exact hsize, hfit.first ▸ dvd_roundUp⟩
    simp only [carved] at hb
    split at hb
    · exact h.live b hb
    · rcases Multiset.mem_cons.mp hb with rfl | hb
      · exact hnew
      · exact h.live b hb

/-- Cutting a block out of a region takes its gap from the free and the live bytes. -/
theorem total_carved {r : Region} {start size align : Nat} {rest : List Region}
    (hsize : sizeAlign layout = .ok (size, align)) (hperm : s.free.Perm (r :: rest))
    (hfit : Fits r size align start) :
    total (carved s layout r start size rest).regions + gap r start size = total s.regions := by
  have hkept := total_kept (sizeAlign_ok hsize).pos hfit
  rw [regions_perm hperm, total_cons, regions_carved hsize, total_add]
  omega

/-- Giving a block back moves it from the live blocks to the free regions. -/
theorem regions_freed {b : Block} (hb : b ∈ s.live) :
    (freed s b).regions = s.regions := by
  obtain ⟨live, hlive⟩ := Multiset.exists_cons_of_mem hb
  simp only [freed, System.regions, hlive, Multiset.erase_cons_head, Multiset.map_cons, ← Multiset.cons_coe,
    Multiset.cons_add, Multiset.add_cons]

theorem inv_freed (h : Inv heapStart heapSize s) (hend : heapStart + heapSize ≤ 2 ^ 63) {b : Block}
    (hb : b ∈ s.live) :
    (extent b).Valid ∧ Inv heapStart heapSize (freed s b) := by
  have hregions := regions_freed hb
  have hmem : extent b ∈ s.regions :=
    Multiset.mem_add.mpr (.inr (Multiset.mem_map_of_mem extent hb))
  have hinside := h.inside _ hmem
  obtain ⟨align, hsize, hptr⟩ := h.live b hb
  have hround := sizeAlign_ok hsize
  have hvalid : (extent b).Valid := ⟨hround.node.trans hptr, hround.atLeast, by omega⟩
  refine ⟨hvalid, hregions ▸ h.apart, hregions ▸ h.inside, ?_, fun c hc => ?_⟩
  · exact List.forall_mem_cons.mpr ⟨hvalid, h.free⟩
  · exact h.live c (Multiset.mem_of_mem_erase hc)

inductive Move (p : Profile) (s : System) : Op → System → Prop where
  | full {layout : Layout} {size align : Nat} (size_eq : sizeAlign layout = .ok (size, align))
      (none : findRegion p size align s.free = .ok none) : Move p s (.alloc layout) s
  | cut {layout : Layout} {size align : Nat} {r : Region} {start : Nat} {rest : List Region}
      (size_eq : sizeAlign layout = .ok (size, align))
      (found : findRegion p size align s.free = .ok (some (r, start, rest)))
      (perm : s.free.Perm (r :: rest)) (fit : Fits r size align start) :
      Move p s (.alloc layout) (carved s layout r start size rest)
  | freed {b : Block} (live : b ∈ s.live) : Move p s (.dealloc b) (freed s b)

/-- A legal call fails at `expect("alignment failed")` only. -/
theorem apply_cases (h : Inv heapStart heapSize s) (hend : heapStart + heapSize ≤ 2 ^ 63) {op : Op}
    (hop : op.Legal s.live) :
    s.apply p op = .error .alignmentFailed ∨ ∃ t, s.apply p op = .ok t ∧ Move p s op t := by
  cases op with
  | alloc layout =>
    rcases @alloc_cases p layout s.free h.free with ⟨-, hcall⟩ | ⟨size, align, hsize, hcase⟩
    · left
      rw [System.apply, hcall]
      rfl
    · right
      rcases hcase with ⟨hnone, hcall⟩ | ⟨r, start, rest, hfound, hperm, hfit, hcall⟩
      · refine ⟨s, ?_, .full hsize hnone⟩
        rw [System.apply, hcall]
        rfl
      · refine ⟨carved s layout r start size rest, ?_, .cut hsize hfound hperm hfit⟩
        rw [System.apply, hcall]
        rfl
  | dealloc b =>
    right
    obtain ⟨hvalid, -⟩ := inv_freed h hend hop
    obtain ⟨align, hsize, -⟩ := h.live b hop
    refine ⟨freed s b, ?_, .freed hop⟩
    have hback := @addFreeRegion_eq p (extent b) s.free hvalid.aligned hvalid.big hvalid.end_le
    simp only [System.apply, dealloc, hsize]
    simp only [extent] at hback
    simp only [bind, Except.bind, hback]
    rfl

theorem move_of_step (h : Inv heapStart heapSize s) (hend : heapStart + heapSize ≤ 2 ^ 63) {op : Op}
    {t : System} (hstep : Step p s op t) : Move p s op t := by
  obtain ⟨hop, hcall⟩ := hstep
  rcases @apply_cases p _ _ _ h hend op hop with hfail | ⟨u, hu, hmove⟩
  · rw [hfail] at hcall
    cases hcall
  · rw [hu] at hcall
    cases hcall
    exact hmove

theorem init_eq (p : Profile) (h : Region.Valid ⟨heapStart, heapSize⟩) :
    System.init p heapStart heapSize = .ok ⟨[⟨heapStart, heapSize⟩], 0⟩ := by
  have hadd : addFreeRegion p heapStart heapSize [] = _ :=
    @addFreeRegion_eq p ⟨heapStart, heapSize⟩ [] h.aligned h.big h.end_le
  rw [System.init, init, hadd]
  rfl

theorem inv_init (h : Region.Valid ⟨heapStart, heapSize⟩) :
    Inv heapStart heapSize ⟨[⟨heapStart, heapSize⟩], 0⟩ := by
  refine ⟨?_, ?_, List.forall_mem_singleton.mpr h, ?_⟩
  · exact pairwise_one _
  · simp [System.regions]
  · simp

theorem step_inv (hend : heapStart + heapSize ≤ 2 ^ 63) (s : System) (op : Op) (t : System)
    (h : Inv heapStart heapSize s) (hstep : Step p s op t) : Inv heapStart heapSize t := by
  cases move_of_step h hend hstep with
  | full => exact h
  | cut hsize _ hperm hfit => exact inv_carved h hsize hperm hfit
  | freed hb => exact (inv_freed h hend hb).2

end Step

/-- Whatever is allocated and freed, the free regions and the live blocks are disjoint pieces
of the heap, a node fits into every free region, every live block is aligned and big enough,
and the only call that can fail is one whose layout cannot be rounded to a node. -/
theorem free_list_stays_safe (p : Profile) (heapStart heapSize : Nat)
    (haligned : nodeAlign ∣ heapStart) (hsize : nodeSize ≤ heapSize)
    (hend : heapStart + heapSize ≤ 2 ^ 63) :
    ∃ s₀, System.init p heapStart heapSize = .ok s₀ ∧ ∀ s, Reachable (Step p) s₀ s →
      Safe heapStart heapSize s ∧
      ∀ op f, op.Legal s.live → s.apply p op = .error f → f = .alignmentFailed := by
  have hvalid : Region.Valid ⟨heapStart, heapSize⟩ := ⟨haligned, hsize, hend⟩
  refine ⟨_, init_eq p hvalid, fun s hs => ?_⟩
  have h := hs.invariant (step_inv hend) (inv_init hvalid)
  refine ⟨h.safe, fun op f hop hf => ?_⟩
  rcases @apply_cases p _ _ _ h hend op hop with hfail | ⟨t, ht, -⟩
  · exact Except.error.inj (hf.symm.trans hfail)
  · rw [ht] at hf
    cases hf

def call (p : Profile) (s : System) (op : Op) : Option System :=
  if op.Legal s.live then (s.apply p op).toOption else none

theorem step_of_call {p : Profile} {s t : System} {op : Op} (h : call p s op = some t) : Step p s op t := by
  unfold call at h
  split at h
  next hop =>
    refine ⟨hop, ?_⟩
    cases ha : s.apply p op with
    | error f => simp [ha, Except.toOption] at h
    | ok u => simpa [ha, Except.toOption] using h
  · cases h

theorem reachable_of_calls {p : Profile} {s : System} {ops : List Op} {q : System → Bool}
    (h : (exec (call p) s ops).any q = true) : ∃ t, Reachable (Step p) s t ∧ q t = true := by
  obtain ⟨t, ht, hq⟩ := reachable_of_exec h
  exact ⟨t, ht.mono fun _ _ _ => step_of_call, hq⟩

private def small : Layout := ⟨16, 8, Layout.eight_powerOfTwo, by decide⟩
private def wide : Layout := ⟨32, 32, by decide, by decide⟩

private def initial : System := ⟨[⟨heapStart, heapSize⟩], 0⟩

theorem init_initial : System.init .dev heapStart heapSize = .ok initial :=
  init_eq .dev ⟨by decide, by decide, by decide⟩

theorem free_list_stays_safe_heap :
    ∃ s, Reachable (Step .dev) initial s ∧ s.live.card = 2 ∧ Safe heapStart heapSize s := by
  have hrun : (exec (call .dev) initial [.alloc small, .alloc wide]).any
      (fun s => s.live.card = 2) = true := by decide +kernel
  obtain ⟨s, hreach, hcard⟩ := reachable_of_calls hrun
  obtain ⟨s₀, hinit, hsafe⟩ := free_list_stays_safe .dev heapStart heapSize (by decide) (by decide) (by decide)
  have hsame : s₀ = initial := Except.ok.inj (hinit.symm.trans init_initial)
  exact ⟨s, hreach, by simpa using hcard, (hsafe s (hsame ▸ hreach)).1⟩

def taken (p : Profile) (layout : Layout) (free : List Region) : Option (Region × Nat) :=
  match sizeAlign layout with
  | .error _ => none
  | .ok (size, align) =>
    match findRegion p size align free with
    | .ok (some (r, _, _)) => some (r, align)
    | _ => none

def Flush (p : Profile) (s : System) : Op → Prop
  | .alloc layout => ∀ x ∈ taken p layout s.free, x.2 ∣ x.1.addr ∧ x.1.addr ≠ 0
  | .dealloc _ => True

instance (p : Profile) (s : System) : (op : Op) → Decidable (Flush p s op)
  | .alloc layout =>
    inferInstanceAs (Decidable (∀ x ∈ taken p layout s.free, x.2 ∣ x.1.addr ∧ x.1.addr ≠ 0))
  | .dealloc _ => isTrue trivial

section Lost
variable {p : Profile} {heapStart heapSize : Nat} {s t : System} {layout : Layout} {op : Op}

theorem flush_cut {size align : Nat} {r : Region} {start : Nat} {rest : List Region}
    (hsize : sizeAlign layout = .ok (size, align))
    (hfound : findRegion p size align s.free = .ok (some (r, start, rest))) :
    Flush p s (.alloc layout) ↔ align ∣ r.addr ∧ r.addr ≠ 0 := by
  simp [Flush, taken, hsize, hfound]

theorem total_move (h : Move p s op t) :
    total t.regions ≤ total s.regions ∧ (total t.regions = total s.regions ↔ Flush p s op) := by
  cases h with
  | full hsize hnone => exact ⟨le_rfl, by simp [Flush, taken, hsize, hnone]⟩
  | freed hb =>
    rw [regions_freed hb]
    exact ⟨le_rfl, by simp [Flush]⟩
  | cut hsize hfound hperm hfit =>
    have htotal := total_carved hsize hperm hfit
    have hgap := gap_eq_zero_iff (sizeAlign_ok hsize) hfit
    rw [flush_cut hsize hfound, ← hgap]
    omega

theorem total_unflush (h : Move p s op t) (hflush : ¬Flush p s op) :
    ∃ layout size align r start rest, op = .alloc layout ∧
      sizeAlign layout = .ok (size, align) ∧
      findRegion p size align s.free = .ok (some (r, start, rest)) ∧ 0 < gap r start size ∧
      total t.regions + gap r start size = total s.regions := by
  cases h with
  | full hsize hnone => exact absurd (by simp [Flush, taken, hsize, hnone]) hflush
  | freed hb => exact absurd trivial hflush
  | @cut layout size align r start rest hsize hfound hperm hfit =>
    rw [flush_cut hsize hfound, ← gap_eq_zero_iff (sizeAlign_ok hsize) hfit] at hflush
    exact ⟨layout, size, align, r, start, rest, rfl, hsize, hfound, Nat.pos_of_ne_zero hflush,
      total_carved hsize hperm hfit⟩

end Lost

/-- The free and the live bytes are the whole heap exactly if every `alloc` of the run has
taken a region that starts at a multiple of its rounded alignment, and not at 0. Any other
`alloc` loses the bytes in front of its block for good (at address 0 the block itself). -/
theorem nothing_lost_iff (p : Profile) (heapStart heapSize : Nat)
    (haligned : nodeAlign ∣ heapStart) (hsize : nodeSize ≤ heapSize)
    (hend : heapStart + heapSize ≤ 2 ^ 63) :
    ∃ s₀, System.init p heapStart heapSize = .ok s₀ ∧
      (∀ ops s, Run (Step p) s₀ ops s →
        (freeBytes s + liveBytes s = heapSize ↔ Run (Restrict (Step p) (Flush p)) s₀ ops s)) ∧
      ∀ s op t, Reachable (Step p) s₀ s → Step p s op t → ¬Flush p s op →
        ∃ layout size align r start rest, op = .alloc layout ∧
          sizeAlign layout = .ok (size, align) ∧
          findRegion p size align s.free = .ok (some (r, start, rest)) ∧ 0 < gap r start size ∧
          freeBytes t + liveBytes t + gap r start size = freeBytes s + liveBytes s := by
  have hvalid : Region.Valid ⟨heapStart, heapSize⟩ := ⟨haligned, hsize, hend⟩
  have hinit := inv_init hvalid
  refine ⟨_, init_eq p hvalid, fun ops s hs => ?_, fun s op t hs hstep hflush => ?_⟩
  · have hstep (u : System) (op : Op) (v : System) (hu : Inv heapStart heapSize u)
        (hk : Step p u op v) :
        Inv heapStart heapSize v ∧ total v.regions ≤ total u.regions ∧
          (total v.regions = total u.regions ↔ Flush p u op) :=
      ⟨step_inv hend u op v hu hk, total_move (move_of_step hu hend hk)⟩
    have hwhole : total (System.regions ⟨[⟨heapStart, heapSize⟩], 0⟩) = heapSize := by
      simp [total, System.regions]
    have hkept := (hs.kept_iff hstep hinit).2
    rw [hwhole] at hkept
    rw [← total_regions, hkept]
  · have h := hs.invariant (step_inv hend) hinit
    rw [← total_regions, ← total_regions]
    exact total_unflush (move_of_step h hend hstep) hflush

theorem nothing_lost_one_block :
    ∃ s, Reachable (Step .dev) initial s ∧ s.live.card = 1 ∧ freeBytes s + liveBytes s = heapSize := by
  have hrun : (exec (checked (call .dev) (Flush .dev)) initial
      [.alloc small, .alloc small, .dealloc ⟨heapStart, small⟩]).any
      (fun s => s.live.card = 1) = true := by decide +kernel
  obtain ⟨s, ⟨ops, hflush⟩, hcard⟩ := reachable_of_checked hrun
  have hflush : Run (Restrict (Step .dev) (Flush .dev)) initial ops s :=
    hflush.mono fun _ _ _ h => ⟨step_of_call h.1, h.2⟩
  have hall : Run (Step .dev) initial ops s := hflush.mono fun _ _ _ h => h.1
  obtain ⟨s₀, hinit, hiff, -⟩ := nothing_lost_iff .dev heapStart heapSize (by decide) (by decide) (by decide)
  have hsame : s₀ = initial := Except.ok.inj (hinit.symm.trans init_initial)
  subst hsame
  exact ⟨s, ⟨ops, hall⟩, by simpa using hcard, (hiff ops s hall).mpr hflush⟩

/-- On the kernel's own heap: a block of 16 bytes, then one of 32 bytes aligned to 32, which
skips 16 bytes. Both are freed, and 16 bytes of the heap are in no region any more. -/
theorem aligned_block_loses_gap :
    ∃ s, Reachable (Step .dev) initial s ∧ s.live = 0 ∧ freeBytes s + 16 = heapSize := by
  have hrun : (exec (call .dev) initial [.alloc small, .alloc wide,
        .dealloc ⟨heapStart, small⟩, .dealloc ⟨heapStart + 32, wide⟩]).any
      (fun s => s.live = 0 ∧ freeBytes s + 16 = heapSize) = true := by decide +kernel
  obtain ⟨s, hreach, hend⟩ := reachable_of_calls hrun
  exact ⟨s, hreach, by simpa using hend⟩

end MoltOS.LinkedList
