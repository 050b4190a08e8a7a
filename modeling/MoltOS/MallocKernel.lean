import MoltOS.MallocSafe

/-! The kernel's global allocator under the C allocation functions: the fixed-size block
allocator on bytes, over any fallback heap that keeps its contract, serves its callers. -/
namespace MoltOS.Malloc
open MoltOS.Allocator MoltOS.RawMemory MoltOS.Transition

variable {H : Type*} {f : Fallback H} {Sound : H → Mem → Prop}

structure Records (H : Type*) where
  listHeads : Allocator.Class → Option Nat
  fallback : H
  live : Multiset Block

namespace Records

def onMem (h : Records H) (m : Mem) : Raw H := ⟨h.listHeads, h.fallback, m⟩

/- The branch for a fault is never taken in a sound state. -/
def fixedSizeBlock (f : Fallback H) : GlobalHeap (Records H) where
  alloc l h m :=
    match (h.onMem m).alloc f l with
    | .ok (p, r) =>
      (p, ⟨r.listHeads, r.fallback, if p = 0 then h.live else ⟨p, l⟩ ::ₘ h.live⟩, r.mem)
    | .error _ => (0, h, m)
  dealloc p l h m :=
    match (h.onMem m).dealloc f p l with
    | .ok r => (⟨r.listHeads, r.fallback, h.live.erase ⟨p, l⟩⟩, r.mem)
    | .error _ => (h, m)
  blocks := Records.live

def Lists (f : Fallback H) (Sound : H → Mem → Prop) (h : Records H) (m : Mem) : Prop :=
  ∃ a, Represents f Sound (h.onMem m) a h.live

theorem region_subset_backing (b : Block) : b.region ⊆ (backing b).region :=
  span_subset (granted_fits b.layout).1

theorem kept_region {m m' : Mem} {blocks : Multiset Block} (h : Kept m m' blocks) (b : Block)
    (hb : b ∈ blocks) : Set.EqOn m' m b.region :=
  (h b hb).mono (region_subset_backing b)

theorem fixedSizeBlock_serves (hc : f.Contract Sound) :
    (fixedSizeBlock f).Serves (Lists f Sound) where
  null := by
    rintro l h m h' m' ⟨a, hrep⟩ hcall
    obtain ⟨p, s', a', hs, -, hmatch⟩ := Raw.alloc_match (l := l) hrep hc
    simp only [fixedSizeBlock, hs, Prod.mk.injEq] at hcall
    obtain ⟨rfl, rfl, rfl⟩ := hcall
    obtain ⟨-, rfl, -⟩ | ⟨hne, -⟩ := hmatch.outcome
    · exact ⟨rfl, kept_region hmatch.kept, a, hrep⟩
    · exact absurd rfl hne
  grant := by
    rintro l h m p h' m' ⟨a, hrep⟩ hp hcall
    obtain ⟨q, s', a', hs, -, hmatch⟩ := Raw.alloc_match (l := l) hrep hc
    simp only [fixedSizeBlock, hs, Prod.mk.injEq] at hcall
    obtain ⟨rfl, rfl, rfl⟩ := hcall
    obtain ⟨rfl, -⟩ | ⟨-, hrep'⟩ := hmatch.outcome
    · exact absurd rfl hp
    · have hmem : (⟨q, l⟩ : Block) ∈ ⟨q, l⟩ ::ₘ h.live := Multiset.mem_cons_self _ _
      obtain ⟨halign, -, hend⟩ := hrep'.accounted.placed _ (hrep'.accounted.backing_mem hmem)
      obtain ⟨hsize, hdvd⟩ := granted_fits l
      have hend : q + (granted l).size ≤ heapStart + heapSize := hend
      have htop : heapStart + heapSize ≤ 2 ^ 64 := by decide
      refine ⟨⟨hdvd.trans halign, by omega⟩, fun b hb => ?_, if_neg hp, kept_region hmatch.kept,
        a', ?_⟩
      · have hb' : b ∈ (⟨q, l⟩ ::ₘ h.live).erase ⟨q, l⟩ := by rwa [Multiset.erase_cons_head]
        exact (hrep'.accounted.live_apart hmem hb').mono (region_subset_backing _)
          (region_subset_backing _)
      · simp only [if_neg hp]
        exact hrep'
  release := by
    rintro p l h m h' m' ⟨a, hrep⟩ hb hcall
    obtain ⟨s', a', hs, -, hrep', hkept, -⟩ := Raw.dealloc_match hrep hc hb
    simp only [fixedSizeBlock, hs, Prod.mk.injEq] at hcall
    obtain ⟨rfl, rfl⟩ := hcall
    exact ⟨rfl, kept_region hkept, a', hrep'⟩
  foreign := by
    rintro h m m' b ⟨a, hrep⟩ hb hm
    have hout : Set.EqOn m' m (backing b).regionᶜ :=
      hm.mono (Set.compl_subset_compl.mpr (region_subset_backing b))
    exact ⟨a, hrep.write hc hb hout⟩

def new (h : H) : Records H := ⟨fun _ => none, h, 0⟩

theorem new_lists {h : H} {m : Mem} (hsound : Sound h m) (hempty : f.grants h = 0) :
    Lists f Sound (new h) m :=
  ⟨FixedSizeBlockAllocator.new, fun _ => rfl, hempty.symm, hsound, Accounted.new⟩

/-- The kernel's C heap. In every run of the allocation functions over the kernel's
allocator without a request that wraps around, a call for at most `2^63 - 32` bytes returns
and leaves the allocator with sound free lists and the client's blocks out. -/
theorem c_heap_returns (hc : f.Contract Sound) {h : H} {m : Mem} (hsound : Sound h m)
    (hempty : f.grants h = 0) {s : System (Records H)}
    (hs : Reachable (Restrict (Step (fixedSizeBlock f)) fun _ op => op.NoWrap)
      ⟨⟨new h, m⟩, 0⟩ s) {op : Op} (hlegal : op.Legal s) (hfits : op.Fits) :
    ∃ p t, op.call (fixedSizeBlock f) s.state = .ok (p, t) ∧ Lists f Sound t.heap t.mem ∧
      t.heap.live = (op.track s.live p).map raw := by
  have hserves := fixedSizeBlock_serves hc
  have hheld : Held (fixedSizeBlock f) (Lists f Sound) 0 s.state s.live :=
    hs.invariant (held_step hserves) (held_init (new_lists hsound hempty))
  obtain ⟨p, t, hcall, hheld', -⟩ := call_fits hheld hserves hlegal hfits.stored
  refine ⟨p, t, hcall, hheld'.sound, ?_⟩
  exact hheld'.blocks.trans (Multiset.add_zero _)

end Records
end MoltOS.Malloc
