import MoltOS.LinkedListRefine

/-! `alloc` of `LinkedListAllocator` is first fit, on the chain of nodes in the memory. -/
namespace MoltOS.LinkedList
open MoltOS.Allocator (Layout Block)
open MoltOS.RawMemory MoltOS.Rust

def Satisfies (p : Profile) (size align : Nat) (r : Region) : Prop :=
  ∃ start, allocFromRegion p r size align = .ok (some start)

theorem not_satisfies {p : Profile} {size align : Nat} {r : Region}
    (h : allocFromRegion p r size align = .ok none) : ¬ Satisfies p size align r := by
  rintro ⟨start, hstart⟩
  rw [h] at hstart
  cases hstart

/-- First fit. For a layout that can be rounded and a list whose addresses pass the overflow
checks of the walk, `alloc` returns null exactly if no region satisfies `alloc_from_region`,
and then nothing has changed. Otherwise the first such region is taken out of the list, and
what lies behind the block is the new head. -/
theorem alloc_first_fit (p : Profile) (layout : Layout) (size align fuel : Nat) (s : Raw)
    (free : List Region) (hs : Represents s free) (hsize : sizeAlign layout = .ok (size, align))
    (hwalk : ∃ found, findRegion .dev size align free = .ok found) (hfuel : free.length < fuel) :
    ∃ ptr t, s.alloc p layout fuel = .ok (ptr, t) ∧
      (ptr = 0 ↔ ∀ r ∈ free, ¬ Satisfies p size align r) ∧ (ptr = 0 → t = s) ∧
      (ptr ≠ 0 → ∃ pre r post, free = pre ++ r :: post ∧ (∀ q ∈ pre, ¬ Satisfies p size align q) ∧
        allocFromRegion p r size align = .ok (some ptr) ∧
        Represents t (tail r (ptr + size) ++ (pre ++ post))) := by
  obtain ⟨found, hfound⟩ := hwalk
  have hround := sizeAlign_ok hsize
  have hfirst := findRegion_first (@findRegion_dev p _ _ _ _ _ hround hfound)
  obtain ⟨t, hcall, ht, hsame⟩ := @Represents.alloc p _ _ _ _ _ _ _ hs hsize hfound hfuel
  refine ⟨_, t, hcall, ?_⟩
  cases found with
  | none =>
    have hnone : ∀ r ∈ free, ¬ Satisfies p size align r := fun r hr => not_satisfies (hfirst r hr)
    exact ⟨iff_of_true rfl hnone, fun _ => hsame rfl, fun h => absurd rfl h⟩
  | some triple =>
    obtain ⟨r, start, rest⟩ := triple
    obtain ⟨pre, post, rfl, rfl, hpre, hr⟩ := hfirst
    obtain ⟨pre', post', hsplit, -, -, hdev⟩ := findRegion_first hfound
    have hlow := ((@allocFromRegion_dev p _ _ _ _ hround _ hdev).2 start rfl).2.1
    have hmem : r ∈ pre ++ r :: post := by simp
    have hstart : start ≠ 0 := ((hs.holds r hmem).pos.trans_le hlow).ne'
    refine ⟨iff_of_false hstart fun h => h r hmem ⟨start, hr⟩, fun h => absurd h hstart, fun _ => ?_⟩
    exact ⟨pre, r, post, rfl, fun q hq => not_satisfies (hpre q hq), hr, ht⟩

theorem represents_one {r : Region} (hpos : 0 < r.addr) (haligned : nodeAlign ∣ r.addr)
    (hnode : nodeSize ≤ r.size) (hend : r.addr + r.size ≤ u64Max) : ∃ s, Represents s [r] := by
  obtain ⟨s, -, hs, -⟩ := @Represents.addFreeRegion .dev _ _ r (Represents.nil fun _ => 0) hpos
    haligned hnode hend nofun
  exact ⟨s, hs⟩

private def half : Layout := ⟨32, 8, Layout.eight_powerOfTwo, by decide⟩

/-- The first of two regions is too small, and the second is cut. -/
theorem alloc_first_fit_second : ∃ s t, Represents s [⟨0x1000, 16⟩, ⟨0x2000, 64⟩] ∧
    s.alloc .dev half 3 = .ok (0x2000, t) ∧ Represents t [⟨0x2020, 32⟩, ⟨0x1000, 16⟩] := by
  obtain ⟨s₁, hs₁⟩ := @represents_one ⟨0x2000, 64⟩ (by decide) (by decide) (by decide) (by decide)
  have hapart : Region.Apart ⟨0x1000, 16⟩ ⟨0x2000, 64⟩ :=
    Set.Ico_disjoint_Ico.mpr (by decide)
  obtain ⟨s, -, hs, -⟩ := @Represents.addFreeRegion .dev _ _ ⟨0x1000, 16⟩ hs₁ (by decide) (by decide)
    (by decide) (by decide) (List.forall_mem_singleton.mpr hapart)
  obtain ⟨ptr, t, hcall, hnull, -, hfit⟩ := alloc_first_fit .dev half 32 8 3 s _ hs rfl
    ⟨_, rfl⟩ (by decide)
  have hsecond : allocFromRegion .dev ⟨0x2000, 64⟩ 32 8 = .ok (some 0x2000) := rfl
  have hptr : ptr ≠ 0 := fun h => hnull.mp h ⟨0x2000, 64⟩ (by simp) ⟨_, hsecond⟩
  obtain ⟨pre, r, post, hsplit, hpre, hr, ht⟩ := hfit hptr
  have hfirst : allocFromRegion .dev ⟨0x1000, 16⟩ 32 8 = .ok none := rfl
  rcases pre with _ | ⟨q, _ | ⟨q', pre⟩⟩
  · cases hsplit
    exact absurd ⟨ptr, hr⟩ (not_satisfies hfirst)
  · cases hsplit
    obtain rfl : ptr = 0x2000 := Option.some.inj (Except.ok.inj (hr.symm.trans hsecond))
    exact ⟨s, t, hs, hcall, ht⟩
  · simp at hsplit

theorem alloc_unrounded {layout : Layout} {f : Fault} (h : sizeAlign layout = .error f) (p : Profile)
    (fuel : Nat) (s : Raw) : s.alloc p layout fuel = .error (.fault f) := by
  rw [Raw.alloc, h]
  rfl

theorem alloc_panics {p : Profile} {layout : Layout} {size align : Nat} {e : Panic} {s : Raw}
    {r : Region} {rest : List Region} (hs : Represents s (r :: rest))
    (hsize : sizeAlign layout = .ok (size, align))
    (hr : allocFromRegion p r size align = .error e) (fuel : Nat) :
    s.alloc p layout (fuel + 1) = .error (.fault (.panic e)) := by
  simp only [Raw.alloc, Raw.findRegion, hsize, hs.ahead.next_eq, hs.ahead.regionAt_eq, hr, lift,
    liftRaw, Except.mapError, bind, Except.bind]

private def huge : Layout := ⟨2 ^ 63 - 1, 1, Layout.one_powerOfTwo, by decide⟩
private def twoPages : Layout := ⟨16, 8192, by decide, by decide⟩

/-- Where `alloc` neither returns null nor a block: a size that cannot be rounded up to the
alignment of a node, and a region so high that aligning its start overflows. -/
theorem first_fit_panics :
    (∃ s, Represents s [⟨0x1000, 64⟩] ∧
      ∀ fuel, s.alloc .dev huge fuel = .error (.fault .alignmentFailed)) ∧
    ∃ s, Represents s [⟨2 ^ 64 - 4096, 4080⟩] ∧
      ∀ fuel, s.alloc .dev twoPages (fuel + 1) = .error (.fault (.panic .overflow)) := by
  obtain ⟨s, hs⟩ := @represents_one ⟨0x1000, 64⟩ (by decide) (by decide) (by decide) (by decide)
  obtain ⟨t, ht⟩ := @represents_one ⟨2 ^ 64 - 4096, 4080⟩ (by decide) (by decide) (by decide) (by decide)
  exact ⟨⟨s, hs, fun fuel => alloc_unrounded (by decide) .dev fuel s⟩,
    t, ht, alloc_panics ht rfl (by decide)⟩

end MoltOS.LinkedList
