import MoltOS.AllocatorRefine

/-! No call of the allocator touches a client's bytes, for every fallback heap that keeps
its contract; a heap that does. -/
namespace MoltOS.Allocator
open MoltOS.RawMemory MoltOS.Transition

variable {H : Type*} {heap : Fallback H} {Sound : H → Mem → Prop}

namespace RawSystem
variable {s : RawSystem H} {h : H} {m : Mem}

/-- The heap never touches a client's bytes. Let the fallback heap keep its contract. In
every state that calls and writes of clients into their own blocks lead to, a legal call
returns without a fault and leaves the contents of every other live block as they were. A
`realloc` that returns null changes nothing: the old block is live, and its contents, the
allocator, the fallback heap and the memory are the same. One that succeeds puts the new
block in place of the old one, with the first `min(old_size, new_size)` bytes of the old
contents, and has freed the old block exactly once. -/
theorem call_keeps_contents (hc : heap.Contract Sound) (hsound : Sound h m)
    (hempty : heap.grants h = 0) (hr : Reachable (Step heap) (new h m) s) (op : Op)
    (hlegal : op.Legal s.live) :
    ∃ p t, s.raw.call heap op = .ok (p, t) ∧
      (∀ b ∈ op.others s.live, Set.EqOn t.mem s.raw.mem b.region) ∧
      ∀ old l n, op = .realloc old l n →
        (p = 0 → op.track s.live p = s.live ∧ t = s.raw) ∧
        (p ≠ 0 → ∃ l', Layout.fromSizeAlign n l.align = .ok l' ∧
          op.track s.live p = ⟨p, l'⟩ ::ₘ s.live.erase ⟨old, l⟩ ∧
          Raw.Moved heap s.raw t ⟨old, l⟩ ⟨p, l'⟩) := by
  obtain ⟨u, -, hlive, hrep⟩ := refines hc hsound hempty hr
  rw [hlive] at hrep
  obtain ⟨p, t, a', hs, -, -, hkept⟩ := call_match hrep hc hlegal
  refine ⟨p, t, hs, fun b hb => (hkept b hb).mono (span_subset (granted_fits b.layout).1), ?_⟩
  rintro old l n rfl
  obtain ⟨q, t', a'', hs', -, -, hq⟩ := Raw.realloc_match hrep hc hlegal n
  obtain ⟨rfl, rfl⟩ := Prod.mk.inj (Except.ok.inj (hs.symm.trans hs'))
  obtain ⟨rfl, rfl, -⟩ | ⟨l', hl, hne, -, hmoved⟩ := hq
  · exact ⟨fun _ => ⟨System.track_null _ _ (by simp), rfl⟩, fun hne => absurd rfl hne⟩
  · refine ⟨fun h0 => absurd h0 hne, fun _ => ⟨l', hl, ?_, hmoved⟩⟩
    simp only [Op.track, hl, if_neg hne]

structure Bump where
  next : Nat
  grants : Multiset Block

def bump : Fallback Bump where
  allocateFirstFit l h m :=
    let p := (h.next + (l.align - 1)) / l.align * l.align
    if p + l.size ≤ heapStart + heapSize then
      (some p, ⟨p + l.size, ⟨p, l⟩ ::ₘ h.grants⟩, m)
    else (none, h, m)
  deallocate p l h m := ({ h with grants := h.grants.erase ⟨p, l⟩ }, m)
  grants := Bump.grants

def Bump.Valid (h : Bump) (_ : Mem) : Prop :=
  heapStart ≤ h.next ∧ ∀ b ∈ h.grants, b.ptr + b.layout.size ≤ h.next

theorem le_roundUp (n : Nat) {k : Nat} (hk : 0 < k) : n ≤ (n + (k - 1)) / k * k := by
  have hlt := Nat.lt_div_mul_add (a := n + (k - 1)) hk
  omega

theorem bump_contract : bump.Contract Bump.Valid where
  fails := by
    intro l h m h' m' _ hcall
    simp only [bump] at hcall
    split at hcall
    · cases hcall
    · cases hcall
      exact ⟨rfl, rfl⟩
  grant := by
    intro l h m p h' m' hsound hcall
    simp only [bump] at hcall
    split at hcall
    next hfits =>
      cases hcall
      have halign : 0 < l.align := by
        rw [l.powerOfTwo]
        exact Nat.two_pow_pos _
      have hup := le_roundUp h.next halign
      obtain ⟨hstart, hbelow⟩ := hsound
      refine ⟨⟨Nat.dvd_mul_left _ _, hstart.trans hup, hfits⟩, fun b hb => ?_, rfl,
        fun b _ => Set.eqOn_refl _ _, ⟨by simp only; omega, fun b hb => ?_⟩⟩
      · rw [apart_iff]
        have hend := hbelow b hb
        simp only
        omega
      · simp only
        cases Multiset.mem_cons.mp hb with
        | inl he => rw [he]
        | inr hb =>
          have hend := hbelow b hb
          omega
    · cases hcall
  release := by
    intro p l h m h' m' hsound _ hcall
    cases hcall
    exact ⟨rfl, fun b _ => Set.eqOn_refl _ _, hsound.1,
      fun b hb => hsound.2 b (Multiset.mem_of_mem_erase hb)⟩
  foreign := fun hsound _ _ => hsound

def counted : RawSystem Bump :=
  RawSystem.fill ⟨heapStart, System.smallLayout⟩ UInt8.ofNat
    ⟨⟨fun _ => none, ⟨heapStart + 32, {freeBlock System.class32 heapStart}⟩, fun _ => 0⟩,
      {⟨heapStart, System.smallLayout⟩}⟩

theorem counted_reachable : Reachable (Step bump) (new ⟨heapStart, 0⟩ fun _ => 0) counted := by
  have halloc : Step bump (new ⟨heapStart, 0⟩ fun _ => 0) (.call (.alloc System.smallLayout))
      ⟨⟨fun _ => none, ⟨heapStart + 32, {freeBlock System.class32 heapStart}⟩, fun _ => 0⟩,
        {⟨heapStart, System.smallLayout⟩}⟩ :=
    .call (p := heapStart) trivial rfl
  exact ⟨_, .cons halloc (.cons (.fill (Multiset.mem_singleton_self _)) (.nil _))⟩

theorem counted_mem {i : Nat} (h : i < 24) : counted.raw.mem (heapStart + i) = UInt8.ofNat i := by
  have hlen : i < ((List.range 24).map UInt8.ofNat).length := by simpa using h
  have hbyte := write_apply (fun _ => 0) heapStart hlen
  rwa [List.getElem_map, List.getElem_range] at hbyte

theorem counted_moves : ∃ p t,
    counted.raw.call bump (.realloc heapStart System.smallLayout 3000) = .ok (p, t) ∧
      p ≠ 0 ∧ ∀ i < 24, t.mem (p + i) = UInt8.ofNat i := by
  obtain ⟨p, t, hcall, -, hrealloc⟩ := call_keeps_contents bump_contract
    ⟨le_refl _, fun b hb => absurd hb (Multiset.notMem_zero b)⟩ rfl counted_reachable
    (.realloc heapStart System.smallLayout 3000) (Multiset.mem_singleton_self _)
  have hfst : (counted.raw.call bump (.realloc heapStart System.smallLayout 3000)).map Prod.fst =
      .ok (heapStart + 32) := rfl
  rw [hcall] at hfst
  obtain rfl : p = heapStart + 32 := Except.ok.inj hfst
  refine ⟨_, t, hcall, by decide, fun i hi => ?_⟩
  obtain ⟨l', hl, -, hmoved⟩ := (hrealloc _ _ _ rfl).2 (by decide)
  have hsize : l'.size = 3000 := Raw.fromSizeAlign_size hl
  rw [hmoved.copied i (lt_min hi (by simp only; omega))]
  exact counted_mem hi

end RawSystem
end MoltOS.Allocator
