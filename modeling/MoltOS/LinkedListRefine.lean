import MoltOS.LinkedListRaw

/-! The byte-level `LinkedListAllocator` refines the one with a list: the walk along the
links finds what the search finds, and after each call of a run the chain in the memory is
the free list. -/
namespace MoltOS.LinkedList
open MoltOS.Allocator (Layout Block)
open MoltOS.RawMemory MoltOS.Rust MoltOS.Transition

section Walk
variable {p : Profile} {layout : Layout} {size align : Nat} {r : Region} {free : List Region}

theorem alignUp_dev {addr up : Nat} (h : alignUp .dev addr align = .ok up) :
    addr + align ≤ u64Max := by
  simp only [alignUp, bind_eq_ok, add, fit_dev] at h
  obtain ⟨_, ⟨_, hle⟩, _⟩ := h
  exact hle

/-- Where no check of `alloc_from_region` fails, the profiles agree. -/
theorem allocFromRegion_dev (hround : Rounded layout size align) {o : Option Nat}
    (h : allocFromRegion .dev r size align = .ok o) :
    allocFromRegion p r size align = .ok o ∧ ∀ start, o = some start →
      Fits r size align start ∧ r.addr ≤ start ∧ r.addr + r.size ≤ u64Max := by
  rw [allocFromRegion, bind_eq_ok] at h
  obtain ⟨up, hup, h⟩ := h
  have hsum := alignUp_dev hup
  rw [alignUp_rounded hround hsum] at hup
  cases hup
  have hpos : 0 < align := hround.power ▸ Nat.two_pow_pos _
  rw [allocFromRegion, alignUp_rounded hround hsum]
  simp only [bind, Except.bind]
  split at h
  · cases h
    exact ⟨rfl, nofun⟩
  next stop hstop =>
    obtain ⟨last, hlast, h⟩ := bind_eq_ok.mp h
    obtain ⟨rfl, hend⟩ := fit_dev.mp hlast
    obtain rfl : roundUp r.addr align + size = stop := by
      unfold checkedAdd at hstop
      split at hstop
      · exact Option.some.inj hstop
      · cases hstop
    simp only [endAddr_eq hend]
    by_cases hinside : roundUp r.addr align + size ≤ r.addr + r.size
    · rw [if_neg (by omega), sub_of_le _ hinside] at h ⊢
      simp only [bind, Except.bind] at h
      split at h
      next hsmall =>
        cases h
        exact ⟨if_pos hsmall, nofun⟩
      next hsmall =>
        cases h
        refine ⟨if_neg hsmall, fun start hs => ?_⟩
        cases hs
        exact ⟨⟨rfl, hinside, by omega⟩, le_roundUp hpos, hend⟩
    · rw [if_pos (by omega)] at h ⊢
      cases h
      exact ⟨rfl, nofun⟩

/-- The free list up to the region that is taken. -/
theorem findRegion_first {found : Option (Region × Nat × List Region)}
    (h : findRegion p size align free = .ok found) :
    match found with
    | none => ∀ q ∈ free, allocFromRegion p q size align = .ok none
    | some (r, start, rest) => ∃ pre post, free = pre ++ r :: post ∧ rest = pre ++ post ∧
        (∀ q ∈ pre, allocFromRegion p q size align = .ok none) ∧
        allocFromRegion p r size align = .ok (some start) := by
  induction free generalizing found with
  | nil =>
    cases h
    exact nofun
  | cons q free ih =>
    rw [findRegion, bind_eq_ok] at h
    obtain ⟨o, ho, h⟩ := h
    cases o with
    | some start =>
      cases h
      exact ⟨[], free, rfl, rfl, nofun, ho⟩
    | none =>
      obtain ⟨found', hfound, h⟩ := bind_eq_ok.mp h
      have hspec := ih hfound
      cases found' with
      | none =>
        cases h
        exact List.forall_mem_cons.mpr ⟨ho, hspec⟩
      | some triple =>
        cases h
        obtain ⟨pre, post, rfl, hrest, hpre, hr⟩ := hspec
        exact ⟨q :: pre, post, rfl, congrArg (q :: ·) hrest, List.forall_mem_cons.mpr ⟨ho, hpre⟩, hr⟩

end Walk

section Refine
variable {p : Profile} {layout : Layout} {size align fuel : Nat} {s : Raw} {current : Option Nat}
  {rest free : List Region} {found : Option (Region × Nat × List Region)}

/-- The walk along the links finds what the search through the list finds, and leaves the
list without it. -/
theorem findRegion_walks (hround : Rounded layout size align) (h : Ahead s current rest)
    (hfound : findRegion .dev size align rest = .ok found) (hfuel : rest.length < fuel) :
    match found with
    | none => Raw.findRegion p size align fuel current s = .ok (none, s)
    | some (r, start, left) => ∃ t,
        Raw.findRegion p size align fuel current s = .ok (some (r.addr, start), t) ∧
        Chain t.mem (t.next current) left ∧ t.regionAt r.addr = r ∧
        Untouched current (covered rest) s t := by
  -- The cursor moves on with the list: what is behind it is a chain of its own.
  induction rest generalizing current fuel found with
  | nil =>
    obtain ⟨fuel, rfl⟩ := Nat.exists_eq_add_of_lt hfuel
    cases hfound
    have hnext : s.next current = none := h.chain
    simp only [Raw.findRegion, hnext]
  | cons r rest ih =>
    obtain ⟨fuel, rfl⟩ : ∃ n, fuel = n + 1 := ⟨fuel - 1, by omega⟩
    rw [findRegion, bind_eq_ok] at hfound
    obtain ⟨o, ho, hfound⟩ := hfound
    have htry := (@allocFromRegion_dev p _ _ _ _ hround _ ho).1
    cases o with
    | some start =>
      cases hfound
      obtain ⟨htake, hchain, hregion, hsame⟩ := h.unlink rfl rfl
      refine ⟨_, ?_, hchain, hregion, hsame⟩
      simp only [Raw.findRegion, h.next_eq, h.regionAt_eq, htry, htake, lift, liftRaw,
        Except.mapError, bind, Except.bind]
      rfl
    | none =>
      obtain ⟨found', hfound', hlast⟩ := bind_eq_ok.mp hfound
      have hstep : Raw.findRegion p size align (fuel + 1) current s =
          Raw.findRegion p size align fuel (some r.addr) s := by
        simp only [Raw.findRegion, h.next_eq, h.regionAt_eq, htry, lift, liftRaw, Except.mapError,
          bind, Except.bind]
      have hwalk := ih h.advance hfound' (by simpa using hfuel)
      rw [hstep]
      cases found' with
      | none =>
        cases hlast
        exact hwalk
      | some triple =>
        cases hlast
        obtain ⟨t, hcall, hchain, hregion, hsame⟩ := hwalk
        obtain ⟨hpassed, hkept⟩ := h.passed hchain hsame
        exact ⟨t, hcall, hpassed, hregion, hkept⟩

theorem Represents.ahead (h : Represents s free) : Ahead s none free where
  chain := h.chain
  holds := h.holds
  apart := h.apart
  outside _ _ := Set.empty_disjoint _

/-- The overflow checks that pass along the walk leave both profiles the same way to go. -/
theorem findRegion_dev (hround : Rounded layout size align)
    (h : findRegion .dev size align free = .ok found) :
    findRegion p size align free = .ok found := by
  induction free generalizing found with
  | nil => exact h
  | cons r free ih =>
    rw [findRegion, bind_eq_ok] at h ⊢
    obtain ⟨o, ho, h⟩ := h
    refine ⟨o, (allocFromRegion_dev hround ho).1, ?_⟩
    cases o with
    | some start => exact h
    | none =>
      obtain ⟨found', hfound, h⟩ := bind_eq_ok.mp h
      exact bind_eq_ok.mpr ⟨found', ih hfound, h⟩

/-- What `alloc` answers on the list, once the walk through it is done. -/
def answer (size : Nat) (free : List Region) :
    Option (Region × Nat × List Region) → Nat × List Region
  | none => (0, free)
  | some (r, start, rest) => (start, tail r (start + size) ++ rest)

theorem alloc_eq_answer (hsize : sizeAlign layout = .ok (size, align))
    (hfound : findRegion .dev size align free = .ok found) :
    alloc p layout free = .ok (answer size free found) := by
  have hround := sizeAlign_ok hsize
  have hwalk := @findRegion_dev p _ _ _ _ _ hround hfound
  simp only [alloc, hsize, hwalk, lift, Except.mapError, bind, Except.bind]
  cases found with
  | none => rfl
  | some triple =>
    obtain ⟨r, start, rest⟩ := triple
    obtain ⟨pre, post, -, -, -, hr⟩ := findRegion_first hfound
    obtain ⟨hfit, -, hend⟩ := (@allocFromRegion_dev .dev _ _ _ _ hround _ hr).2 start rfl
    exact splitRegion_eq hend hround hfit

/-- What lies behind the block becomes the first node. -/
theorem Represents.addTail {r : Region} {start : Nat} (h : Represents s rest)
    (hround : Rounded layout size align) (hfit : Fits r size align start) (hpos : 0 < start)
    (hlow : r.addr ≤ start) (hend : r.addr + r.size ≤ u64Max) (hout : ∀ q ∈ rest, r.Apart q) :
    ∃ t, (if r.addr + r.size - (start + size) > 0 then do
        let s ← s.addFreeRegion p (start + size) (r.addr + r.size - (start + size))
        pure (start, s)
      else pure (start, s)) = .ok (start, t) ∧ Represents t (tail r (start + size) ++ rest) := by
  have hnode := tail_node hround hfit
  unfold tail at hnode ⊢
  by_cases hlt : start + size < r.addr + r.size
  · rw [if_pos hlt] at hnode ⊢
    obtain ⟨haligned, hbig, hsame⟩ := hnode _ (List.mem_singleton_self _)
    let behind : Region := ⟨start + size, r.addr + r.size - (start + size)⟩
    have hsub : span behind.addr behind.size ⊆ span r.addr r.size :=
      Set.Ico_subset_Ico (by simp only [behind]; omega) hsame.le
    obtain ⟨t, hadd, ht, -⟩ := @Represents.addFreeRegion p _ _ behind h (Nat.add_pos_left hpos _)
      haligned hbig (hsame.trans_le hend) fun q hq => (hout q hq).mono_left hsub
    refine ⟨t, ?_, ht⟩
    rw [if_pos (show r.addr + r.size - (start + size) > 0 by omega)]
    exact bind_ok_iff.mpr ⟨t, hadd, rfl⟩
  · rw [if_neg hlt, if_neg (by omega)]
    exact ⟨s, rfl, h⟩

/-- On the memory `alloc` does to the chain what it does to the list. -/
theorem Represents.alloc (h : Represents s free) (hsize : sizeAlign layout = .ok (size, align))
    (hfound : findRegion .dev size align free = .ok found) (hfuel : free.length < fuel) :
    ∃ t, s.alloc p layout fuel = .ok ((answer size free found).1, t) ∧
      Represents t (answer size free found).2 ∧ (found = none → t = s) := by
  have hround := sizeAlign_ok hsize
  have hwalk := @findRegion_walks p _ _ _ _ _ _ _ _ hround h.ahead hfound hfuel
  cases found with
  | none =>
    refine ⟨s, ?_, h, fun _ => rfl⟩
    simp only [Raw.alloc, hsize, hwalk, liftRaw, Except.mapError, bind, Except.bind]
    rfl
  | some triple =>
    obtain ⟨r, start, rest⟩ := triple
    obtain ⟨pre, post, rfl, rfl, -, hr⟩ := findRegion_first hfound
    obtain ⟨hfit, hlow, hend⟩ := (@allocFromRegion_dev .dev _ _ _ _ hround _ hr).2 start rfl
    obtain ⟨t, hcall, hchain, hregion, -⟩ := hwalk
    obtain ⟨hout, hapart⟩ := List.pairwise_cons.mp ((List.pairwise_middle fun h => h.symm).mp h.apart)
    have hrest : Represents t (pre ++ post) := by
      refine ⟨hchain, fun q hq => h.holds q ?_, hapart⟩
      exact (List.Sublist.append_left (List.sublist_cons_self r post) pre).subset hq
    have hpos : 0 < start := (h.holds r (by simp)).pos.trans_le hlow
    have hadd : checkedAdd start size = some (start + size) := if_pos (hfit.inside.trans hend)
    obtain ⟨t', hback, ht'⟩ := @Represents.addTail p _ _ _ _ _ _ _ hrest hround hfit hpos hlow hend hout
    refine ⟨t', ?_, ht', fun hnone => absurd hnone (Option.some_ne_none _)⟩
    simp only [answer, Raw.alloc, hsize, hcall, hadd, hregion, endAddr_eq hend,
      sub_of_le p hfit.inside, lift, liftRaw, Except.mapError, bind, Except.bind]
    exact hback

end Refine

section Runs
variable {p : Profile} {layout : Layout} {size align fuel heapStart heapSize : Nat} {s : Raw}
  {current : Option Nat} {free : List Region} {t : System} {b : Block}

/-- A walk that ends does not depend on how long it might have gone on. -/
theorem findRegion_more {x : Option (Nat × Nat) × Raw} (k : Nat)
    (h : Raw.findRegion p size align fuel current s = .ok x) :
    Raw.findRegion p size align (fuel + k) current s = .ok x := by
  induction fuel generalizing current with
  | zero => cases h
  | succ fuel ih =>
    rw [Nat.add_right_comm]
    cases hnext : s.next current with
    | none =>
      simp only [Raw.findRegion, hnext] at h ⊢
      exact h
    | some region =>
      simp only [Raw.findRegion, hnext] at h ⊢
      obtain ⟨o, ho, h⟩ := bind_ok_iff.mp h
      refine bind_ok_iff.mpr ⟨o, ho, ?_⟩
      cases o with
      | some start => exact h
      | none => exact ih h

theorem alloc_more {x : Nat × Raw} (k : Nat) (h : s.alloc p layout fuel = .ok x) :
    s.alloc p layout (fuel + k) = .ok x := by
  rw [Raw.alloc] at h ⊢
  obtain ⟨pair, hpair, h⟩ := bind_ok_iff.mp h
  obtain ⟨found, hfound, h⟩ := bind_ok_iff.mp h
  exact bind_ok_iff.mpr ⟨pair, hpair, bind_ok_iff.mpr ⟨found, findRegion_more k hfound, h⟩⟩

/-- Writes outside the free regions leave the chain as it is. -/
theorem Represents.frame {m : Mem} (h : Represents s free) (hm : Set.EqOn m s.mem (covered free)) :
    Represents { s with mem := m } free := by
  refine ⟨h.chain.frame fun r hr => ?_, h.holds, h.apart⟩
  have hsub : span r.addr nodeSize ⊆ covered free :=
    fun x hx => ⟨r, hr, span_subset (h.holds r hr).node hx⟩
  exact hm.mono hsub

theorem Inv.live_apart (h : Inv heapStart heapSize t) (hb : b ∈ t.live) :
    ∀ r ∈ t.free, (extent b).Apart r := by
  intro r hr
  obtain ⟨-, -, hcross⟩ := pairwise_add.mp h.apart
  exact (hcross r hr (extent b) (Multiset.mem_map_of_mem extent hb)).symm

theorem Inv.live_inside (h : Inv heapStart heapSize t) (hb : b ∈ t.live) :
    heapStart ≤ b.ptr ∧ b.ptr + roundedSize b.layout ≤ heapStart + heapSize :=
  h.inside (extent b) (Multiset.mem_add.mpr (.inr (Multiset.mem_map_of_mem extent hb)))

theorem alloc_step (ht : Inv heapStart heapSize t) (hs : Represents s t.free) {ptr : Nat} {raw : Raw}
    (hcall : s.alloc p layout fuel = .ok (ptr, raw)) :
    ∃ u, Step p t (.alloc layout) u ∧ u.live = Op.track t.live ptr (.alloc layout) ∧
      Represents raw u.free := by
  obtain ⟨⟨size, align⟩, hpair, -⟩ := bind_ok_iff.mp hcall
  have hsize : sizeAlign layout = .ok (size, align) := by
    cases hx : sizeAlign layout with
    | error f =>
      rw [hx] at hpair
      cases hpair
    | ok pair =>
      rw [hx] at hpair
      cases hpair
      rfl
  obtain ⟨found, hfound, -⟩ := @findRegion_ok .dev _ _ _ _ ht.free (sizeAlign_ok hsize)
  obtain ⟨raw', hcall', hraw, -⟩ := @Represents.alloc p _ _ _ (fuel + (t.free.length + 1)) _ _ _ hs
    hsize hfound (by omega)
  have hsame := (alloc_more (t.free.length + 1) hcall).symm.trans hcall'
  cases hsame
  have hlist := @alloc_eq_answer p _ _ _ _ _ hsize hfound
  refine ⟨⟨(answer size t.free found).2, Op.track t.live (answer size t.free found).1 (.alloc layout)⟩,
    ⟨trivial, ?_⟩, rfl, hraw⟩
  rw [System.apply, hlist]
  rfl

theorem dealloc_step (ht : Inv heapStart heapSize t) (hpos : 0 < heapStart)
    (hend : heapStart + heapSize ≤ 2 ^ 63) (hs : Represents s t.free) (hb : b ∈ t.live) {raw : Raw}
    (hcall : s.dealloc p b.ptr b.layout = .ok raw) :
    ∃ u, Step p t (.dealloc b) u ∧ u.live = t.live.erase b ∧ Represents raw u.free := by
  obtain ⟨hvalid, -⟩ := inv_freed ht hend hb
  obtain ⟨hlow, -⟩ := ht.live_inside hb
  obtain ⟨align, hsize, -⟩ := ht.live b hb
  obtain ⟨raw', hadd, hraw, -⟩ := @Represents.addFreeRegion p _ _ (extent b) hs (hpos.trans_le hlow)
    hvalid.aligned hvalid.big hvalid.end_le (ht.live_apart hb)
  have hback := @addFreeRegion_eq p (extent b) t.free hvalid.aligned hvalid.big hvalid.end_le
  rw [Raw.dealloc, hsize] at hcall
  have hsame := hcall.symm.trans hadd
  cases hsame
  refine ⟨freed t b, ⟨hb, ?_⟩, rfl, hraw⟩
  rw [System.apply, dealloc, hsize]
  simp only [bind, Except.bind]
  rw [show addFreeRegion p b.ptr (roundedSize b.layout) t.free = _ from hback]
  rfl

theorem Represents.fill (ht : Inv heapStart heapSize t) (hs : Represents s t.free) (hb : b ∈ t.live)
    (contents : Nat → UInt8) :
    Represents { s with mem := write s.mem b.ptr ((List.range b.layout.size).map contents) }
      t.free := by
  obtain ⟨align, hsize, -⟩ := ht.live b hb
  have hout := write_eqOn s.mem b.ptr ((List.range b.layout.size).map contents)
  rw [List.length_map, List.length_range] at hout
  have hblock : span b.ptr b.layout.size ⊆ span b.ptr (roundedSize b.layout) :=
    span_subset (sizeAlign_ok hsize).big
  refine hs.frame (hout.mono (Disjoint.subset_compl_left ?_))
  exact (disjoint_covered.mpr (ht.live_apart hb)).mono_left hblock

/-- A step of the byte level is a step on the list, or a write that the list does not see. -/
theorem raw_step_refines (hpos : 0 < heapStart) (hend : heapStart + heapSize ≤ 2 ^ 63)
    {u v : RawSystem} {e : Event} (ht : Inv heapStart heapSize t) (hlive : t.live = u.live)
    (hrep : Represents u.raw t.free) (hstep : RawSystem.Step p u e v) :
    ∃ t', (t' = t ∨ ∃ op, Step p t op t') ∧ t'.live = v.live ∧ Represents v.raw t'.free := by
  cases hstep with
  | @call op fuel ptr raw hlegal hcall =>
    rw [← hlive] at hlegal ⊢
    cases op with
    | alloc layout =>
      obtain ⟨t', hstep, hlive', hraw⟩ := alloc_step ht hrep hcall
      exact ⟨t', .inr ⟨_, hstep⟩, hlive', hraw⟩
    | dealloc b =>
      obtain ⟨raw', hcall, hret⟩ := bind_ok_iff.mp hcall
      cases hret
      obtain ⟨t', hstep, hlive', hraw⟩ := dealloc_step ht hpos hend hrep hlegal hcall
      exact ⟨t', .inr ⟨_, hstep⟩, hlive', hraw⟩
  | @fill b contents hb => exact ⟨t, .inl rfl, hlive, hrep.fill ht (hlive ▸ hb) contents⟩

/-- Every run on the memory is a run on the list: the chain is the list at each point, whatever
the clients write into their blocks. -/
theorem raw_refines (p : Profile) (m : Mem) (hpos : 0 < heapStart)
    (haligned : nodeAlign ∣ heapStart) (hsize : nodeSize ≤ heapSize)
    (hend : heapStart + heapSize ≤ 2 ^ 63) :
    ∃ raw, (Raw.new m).init p heapStart heapSize = .ok raw ∧
      ∀ s, Reachable (RawSystem.Step p) ⟨raw, 0⟩ s →
        ∃ t, Reachable (Step p) ⟨[⟨heapStart, heapSize⟩], 0⟩ t ∧ t.live = s.live ∧
          Represents s.raw t.free := by
  have hvalid : Region.Valid ⟨heapStart, heapSize⟩ := ⟨haligned, hsize, hend⟩
  obtain ⟨raw, hraw, hrep, -⟩ := @Represents.addFreeRegion p _ _ ⟨heapStart, heapSize⟩
    (Represents.nil m) hpos haligned hsize hvalid.end_le nofun
  refine ⟨raw, hraw, fun s hs => ?_⟩
  have hstep (u : RawSystem) (e : Event) (v : RawSystem)
      (hu : ∃ t, Reachable (Step p) ⟨[⟨heapStart, heapSize⟩], 0⟩ t ∧ t.live = u.live ∧
        Represents u.raw t.free) (hk : RawSystem.Step p u e v) :
      ∃ t, Reachable (Step p) ⟨[⟨heapStart, heapSize⟩], 0⟩ t ∧ t.live = v.live ∧
        Represents v.raw t.free := by
    obtain ⟨t, ht, hlive, hrep⟩ := hu
    have hinv := ht.invariant (step_inv hend) (inv_init hvalid)
    obtain ⟨t', hstep, hlive', hrep'⟩ := raw_step_refines hpos hend hinv hlive hrep hk
    refine ⟨t', ?_, hlive', hrep'⟩
    rcases hstep with rfl | ⟨op, hstep⟩
    · exact ht
    · exact ht.step hstep
  exact hs.invariant hstep ⟨_, ⟨[], .nil _⟩, rfl, hrep⟩

end Runs
end MoltOS.LinkedList
