import MoltOS.AllocatorFrame
import MoltOS.Malloc

/-! The header of a block is what the block was allocated with, as long as no request wraps
around: every `rust_free` then gives back a block as `rust_alloc` handed it out. -/
namespace MoltOS.Malloc
open MoltOS.Allocator MoltOS.RawMemory MoltOS.Transition

variable {H : Type*} {heap : GlobalHeap H} {Sound : H → Mem → Prop}

def stored (size : Nat) : Nat := if size = 0 then 1 else size

theorem le_stored (size : Nat) : size ≤ stored size := by
  unfold stored
  split <;> omega

theorem stored_pos (size : Nat) : 0 < stored size := by
  unfold stored
  split <;> omega

/- The layout `malloc(size)` asks for; only one that is valid is ever used. -/
def blockLayout (size : Nat) : Layout :=
  if h : stored size + mallocHdr + 16 ≤ 2 ^ 63 then ⟨stored size + mallocHdr, 16, by decide, h⟩
  else ⟨0, 1, Layout.one_powerOfTwo, Layout.empty_fits⟩

theorem blockLayout_eq {size : Nat} (h : stored size + mallocHdr + 16 ≤ 2 ^ 63) :
    (blockLayout size).size = stored size + mallocHdr ∧ (blockLayout size).align = 16 := by
  rw [blockLayout, dif_pos h]
  exact ⟨rfl, rfl⟩

def raw (u : User) : Block := ⟨u.ptr - mallocHdr, blockLayout u.size⟩

structure User.Placed (u : User) : Prop where
  low : mallocHdr < u.ptr
  aligned : 16 ∣ u.ptr
  fits : stored u.size + mallocHdr + 16 ≤ 2 ^ 63
  high : u.ptr + stored u.size ≤ 2 ^ 64

section Placed
variable {u : User}

theorem header_eq (h : u.Placed) : header u.ptr = u.ptr - mallocHdr := by
  have hlow := h.low
  have hhigh := h.high
  have hpos := stored_pos u.size
  unfold header word
  rw [show u.ptr + 2 ^ 64 - mallocHdr = u.ptr - mallocHdr + 2 ^ 64 by omega, Nat.add_mod_right,
    Nat.mod_eq_of_lt (by omega)]

theorem raw_region (h : u.Placed) : (raw u).region = span (u.ptr - mallocHdr) (stored u.size + mallocHdr) := by
  rw [Block.region, raw, (blockLayout_eq h.fits).1]

theorem header_subset (h : u.Placed) : span (u.ptr - mallocHdr) 8 ⊆ (raw u).region := by
  rw [raw_region h]
  exact span_subset (by unfold mallocHdr; omega)

theorem user_subset (h : u.Placed) : span u.ptr (stored u.size) ⊆ (raw u).region := by
  have hlow := h.low
  rw [raw_region h]
  exact Set.Ico_subset_Ico (by omega) (by omega)

/- The client's bytes do not reach into its own header. -/
theorem header_disjoint (h : u.Placed) :
    Disjoint (span (u.ptr - mallocHdr) 8) (span u.ptr (stored u.size)) := by
  have hlow := h.low
  refine Set.Ico_disjoint_Ico.mpr ?_
  unfold mallocHdr at *
  omega

end Placed

/-- The blocks of the heap are the client's and those of others, and every header is as
`malloc` wrote it. -/
structure Held (heap : GlobalHeap H) (Sound : H → Mem → Prop) (others : Multiset Block) (s : State H)
    (live : Multiset User) : Prop where
  sound : Sound s.heap s.mem
  blocks : heap.blocks s.heap = live.map raw + others
  apart : (live.map raw).Pairwise Apart
  foreign : ∀ u ∈ live, ∀ b ∈ others, Apart (raw u) b
  placed : ∀ u ∈ live, u.Placed
  header : ∀ u ∈ live, readWord s.mem (u.ptr - mallocHdr) = stored u.size

def Untouched (m m' : Mem) (live : Multiset User) : Prop :=
  ∀ u ∈ live, Set.EqOn m' m (raw u).region

namespace Held
variable {others : Multiset Block} {s t : State H} {live : Multiset User} {u v : User} {size : Nat}

theorem raw_mem (h : Held heap Sound others s live) (hu : u ∈ live) : raw u ∈ heap.blocks s.heap := by
  rw [h.blocks]
  exact Multiset.mem_add.mpr (.inl (Multiset.mem_map_of_mem raw hu))

theorem apart_erase (h : Held heap Sound others s live) (hu : u ∈ live) (hv : v ∈ live.erase u) :
    Apart (raw u) (raw v) := by
  have hcons : live.map raw = raw u ::ₘ (live.erase u).map raw := by
    rw [← Multiset.map_cons, Multiset.cons_erase hu]
  have hpair := h.apart
  rw [hcons] at hpair
  exact (pairwise_cons.mp hpair).1 _ (Multiset.mem_map_of_mem raw hv)

theorem readWord_header {m : Mem} (h : Held heap Sound others s live) (hu : u ∈ live)
    (hm : Set.EqOn m s.mem (raw u).region) : readWord m (u.ptr - mallocHdr) = stored u.size := by
  rw [readWord_congr (hm.mono (header_subset (h.placed u hu)))]
  exact h.header u hu

/-- A write to the client's own bytes of a block. -/
theorem write (h : Held heap Sound others s live) (hc : heap.Serves Sound) (hu : u ∈ live) {m : Mem}
    (hm : Set.EqOn m s.mem (span u.ptr (stored u.size))ᶜ) :
    Held heap Sound others { s with mem := m } live ∧ Untouched s.mem m (live.erase u) := by
  have hplaced := h.placed u hu
  have hoff : Set.EqOn m s.mem (raw u).regionᶜ :=
    hm.mono (Set.compl_subset_compl.mpr (user_subset hplaced))
  have huntouched : Untouched s.mem m (live.erase u) := fun v hv =>
    hoff.mono (h.apart_erase hu hv).subset_compl_left
  refine ⟨⟨hc.foreign h.sound (h.raw_mem hu) hoff, h.blocks, h.apart, h.foreign, h.placed,
    fun v hv => ?_⟩,
    huntouched⟩
  rcases Multiset.mem_cons.mp ((Multiset.cons_erase hu).symm ▸ hv) with rfl | hv'
  · rw [readWord_congr (hm.mono (header_disjoint hplaced).subset_compl_right)]
    exact h.header v hv
  · exact h.readWord_header hv (huntouched v hv')

/-- The heap's answer to a valid request, with the header written. -/
theorem grant (h : Held heap Sound others s live) (hc : heap.Serves Sound)
    (hfits : stored size + mallocHdr + 16 ≤ 2 ^ 63) {p : Nat} {h' : H} {m' : Mem} (hp : p ≠ 0)
    (hcall : heap.alloc (blockLayout size) s.heap s.mem = (p, h', m')) :
    p + mallocHdr < 2 ^ 64 ∧
      Held heap Sound others ⟨h', writeWord m' p (stored size)⟩ (⟨p + mallocHdr, size⟩ ::ₘ live) ∧
      Untouched s.mem (writeWord m' p (stored size)) live := by
  obtain ⟨hsize, halign⟩ := blockLayout_eq hfits
  obtain ⟨⟨hdvd, hhigh⟩, hapart, hblocks, hkept, hsound⟩ := hc.grant h.sound hp hcall
  rw [halign] at hdvd
  rw [hsize] at hhigh
  have hpos := stored_pos size
  have hlt : stored size < 2 ^ 64 := by omega
  have hraw : raw ⟨p + mallocHdr, size⟩ = ⟨p, blockLayout size⟩ := by simp [raw]
  have hnew : User.Placed ⟨p + mallocHdr, size⟩ := by
    refine ⟨by simp only; omega, ?_, hfits, by simp only; omega⟩
    exact Nat.dvd_add hdvd (by decide)
  have hword : Set.EqOn (writeWord m' p (stored size)) m' (Block.region ⟨p, blockLayout size⟩)ᶜ := by
    refine (writeWord_eqOn m' p (stored size)).mono (Set.compl_subset_compl.mpr ?_)
    have := header_subset hnew
    rwa [hraw, show (User.mk (p + mallocHdr) size).ptr - mallocHdr = p by simp] at this
  have hold : ∀ u ∈ live, Apart ⟨p, blockLayout size⟩ (raw u) := fun u hu => hapart _ (h.raw_mem hu)
  have huntouched : Untouched s.mem (writeWord m' p (stored size)) live := by
    intro u hu
    exact (hword.mono (hold u hu).subset_compl_left).trans (hkept _ (h.raw_mem hu))
  refine ⟨by omega, ⟨?_, ?_, ?_, ?_, ?_, ?_⟩, huntouched⟩
  · exact hc.foreign hsound (hblocks ▸ Multiset.mem_cons_self _ _) hword
  · rw [hblocks, h.blocks, Multiset.map_cons, hraw, Multiset.cons_add]
  · rw [Multiset.map_cons, hraw]
    refine pairwise_cons.mpr ⟨fun b hb => ?_, h.apart⟩
    obtain ⟨u, hu, rfl⟩ := Multiset.mem_map.mp hb
    exact hold u hu
  · intro u hu b hb
    rcases Multiset.mem_cons.mp hu with rfl | hu
    · rw [hraw]
      exact hapart b (h.blocks ▸ Multiset.mem_add.mpr (.inr hb))
    · exact h.foreign u hu b hb
  · intro u hu
    rcases Multiset.mem_cons.mp hu with rfl | hu
    · exact hnew
    · exact h.placed u hu
  · intro u hu
    rcases Multiset.mem_cons.mp hu with rfl | hu
    · rw [show (User.mk (p + mallocHdr) size).ptr - mallocHdr = p by simp]
      exact readWord_writeWord m' p hlt
    · exact h.readWord_header hu (huntouched u hu)

end Held

/- `from_size_align(..).unwrap()` on a size that the header has been added to. -/
theorem fromSizeAlign_block {size : Nat} (h : stored size + mallocHdr + 16 ≤ 2 ^ 63) :
    Layout.fromSizeAlign (stored size + mallocHdr) 16 = .ok (blockLayout size) :=
  Layout.fromSizeAlign_eq_ok.mpr (blockLayout_eq h)

theorem fromSizeAlign_big {size : Nat} (h : 2 ^ 63 < stored size + mallocHdr + 16) :
    ∃ e, Layout.fromSizeAlign (stored size + mallocHdr) 16 = .error e := by
  cases hl : Layout.fromSizeAlign (stored size + mallocHdr) 16 with
  | error e => exact ⟨e, rfl⟩
  | ok l =>
    obtain ⟨hsize, halign⟩ := Layout.fromSizeAlign_eq_ok.mp hl
    have := l.fits
    omega

section Specs
variable {others : Multiset Block} {s t : State H} {live : Multiset User} {u : User} {size : Nat}

theorem word_stored (h : size + mallocHdr < 2 ^ 64) : word (stored size + mallocHdr) = stored size + mallocHdr := by
  refine Nat.mod_eq_of_lt ?_
  unfold stored mallocHdr at *
  split <;> omega

theorem malloc_big (hbig : 2 ^ 63 < stored size + mallocHdr + 16) (h : size + mallocHdr < 2 ^ 64) :
    malloc heap size s = .error .unwrapFailed := by
  obtain ⟨e, he⟩ := fromSizeAlign_big hbig
  have hword : word ((if size = 0 then 1 else size) + mallocHdr) = stored size + mallocHdr := word_stored h
  simp only [malloc, rustAlloc, hword, he]
  rfl

/-- A request that does not wrap around and is not too big for a layout: null, or a block
whose header says what it was allocated with. -/
theorem malloc_spec (h : Held heap Sound others s live) (hc : heap.Serves Sound)
    (hfits : stored size + mallocHdr + 16 ≤ 2 ^ 63) :
    ∃ p t, malloc heap size s = .ok (p, t) ∧ Untouched s.mem t.mem live ∧
      (p = 0 ∧ Held heap Sound others t live ∨
        p ≠ 0 ∧ Held heap Sound others t (⟨p, size⟩ ::ₘ live)) := by
  have hsize := le_stored size
  have hword : word ((if size = 0 then 1 else size) + mallocHdr) = stored size + mallocHdr :=
    word_stored (by omega)
  obtain ⟨q, h', m', hcall⟩ : ∃ q h' m', heap.alloc (blockLayout size) s.heap s.mem = (q, h', m') :=
    ⟨_, _, _, rfl⟩
  have halloc : rustAlloc heap (stored size + mallocHdr) 16 s = .ok (q, ⟨h', m'⟩) := by
    simp only [rustAlloc, fromSizeAlign_block hfits, hcall]
  by_cases hq : q = 0
  · subst hq
    obtain ⟨hblocks, hkept, hsound⟩ := hc.null h.sound hcall
    have huntouched : Untouched s.mem m' live := fun u hu => hkept _ (h.raw_mem hu)
    refine ⟨0, ⟨h', m'⟩, ?_, huntouched, .inl ⟨rfl, hsound, ?_, h.apart, h.foreign, h.placed,
      fun u hu => ?_⟩⟩
    · simp only [malloc, hword, halloc, bind, Except.bind, if_true]
      rfl
    · rw [hblocks, h.blocks]
    · exact h.readWord_header hu (huntouched u hu)
  · obtain ⟨hlt, hheld, huntouched⟩ := h.grant hc hfits hq hcall
    have hptr : word (q + mallocHdr) = q + mallocHdr := Nat.mod_eq_of_lt hlt
    refine ⟨q + mallocHdr, _, ?_, huntouched, .inr ⟨by omega, hheld⟩⟩
    simp only [malloc, hword, halloc, bind, Except.bind, if_neg hq, hptr]
    rfl

/-- `free` hands back the block that `malloc` got. -/
theorem free_spec (h : Held heap Sound others s live) (hc : heap.Serves Sound) (hu : u ∈ live) :
    ∃ t, free heap u.ptr s = .ok t ∧ Held heap Sound others t (live.erase u) ∧
      heap.blocks t.heap = (heap.blocks s.heap).erase (raw u) ∧
      Untouched s.mem t.mem (live.erase u) := by
  have hplaced := h.placed u hu
  have hlow := hplaced.low
  have hfits := hplaced.fits
  have hstored := h.header u hu
  have hword : word (stored u.size + mallocHdr) = stored u.size + mallocHdr :=
    Nat.mod_eq_of_lt (by omega)
  have hmem : ⟨u.ptr - mallocHdr, blockLayout u.size⟩ ∈ heap.blocks s.heap := h.raw_mem hu
  obtain ⟨h', m', hcall⟩ : ∃ h' m',
      heap.dealloc (u.ptr - mallocHdr) (blockLayout u.size) s.heap s.mem = (h', m') := ⟨_, _, rfl⟩
  obtain ⟨hblocks, hkept, hsound⟩ := hc.release h.sound hmem hcall
  have hmap : live.map raw = raw u ::ₘ (live.erase u).map raw := by
    rw [← Multiset.map_cons, Multiset.cons_erase hu]
  have hrest : heap.blocks h' = (live.erase u).map raw + others := by
    rw [hblocks, h.blocks, hmap, Multiset.cons_add]
    exact Multiset.erase_cons_head _ _
  have huntouched : Untouched s.mem m' (live.erase u) := fun v hv =>
    hkept _ (hrest ▸ Multiset.mem_add.mpr (.inl (Multiset.mem_map_of_mem raw hv)))
  refine ⟨⟨h', m'⟩, ?_, ⟨hsound, hrest, ?_, fun v hv => ?_, fun v hv => ?_, fun v hv => ?_⟩,
    hblocks, huntouched⟩
  · simp only [free, if_neg (show u.ptr ≠ 0 by omega), hstored, hword, rustFree,
      fromSizeAlign_block hfits, header_eq hplaced, if_pos hmem, hcall]
  · exact (pairwise_cons.mp (hmap ▸ h.apart)).2
  · exact h.foreign v (Multiset.mem_of_mem_erase hv)
  · exact h.placed v (Multiset.mem_of_mem_erase hv)
  · exact h.readWord_header (Multiset.mem_of_mem_erase hv) (huntouched v hv)

/-- The new block is filled: what `calloc`, `strdup` and `realloc` do after `malloc`. -/
theorem fill_spec (h : Held heap Sound others s (u ::ₘ live)) (hc : heap.Serves Sound)
    (bytes : List UInt8) (hlen : bytes.length ≤ stored u.size) :
    Held heap Sound others { s with mem := write s.mem u.ptr bytes } (u ::ₘ live) ∧
      Untouched s.mem (write s.mem u.ptr bytes) live := by
  have hoff : Set.EqOn (RawMemory.write s.mem u.ptr bytes) s.mem (span u.ptr (stored u.size))ᶜ :=
    (write_eqOn s.mem u.ptr bytes).mono (Set.compl_subset_compl.mpr (span_subset hlen))
  obtain ⟨hheld, huntouched⟩ := h.write hc (Multiset.mem_cons_self u live) hoff
  rw [Multiset.erase_cons_head] at huntouched
  exact ⟨hheld, huntouched⟩

/-- The tail that `calloc` and `strdup` share: they write into the new block only, what the
memory that `malloc` left says. -/
theorem malloc_then_write (h : Held heap Sound others s live) (hc : heap.Serves Sound)
    (hfits : stored size + mallocHdr + 16 ≤ 2 ^ 63) (content : Mem → List UInt8)
    (hlen : ∀ m, (content m).length ≤ stored size) :
    ∃ p t, (malloc heap size s >>= fun (p, t) =>
        if p = 0 then pure (p, t)
        else pure (p, { t with mem := write t.mem p (content t.mem) })) = .ok (p, t) ∧
      (p = 0 ∧ Held heap Sound others t live ∨
        p ≠ 0 ∧ Held heap Sound others t (⟨p, size⟩ ::ₘ live)) ∧
      Untouched s.mem t.mem live ∧
      (p ≠ 0 → ∃ m, Untouched s.mem m live ∧ t.mem = write m p (content m)) := by
  obtain ⟨p, t, hcall, huntouched, ⟨hp, hheld⟩ | ⟨hp, hheld⟩⟩ := malloc_spec h hc hfits
  · refine ⟨p, t, ?_, .inl ⟨hp, hheld⟩, huntouched, fun hne => absurd hp hne⟩
    simp only [hcall, bind, Except.bind, if_pos hp]
    rfl
  · obtain ⟨hfill, hkept⟩ := fill_spec hheld hc (content t.mem) (hlen t.mem)
    refine ⟨p, { t with mem := write t.mem p (content t.mem) }, ?_, .inr ⟨hp, hfill⟩,
      fun u hu => (hkept u hu).trans (huntouched u hu), fun _ => ⟨t.mem, huntouched, rfl⟩⟩
    simp only [hcall, bind, Except.bind, if_neg hp]
    rfl

theorem calloc_spec (h : Held heap Sound others s live) (hc : heap.Serves Sound) {nmemb : Nat}
    (hfits : stored (nmemb * size) + mallocHdr + 16 ≤ 2 ^ 63) :
    ∃ p t, calloc heap nmemb size s = .ok (p, t) ∧
      (p = 0 ∧ Held heap Sound others t live ∨
        p ≠ 0 ∧ Held heap Sound others t (⟨p, nmemb * size⟩ ::ₘ live)) := by
  have hle := le_stored (nmemb * size)
  have hword : word (nmemb * size) = nmemb * size := Nat.mod_eq_of_lt (by omega)
  unfold calloc
  rw [hword]
  obtain ⟨p, t, hcall, hcase, -⟩ :=
    malloc_then_write h hc hfits (fun _ => List.replicate (nmemb * size) 0) (by simpa using hle)
  exact ⟨p, t, hcall, hcase⟩

theorem strdup_spec (h : Held heap Sound others s live) (hc : heap.Serves Sound) {src len : Nat}
    (hfits : stored (len + 1) + mallocHdr + 16 ≤ 2 ^ 63) :
    ∃ p t, strdup heap src len s = .ok (p, t) ∧
      (p = 0 ∧ Held heap Sound others t live ∨
        p ≠ 0 ∧ Held heap Sound others t (⟨p, len + 1⟩ ::ₘ live)) := by
  have hle := le_stored (len + 1)
  have hword : word (len + 1) = len + 1 := Nat.mod_eq_of_lt (by omega)
  unfold strdup
  rw [hword]
  obtain ⟨p, t, hcall, hcase, -⟩ :=
    malloc_then_write h hc hfits (fun m => read m src (len + 1)) (by simpa using hle)
  exact ⟨p, t, hcall, hcase⟩

def Moved (heap : GlobalHeap H) (s t : State H) (u : User) (p newSize : Nat) : Prop :=
  (p = 0 → heap.blocks t.heap = heap.blocks s.heap ∧ Set.EqOn t.mem s.mem (span u.ptr u.size)) ∧
  (p ≠ 0 → heap.blocks t.heap = raw ⟨p, newSize⟩ ::ₘ (heap.blocks s.heap).erase (raw u) ∧
    ∀ i < min u.size newSize, t.mem (p + i) = s.mem (u.ptr + i))

theorem realloc_spec (h : Held heap Sound others s live) (hc : heap.Serves Sound) (hu : u ∈ live)
    {newSize : Nat} (hnew : newSize ≠ 0) (hfits : stored newSize + mallocHdr + 16 ≤ 2 ^ 63) :
    ∃ p t, realloc heap u.ptr newSize s = .ok (p, t) ∧ Moved heap s t u p newSize ∧
      (p = 0 ∧ Held heap Sound others t live ∨
        p ≠ 0 ∧ Held heap Sound others t (⟨p, newSize⟩ ::ₘ live.erase u)) := by
  have hplaced := h.placed u hu
  have hlow := hplaced.low
  have hptr : u.ptr ≠ 0 := by omega
  have hold : readWord s.mem (header u.ptr) = stored u.size := by
    rw [header_eq hplaced]
    exact h.header u hu
  have huser : span u.ptr u.size ⊆ (raw u).region :=
    (span_subset (le_stored u.size)).trans (user_subset hplaced)
  obtain ⟨p, t, hcall, huntouched, ⟨hp, hheld⟩ | ⟨hp, hheld⟩⟩ := malloc_spec h hc hfits
  · refine ⟨p, t, ?_, ⟨fun _ => ⟨?_, (huntouched u hu).mono huser⟩, fun hne => absurd hp hne⟩,
      .inl ⟨hp, hheld⟩⟩
    · simp only [realloc, if_neg hptr, if_neg hnew, hcall, bind, Except.bind, hp]
      rfl
    · rw [hheld.blocks, h.blocks]
  · let new : User := ⟨p, newSize⟩
    let k := if stored u.size < newSize then stored u.size else newSize
    have hk : k ≤ newSize := by
      simp only [k]
      split <;> omega
    -- the old contents go into the new block, and the old block is given back
    obtain ⟨hcopied, hcopy⟩ := fill_spec hheld hc (read t.mem u.ptr k)
      (by rw [read_length]; exact hk.trans (le_stored newSize))
    obtain ⟨t', hfree, hheld', hblocks, hrest⟩ :=
      free_spec hcopied hc (Multiset.mem_cons_of_mem hu)
    have herase : (new ::ₘ live).erase u = new ::ₘ live.erase u := Multiset.erase_cons_tail_of_mem hu
    rw [herase] at hheld' hrest
    refine ⟨p, t', ?_, ⟨fun h0 => absurd h0 hp, fun _ => ⟨?_, fun i hi => ?_⟩⟩, .inr ⟨hp, hheld'⟩⟩
    · simp only [realloc, if_neg hptr, if_neg hnew, hcall, bind, Except.bind, if_neg hp, hold, memcpy]
      rw [hfree]
      rfl
    · rw [hblocks, hcopied.blocks, Multiset.map_cons, Multiset.cons_add, ← h.blocks]
      exact Multiset.erase_cons_tail_of_mem (h.raw_mem hu)
    · have hplaced' := hheld.placed new (Multiset.mem_cons_self _ _)
      have hle := le_stored u.size
      have hle' := le_stored newSize
      have hik : i < k := by
        simp only [k]
        split <;> omega
      have hpi : p + i ∈ (raw new).region :=
        user_subset hplaced' ⟨Nat.le_add_right p i, by simp only [new]; omega⟩
      have hui : u.ptr + i ∈ (raw u).region :=
        user_subset hplaced ⟨Nat.le_add_right _ i, by omega⟩
      rw [hrest new (Multiset.mem_cons_self _ _) hpi, ← huntouched u hu hui]
      exact write_read_apply t.mem u.ptr p hik

end Specs

def Op.NoWrap (op : Op) : Prop := op.bytes + mallocHdr < 2 ^ 64

def Op.Fits (op : Op) : Prop := op.bytes ≤ 2 ^ 63 - 32

theorem Op.big_of_not_fits {op : Op} (h : ¬op.Fits) : 2 ^ 63 < stored op.bytes + mallocHdr + 16 := by
  have hle := le_stored op.bytes
  unfold Op.Fits at h
  unfold mallocHdr
  omega

theorem Op.Fits.stored {op : Op} (h : op.Fits) : stored op.bytes + mallocHdr + 16 ≤ 2 ^ 63 := by
  unfold Op.Fits at h
  unfold Malloc.stored mallocHdr
  split <;> omega

section Run
variable {others : Multiset Block} {s : System H} {op : Op}

/- The results of the three functions that return a new block of the client. -/
theorem track_new {p size : Nat} {t : State H} {live : Multiset User}
    (h : p = 0 ∧ Held heap Sound others t live ∨ p ≠ 0 ∧ Held heap Sound others t (⟨p, size⟩ ::ₘ live)) :
    Held heap Sound others t (if p = 0 then live else ⟨p, size⟩ ::ₘ live) ∧
      (p ≠ 0 → ⟨p, size⟩ ∈ if p = 0 then live else ⟨p, size⟩ ::ₘ live) := by
  rcases h with ⟨hp, hheld⟩ | ⟨hp, hheld⟩
  · rw [if_pos hp]
    exact ⟨hheld, fun hne => absurd hp hne⟩
  · rw [if_neg hp]
    exact ⟨hheld, fun _ => Multiset.mem_cons_self _ _⟩

theorem call_fits (h : Held heap Sound others s.state s.live) (hc : heap.Serves Sound)
    (hlegal : op.Legal s) (hfits : stored op.bytes + mallocHdr + 16 ≤ 2 ^ 63) :
    ∃ p t, op.call heap s.state = .ok (p, t) ∧ Held heap Sound others t (op.track s.live p) ∧
      (p ≠ 0 → ⟨p, op.bytes⟩ ∈ op.track s.live p) ∧
      ∀ u n, op = .realloc (some u) n → n ≠ 0 → Moved heap s.state t u p n := by
  cases op with
  | malloc size =>
    obtain ⟨p, t, hcall, -, hcase⟩ := malloc_spec h hc hfits
    obtain ⟨hheld, hmem⟩ := track_new hcase
    exact ⟨p, t, hcall, hheld, hmem, by simp⟩
  | calloc nmemb size =>
    obtain ⟨p, t, hcall, hcase⟩ := calloc_spec h hc hfits
    obtain ⟨hheld, hmem⟩ := track_new hcase
    exact ⟨p, t, hcall, hheld, hmem, by simp⟩
  | strdup src len =>
    obtain ⟨p, t, hcall, hcase⟩ := @strdup_spec _ _ _ _ _ _ h hc src len hfits
    obtain ⟨hheld, hmem⟩ := track_new hcase
    exact ⟨p, t, hcall, hheld, hmem, by simp⟩
  | realloc old n =>
    cases old with
    | none =>
      obtain ⟨p, t, hcall, -, hcase⟩ := malloc_spec h hc hfits
      obtain ⟨hheld, hmem⟩ := track_new hcase
      refine ⟨p, t, hcall, ?_, ?_, by simp⟩
      · simpa [Op.track, address, Op.forget, Op.bytes] using hheld
      · simpa [Op.track, address, Op.forget, Op.bytes] using hmem
    | some u =>
      have hu : u ∈ s.live := hlegal.2 u rfl
      have hptr : u.ptr ≠ 0 := by
        have := (h.placed u hu).low
        omega
      by_cases hn : n = 0
      · subst hn
        obtain ⟨t, hfree, hheld, -⟩ := free_spec h hc hu
        refine ⟨0, t, ?_, ?_, by simp, by simp⟩
        · simp only [Op.call, address, Option.map_some, Option.getD_some, realloc, if_neg hptr, hfree]
          rfl
        · simpa [Op.track, address, hptr, Op.forget] using hheld
      · obtain ⟨p, t, hcall, hmoved, hcase⟩ := realloc_spec h hc hu hn hfits
        refine ⟨p, t, hcall, ?_, ?_, ?_⟩
        · rcases hcase with ⟨hp, hheld⟩ | ⟨hp, hheld⟩
          · simpa [Op.track, hn, hp] using hheld
          · simpa [Op.track, hn, hp, Op.forget] using hheld
        · intro hp
          simp [Op.track, hn, hp, Op.bytes]
        · rintro v n' he -
          cases he
          exact hmoved
  | free old =>
    cases old with
    | none => exact ⟨0, s.state, rfl, h, by simp, by simp⟩
    | some u =>
      obtain ⟨t, hfree, hheld, -⟩ := free_spec h hc (hlegal u rfl)
      refine ⟨0, t, ?_, hheld, by simp, by simp⟩
      simp only [Op.call, address, Option.map_some, Option.getD_some, hfree]
      rfl
  | store u offset bytes =>
    obtain ⟨hu, hlen⟩ := hlegal
    have hle := le_stored u.size
    have hsub : span (u.ptr + offset) bytes.length ⊆ span u.ptr (stored u.size) :=
      Set.Ico_subset_Ico (by omega) (by omega)
    have hoff : Set.EqOn (write s.state.mem (u.ptr + offset) bytes) s.state.mem
        (span u.ptr (stored u.size))ᶜ :=
      (write_eqOn _ _ _).mono (Set.compl_subset_compl.mpr hsub)
    exact ⟨0, _, rfl, (h.write hc hu hoff).1, by simp, by simp⟩

/-- A request too big for a layout, but not so big that it wraps around, stops the kernel. -/
theorem call_big (hwrap : op.NoWrap) (hbig : 2 ^ 63 < stored op.bytes + mallocHdr + 16) :
    op.call heap s.state = .error .unwrapFailed := by
  have hmalloc : ∀ t : State H, malloc heap op.bytes t = .error .unwrapFailed :=
    fun t => malloc_big hbig hwrap
  have hle := le_stored op.bytes
  cases op with
  | malloc size => exact hmalloc s.state
  | calloc nmemb size =>
    have hword : word (nmemb * size) = nmemb * size := Nat.mod_eq_of_lt (by
      unfold Op.NoWrap at hwrap
      exact (Nat.le_add_right _ _).trans_lt hwrap)
    simp only [Op.call, calloc, hword]
    rw [show nmemb * size = (Op.calloc nmemb size).bytes from rfl, hmalloc]
    rfl
  | strdup src len =>
    have hword : word (len + 1) = len + 1 := Nat.mod_eq_of_lt ((Nat.le_add_right _ _).trans_lt hwrap)
    simp only [Op.call, strdup, hword]
    rw [show len + 1 = (Op.strdup src len).bytes from rfl, hmalloc]
    rfl
  | realloc old n =>
    have hn : n ≠ 0 := by
      rintro rfl
      simp [Op.bytes, stored, mallocHdr] at hbig
    have hcall := hmalloc s.state
    by_cases hptr : address old = 0
    · simp only [Op.call, realloc, if_pos hptr]
      exact hcall
    · simp only [Op.call, realloc, if_neg hptr, if_neg hn]
      rw [show malloc heap n s.state = .error .unwrapFailed from hcall]
      rfl
  | free old => simp [Op.bytes, stored, mallocHdr] at hbig
  | store u offset bytes => simp [Op.bytes, stored, mallocHdr] at hbig

/-- The block that `free` will name is out, and out once. -/
theorem count_raw (h : Held heap Sound others s.state s.live) {u : User} (hu : u ∈ s.live) :
    (heap.blocks s.state.heap).count (raw u) = 1 := by
  have hplaced := h.placed u hu
  have hself : ¬ Apart (raw u) (raw u) := by
    intro hdis
    have hlow := hplaced.low
    have hmem : u.ptr ∈ (raw u).region :=
      user_subset hplaced ⟨le_rfl, Nat.lt_add_of_pos_right (stored_pos u.size)⟩
    exact Set.disjoint_left.mp hdis hmem hmem
  have hmap : s.live.map raw = raw u ::ₘ (s.live.erase u).map raw := by
    rw [← Multiset.map_cons, Multiset.cons_erase hu]
  have hrest : raw u ∉ (s.live.erase u).map raw := fun hmem =>
    hself ((pairwise_cons.mp (hmap ▸ h.apart)).1 _ hmem)
  have hothers : raw u ∉ others := fun hmem => hself (h.foreign u hu _ hmem)
  rw [h.blocks, hmap, Multiset.cons_add, Multiset.count_cons_self, Multiset.count_eq_zero_of_notMem]
  exact fun hmem => (Multiset.mem_add.mp hmem).elim hrest hothers

theorem held_step (hc : heap.Serves Sound) (s : System H) (op : Op) (t : System H)
    (h : Held heap Sound others s.state s.live)
    (hs : Restrict (Step heap) (fun _ op => op.NoWrap) s op t) :
    Held heap Sound others t.state t.live := by
  obtain ⟨⟨hlegal, p, u, hcall, rfl⟩, hwrap⟩ := hs
  by_cases hfits : stored op.bytes + mallocHdr + 16 ≤ 2 ^ 63
  · obtain ⟨q, v, hok, hheld, -⟩ := call_fits h hc hlegal hfits
    obtain ⟨rfl, rfl⟩ := Prod.mk.inj (Except.ok.inj (hcall.symm.trans hok))
    exact hheld
  · rw [call_big hwrap (by omega)] at hcall
    cases hcall

theorem held_init {h : H} {m : Mem} (hsound : Sound h m) :
    Held heap Sound (heap.blocks h) ⟨h, m⟩ 0 :=
  ⟨hsound, by simp, by simp [Multiset.pairwise_zero], by simp, by simp, by simp⟩

end Run

/-- Over a heap that serves its callers, in every run without a request that wraps around:
the blocks out are those of the client's pointers, with the layouts they were allocated with,
and those that were out before, and each of the client's is out once; its pointers are
16-aligned. A call for more bytes than there is a layout for stops in `rust_alloc`. Any other
returns a 16-aligned pointer and keeps the blocks so, freeing none that is not out, and
`realloc` moves the contents and gives the old block back once, or returns null and leaves the
old block as it was. -/
theorem frees_what_was_allocated (hc : heap.Serves Sound) {h : H} {m : Mem} (hsound : Sound h m)
    {s : System H}
    (hs : Reachable (Restrict (Step heap) fun _ op => op.NoWrap) ⟨⟨h, m⟩, 0⟩ s) :
    heap.blocks s.state.heap = s.live.map raw + heap.blocks h ∧
    (∀ u ∈ s.live, 16 ∣ u.ptr ∧ (heap.blocks s.state.heap).count (raw u) = 1) ∧
    ∀ op : Op, op.Legal s → op.NoWrap →
      2 ^ 63 - 32 < op.bytes ∧ op.call heap s.state = .error .unwrapFailed ∨
      ∃ p t, op.call heap s.state = .ok (p, t) ∧ 16 ∣ p ∧
        heap.blocks t.heap = (op.track s.live p).map raw + heap.blocks h ∧
        ∀ u n, op = .realloc (some u) n → n ≠ 0 → Moved heap s.state t u p n := by
  have hheld : Held heap Sound (heap.blocks h) s.state s.live :=
    hs.invariant (held_step hc) (held_init hsound)
  refine ⟨hheld.blocks, fun u hu => ⟨(hheld.placed u hu).aligned, count_raw hheld hu⟩,
    fun op hlegal hwrap => ?_⟩
  by_cases hfits : op.Fits
  · obtain ⟨p, t, hcall, hheld', hnew, hmoved⟩ := call_fits hheld hc hlegal hfits.stored
    refine .inr ⟨p, t, hcall, ?_, hheld'.blocks, hmoved⟩
    by_cases hp : p = 0
    · exact hp ▸ Nat.dvd_zero 16
    · exact (hheld'.placed _ (hnew hp)).aligned
  · exact .inl ⟨Nat.lt_of_not_le hfits, call_big hwrap (Op.big_of_not_fits hfits)⟩

def next (heap : GlobalHeap H) (s : System H) (op : Op) : System H :=
  match op.call heap s.state with
  | .ok (p, t) => ⟨t, op.track s.live p⟩
  | .error _ => s

theorem step_next {s : System H} {op : Op} (hlegal : op.Legal s)
    (hok : (op.call heap s.state).isOk = true) : Step heap s op (next heap s op) := by
  refine ⟨hlegal, ?_⟩
  unfold next
  cases hcall : op.call heap s.state with
  | error f => simp [hcall, Except.isOk, Except.toBool] at hok
  | ok r => exact ⟨r.1, r.2, rfl, rfl⟩

def rising : GlobalHeap RawSystem.Bump := ofFallback RawSystem.bump

theorem rising_serves : rising.Serves RawSystem.Bump.Valid :=
  ofFallback_serves RawSystem.bump_contract

def untouched : System RawSystem.Bump := ⟨⟨⟨heapStart, 0⟩, fun _ => 0⟩, 0⟩

theorem untouched_valid : RawSystem.Bump.Valid untouched.state.heap untouched.state.mem :=
  ⟨le_refl _, fun b hb => absurd hb (Multiset.notMem_zero b)⟩

theorem frees_what_was_allocated_grown :
    ∃ p t, (Op.realloc (some ⟨heapStart + 16, 24⟩) 100).call rising
        (next rising untouched (.malloc 24)).state = .ok (p, t) ∧
      Moved rising (next rising untouched (.malloc 24)).state t ⟨heapStart + 16, 24⟩ p 100 := by
  have hstep : Step rising untouched (.malloc 24) (next rising untouched (.malloc 24)) :=
    step_next (show 24 < 2 ^ 64 by decide) (by decide +kernel)
  have hwrap : (Op.malloc 24).NoWrap := show 24 + 16 < 2 ^ 64 by decide
  have hlegal : (Op.realloc (some ⟨heapStart + 16, 24⟩) 100).Legal
      (next rising untouched (.malloc 24)) := by
    refine ⟨by decide, fun u hu => ?_⟩
    cases hu
    decide +kernel
  obtain ⟨hbig, -⟩ | ⟨p, t, hcall, -, -, hmoved⟩ :=
    (frees_what_was_allocated rising_serves untouched_valid
      ⟨_, .cons ⟨hstep, hwrap⟩ (.nil _)⟩).2.2 _ hlegal (show 100 + 16 < 2 ^ 64 by decide)
  · exact absurd hbig (show ¬2 ^ 63 - 32 < 100 by decide)
  · exact ⟨p, t, hcall, hmoved _ _ rfl (by decide)⟩

def wrapped : System RawSystem.Bump := next rising untouched (.malloc (2 ^ 64 - 8))

def neighbour : System RawSystem.Bump := next rising wrapped (.malloc 1)

def overwritten : System RawSystem.Bump :=
  next rising neighbour (.store ⟨heapStart + 16, 2 ^ 64 - 8⟩ 0 [100, 0, 0, 0, 0, 0, 0, 0])

theorem overwritten_reachable : Reachable (Step rising) untouched overwritten := by
  have hmalloc : Step rising untouched (.malloc (2 ^ 64 - 8)) wrapped :=
    step_next (show 2 ^ 64 - 8 < 2 ^ 64 by decide) (by decide +kernel)
  have hsecond : Step rising wrapped (.malloc 1) neighbour :=
    step_next (show 1 < 2 ^ 64 by decide) (by decide +kernel)
  have hinside : (Op.store ⟨heapStart + 16, 2 ^ 64 - 8⟩ 0 [100, 0, 0, 0, 0, 0, 0, 0]).Legal
      neighbour := ⟨by decide +kernel, by decide⟩
  exact ⟨_, .cons hmalloc (.cons hsecond (.cons (step_next hinside rfl) (.nil _)))⟩

/-- The sum of a size near `2^64` and the header wraps around, and the block returned has
8 bytes. The next block's header lies inside what the client may write, and `free` then
names a block that was never allocated. -/
theorem wrapped_request_frees_foreign_block :
    rising.Serves RawSystem.Bump.Valid ∧
    RawSystem.Bump.Valid untouched.state.heap untouched.state.mem ∧
    Reachable (Step rising) untouched overwritten ∧
    (Op.free (some ⟨heapStart + 32, 1⟩)).Legal overwritten ∧
    (Op.free (some ⟨heapStart + 32, 1⟩)).call rising overwritten.state =
      .error .foreignBlock := by
  refine ⟨rising_serves, untouched_valid, overwritten_reachable, ?_, ?_⟩
  · intro u hu
    cases hu
    decide +kernel
  · rfl

/-- In every run whose requests do not wrap around, a call that asks for at most `2^63 - 32`
bytes returns null or a pointer with as many bytes as were asked for behind it, inside one
block of the heap, and a call that asks for more, but does not wrap around, stops the kernel. -/
theorem never_smaller_than_asked (hc : heap.Serves Sound) {h : H} {m : Mem} (hsound : Sound h m)
    {s : System H} (hs : Reachable (Restrict (Step heap) fun _ op => op.NoWrap) ⟨⟨h, m⟩, 0⟩ s)
    {op : Op} (hlegal : op.Legal s) (hwrap : op.NoWrap) :
    (op.Fits → ∃ p t, op.call heap s.state = .ok (p, t) ∧
      (p = 0 ∨ ∃ b ∈ heap.blocks t.heap, b.ptr ≤ p ∧ p + op.bytes ≤ b.ptr + b.layout.size)) ∧
    (¬op.Fits → op.call heap s.state = .error .unwrapFailed) := by
  have hheld : Held heap Sound (heap.blocks h) s.state s.live :=
    hs.invariant (held_step hc) (held_init hsound)
  refine ⟨fun hfits => ?_, fun hbig => call_big hwrap (Op.big_of_not_fits hbig)⟩
  obtain ⟨p, t, hcall, hheld', hnew, -⟩ := call_fits hheld hc hlegal hfits.stored
  refine ⟨p, t, hcall, or_iff_not_imp_left.mpr fun hp => ?_⟩
  have hmem := hnew hp
  have hplaced := hheld'.placed _ hmem
  have hlow : mallocHdr < p := hplaced.low
  have hle := le_stored op.bytes
  have hsize : (raw ⟨p, op.bytes⟩).layout.size = stored op.bytes + mallocHdr :=
    (blockLayout_eq hplaced.fits).1
  refine ⟨raw ⟨p, op.bytes⟩, hheld'.raw_mem hmem, by simp [raw], ?_⟩
  rw [hsize]
  simp only [raw]
  omega

theorem never_smaller_than_asked_table :
    (∃ p t, (Op.calloc 3 5).call rising untouched.state = .ok (p, t) ∧
      (p = 0 ∨ ∃ b ∈ rising.blocks t.heap, b.ptr ≤ p ∧ p + 15 ≤ b.ptr + b.layout.size)) ∧
    (Op.malloc (2 ^ 63)).call rising untouched.state = .error .unwrapFailed := by
  have hlegal : (Op.calloc 3 5).Legal untouched := ⟨by decide, by decide⟩
  have hbig : (Op.malloc (2 ^ 63)).Legal untouched := show 2 ^ 63 < 2 ^ 64 by decide
  refine ⟨(never_smaller_than_asked rising_serves untouched_valid ⟨_, .nil _⟩ hlegal ?_).1 ?_,
    (never_smaller_than_asked rising_serves untouched_valid ⟨_, .nil _⟩ hbig ?_).2 ?_⟩
  · show 3 * 5 + 16 < 2 ^ 64
    decide
  · show 3 * 5 ≤ 2 ^ 63 - 32
    decide
  · show 2 ^ 63 + 16 < 2 ^ 64
    decide
  · show ¬2 ^ 63 ≤ 2 ^ 63 - 32
    decide

/-- `calloc(2^32, 2^32)` wraps to no bytes at all and returns a pointer into a block of 17
bytes; `malloc(2^63)` stops the kernel. -/
theorem wrapped_product_gets_one_byte :
    rising.Serves RawSystem.Bump.Valid ∧
    RawSystem.Bump.Valid untouched.state.heap untouched.state.mem ∧
    (Op.calloc (2 ^ 32) (2 ^ 32)).Legal untouched ∧
    (∃ p t, (Op.calloc (2 ^ 32) (2 ^ 32)).call rising untouched.state = .ok (p, t) ∧ p ≠ 0 ∧
      ∀ b ∈ rising.blocks t.heap, b.layout.size = 17) ∧
    (Op.malloc (2 ^ 63)).Legal untouched ∧
    (Op.malloc (2 ^ 63)).call rising untouched.state = .error .unwrapFailed := by
  refine ⟨rising_serves, untouched_valid, ⟨by decide, by decide⟩, ?_, show 2 ^ 63 < 2 ^ 64 by decide, ?_⟩
  · refine ⟨_, _, rfl, ?_, ?_⟩
    · decide +kernel
    · decide +kernel
  · rfl

end MoltOS.Malloc
