import Mathlib.Data.List.Count
import Mathlib.Data.List.Nodup
import Mathlib.Order.CompletePartialOrder
import Mathlib.Order.Interval.Set.Disjoint
import MoltOS.Rust

/-! The physical frame allocator of `memory.rs`. Every call goes through the usable frames
of the memory map again, up to the one it returns. -/
namespace MoltOS.Frames
open MoltOS.Rust

inductive MemoryRegionType where
  | usable
  | reserved
  | other (code : Nat)
deriving DecidableEq, Repr

structure MemoryRegion where
  startAddr : Nat
  endAddr : Nat
  regionType : MemoryRegionType
deriving DecidableEq, Repr

abbrev MemoryMap := List MemoryRegion

/- `PhysAddr::new` of an address with more than 52 bits, or a checked operation. -/
inductive Fault where
  | physAddr
  | panic (p : Panic)
deriving DecidableEq, Repr

structure PhysFrame where
  startAddress : Nat
deriving DecidableEq, Repr

def frameSize : Nat := 4096

def physAddr (addr : Nat) : Except Fault Nat :=
  if addr < 2 ^ 52 then .ok addr else .error .physAddr

def containingAddress (addr : Nat) : PhysFrame := ⟨addr / frameSize * frameSize⟩

def toFrame (addr : Nat) : Except Fault PhysFrame := do
  let addr ← physAddr addr
  pure (containingAddress addr)

def usableRegions (memoryMap : MemoryMap) : List MemoryRegion :=
  memoryMap.filter fun r => r.regionType = .usable

def usableAddrs (memoryMap : MemoryMap) : List Nat :=
  (usableRegions memoryMap).flatMap fun r => stepBy r.startAddr r.endAddr frameSize

/- `Iterator::nth` of a mapped iterator: the function is applied to what is skipped as well. -/
def nth (f : Nat → Except Fault PhysFrame) : List Nat → Nat → Except Fault (Option PhysFrame)
  | [], _ => .ok none
  | a :: _, 0 => do
    let frame ← f a
    pure (some frame)
  | a :: rest, n + 1 => do
    let _ ← f a
    nth f rest n

structure BootInfoFrameAllocator where
  memoryMap : MemoryMap
  next : Nat
deriving DecidableEq, Repr

namespace BootInfoFrameAllocator

def init (memoryMap : MemoryMap) : BootInfoFrameAllocator := ⟨memoryMap, 0⟩

def allocateFrame (p : Profile) (a : BootInfoFrameAllocator) :
    Except Fault (Option PhysFrame × BootInfoFrameAllocator) := do
  let frame ← nth toFrame (usableAddrs a.memoryMap) a.next
  let next ← (add p a.next 1).mapError .panic
  pure (frame, { a with next := next })

def calls (p : Profile) : Nat → BootInfoFrameAllocator →
    Except Fault (List (Option PhysFrame) × BootInfoFrameAllocator)
  | 0, a => .ok ([], a)
  | n + 1, a => do
    let (frame, a) ← a.allocateFrame p
    let (frames, a) ← calls p n a
    pure (frame :: frames, a)

end BootInfoFrameAllocator

def usableFrames (memoryMap : MemoryMap) : List PhysFrame :=
  (usableAddrs memoryMap).map containingAddress

def UsableFrame (memoryMap : MemoryMap) (f : PhysFrame) : Prop :=
  frameSize ∣ f.startAddress ∧ ∃ r ∈ memoryMap, r.regionType = .usable ∧
    r.startAddr ≤ f.startAddress ∧ f.startAddress + frameSize ≤ r.endAddr

/- What the bootloader sees to: page-aligned usable regions that do not overlap. -/
structure WellFormed (memoryMap : MemoryMap) : Prop where
  aligned : ∀ r ∈ memoryMap, r.regionType = .usable →
    frameSize ∣ r.startAddr ∧ frameSize ∣ r.endAddr
  apart : (usableRegions memoryMap).Pairwise fun r s =>
    Disjoint (Set.Ico r.startAddr r.endAddr) (Set.Ico s.startAddr s.endAddr)

section Steps
variable {start stop step a : Nat}

theorem mem_stepBy (hstep : 0 < step) :
    a ∈ stepBy start stop step ↔ start ≤ a ∧ a < stop ∧ step ∣ a - start := by
  unfold stepBy
  simp only [List.mem_map, List.mem_range]
  constructor
  · rintro ⟨k, hk, rfl⟩
    have hlt := (Nat.lt_div_iff_mul_lt hstep).mp hk
    refine ⟨Nat.le_add_right _ _, by omega, ⟨k, ?_⟩⟩
    rw [Nat.add_sub_cancel_left, Nat.mul_comm]
  · rintro ⟨hle, hlt, k, hk⟩
    rw [Nat.mul_comm] at hk
    exact ⟨k, (Nat.lt_div_iff_mul_lt hstep).mpr (by omega), by omega⟩

theorem stepBy_nodup (hstep : 0 < step) : (stepBy start stop step).Nodup := by
  refine List.Nodup.map (fun j k h => ?_) List.nodup_range
  have h' : start + j * step = start + k * step := h
  exact Nat.eq_of_mul_eq_mul_right hstep (by omega)

end Steps

section Usable
variable {memoryMap : MemoryMap} {f : PhysFrame}

theorem mem_usableRegions {r : MemoryRegion} :
    r ∈ usableRegions memoryMap ↔ r ∈ memoryMap ∧ r.regionType = .usable := by
  simp [usableRegions]

theorem mem_usableAddrs {a : Nat} : a ∈ usableAddrs memoryMap ↔
    ∃ r ∈ memoryMap, r.regionType = .usable ∧ r.startAddr ≤ a ∧ a < r.endAddr ∧
      frameSize ∣ a - r.startAddr := by
  simp only [usableAddrs, List.mem_flatMap, mem_usableRegions, mem_stepBy (by decide : 0 < frameSize),
    and_assoc]

theorem dvd_of_mem_usableAddrs (hmap : WellFormed memoryMap) {a : Nat}
    (h : a ∈ usableAddrs memoryMap) : frameSize ∣ a := by
  obtain ⟨r, hr, htype, hle, _, hdvd⟩ := mem_usableAddrs.mp h
  have hsum := Nat.dvd_add hdvd (hmap.aligned r hr htype).1
  rwa [Nat.sub_add_cancel hle] at hsum

theorem containingAddress_of_dvd {a : Nat} (h : frameSize ∣ a) : containingAddress a = ⟨a⟩ := by
  rw [containingAddress, Nat.div_mul_cancel h]

theorem mem_usableFrames (hmap : WellFormed memoryMap) :
    f ∈ usableFrames memoryMap ↔ UsableFrame memoryMap f := by
  unfold usableFrames UsableFrame
  rw [List.mem_map]
  constructor
  · rintro ⟨a, ha, rfl⟩
    have hdvd := dvd_of_mem_usableAddrs hmap ha
    obtain ⟨r, hr, htype, hle, hlt, _⟩ := mem_usableAddrs.mp ha
    rw [containingAddress_of_dvd hdvd]
    refine ⟨hdvd, r, hr, htype, hle, ?_⟩
    obtain ⟨j, rfl⟩ := hdvd
    obtain ⟨k, hk⟩ := (hmap.aligned r hr htype).2
    simp only [hk, frameSize] at hlt ⊢
    omega
  · rintro ⟨hdvd, r, hr, htype, hle, hend⟩
    refine ⟨f.startAddress, mem_usableAddrs.mpr ⟨r, hr, htype, hle, ?_, ?_⟩,
      containingAddress_of_dvd hdvd⟩
    · unfold frameSize at hend
      omega
    · exact Nat.dvd_sub hdvd (hmap.aligned r hr htype).1

theorem usableFrames_nodup (hmap : WellFormed memoryMap) : (usableFrames memoryMap).Nodup := by
  refine List.Nodup.map_on (fun a ha b hb h => ?_) (List.nodup_flatMap.mpr ⟨?_, ?_⟩)
  · rw [containingAddress_of_dvd (dvd_of_mem_usableAddrs hmap ha),
      containingAddress_of_dvd (dvd_of_mem_usableAddrs hmap hb)] at h
    exact PhysFrame.mk.inj h
  · exact fun r _ => stepBy_nodup (by decide)
  · refine hmap.apart.imp fun {r s} hrs => List.disjoint_left.mpr fun a ha hb => ?_
    obtain ⟨hr, hr', _⟩ := (mem_stepBy (by decide)).mp ha
    obtain ⟨hs, hs', _⟩ := (mem_stepBy (by decide)).mp hb
    exact Set.disjoint_left.mp hrs ⟨hr, hr'⟩ ⟨hs, hs'⟩

end Usable

section Calls
variable {p : Profile} {memoryMap : MemoryMap}

def Addressable (memoryMap : MemoryMap) : Prop :=
  ∀ r ∈ memoryMap, r.regionType = .usable → r.endAddr ≤ 2 ^ 52

instance (memoryMap : MemoryMap) : Decidable (Addressable memoryMap) :=
  inferInstanceAs (Decidable (∀ r ∈ memoryMap, _ → _))

theorem nth_toFrame {l : List Nat} (h : ∀ a ∈ l, a < 2 ^ 52) (n : Nat) :
    nth toFrame l n = .ok (l.map containingAddress)[n]? := by
  induction l generalizing n with
  | nil => rfl
  | cons a l ih =>
    obtain ⟨ha, hl⟩ := List.forall_mem_cons.mp h
    have hframe : toFrame a = .ok (containingAddress a) := by
      rw [toFrame, physAddr, if_pos ha]
      rfl
    cases n with
    | zero =>
      simp only [nth, hframe]
      rfl
    | succ n =>
      simp only [nth, hframe, bind, Except.bind, ih hl]
      rfl

theorem allocateFrame_eq (hphys : Addressable memoryMap) {next : Nat} (hnext : next < u64Max) :
    BootInfoFrameAllocator.allocateFrame p ⟨memoryMap, next⟩ =
      .ok ((usableFrames memoryMap)[next]?, ⟨memoryMap, next + 1⟩) := by
  have hlow : ∀ a ∈ usableAddrs memoryMap, a < 2 ^ 52 := by
    intro a ha
    obtain ⟨r, hr, htype, _, hlt, _⟩ := mem_usableAddrs.mp ha
    exact hlt.trans_le (hphys r hr htype)
  have hadd : add p next 1 = .ok (next + 1) := fit_of_le p hnext
  simp only [BootInfoFrameAllocator.allocateFrame, nth_toFrame hlow, hadd, Except.mapError, bind,
    Except.bind, pure, Except.pure]
  rfl

/-- The calls return the usable frames one after the other, and then nothing. -/
theorem calls_eq (hphys : Addressable memoryMap) (n : Nat) {next : Nat}
    (hnext : next + n ≤ u64Max) :
    BootInfoFrameAllocator.calls p n ⟨memoryMap, next⟩ =
      .ok ((List.range' next n).map fun k => (usableFrames memoryMap)[k]?,
        ⟨memoryMap, next + n⟩) := by
  induction n generalizing next with
  | zero => rfl
  | succ n ih =>
    have hrest := @ih (next + 1) (by omega)
    rw [Nat.add_assoc, Nat.add_comm 1 n] at hrest
    simp only [BootInfoFrameAllocator.calls, allocateFrame_eq hphys (show next < u64Max by omega),
      hrest, bind, Except.bind, pure, Except.pure, List.range'_succ, List.map_cons]

theorem range_getElem? {α : Type} {l : List α} {n : Nat} (h : l.length ≤ n) :
    (List.range n).map (fun k => l[k]?) = l.map some ++ List.replicate (n - l.length) none := by
  refine List.ext_getElem? fun i => ?_
  rw [List.getElem?_map, List.getElem?_append, List.getElem?_replicate, List.getElem?_map,
    List.length_map]
  by_cases hi : i < l.length
  · simp [hi, show i < n by omega]
  · by_cases hn : i < n
    · simp [hi, hn, show i - l.length < n - l.length by omega]
    · simp [hi, hn, show ¬ i - l.length < n - l.length by omega]

end Calls

/-- No physical frame is handed out twice. On a memory map whose usable regions are
page-aligned, do not overlap and lie below 2^52, the first `n < 2^64` calls return distinct
frames inside usable regions, and nothing only after all of those, each once. -/
theorem frames_handed_out_once (p : Profile) (memoryMap : MemoryMap) (hmap : WellFormed memoryMap)
    (hphys : Addressable memoryMap) (n : Nat) (hn : n < 2 ^ 64) :
    ∃ results a, (BootInfoFrameAllocator.init memoryMap).calls p n = .ok (results, a) ∧
      results.length = n ∧
      (∀ (i j : Nat) f, i < j → results[i]? = some (some f) → results[j]? ≠ some (some f)) ∧
      (∀ f, some f ∈ results → UsableFrame memoryMap f) ∧
      ∀ i : Nat, results[i]? = some none →
        (∀ f, UsableFrame memoryMap f → (results.take i).count (some f) = 1) ∧
        ∀ j : Nat, i ≤ j → j < n → results[j]? = some none := by
  have hcalls := @calls_eq p memoryMap hphys n 0 (by unfold u64Max; omega)
  rw [← List.range_eq_range'] at hcalls
  have hnodup := usableFrames_nodup hmap
  have hget (i : Nat) {x : Option PhysFrame}
      (h : ((List.range n).map fun k => (usableFrames memoryMap)[k]?)[i]? = some x) :
      i < n ∧ (usableFrames memoryMap)[i]? = x := by
    rw [List.getElem?_map] at h
    obtain ⟨k, hk, hx⟩ := Option.map_eq_some_iff.mp h
    obtain ⟨hlt, rfl⟩ := List.getElem?_eq_some_iff.mp hk
    rw [List.getElem_range] at hx
    exact ⟨by simpa using hlt, hx⟩
  refine ⟨_, _, hcalls, by simp, ?_, ?_, ?_⟩
  · intro i j f hij hi hj
    have hi' := (hget i hi).2
    have hlt := (List.getElem?_eq_some_iff.mp hi').1
    have := (List.getElem?_inj hlt hnodup).mp (hi'.trans (hget j hj).2.symm)
    omega
  · intro f hf
    obtain ⟨k, _, hk⟩ := List.mem_map.mp hf
    exact (mem_usableFrames hmap).mp (List.mem_of_getElem? hk)
  · intro i hi
    obtain ⟨hlt, hnone⟩ := hget i hi
    have hlen := List.getElem?_eq_none_iff.mp hnone
    refine ⟨fun f hf => ?_, fun j hij hj => ?_⟩
    · rw [← List.map_take, List.take_range, Nat.min_eq_left hlt.le, range_getElem? hlen,
        List.count_append, List.count_map_of_injective _ _ (Option.some_injective _),
        List.count_replicate]
      exact List.count_eq_one_of_mem hnodup ((mem_usableFrames hmap).mpr hf)
    · have hj' : (usableFrames memoryMap)[j]? = none := List.getElem?_eq_none (by omega)
      simp [hj, hj']

def smallMap : MemoryMap :=
  [⟨0, 4096, .reserved⟩, ⟨4096, 12288, .usable⟩, ⟨16384, 20480, .usable⟩]

theorem smallMap_wellFormed : WellFormed smallMap := by
  refine ⟨by decide, ?_⟩
  have hregions : usableRegions smallMap = [⟨4096, 12288, .usable⟩, ⟨16384, 20480, .usable⟩] := rfl
  rw [hregions, List.pairwise_pair, Set.Ico_disjoint_Ico]
  decide

theorem smallMap_handed_out_once : ∃ results a,
    (BootInfoFrameAllocator.init smallMap).calls .dev 5 = .ok (results, a) ∧
      results[3]? = some none ∧ ∀ f, UsableFrame smallMap f → (results.take 3).count (some f) = 1 := by
  obtain ⟨results, a, hcalls, _, _, _, hnone⟩ :=
    frames_handed_out_once .dev smallMap smallMap_wellFormed (by decide) 5 (by decide)
  have hthird : results[3]? = some none := by
    cases hcalls
    rfl
  exact ⟨results, a, hcalls, hthird, (hnone 3 hthird).1⟩

def highMap : MemoryMap := [⟨2 ^ 52, 2 ^ 52 + 4096, .usable⟩]

theorem calls_append {p : Profile} {m n : Nat} {a a' a'' : BootInfoFrameAllocator}
    {fs gs : List (Option PhysFrame)} (h : a.calls p m = .ok (fs, a')) (h' : a'.calls p n = .ok (gs, a'')) :
    a.calls p (m + n) = .ok (fs ++ gs, a'') := by
  induction m generalizing a fs with
  | zero =>
    cases h
    rw [Nat.zero_add]
    exact h'
  | succ m ih =>
    rw [Nat.add_right_comm]
    simp only [BootInfoFrameAllocator.calls] at h ⊢
    obtain ⟨⟨f, b⟩, hf, h⟩ := bind_ok_iff.mp h
    obtain ⟨⟨rest, c⟩, hrest, h⟩ := bind_ok_iff.mp h
    cases h
    exact bind_ok_iff.mpr ⟨(f, b), hf, bind_ok_iff.mpr ⟨_, ih hrest, rfl⟩⟩

/-- After 2^64 calls an unchecked counter is back at 0. -/
theorem smallMap_wraps : ∃ results a,
    (BootInfoFrameAllocator.init smallMap).calls .release (u64Max + 2) = .ok (results, a) ∧
      results[0]? = some (some ⟨4096⟩) ∧ results[u64Max + 1]? = some (some ⟨4096⟩) := by
  have hfirst := @calls_eq .release smallMap (by decide) u64Max 0 (by omega)
  have hlast : BootInfoFrameAllocator.calls .release 2 ⟨smallMap, 0 + u64Max⟩ =
      .ok ([none, some ⟨4096⟩], ⟨smallMap, 1⟩) := rfl
  have hlen : ((List.range' 0 u64Max).map fun k => (usableFrames smallMap)[k]?).length = u64Max := by
    rw [List.length_map, List.length_range']
  refine ⟨_, _, calls_append hfirst hlast, ?_, ?_⟩
  · rw [List.getElem?_append_left (by rw [hlen]; decide), List.getElem?_map,
      List.getElem?_range' (by decide)]
    rfl
  · rw [List.getElem?_append_right (by omega), hlen, Nat.add_sub_cancel_left]
    rfl

/-- A usable region beyond the physical addresses stops the first call, and a frame comes
again when the counter has gone round. -/
theorem frames_limits : WellFormed highMap ∧
    (BootInfoFrameAllocator.init highMap).calls .dev 1 = .error .physAddr ∧
    WellFormed smallMap ∧ ∃ results a,
      (BootInfoFrameAllocator.init smallMap).calls .release (u64Max + 2) = .ok (results, a) ∧
        results[0]? = some (some ⟨4096⟩) ∧ results[u64Max + 1]? = some (some ⟨4096⟩) :=
  ⟨⟨by decide, List.pairwise_singleton _ _⟩, rfl, smallMap_wellFormed, smallMap_wraps⟩

end MoltOS.Frames
