import Mathlib.Algebra.BigOperators.Group.Finset.Piecewise
import Mathlib.Data.Fintype.Basic
import Mathlib.Data.Multiset.Pairwise
import MoltOS.Allocator

/-! Global heap safety. Every block the fallback heap has handed out is held by a client
or stands on the free list of its class, and is there once; what the heap keeps apart then
stays apart. -/
namespace MoltOS.Allocator
open MoltOS.RawMemory MoltOS.Transition

instance : Std.Symm Apart := ⟨fun _ _ h => h.symm⟩

theorem blockSize_spec (k : Class) : blockSize k = 2 ^ (blockSize k).log2 ∧
    blockSize k + blockSize k ≤ 2 ^ 63 ∧ 8 ≤ blockSize k := by
  revert k
  decide

def classLayout (k : Class) : Layout :=
  ⟨blockSize k, blockSize k, (blockSize_spec k).1, (blockSize_spec k).2.1⟩

theorem fromSizeAlign_blockSize (k : Class) :
    Layout.fromSizeAlign (blockSize k) (blockSize k) = .ok (classLayout k) :=
  dif_pos ⟨(blockSize_spec k).1, (blockSize_spec k).2.1⟩

theorem listIndex_fits {l : Layout} {k : Class} (h : listIndex l = some k) :
    l.size ≤ blockSize k ∧ l.align ∣ blockSize k := by
  have hle : max l.size l.align ≤ blockSize k :=
    of_decide_eq_true (List.findFinIdx?_eq_some_iff.mp h).1
  refine ⟨(le_max_left _ _).trans hle, ?_⟩
  have hpow : 2 ^ l.align.log2 ≤ 2 ^ (blockSize k).log2 := by
    rw [← l.powerOfTwo, ← (blockSize_spec k).1]
    exact (le_max_right _ _).trans hle
  rw [l.powerOfTwo, (blockSize_spec k).1]
  exact Nat.pow_dvd_pow 2 ((Nat.pow_le_pow_iff_right (by decide)).mp hpow)

/- The layout that is asked of the fallback heap to serve a request. -/
def granted (l : Layout) : Layout :=
  match listIndex l with
  | some k => classLayout k
  | none => l

def backing (b : Block) : Block := ⟨b.ptr, granted b.layout⟩

def freeBlock (k : Class) (ptr : Nat) : Block := ⟨ptr, classLayout k⟩

def freeBlocks (heads : Class → List Nat) : Multiset Block :=
  ∑ k, (heads k : Multiset Nat).map (freeBlock k)

theorem granted_fits (l : Layout) : l.size ≤ (granted l).size ∧ l.align ∣ (granted l).align := by
  unfold granted
  split
  next k hk => exact listIndex_fits hk
  · exact ⟨le_refl _, dvd_refl _⟩

theorem backing_of_index {p : Nat} {l : Layout} {k : Class} (h : listIndex l = some k) :
    backing ⟨p, l⟩ = freeBlock k p := by
  simp only [backing, granted, h, freeBlock]

theorem backing_of_none {p : Nat} {l : Layout} (h : listIndex l = none) :
    backing ⟨p, l⟩ = ⟨p, l⟩ := by
  simp only [backing, granted, h]

theorem Block.Placed.ptr_ne_zero {b : Block} (h : b.Placed) : b.ptr ≠ 0 := by
  have hstart : heapStart ≤ b.ptr := h.2.1
  unfold heapStart at hstart
  omega

theorem blockSize_injective : ∀ {j k : Class}, blockSize j = blockSize k → j = k := by decide

theorem freeBlock_injective {k j : Class} {p q : Nat} (h : freeBlock k p = freeBlock j q) :
    (k, p) = (j, q) := by
  have hk := blockSize_injective (congrArg (fun b => b.layout.size) h)
  have hp : p = q := congrArg Block.ptr h
  rw [hk, hp]

/- Blocks of a class are not empty. -/
theorem ptr_mem_freeBlock (k : Class) (p : Nat) : p ∈ span p (blockSize k) := by
  have h8 := (blockSize_spec k).2.2
  exact ⟨le_refl p, by omega⟩

theorem freeBlocks_split (heads : Class → List Nat) (k : Class) : freeBlocks heads =
    (heads k : Multiset Nat).map (freeBlock k) +
      ∑ j ∈ {k}ᶜ, (heads j : Multiset Nat).map (freeBlock j) :=
  Fintype.sum_eq_add_sum_compl k _

theorem freeBlocks_push (heads : Class → List Nat) (k : Class) (p : Nat) (rest : List Nat) :
    freeBlocks (Function.update heads k (p :: rest)) =
      freeBlock k p ::ₘ freeBlocks (Function.update heads k rest) := by
  have hsum (l : List Nat) : freeBlocks (Function.update heads k l) =
      (l : Multiset Nat).map (freeBlock k) +
        ∑ j ∈ {k}ᶜ, (heads j : Multiset Nat).map (freeBlock j) := by
    rw [freeBlocks_split _ k, Function.update_self]
    congr 1
    refine Finset.sum_congr rfl fun j hj => ?_
    rw [Function.update_of_ne (by simpa using hj)]
  rw [hsum, hsum, ← Multiset.cons_coe, Multiset.map_cons, Multiset.cons_add]

theorem mem_freeBlocks {heads : Class → List Nat} {b : Block} :
    b ∈ freeBlocks heads ↔ ∃ k, ∃ p ∈ heads k, freeBlock k p = b := by
  simp [freeBlocks, Multiset.mem_sum]

theorem heads_nodup {heads : Class → List Nat} (h : (freeBlocks heads).Pairwise Apart)
    (k : Class) : (heads k).Nodup := by
  rw [freeBlocks_split heads k, pairwise_add] at h
  have hk := h.1
  rw [Multiset.map_coe, Multiset.pairwise_coe_iff_pairwise, List.pairwise_map] at hk
  refine hk.imp fun {p q} hapart he => ?_
  subst he
  exact Set.disjoint_left.mp hapart (ptr_mem_freeBlock k p) (ptr_mem_freeBlock k p)

/-- Every block handed out is live or free. -/
structure Accounted (a : FixedSizeBlockAllocator) (live : Multiset Block) : Prop where
  grants : a.fallback.grants = live.map backing + freeBlocks a.listHeads
  placed : ∀ b ∈ a.fallback.grants, b.Placed
  apart : a.fallback.grants.Pairwise Apart

namespace Accounted
variable {a : FixedSizeBlockAllocator} {live : Multiset Block} {answer : FirstFit}
  {l : Layout} {p : Nat} {k : Class} {b : Block}

theorem new : Accounted FixedSizeBlockAllocator.new 0 where
  grants := by simp [FixedSizeBlockAllocator.new, freeBlocks]
  placed := by simp [FixedSizeBlockAllocator.new]
  apart := Multiset.pairwise_zero _

theorem backing_mem (h : Accounted a live) (hb : b ∈ live) : backing b ∈ a.fallback.grants := by
  rw [h.grants]
  exact Multiset.mem_add.mpr (.inl (Multiset.mem_map_of_mem backing hb))

theorem free_mem (h : Accounted a live) (hp : p ∈ a.listHeads k) :
    freeBlock k p ∈ a.fallback.grants := by
  rw [h.grants]
  exact Multiset.mem_add.mpr (.inr (mem_freeBlocks.mpr ⟨k, p, hp, rfl⟩))

theorem free_apart_live (h : Accounted a live) (hp : p ∈ a.listHeads k) (hb : b ∈ live) :
    Apart (freeBlock k p) (backing b) := by
  have hall := h.apart
  rw [h.grants, pairwise_add] at hall
  have hfree : freeBlock k p ∈ freeBlocks a.listHeads := mem_freeBlocks.mpr ⟨k, p, hp, rfl⟩
  exact (hall.2.2 (backing b) (Multiset.mem_map_of_mem backing hb) _ hfree).symm

theorem live_apart (h : Accounted a live) (hb : b ∈ live) {c : Block} (hc : c ∈ live.erase b) :
    Apart (backing b) (backing c) := by
  have hall := h.apart
  rw [h.grants, pairwise_add, ← Multiset.cons_erase hb, Multiset.map_cons, pairwise_cons] at hall
  exact hall.1.1 (backing c) (Multiset.mem_map_of_mem backing hc)

/-- A new block of the fallback heap, given to a client. -/
theorem grant (h : Accounted a live) (hon : Honest a.fallback.grants answer) {l' : Layout}
    (ha : answer l' = some p) (hl : backing ⟨p, l⟩ = ⟨p, l'⟩) :
    Accounted { a with fallback := ⟨⟨p, l'⟩ ::ₘ a.fallback.grants⟩ } (⟨p, l⟩ ::ₘ live) := by
  obtain ⟨hplaced, hapart⟩ := hon l' p ha
  constructor
  · show ⟨p, l'⟩ ::ₘ a.fallback.grants = _
    rw [Multiset.map_cons, hl, Multiset.cons_add, h.grants]
  · intro b hb
    cases Multiset.mem_cons.mp hb with
    | inl he => exact he ▸ hplaced
    | inr hb => exact h.placed b hb
  · exact pairwise_cons.mpr ⟨hapart, h.apart⟩

theorem pop (h : Accounted a live) {next : List Nat} (hk : listIndex l = some k)
    (hhead : a.listHeads k = p :: next) :
    Accounted { a with listHeads := Function.update a.listHeads k next } (⟨p, l⟩ ::ₘ live) := by
  have hsame : Function.update a.listHeads k (p :: next) = a.listHeads := by
    rw [← hhead, Function.update_eq_self]
  refine ⟨?_, h.placed, h.apart⟩
  calc a.fallback.grants
      = live.map backing + freeBlocks (Function.update a.listHeads k (p :: next)) := by
        rw [hsame, h.grants]
    _ = (⟨p, l⟩ ::ₘ live).map backing + freeBlocks (Function.update a.listHeads k next) := by
        rw [freeBlocks_push, Multiset.map_cons, backing_of_index hk, Multiset.add_cons,
          Multiset.cons_add]

theorem push (h : Accounted a live) (hk : listIndex l = some k) (hb : ⟨p, l⟩ ∈ live) :
    Accounted { a with listHeads := Function.update a.listHeads k (p :: a.listHeads k) }
      (live.erase ⟨p, l⟩) := by
  refine ⟨?_, h.placed, h.apart⟩
  calc a.fallback.grants
      = (⟨p, l⟩ ::ₘ live.erase ⟨p, l⟩).map backing + freeBlocks a.listHeads := by
        rw [Multiset.cons_erase hb, h.grants]
    _ = (live.erase ⟨p, l⟩).map backing +
          freeBlocks (Function.update a.listHeads k (p :: a.listHeads k)) := by
        rw [freeBlocks_push, Function.update_eq_self, Multiset.map_cons, backing_of_index hk,
          Multiset.add_cons, Multiset.cons_add]

/-- A block of its own, given back to the fallback heap. -/
theorem release (h : Accounted a live) (hk : listIndex l = none) (hb : ⟨p, l⟩ ∈ live) :
    Accounted { a with fallback := ⟨a.fallback.grants.erase ⟨p, l⟩⟩ } (live.erase ⟨p, l⟩) := by
  have hmem := h.backing_mem hb
  rw [backing_of_none hk] at hmem
  have hsplit := Multiset.cons_erase hmem
  refine ⟨?_, fun b hb => h.placed b (Multiset.mem_of_mem_erase hb), ?_⟩
  · show a.fallback.grants.erase ⟨p, l⟩ = _
    -- both sides with the block put back
    refine (Multiset.cons_inj_right (⟨p, l⟩ : Block)).mp ?_
    have hlive := h.grants
    rw [← Multiset.cons_erase hb, Multiset.map_cons, backing_of_none hk, Multiset.cons_add]
      at hlive
    rw [hsplit, hlive]
  · have hall := h.apart
    rw [← hsplit] at hall
    exact (pairwise_cons.mp hall).2

end Accounted

namespace FixedSizeBlockAllocator
variable {a : FixedSizeBlockAllocator} {live : Multiset Block} {answer : FirstFit}
  {l : Layout} {p : Nat}

theorem fallbackAlloc_none (h : answer l = none) : a.fallbackAlloc answer l = (0, a) := by
  simp only [fallbackAlloc, Heap.allocateFirstFit, h]

theorem fallbackAlloc_some (h : answer l = some p) : a.fallbackAlloc answer l =
    (p, { a with fallback := ⟨⟨p, l⟩ ::ₘ a.fallback.grants⟩ }) := by
  simp only [fallbackAlloc, Heap.allocateFirstFit, h]

def AllocOutcome (a : FixedSizeBlockAllocator) (live : Multiset Block) (l : Layout) (p : Nat)
    (a' : FixedSizeBlockAllocator) : Prop :=
  p = 0 ∧ a' = a ∨ p ≠ 0 ∧ Accounted a' (⟨p, l⟩ ::ₘ live)

theorem fallbackAlloc_outcome (h : Accounted a live) (hon : Honest a.fallback.grants answer)
    {l' : Layout} (hl : ∀ p, backing ⟨p, l⟩ = ⟨p, l'⟩) :
    AllocOutcome a live l (a.fallbackAlloc answer l').1 (a.fallbackAlloc answer l').2 := by
  cases ha : answer l' with
  | none =>
    rw [fallbackAlloc_none ha]
    exact .inl ⟨rfl, rfl⟩
  | some p =>
    rw [fallbackAlloc_some ha]
    exact .inr ⟨(hon l' p ha).1.ptr_ne_zero, h.grant hon ha (hl p)⟩

theorem alloc_outcome (h : Accounted a live) (hon : Honest a.fallback.grants answer) :
    ∃ p a', a.alloc answer l = .ok (p, a') ∧ AllocOutcome a live l p a' := by
  unfold alloc
  cases hk : listIndex l with
  | none =>
    exact ⟨_, _, rfl, fallbackAlloc_outcome h hon fun p => backing_of_none hk⟩
  | some k =>
    cases hhead : a.listHeads k with
    | nil =>
      simp only [hhead, fromSizeAlign_blockSize]
      exact ⟨_, _, rfl, fallbackAlloc_outcome h hon fun p => backing_of_index hk⟩
    | cons p next =>
      simp only [hhead]
      refine ⟨p, _, rfl, .inr ⟨?_, h.pop hk hhead⟩⟩
      exact (h.placed _ (h.free_mem (k := k) (by rw [hhead]; simp))).ptr_ne_zero

theorem dealloc_of_index {k : Class} (hk : listIndex l = some k) : a.dealloc p l =
    .ok { a with listHeads := Function.update a.listHeads k (p :: a.listHeads k) } := by
  have hsize : listNodeSize ≤ blockSize k := (blockSize_spec k).2.2
  have halign : listNodeAlign ≤ blockSize k := (blockSize_spec k).2.2
  simp only [dealloc, hk]
  rw [if_neg (not_not.mpr hsize), if_neg (not_not.mpr halign)]

theorem dealloc_of_none (hk : listIndex l = none) (hp : p ≠ 0)
    (hmem : ⟨p, l⟩ ∈ a.fallback.grants) :
    a.dealloc p l = .ok { a with fallback := ⟨a.fallback.grants.erase ⟨p, l⟩⟩ } := by
  simp only [dealloc, hk, if_neg hp, Heap.deallocate, if_pos hmem]
  rfl

theorem dealloc_outcome (h : Accounted a live) (hb : ⟨p, l⟩ ∈ live) :
    ∃ a', a.dealloc p l = .ok a' ∧ Accounted a' (live.erase ⟨p, l⟩) := by
  cases hk : listIndex l with
  | none =>
    have hmem := h.backing_mem hb
    rw [backing_of_none hk] at hmem
    have hp : p ≠ 0 := (h.placed _ hmem).ptr_ne_zero
    exact ⟨_, dealloc_of_none hk hp hmem, h.release hk hb⟩
  | some k => exact ⟨_, dealloc_of_index hk, h.push hk hb⟩

/-- What `realloc` comes to: nothing, or an `alloc` and a `dealloc`. -/
theorem realloc_outcome (h : Accounted a live) (hon : Honest a.fallback.grants answer)
    (hb : ⟨p, l⟩ ∈ live) (n : Nat) :
    ∃ q a', a.realloc answer p l n = .ok (q, a') ∧
      (q = 0 ∧ a' = a ∨ ∃ l', Layout.fromSizeAlign n l.align = .ok l' ∧ q ≠ 0 ∧
        Accounted a' (⟨q, l'⟩ ::ₘ live.erase ⟨p, l⟩)) := by
  unfold realloc
  cases hl : Layout.fromSizeAlign n l.align with
  | error e => exact ⟨0, a, rfl, .inl ⟨rfl, rfl⟩⟩
  | ok l' =>
    obtain ⟨q, a₁, halloc, hq⟩ := alloc_outcome (l := l') h hon
    simp only [halloc, bind, Except.bind]
    cases hq with
    | inl hnull =>
      obtain ⟨rfl, rfl⟩ := hnull
      exact ⟨0, a₁, rfl, .inl ⟨rfl, rfl⟩⟩
    | inr hnew =>
      obtain ⟨hne, hacc⟩ := hnew
      obtain ⟨a₂, hdealloc, hacc₂⟩ := dealloc_outcome hacc (Multiset.mem_cons_of_mem hb)
      rw [Multiset.erase_cons_tail_of_mem hb] at hacc₂
      simp only [if_pos hne, hdealloc]
      exact ⟨q, a₂, rfl, .inr ⟨l', rfl, hne, hacc₂⟩⟩

end FixedSizeBlockAllocator

namespace System
variable {s t : System} {answer : FirstFit} {op : Op}
open FixedSizeBlockAllocator

theorem apply_of_call {p : Nat} {a : FixedSizeBlockAllocator}
    (h : call answer s.allocator op = .ok (p, a)) :
    apply answer op s = .ok ⟨a, op.track s.live p⟩ := by
  rw [apply, h]
  rfl

theorem track_null (live : Multiset Block) (op : Op) (h : ∀ p l, op ≠ .dealloc p l) :
    op.track live 0 = live := by
  cases op with
  | alloc l => rfl
  | dealloc p l => exact absurd rfl (h p l)
  | realloc p l n => cases hl : Layout.fromSizeAlign n l.align <;> simp [Op.track, hl]

/-- No legal call faults, and the books still balance after it. -/
theorem apply_accounted (h : Accounted s.allocator s.live)
    (hon : Honest s.allocator.fallback.grants answer) (hlegal : op.Legal s.live) :
    ∃ t, apply answer op s = .ok t ∧ Accounted t.allocator t.live := by
  cases op with
  | alloc l =>
    obtain ⟨p, a, hcall, hp⟩ := alloc_outcome (l := l) h hon
    have hret : call answer s.allocator (.alloc l) = .ok (p, a) := hcall
    refine ⟨_, apply_of_call hret, ?_⟩
    cases hp with
    | inl hnull =>
      obtain ⟨rfl, rfl⟩ := hnull
      rw [track_null _ _ (by simp)]
      exact h
    | inr hnew =>
      simp only [Op.track, if_neg hnew.1]
      exact hnew.2
  | dealloc p l =>
    obtain ⟨a, hcall, ha⟩ := dealloc_outcome h hlegal
    have hret : call answer s.allocator (.dealloc p l) = .ok (0, a) := by
      rw [call, hcall]
      rfl
    exact ⟨_, apply_of_call hret, ha⟩
  | realloc p l n =>
    obtain ⟨q, a, hcall, hq⟩ := realloc_outcome h hon hlegal n
    have hret : call answer s.allocator (.realloc p l n) = .ok (q, a) := hcall
    refine ⟨_, apply_of_call hret, ?_⟩
    cases hq with
    | inl hnull =>
      obtain ⟨rfl, rfl⟩ := hnull
      rw [track_null _ _ (by simp)]
      exact h
    | inr hnew =>
      obtain ⟨l', hl, hne, hacc⟩ := hnew
      simp only [Op.track, hl, if_neg hne]
      exact hacc

theorem accounted_of_reachable (h : Reachable Step new s) : Accounted s.allocator s.live := by
  have hstep (u : System) (e : Op × FirstFit) (v : System)
      (hu : Accounted u.allocator u.live) (hk : Step u e v) : Accounted v.allocator v.live := by
    obtain ⟨hlegal, hon, happly⟩ := hk
    obtain ⟨w, hw, hacc⟩ := apply_accounted hu hon hlegal
    obtain rfl := Except.ok.inj (happly.symm.trans hw)
    exact hacc
  exact h.invariant hstep Accounted.new

structure Safe (s : System) : Prop where
  live_inside : ∀ b ∈ s.live,
    heapStart ≤ b.ptr ∧ b.ptr + (backing b).layout.size ≤ heapStart + heapSize
  live_aligned : ∀ b ∈ s.live, b.layout.align ∣ b.ptr
  live_large : ∀ b ∈ s.live, b.layout.size ≤ (backing b).layout.size
  live_apart : (s.live.map backing).Pairwise Apart
  free_placed : ∀ k, ∀ p ∈ s.allocator.listHeads k, blockSize k ∣ p ∧ heapStart ≤ p ∧
    p + blockSize k ≤ heapStart + heapSize
  free_apart_live : ∀ k, ∀ p ∈ s.allocator.listHeads k, ∀ b ∈ s.live,
    Disjoint (span p (blockSize k)) (backing b).region
  free_apart : ∀ k, ∀ p ∈ s.allocator.listHeads k, ∀ j, ∀ q ∈ s.allocator.listHeads j,
    (k, p) ≠ (j, q) → Disjoint (span p (blockSize k)) (span q (blockSize j))
  free_once : ∀ k, ∀ p ∈ s.allocator.listHeads k,
    (s.allocator.listHeads k).count p = 1 ∧ ∀ j, p ∈ s.allocator.listHeads j → j = k

theorem Safe.of_accounted (h : Accounted s.allocator s.live) : Safe s := by
  have hgrants := h.apart
  rw [h.grants, pairwise_add] at hgrants
  obtain ⟨hlive, hfree, -⟩ := hgrants
  have hplaced (b : Block) (hb : b ∈ s.live) : (backing b).Placed := h.placed _ (h.backing_mem hb)
  have hmem (k : Class) (p : Nat) (hp : p ∈ s.allocator.listHeads k) :
      freeBlock k p ∈ freeBlocks s.allocator.listHeads := mem_freeBlocks.mpr ⟨k, p, hp, rfl⟩
  have hother (k : Class) (p : Nat) (hp : p ∈ s.allocator.listHeads k) (j : Class) (q : Nat)
      (hq : q ∈ s.allocator.listHeads j) (hne : (k, p) ≠ (j, q)) :
      Disjoint (span p (blockSize k)) (span q (blockSize j)) :=
    Multiset.Pairwise.forall hfree (hmem k p hp) (hmem j q hq) fun he => hne (freeBlock_injective he)
  constructor
  · exact fun b hb => (hplaced b hb).2
  · exact fun b hb => (granted_fits b.layout).2.trans (hplaced b hb).1
  · exact fun b _ => (granted_fits b.layout).1
  · exact hlive
  · exact fun k p hp => h.placed _ (h.free_mem hp)
  · exact fun k p hp b hb => h.free_apart_live hp hb
  · exact hother
  · intro k p hp
    refine ⟨List.count_eq_one_of_mem (heads_nodup hfree k) hp, fun j hj => ?_⟩
    by_contra hne
    have hdisj := hother k p hp j p hj fun he => hne (congrArg Prod.fst he).symm
    exact Set.disjoint_left.mp hdisj (ptr_mem_freeBlock k p) (ptr_mem_freeBlock j p)

/-- Global heap safety. Let the fallback heap answer each call as its contract allows. In
every state that calls of `alloc`, `dealloc` and `realloc` lead to, each giving up only
live blocks with their own layout, the live blocks and the free lists are as `Safe` says;
and the next such call neither panics (at an `assert!`, the `unwrap` or the `expect`) nor
gives the fallback heap a block that it did not hand out for that very layout. -/
theorem heap_stays_safe (h : Reachable Step new s) :
    Safe s ∧ ∀ op answer, op.Legal s.live → Honest s.allocator.fallback.grants answer →
      ∃ t, apply answer op s = .ok t := by
  have hacc := accounted_of_reachable h
  refine ⟨.of_accounted hacc, fun op answer hlegal hon => ?_⟩
  obtain ⟨t, ht, -⟩ := apply_accounted hacc hon hlegal
  exact ⟨t, ht⟩

def smallLayout : Layout := ⟨24, 8, Layout.eight_powerOfTwo, by decide⟩
def largeLayout : Layout := ⟨3000, 8, Layout.eight_powerOfTwo, by decide⟩
def class32 : Class := ⟨2, by decide⟩

def onlyFor (l : Layout) (p : Nat) : FirstFit := fun l' => if l' = l then some p else none

theorem honest_onlyFor {grants : Multiset Block} {l : Layout} {p : Nat}
    (h : Block.Placed ⟨p, l⟩ ∧ ∀ b ∈ grants, Apart ⟨p, l⟩ b) : Honest grants (onlyFor l p) := by
  intro l' p' ha
  unfold onlyFor at ha
  split at ha
  next hl =>
    obtain rfl := Option.some.inj ha
    rw [hl]
    exact h
  · cases ha

def demo : System :=
  ⟨⟨Function.update (fun _ => []) class32 [heapStart],
    ⟨{⟨heapStart + 4096, largeLayout⟩, freeBlock class32 heapStart}⟩⟩,
    {⟨heapStart + 4096, largeLayout⟩}⟩

theorem demo_reachable : Reachable Step new demo := by
  have hsmall : Step new (.alloc smallLayout, onlyFor (classLayout class32) heapStart)
      ⟨⟨fun _ => [], ⟨{freeBlock class32 heapStart}⟩⟩, {⟨heapStart, smallLayout⟩}⟩ :=
    ⟨trivial, honest_onlyFor (by decide), rfl⟩
  have hlarge : Step ⟨⟨fun _ => [], ⟨{freeBlock class32 heapStart}⟩⟩, {⟨heapStart, smallLayout⟩}⟩
      (.alloc largeLayout, onlyFor largeLayout (heapStart + 4096))
      ⟨⟨fun _ => [], ⟨{⟨heapStart + 4096, largeLayout⟩, freeBlock class32 heapStart}⟩⟩,
        {⟨heapStart + 4096, largeLayout⟩, ⟨heapStart, smallLayout⟩}⟩ :=
    ⟨trivial, honest_onlyFor (by decide), rfl⟩
  have hfree : Step ⟨⟨fun _ => [],
      ⟨{⟨heapStart + 4096, largeLayout⟩, freeBlock class32 heapStart}⟩⟩,
        {⟨heapStart + 4096, largeLayout⟩, ⟨heapStart, smallLayout⟩}⟩
      (.dealloc heapStart smallLayout, fun _ => none) demo :=
    ⟨by decide, by simp [Honest], rfl⟩
  exact ⟨_, .cons hsmall (.cons hlarge (.cons hfree (.nil _)))⟩

theorem demo_safe : Safe demo ∧
    ∃ t, apply (fun _ => none) (.realloc (heapStart + 4096) largeLayout 20) demo = .ok t := by
  obtain ⟨hsafe, hnext⟩ := heap_stays_safe demo_reachable
  exact ⟨hsafe, hnext _ _ (by decide) (by simp [Honest])⟩

end System
end MoltOS.Allocator
