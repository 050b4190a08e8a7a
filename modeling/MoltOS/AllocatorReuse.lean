import Mathlib.Data.Multiset.Count
import Mathlib.Order.Bounds.Basic
import MoltOS.AllocatorSafe

/-! How much of the fallback heap the size classes use. A block of a class that has been
fetched once is live or on the free list of its class ever after, and another one is fetched
only when that list is empty. -/
namespace MoltOS.Allocator
open MoltOS.Transition

def liveIn (k : Class) (live : Multiset Block) : Nat :=
  live.countP fun b => listIndex b.layout = some k

namespace FixedSizeBlockAllocator

/- The class for which a call of `alloc` gets a block from the fallback heap. -/
def fetch (answer : FirstFit) (layout : Layout) (a : FixedSizeBlockAllocator) : Option Class :=
  match listIndex layout with
  | none => none
  | some k =>
    match a.listHeads k, answer (classLayout k) with
    | [], some _ => some k
    | _, _ => none

/- The four ends of `alloc`: null, a block of the free list, a new block for a class, and a
   block of its own. -/
inductive Allocated (a : FixedSizeBlockAllocator) (answer : FirstFit) (l : Layout) :
    Nat → FixedSizeBlockAllocator → Prop where
  | null : a.fetch answer l = none → Allocated a answer l 0 a
  | reused {k p next} : listIndex l = some k → a.listHeads k = p :: next →
      a.fetch answer l = none →
      Allocated a answer l p { a with listHeads := Function.update a.listHeads k next }
  | fetched {k p} : listIndex l = some k → a.listHeads k = [] → answer (classLayout k) = some p →
      a.fetch answer l = some k →
      Allocated a answer l p { a with fallback := ⟨freeBlock k p ::ₘ a.fallback.grants⟩ }
  | large {p} : listIndex l = none → a.fetch answer l = none →
      Allocated a answer l p { a with fallback := ⟨⟨p, l⟩ ::ₘ a.fallback.grants⟩ }

theorem alloc_allocated {a a' : FixedSizeBlockAllocator} {answer : FirstFit} {l : Layout} {p : Nat}
    (h : a.alloc answer l = .ok (p, a')) : Allocated a answer l p a' := by
  unfold alloc at h
  cases hk : listIndex l with
  | none =>
    have hfetch : a.fetch answer l = none := by simp [fetch, hk]
    simp only [hk, Except.ok.injEq] at h
    cases ha : answer l with
    | none =>
      rw [fallbackAlloc_none ha] at h
      cases h
      exact .null hfetch
    | some q =>
      rw [fallbackAlloc_some ha] at h
      cases h
      exact .large hk hfetch
  | some k =>
    simp only [hk] at h
    cases hhead : a.listHeads k with
    | cons q next =>
      simp only [hhead] at h
      cases h
      exact .reused hk hhead (by simp [fetch, hk, hhead])
    | nil =>
      simp only [hhead, fromSizeAlign_blockSize, Except.ok.injEq] at h
      cases ha : answer (classLayout k) with
      | none =>
        rw [fallbackAlloc_none ha] at h
        cases h
        exact .null (by simp [fetch, hk, hhead, ha])
      | some q =>
        rw [fallbackAlloc_some ha] at h
        cases h
        exact .fetched hk hhead ha (by simp [fetch, hk, hhead, ha])

theorem Allocated.fetch_null {a a' : FixedSizeBlockAllocator} {answer : FirstFit} {l : Layout}
    {p : Nat} (h : Allocated a answer l p a') (hon : Honest a.fallback.grants answer)
    (hp : p = 0) : a.fetch answer l = none := by
  cases h with
  | null hf => exact hf
  | reused _ _ hf => exact hf
  | large _ hf => exact hf
  | fetched _ _ hans => exact absurd hp (hon _ _ hans).1.ptr_ne_zero

/-- A block is fetched for a class only while the list of the class is empty. -/
theorem Allocated.fetch_some {a a' : FixedSizeBlockAllocator} {answer : FirstFit} {l : Layout}
    {p : Nat} {k : Class} (h : Allocated a answer l p a') (hf : a.fetch answer l = some k) :
    a'.listHeads k = [] := by
  cases h with
  | null hn | reused _ _ hn | large _ hn =>
    rw [hn] at hf
    cases hf
  | @fetched i q hidx hhead _ hn =>
    obtain rfl : i = k := Option.some.inj (hn.symm.trans hf)
    exact hhead

end FixedSizeBlockAllocator

structure History where
  system : System
  fetched : Class → Nat
  visited : List (Multiset Block)

namespace History

def new : History := ⟨System.new, fun _ => 0, [0]⟩

def fetches (answer : FirstFit) (a : FixedSizeBlockAllocator) : Op → Option Class
  | .alloc layout => a.fetch answer layout
  | .dealloc _ _ => none
  | .realloc _ layout newSize =>
    match Layout.fromSizeAlign newSize layout.align with
    | .ok newLayout => a.fetch answer newLayout
    | .error _ => none

/- Inside a `realloc` that succeeds the old and the new block are both live. -/
def inside (live : Multiset Block) (ptr : Nat) : Op → List (Multiset Block)
  | .realloc _ layout newSize =>
    match Layout.fromSizeAlign newSize layout.align with
    | .ok newLayout => if ptr = 0 then [] else [⟨ptr, newLayout⟩ ::ₘ live]
    | .error _ => []
  | _ => []

def count (fetched : Class → Nat) : Option Class → Class → Nat
  | none => fetched
  | some k => Function.update fetched k (fetched k + 1)

def Step (s : History) (e : Op × FirstFit) (t : History) : Prop :=
  e.1.Legal s.system.live ∧ Honest s.system.allocator.fallback.grants e.2 ∧
    ∃ ptr a, System.call e.2 s.system.allocator e.1 = .ok (ptr, a) ∧
      t = ⟨⟨a, e.1.track s.system.live ptr⟩, count s.fetched (fetches e.2 s.system.allocator e.1),
        s.visited ++ inside s.system.live ptr e.1 ++ [e.1.track s.system.live ptr]⟩

end History

def Conserved (fetched : Class → Nat) (a : FixedSizeBlockAllocator) (live : Multiset Block) : Prop :=
  ∀ k, fetched k = liveIn k live + (a.listHeads k).length

section Conserve
variable {fetched : Class → Nat} {a a' : FixedSizeBlockAllocator} {live : Multiset Block}
  {answer : FirstFit} {l : Layout} {p : Nat}

theorem liveIn_cons (k : Class) (p : Nat) (l : Layout) (live : Multiset Block) :
    liveIn k (⟨p, l⟩ ::ₘ live) = liveIn k live + if listIndex l = some k then 1 else 0 := by
  unfold liveIn
  rw [Multiset.countP_cons]

theorem liveIn_erase (k : Class) (h : ⟨p, l⟩ ∈ live) : liveIn k live =
    liveIn k (live.erase ⟨p, l⟩) + if listIndex l = some k then 1 else 0 := by
  rw [← liveIn_cons k p, Multiset.cons_erase h]

theorem Conserved.alloc (hc : Conserved fetched a live)
    (h : FixedSizeBlockAllocator.Allocated a answer l p a') :
    (p = 0 ∧ a' = a ∧ a.fetch answer l = none) ∨
    Conserved (History.count fetched (a.fetch answer l)) a' (⟨p, l⟩ ::ₘ live) := by
  cases h with
  | null hf => exact Or.inl ⟨rfl, rfl, hf⟩
  | @reused k q next hk hhead hf =>
    refine Or.inr fun j => ?_
    have hj := hc j
    rw [hf, liveIn_cons, hk, History.count]
    by_cases he : j = k
    · subst he
      rw [hhead, List.length_cons] at hj
      simp only [Function.update_self, if_true]
      omega
    · rw [if_neg (fun h => he (Option.some.inj h).symm)]
      simp only [Function.update_of_ne he]
      omega
  | @fetched k q hk hhead _ hf =>
    refine Or.inr fun j => ?_
    have hj := hc j
    rw [hf, liveIn_cons, hk, History.count]
    by_cases he : j = k
    · subst he
      rw [Function.update_self, if_pos rfl, hj]
      simp only
      omega
    · rw [Function.update_of_ne he, if_neg (fun h => he (Option.some.inj h).symm)]
      simp only
      omega
  | large hk hf =>
    refine Or.inr fun j => ?_
    have hj := hc j
    rw [hf, liveIn_cons, hk, History.count, if_neg (by simp)]
    simp only
    omega

theorem dealloc_listHeads (hk : listIndex l = none) (h : a.dealloc p l = .ok a') :
    a'.listHeads = a.listHeads := by
  simp only [FixedSizeBlockAllocator.dealloc, hk] at h
  split at h
  · cases h
  · obtain ⟨heap, _, hpure⟩ := Rust.bind_ok_iff.mp h
    cases hpure
    rfl

theorem Conserved.dealloc (hc : Conserved fetched a live) (hb : ⟨p, l⟩ ∈ live)
    (h : a.dealloc p l = .ok a') : Conserved fetched a' (live.erase ⟨p, l⟩) := by
  intro j
  have hj := hc j
  rw [liveIn_erase j hb] at hj
  cases hk : listIndex l with
  | some k =>
    rw [FixedSizeBlockAllocator.dealloc_of_index hk] at h
    cases h
    by_cases he : j = k
    · subst he
      rw [hk, if_pos rfl] at hj
      simp only [Function.update_self, List.length_cons]
      omega
    · rw [hk, if_neg (fun h => he (Option.some.inj h).symm)] at hj
      simp only [Function.update_of_ne he]
      omega
  | none =>
    rw [hk, if_neg (by simp)] at hj
    rw [dealloc_listHeads hk h]
    omega

end Conserve

section Peak
variable {fetched : Class → Nat} {visited : List (Multiset Block)} {live : Multiset Block}
  {a : FixedSizeBlockAllocator} {k : Class}

def IsPeak (k : Class) (visited : List (Multiset Block)) (n : Nat) : Prop :=
  IsGreatest { n | ∃ live ∈ visited, liveIn k live = n } n

theorem Conserved.le (hc : Conserved fetched a live) (k : Class) : liveIn k live ≤ fetched k := by
  rw [hc k]
  exact Nat.le_add_right _ _

/-- A state that holds no more than the peak does not move it. -/
theorem IsPeak.append (h : IsPeak k visited (fetched k)) (hle : liveIn k live ≤ fetched k) :
    IsPeak k (visited ++ [live]) (fetched k) := by
  obtain ⟨⟨top, htop, heq⟩, hall⟩ := h
  refine ⟨⟨top, List.mem_append_left _ htop, heq⟩, ?_⟩
  rintro n ⟨L, hL, rfl⟩
  rcases List.mem_append.mp hL with hL | hL
  · exact hall ⟨L, hL, rfl⟩
  · rw [List.mem_singleton.mp hL]
    exact hle

/-- A state with a block that has just been fetched is the new peak: nothing was listed. -/
theorem IsPeak.alloc {answer : FirstFit} {l : Layout} {p : Nat} {a' : FixedSizeBlockAllocator}
    (h : ∀ k, IsPeak k visited (fetched k))
    (halloc : FixedSizeBlockAllocator.Allocated a answer l p a')
    (hc' : Conserved (History.count fetched (a.fetch answer l)) a' (⟨p, l⟩ ::ₘ live)) (k : Class) :
    IsPeak k (visited ++ [⟨p, l⟩ ::ₘ live]) (History.count fetched (a.fetch answer l) k) := by
  have hle := hc'.le k
  cases hf : a.fetch answer l with
  | none =>
    rw [hf] at hle
    exact (h k).append hle
  | some j =>
    rw [hf] at hc' hle
    by_cases hk : k = j
    · subst hk
      refine ⟨⟨_, List.mem_append_right _ (List.mem_singleton_self _), ?_⟩, ?_⟩
      · have hlist := hc' k
        rw [halloc.fetch_some hf, List.length_nil] at hlist
        omega
      · rintro n ⟨L, hL, rfl⟩
        rcases List.mem_append.mp hL with hL | hL
        · refine ((h k).2 ⟨L, hL, rfl⟩).trans ?_
          simp [History.count]
        · rw [List.mem_singleton.mp hL]
          exact hle
    · have hsame : History.count fetched (some j) k = fetched k := Function.update_of_ne hk _ _
      rw [hsame] at hle ⊢
      exact (h k).append hle

end Peak

namespace History
variable {s t : History} {e : Op × FirstFit}

structure Reuses (s : History) : Prop where
  accounted : Accounted s.system.allocator s.system.live
  conserved : Conserved s.fetched s.system.allocator s.system.live
  peak : ∀ k, IsPeak k s.visited (s.fetched k)

theorem Reuses.new : Reuses new := by
  refine ⟨Accounted.new, fun k => rfl, fun k => ⟨⟨0, List.mem_singleton_self _, rfl⟩, ?_⟩⟩
  rintro n ⟨L, hL, rfl⟩
  rw [List.mem_singleton.mp hL]
  exact le_rfl

/-- A call of `alloc` leaves everything alone, or hands out one more block. -/
theorem Reuses.alloc (hs : Reuses s) {answer : FirstFit} {l : Layout} {p : Nat}
    {a : FixedSizeBlockAllocator} (hon : Honest s.system.allocator.fallback.grants answer)
    (h : s.system.allocator.alloc answer l = .ok (p, a)) :
    (p = 0 ∧ a = s.system.allocator ∧ s.system.allocator.fetch answer l = none) ∨
    (p ≠ 0 ∧ Reuses ⟨⟨a, ⟨p, l⟩ ::ₘ s.system.live⟩,
      count s.fetched (s.system.allocator.fetch answer l),
      s.visited ++ [⟨p, l⟩ ::ₘ s.system.live]⟩) := by
  have halloc := FixedSizeBlockAllocator.alloc_allocated h
  obtain ⟨q, a', hcall, hout⟩ := FixedSizeBlockAllocator.alloc_outcome (l := l) hs.accounted hon
  obtain ⟨rfl, rfl⟩ := Prod.mk.inj (Except.ok.inj (h.symm.trans hcall))
  obtain ⟨rfl, rfl⟩ | ⟨hp, hacc⟩ := hout
  · exact Or.inl ⟨rfl, rfl, halloc.fetch_null hon rfl⟩
  · obtain ⟨h0, _⟩ | hc := hs.conserved.alloc halloc
    · exact absurd h0 hp
    · exact Or.inr ⟨hp, hacc, hc, IsPeak.alloc hs.peak halloc hc⟩

theorem Reuses.dealloc (hs : Reuses s) {l : Layout} {p : Nat} {a : FixedSizeBlockAllocator}
    (hb : ⟨p, l⟩ ∈ s.system.live) (h : s.system.allocator.dealloc p l = .ok a) :
    Reuses ⟨⟨a, s.system.live.erase ⟨p, l⟩⟩, s.fetched,
      s.visited ++ [s.system.live.erase ⟨p, l⟩]⟩ := by
  obtain ⟨a', hcall, hacc⟩ := FixedSizeBlockAllocator.dealloc_outcome hs.accounted hb
  obtain rfl := Except.ok.inj (h.symm.trans hcall)
  have hc := hs.conserved.dealloc hb h
  exact ⟨hacc, hc, fun k => (hs.peak k).append (hc.le k)⟩

theorem Reuses.stay (hs : Reuses s) :
    Reuses ⟨s.system, s.fetched, s.visited ++ [s.system.live]⟩ :=
  ⟨hs.accounted, hs.conserved, fun k => (hs.peak k).append (hs.conserved.le k)⟩

theorem Reuses.step (hs : Reuses s) (h : Step s e t) : Reuses t := by
  obtain ⟨op, answer⟩ := e
  obtain ⟨hlegal, hon, ptr, a, hcall, rfl⟩ := h
  cases op with
  | alloc l =>
    simp only [inside, List.append_nil, fetches, Op.track]
    obtain ⟨rfl, rfl, hf⟩ | ⟨hp, hnew⟩ := hs.alloc hon hcall
    · rw [hf, if_pos rfl]
      exact hs.stay
    · rw [if_neg hp]
      exact hnew
  | dealloc p l =>
    simp only [inside, List.append_nil, fetches, Op.track]
    obtain ⟨a', hd, hpure⟩ := Rust.bind_ok_iff.mp hcall
    cases hpure
    exact hs.dealloc hlegal hd
  | realloc p l n =>
    simp only [System.call, FixedSizeBlockAllocator.realloc] at hcall
    simp only [inside, fetches, Op.track]
    cases hl : Layout.fromSizeAlign n l.align with
    | error x =>
      simp only [hl, Except.ok.injEq, Prod.mk.injEq] at hcall
      obtain ⟨rfl, rfl⟩ := hcall
      simp only [List.append_nil]
      exact hs.stay
    | ok l' =>
      simp only [hl] at hcall ⊢
      obtain ⟨⟨q, a₁⟩, halloc, hrest⟩ := Rust.bind_ok_iff.mp hcall
      obtain ⟨rfl, rfl, hf⟩ | ⟨hq, hnew⟩ := hs.alloc hon halloc
      · simp only [ne_eq, not_true_eq_false, if_false] at hrest
        cases hrest
        rw [hf, if_pos rfl, if_pos rfl, List.append_nil]
        exact hs.stay
      · simp only [if_pos hq] at hrest
        obtain ⟨a₂, hd, hpure⟩ := Rust.bind_ok_iff.mp hrest
        cases hpure
        rw [if_neg hq, if_neg hq, ← Multiset.erase_cons_tail_of_mem hlegal]
        exact hnew.dealloc (Multiset.mem_cons_of_mem hlegal) hd

end History

section Grants
variable {a : FixedSizeBlockAllocator} {live : Multiset Block} {fetched : Class → Nat} {k : Class}

theorem granted_eq_iff {l : Layout} : granted l = classLayout k ↔ listIndex l = some k := by
  have hclass : ∀ k : Class, listIndex (classLayout k) = some k := by decide
  unfold granted
  constructor
  · intro h
    split at h
    next j hj =>
      rw [hj, blockSize_injective (congrArg Layout.size h)]
    next hn =>
      rw [h, hclass k] at hn
      cases hn
  · intro h
    rw [h]

def grantsIn (k : Class) (grants : Multiset Block) : Nat :=
  grants.countP fun b => b.layout = classLayout k

/-- What has been fetched for a class is all the heap it takes: nothing goes back. -/
theorem Accounted.grantsIn_eq (h : Accounted a live) :
    grantsIn k a.fallback.grants = liveIn k live + (a.listHeads k).length := by
  have hlist (j : Class) : ((a.listHeads j : Multiset Nat).map (freeBlock j)).countP
      (fun b => b.layout = classLayout k) = if j = k then (a.listHeads j).length else 0 := by
    rw [Multiset.countP_map]
    by_cases hj : j = k
    · subst hj
      simp [freeBlock]
    · have hne : ∀ p : Nat, (freeBlock j p).layout ≠ classLayout k := by
        intro p he
        exact hj (blockSize_injective (congrArg Layout.size he))
      simp [hne, hj]
  have hlive : (live.map backing).countP (fun b => b.layout = classLayout k) = liveIn k live := by
    rw [Multiset.countP_map, liveIn, Multiset.countP_eq_card_filter]
    simp only [backing, granted_eq_iff]
  unfold grantsIn
  rw [h.grants, Multiset.countP_add, hlive, freeBlocks,
    ← Multiset.coe_countPAddMonoidHom, map_sum]
  simp only [Multiset.coe_countPAddMonoidHom, hlist, Finset.sum_ite_eq', Finset.mem_univ, if_true]

end Grants

/-- Small-block reuse is perfect. In every run, what has been fetched from the fallback heap
for a class is the most blocks of the class that were live at once, and it is all of that
heap the class takes; so bounded live blocks take bounded heap. -/
theorem fetched_eq_peak {s : History} (h : Reachable History.Step History.new s) (k : Class) :
    IsGreatest { n | ∃ live ∈ s.visited, liveIn k live = n } (s.fetched k) ∧
    s.fetched k = grantsIn k s.system.allocator.fallback.grants ∧
    ∀ bound, (∀ live ∈ s.visited, liveIn k live ≤ bound) →
      grantsIn k s.system.allocator.fallback.grants * blockSize k ≤ bound * blockSize k := by
  have hs : History.Reuses s := h.invariant (fun _ _ _ hu hstep => hu.step hstep) History.Reuses.new
  have hgrants : s.fetched k = grantsIn k s.system.allocator.fallback.grants := by
    rw [hs.accounted.grantsIn_eq, hs.conserved k]
  refine ⟨hs.peak k, hgrants, fun bound hbound => Nat.mul_le_mul_right _ ?_⟩
  rw [← hgrants]
  obtain ⟨live, hlive, heq⟩ := (hs.peak k).1
  exact heq ▸ hbound live hlive

def oneSmall : History :=
  ⟨⟨⟨fun _ => [], ⟨{freeBlock System.class32 heapStart}⟩⟩, {⟨heapStart, System.smallLayout⟩}⟩,
    History.count (fun _ => 0) (some System.class32), [0, {⟨heapStart, System.smallLayout⟩}]⟩

/- A block that grows inside its class: for a moment two are live. -/
theorem realloc_in_class_fetches_two : ∃ s, Reachable History.Step History.new s ∧
    s.fetched System.class32 = 2 ∧ liveIn System.class32 s.system.live = 1 ∧
    IsGreatest { n | ∃ live ∈ s.visited, liveIn System.class32 live = n } 2 := by
  have hfirst : History.Step History.new
      (.alloc System.smallLayout, System.onlyFor (classLayout System.class32) heapStart) oneSmall :=
    ⟨trivial, System.honest_onlyFor (by decide), _, _, rfl, rfl⟩
  have hgrow : History.Step oneSmall (.realloc heapStart System.smallLayout 28,
      System.onlyFor (classLayout System.class32) (heapStart + 32)) _ :=
    ⟨by decide, System.honest_onlyFor (by decide), _, _, rfl, rfl⟩
  have hrun : Reachable History.Step History.new _ := ⟨_, .cons hfirst (.cons hgrow (.nil _))⟩
  exact ⟨_, hrun, rfl, by decide, (fetched_eq_peak hrun System.class32).1⟩

end MoltOS.Allocator
