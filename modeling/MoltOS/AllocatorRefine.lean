import MoltOS.AllocatorRaw

/-! The byte-level allocator refines the one with lists: after each call the chains in the
memory are its lists, and the bytes of the blocks that the call is not about are kept. -/
namespace MoltOS.Allocator
open MoltOS.RawMemory MoltOS.Transition

variable {H : Type*} {heap : Fallback H} {Sound : H → Mem → Prop}

def Chain (m : Mem) : Option Nat → List Nat → Prop
  | head, [] => head = none
  | head, p :: rest => head = some p ∧ Chain m (readNext m p) rest

theorem Chain.frame {m m' : Mem} {head : Option Nat} {l : List Nat} (h : Chain m head l)
    (hm : ∀ p ∈ l, Set.EqOn m' m (span p 8)) : Chain m' head l := by
  induction l generalizing head with
  | nil => exact h
  | cons p rest ih =>
    obtain ⟨hp, hrest⟩ := h
    have hword : readWord m' p = readWord m p := readWord_congr (hm p (by simp))
    have hnext : readNext m' p = readNext m p := by rw [readNext, readNext, hword]
    refine ⟨hp, ?_⟩
    rw [hnext]
    exact ih hrest fun q hq => hm q (by simp [hq])

theorem Chain.head_mem {m : Mem} {l : List Nat} {p : Nat} (h : Chain m (some p) l) : p ∈ l := by
  cases l with
  | nil => cases h
  | cons q rest =>
    rw [Option.some.inj h.1]
    exact List.mem_cons_self

theorem readNext_writeNext (m : Mem) (node : Nat) {next : Option Nat}
    (h : ∀ p, next = some p → 0 < p ∧ p < 2 ^ 64) :
    readNext (writeNext m node next) node = next := by
  cases next with
  | none =>
    have hword := readWord_writeWord (n := 0) m node (by decide)
    simp only [readNext, writeNext, Option.getD_none, hword, if_true]
  | some p =>
    obtain ⟨hpos, hlt⟩ := h p rfl
    have hword := readWord_writeWord m node hlt
    simp only [readNext, writeNext, Option.getD_some, hword, if_neg hpos.ne']

theorem writeNext_eqOn (m : Mem) (node : Nat) (next : Option Nat) :
    Set.EqOn (writeNext m node next) m (span node 8)ᶜ := writeWord_eqOn m node (next.getD 0)

theorem chain_update {m : Mem} {heads : Class → Option Nat} {lists : Class → List Nat}
    (h : ∀ j, Chain m (heads j) (lists j)) {k : Class} {head : Option Nat} {l : List Nat}
    (hk : Chain m head l) (j : Class) :
    Chain m (Function.update heads k head j) (Function.update lists k l j) := by
  by_cases hj : j = k
  · subst hj
    simp only [Function.update_self]
    exact hk
  · simp only [Function.update_of_ne hj]
    exact h j

def answerOf (heap : Fallback H) (s : Raw H) : FirstFit :=
  fun l => (heap.allocateFirstFit l s.fallback s.mem).1

structure Represents (heap : Fallback H) (Sound : H → Mem → Prop) (s : Raw H)
    (a : FixedSizeBlockAllocator) (live : Multiset Block) : Prop where
  chains : ∀ k, Chain s.mem (s.listHeads k) (a.listHeads k)
  grants : a.fallback.grants = heap.grants s.fallback
  sound : Sound s.fallback s.mem
  accounted : Accounted a live

def Kept (m m' : Mem) (blocks : Multiset Block) : Prop :=
  ∀ b ∈ blocks, Set.EqOn m' m (backing b).region

theorem Block.Placed.link_fits {b : Block} (h : b.Placed) : 0 < b.ptr ∧ b.ptr < 2 ^ 64 := by
  obtain ⟨-, hlo, hhi⟩ := h
  unfold heapStart heapSize at *
  omega

theorem mem_backing {p i : Nat} {l : Layout} (h : i < l.size) :
    p + i ∈ (backing ⟨p, l⟩).region :=
  ⟨Nat.le_add_right p i, Nat.add_lt_add_left (h.trans_le (granted_fits l).1) p⟩

theorem word_subset_freeBlock (k : Class) (p : Nat) : span p 8 ⊆ (freeBlock k p).region :=
  span_subset (blockSize_spec k).2.2

namespace Represents
variable {s : Raw H} {a : FixedSizeBlockAllocator} {live : Multiset Block} {l : Layout}
  {p : Nat} {k : Class} {b : Block} {m : Mem}

theorem honest (h : Represents heap Sound s a live) (hc : heap.Contract Sound) :
    Honest a.fallback.grants (answerOf heap s) := by
  intro l p ha
  obtain ⟨hplaced, hapart, -⟩ := hc.grant h.sound (Prod.ext ha rfl)
  rw [h.grants]
  exact ⟨hplaced, hapart⟩

/-- Links survive what leaves the free blocks alone. -/
theorem chains_frame (h : Represents heap Sound s a live)
    (hm : ∀ k, ∀ p ∈ a.listHeads k, Set.EqOn m s.mem (freeBlock k p).region) (k : Class) :
    Chain m (s.listHeads k) (a.listHeads k) :=
  (h.chains k).frame fun p hp => (hm k p hp).mono (word_subset_freeBlock k p)

/-- A write into a live block. -/
theorem write (h : Represents heap Sound s a live) (hc : heap.Contract Sound) (hb : b ∈ live)
    (hm : Set.EqOn m s.mem (backing b).regionᶜ) :
    Represents heap Sound { s with mem := m } a live where
  chains := h.chains_frame fun k p hp =>
    hm.mono (h.accounted.free_apart_live hp hb).subset_compl_right
  grants := h.grants
  sound := by
    have hmem := h.accounted.backing_mem hb
    rw [h.grants] at hmem
    exact hc.foreign h.sound hmem hm
  accounted := h.accounted

theorem pop (h : Represents heap Sound s a live) {next : List Nat} (hk : listIndex l = some k)
    (hhead : a.listHeads k = p :: next) :
    Represents heap Sound
      { s with listHeads := Function.update s.listHeads k (readNext s.mem p) }
      { a with listHeads := Function.update a.listHeads k next } (⟨p, l⟩ ::ₘ live) where
  chains := by
    have hchain := h.chains k
    rw [hhead] at hchain
    exact chain_update h.chains hchain.2
  grants := h.grants
  sound := h.sound
  accounted := h.accounted.pop hk hhead

theorem push (h : Represents heap Sound s a live) (hk : listIndex l = some k)
    (hb : ⟨p, l⟩ ∈ live) (hlink : readNext s.mem p = s.listHeads k) :
    Represents heap Sound
      { s with listHeads := Function.update s.listHeads k (some p) }
      { a with listHeads := Function.update a.listHeads k (p :: a.listHeads k) }
      (live.erase ⟨p, l⟩) where
  chains := by
    have hchain : Chain s.mem (some p) (p :: a.listHeads k) := by
      refine ⟨rfl, ?_⟩
      rw [hlink]
      exact h.chains k
    exact chain_update h.chains hchain
  grants := h.grants
  sound := h.sound
  accounted := h.accounted.push hk hb

theorem grant (h : Represents heap Sound s a live) (hc : heap.Contract Sound) {l' : Layout}
    {fallback : H} (ha : heap.allocateFirstFit l' s.fallback s.mem = (some p, fallback, m))
    (hl : backing ⟨p, l⟩ = ⟨p, l'⟩) :
    Represents heap Sound { s with fallback := fallback, mem := m }
      { a with fallback := ⟨⟨p, l'⟩ ::ₘ a.fallback.grants⟩ } (⟨p, l⟩ ::ₘ live) := by
  obtain ⟨-, -, hgrants, hkept, hsound⟩ := hc.grant h.sound ha
  have hanswer : answerOf heap s l' = some p := congrArg Prod.fst ha
  refine ⟨?_, ?_, hsound, h.accounted.grant (h.honest hc) hanswer hl⟩
  · exact h.chains_frame fun k q hq => hkept _ (h.grants ▸ h.accounted.free_mem hq)
  · rw [hgrants, ← h.grants]

theorem release (h : Represents heap Sound s a live) (hc : heap.Contract Sound)
    (hk : listIndex l = none) (hb : ⟨p, l⟩ ∈ live) {fallback : H}
    (ha : heap.deallocate p l s.fallback s.mem = (fallback, m)) :
    Represents heap Sound { s with fallback := fallback, mem := m }
      { a with fallback := ⟨a.fallback.grants.erase ⟨p, l⟩⟩ } (live.erase ⟨p, l⟩) := by
  have hmem := h.accounted.backing_mem hb
  rw [backing_of_none hk, h.grants] at hmem
  obtain ⟨hgrants, hkept, hsound⟩ := hc.release h.sound hmem ha
  have hacc := h.accounted.release hk hb
  have hsame : a.fallback.grants.erase ⟨p, l⟩ = heap.grants fallback := by
    rw [hgrants, h.grants]
  refine ⟨?_, hsame, hsound, hacc⟩
  refine h.chains_frame fun k q hq => hkept _ ?_
  rw [← hsame]
  exact hacc.free_mem (k := k) hq

end Represents

structure AllocMatch (heap : Fallback H) (Sound : H → Mem → Prop) (s : Raw H)
    (a : FixedSizeBlockAllocator) (live : Multiset Block) (l : Layout) (p : Nat) (s' : Raw H)
    (a' : FixedSizeBlockAllocator) : Prop where
  kept : Kept s.mem s'.mem live
  outcome : p = 0 ∧ s' = s ∧ a' = a ∨ p ≠ 0 ∧ Represents heap Sound s' a' (⟨p, l⟩ ::ₘ live)
  fresh : heap.grants s'.fallback = heap.grants s.fallback ∨
    heap.grants s'.fallback = {backing ⟨p, l⟩} + heap.grants s.fallback

/-- In `t` the block is free, once: the first node of its class and on no list elsewhere, or
given back to the fallback heap, which held `before` as handed out. -/
def FreedOnce (heap : Fallback H) (before : Multiset Block) (t : Raw H) (b : Block) : Prop :=
  match listIndex b.layout with
  | some k => heap.grants t.fallback = before ∧ ∃ free : Class → List Nat,
      (∀ j, Chain t.mem (t.listHeads j) (free j)) ∧
      (∃ rest, free k = b.ptr :: rest ∧ b.ptr ∉ rest) ∧ ∀ j ≠ k, b.ptr ∉ free j
  | none => b ∈ before ∧ heap.grants t.fallback = before.erase b

namespace Raw
variable {s : Raw H} {a : FixedSizeBlockAllocator} {live : Multiset Block} {l : Layout}
  {p : Nat} {k : Class}

theorem fallbackAlloc_match (h : Represents heap Sound s a live) (hc : heap.Contract Sound)
    {l' : Layout} (hl : ∀ p, backing ⟨p, l⟩ = ⟨p, l'⟩) :
    ∃ p s' a', s.fallbackAlloc heap l' = (p, s') ∧
      a.fallbackAlloc (answerOf heap s) l' = (p, a') ∧
      AllocMatch heap Sound s a live l p s' a' := by
  obtain ⟨answer, h', m', hcall⟩ :
      ∃ answer h' m', heap.allocateFirstFit l' s.fallback s.mem = (answer, h', m') :=
    ⟨_, _, _, rfl⟩
  have hanswer : answerOf heap s l' = answer := congrArg Prod.fst hcall
  cases answer with
  | none =>
    obtain ⟨rfl, rfl⟩ := hc.fails h.sound hcall
    refine ⟨0, s, a, ?_, FixedSizeBlockAllocator.fallbackAlloc_none hanswer, ?_⟩
    · rw [fallbackAlloc, hcall]
    · exact ⟨fun b _ => Set.eqOn_refl _ _, .inl ⟨rfl, rfl, rfl⟩, .inl rfl⟩
  | some p =>
    obtain ⟨hplaced, -, hgrants, hkept, -⟩ := hc.grant h.sound hcall
    refine ⟨p, { s with fallback := h', mem := m' }, _, ?_,
      FixedSizeBlockAllocator.fallbackAlloc_some hanswer, ?_⟩
    · rw [fallbackAlloc, hcall]
    · refine ⟨fun b hb => hkept _ (h.grants ▸ h.accounted.backing_mem hb),
        .inr ⟨hplaced.ptr_ne_zero, h.grant hc hcall (hl p)⟩, .inr ?_⟩
      rw [hgrants, hl p, Multiset.singleton_add]

theorem alloc_match (h : Represents heap Sound s a live) (hc : heap.Contract Sound) :
    ∃ p s' a', s.alloc heap l = .ok (p, s') ∧ a.alloc (answerOf heap s) l = .ok (p, a') ∧
      AllocMatch heap Sound s a live l p s' a' := by
  unfold alloc FixedSizeBlockAllocator.alloc
  cases hk : listIndex l with
  | none =>
    obtain ⟨p, s', a', hs, ha, hmatch⟩ := fallbackAlloc_match (l := l) h hc
      fun p => backing_of_none hk
    exact ⟨p, s', a', congrArg Except.ok hs, congrArg Except.ok ha, hmatch⟩
  | some k =>
    have hchain := h.chains k
    cases hhead : a.listHeads k with
    | nil =>
      rw [hhead] at hchain
      have hnone : s.listHeads k = none := hchain
      obtain ⟨p, s', a', hs, ha, hmatch⟩ := fallbackAlloc_match (l := l) h hc
        fun p => backing_of_index hk
      simp only [hnone, hhead, fromSizeAlign_blockSize]
      exact ⟨p, s', a', congrArg Except.ok hs, congrArg Except.ok ha, hmatch⟩
    | cons p next =>
      rw [hhead] at hchain
      have hmem : p ∈ a.listHeads k := by simp [hhead]
      have hne : p ≠ 0 := (h.accounted.placed _ (h.accounted.free_mem hmem)).ptr_ne_zero
      have hword : Set.EqOn (writeNext s.mem p none) s.mem (freeBlock k p).regionᶜ :=
        (writeNext_eqOn s.mem p none).mono
          (Set.compl_subset_compl.mpr (word_subset_freeBlock k p))
      -- the list moves on first: the link is cleared in a block that is live by then
      have hpop := h.pop hk hhead
      have hwrite := hpop.write hc (Multiset.mem_cons_self _ live)
        (by rwa [backing_of_index hk])
      simp only [hchain.1, hhead]
      refine ⟨p, _, _, rfl, rfl, ?_, .inr ⟨hne, hwrite⟩, .inl rfl⟩
      exact fun b hb => hword.mono (h.accounted.free_apart_live hmem hb).subset_compl_left

theorem ptr_not_free (h : Accounted a live) (hk : listIndex l = some k) (hb : ⟨p, l⟩ ∈ live)
    (j : Class) : p ∉ a.listHeads j := by
  intro hmem
  have hapart := h.free_apart_live hmem hb
  rw [backing_of_index hk] at hapart
  exact Set.disjoint_left.mp hapart (ptr_mem_freeBlock j p) (ptr_mem_freeBlock k p)

theorem dealloc_of_index (hk : listIndex l = some k) : s.dealloc heap p l = .ok { s with
    listHeads := Function.update s.listHeads k (some p)
    mem := writeNext s.mem p (s.listHeads k) } := by
  have hsize : listNodeSize ≤ blockSize k := (blockSize_spec k).2.2
  have halign : listNodeAlign ≤ blockSize k := (blockSize_spec k).2.2
  simp only [dealloc, hk]
  rw [if_neg (not_not.mpr hsize), if_neg (not_not.mpr halign)]

theorem dealloc_match (h : Represents heap Sound s a live) (hc : heap.Contract Sound)
    (hb : ⟨p, l⟩ ∈ live) :
    ∃ s' a', s.dealloc heap p l = .ok s' ∧ a.dealloc p l = .ok a' ∧
      Represents heap Sound s' a' (live.erase ⟨p, l⟩) ∧
      Kept s.mem s'.mem (live.erase ⟨p, l⟩) ∧
      FreedOnce heap (heap.grants s.fallback) s' ⟨p, l⟩ := by
  unfold FreedOnce
  cases hk : listIndex l with
  | none =>
    have hmem := h.accounted.backing_mem hb
    rw [backing_of_none hk] at hmem
    have hne : p ≠ 0 := (h.accounted.placed _ hmem).ptr_ne_zero
    obtain ⟨h', m', hcall⟩ : ∃ h' m', heap.deallocate p l s.fallback s.mem = (h', m') :=
      ⟨_, _, rfl⟩
    obtain ⟨hgrants, hkept, -⟩ := hc.release h.sound (h.grants ▸ hmem) hcall
    have hrep := h.release hc hk hb hcall
    refine ⟨{ s with fallback := h', mem := m' }, _, ?_,
      FixedSizeBlockAllocator.dealloc_of_none hk hne hmem, hrep, ?_, h.grants ▸ hmem, hgrants⟩
    · simp only [dealloc, hk, if_neg hne, hcall]
    · exact fun b hb => hkept _ (hrep.grants ▸ hrep.accounted.backing_mem hb)
  | some k =>
    have hlink : readNext (writeNext s.mem p (s.listHeads k)) p = s.listHeads k := by
      refine readNext_writeNext s.mem p fun q hq => ?_
      have hchain := h.chains k
      rw [hq] at hchain
      exact (h.accounted.placed _ (h.accounted.free_mem hchain.head_mem)).link_fits
    have hword : Set.EqOn (writeNext s.mem p (s.listHeads k)) s.mem (backing ⟨p, l⟩).regionᶜ := by
      rw [backing_of_index hk]
      exact (writeNext_eqOn s.mem p _).mono
        (Set.compl_subset_compl.mpr (word_subset_freeBlock k p))
    -- the link is written while the block still counts as live
    have hrep := (h.write hc hb hword).push hk hb hlink
    refine ⟨_, _, dealloc_of_index hk, FixedSizeBlockAllocator.dealloc_of_index hk, hrep, ?_,
      rfl, _, hrep.chains, ?_, ?_⟩
    · exact fun b hb' => hword.mono (h.accounted.live_apart hb hb').subset_compl_left
    · exact ⟨a.listHeads k, Function.update_self .., ptr_not_free h.accounted hk hb k⟩
    · intro j hj
      simp only [Function.update_of_ne hj]
      exact ptr_not_free h.accounted hk hb j

theorem copyNonoverlapping_match (h : Represents heap Sound s a live) (hc : heap.Contract Sound)
    {q n : Nat} {l' : Layout} (hp : ⟨p, l⟩ ∈ live) (hn : n ≤ l.size) (hn' : n ≤ l'.size)
    (hq : ⟨q, l'⟩ ∈ live.erase ⟨p, l⟩) :
    ∃ s', s.copyNonoverlapping p q n = .ok s' ∧ Represents heap Sound s' a live ∧
      Kept s.mem s'.mem (live.erase ⟨q, l'⟩) ∧ ∀ i < n, s'.mem (q + i) = s.mem (p + i) := by
  have hqlive : ⟨q, l'⟩ ∈ live := Multiset.mem_of_mem_erase hq
  have hapart : p + n ≤ q ∨ q + n ≤ p := by
    have hdisj := apart_iff.mp (h.accounted.live_apart hp hq)
    have hl := (granted_fits l).1
    have hl' := (granted_fits l').1
    simp only [backing] at hdisj
    omega
  have hsub : span q n ⊆ (backing ⟨q, l'⟩).region :=
    span_subset (hn'.trans (granted_fits l').1)
  have hmem : Set.EqOn (write s.mem q (read s.mem p n)) s.mem (backing ⟨q, l'⟩).regionᶜ := by
    have hout := write_eqOn s.mem q (read s.mem p n)
    rw [read_length] at hout
    exact hout.mono (Set.compl_subset_compl.mpr hsub)
  refine ⟨_, if_pos hapart, h.write hc hqlive hmem, ?_, ?_⟩
  · exact fun b hb => hmem.mono (h.accounted.live_apart hqlive hb).subset_compl_left
  · exact fun i hi => write_read_apply s.mem p q hi

structure Moved (heap : Fallback H) (s t : Raw H) (old new : Block) : Prop where
  copied : ∀ i < min old.layout.size new.layout.size, t.mem (new.ptr + i) = s.mem (old.ptr + i)
  freed : ∃ fresh, (fresh = 0 ∨ fresh = {backing new}) ∧
    FreedOnce heap (fresh + heap.grants s.fallback) t old

theorem fromSizeAlign_size {n m : Nat} {l' : Layout} (h : Layout.fromSizeAlign n m = .ok l') :
    l'.size = n := (Layout.fromSizeAlign_eq_ok.mp h).1

theorem realloc_match (h : Represents heap Sound s a live) (hc : heap.Contract Sound)
    (hb : ⟨p, l⟩ ∈ live) (n : Nat) :
    ∃ q s' a', s.realloc heap p l n = .ok (q, s') ∧
      a.realloc (answerOf heap s) p l n = .ok (q, a') ∧
      Kept s.mem s'.mem (live.erase ⟨p, l⟩) ∧
      (q = 0 ∧ s' = s ∧ a' = a ∨ ∃ l', Layout.fromSizeAlign n l.align = .ok l' ∧ q ≠ 0 ∧
        Represents heap Sound s' a' (⟨q, l'⟩ ::ₘ live.erase ⟨p, l⟩) ∧
        Moved heap s s' ⟨p, l⟩ ⟨q, l'⟩) := by
  unfold realloc FixedSizeBlockAllocator.realloc
  cases hl : Layout.fromSizeAlign n l.align with
  | error e =>
    exact ⟨0, s, a, rfl, rfl, fun b _ => Set.eqOn_refl _ _, .inl ⟨rfl, rfl, rfl⟩⟩
  | ok l' =>
    obtain ⟨q, s₁, a₁, hs₁, ha₁, hmatch⟩ := alloc_match (l := l') h hc
    simp only [hs₁, ha₁, bind, Except.bind]
    obtain ⟨rfl, rfl, rfl⟩ | ⟨hne, hrep₁⟩ := hmatch.outcome
    · exact ⟨0, s₁, a₁, rfl, rfl, fun b _ => Set.eqOn_refl _ _, .inl ⟨rfl, rfl, rfl⟩⟩
    have hsize : l'.size = n := fromSizeAlign_size hl
    have herase : (⟨q, l'⟩ ::ₘ live).erase ⟨p, l⟩ = ⟨q, l'⟩ ::ₘ live.erase ⟨p, l⟩ :=
      Multiset.erase_cons_tail_of_mem hb
    have hold : ⟨p, l⟩ ∈ (⟨q, l'⟩ : Block) ::ₘ live := Multiset.mem_cons_of_mem hb
    obtain ⟨s₂, hs₂, hrep₂, hkept₂, hcopy⟩ := copyNonoverlapping_match (n := min l.size n)
      hrep₁ hc hold (min_le_left _ _) (by rw [hsize]; exact min_le_right _ _)
      (by rw [herase]; exact Multiset.mem_cons_self _ _)
    obtain ⟨s₃, a₃, hs₃, ha₃, hrep₃, hkept₃, hfreed⟩ := dealloc_match hrep₂ hc hold
    simp only [if_pos hne, hs₂, hs₃, ha₃]
    rw [herase] at hrep₃ hkept₃
    refine ⟨q, s₃, a₃, rfl, rfl, ?_, .inr ⟨l', rfl, hne, hrep₃, ?_, ?_⟩⟩
    · intro b hbl
      have hlive : b ∈ live := Multiset.mem_of_mem_erase hbl
      have h₂ : Set.EqOn s₂.mem s₁.mem (backing b).region :=
        hkept₂ b (by rwa [Multiset.erase_cons_head])
      exact (hkept₃ b (Multiset.mem_cons_of_mem hbl)).trans (h₂.trans (hmatch.kept b hlive))
    · intro i hi
      obtain ⟨hi₁, hi₂⟩ := lt_min_iff.mp hi
      calc s₃.mem (q + i)
          = s₂.mem (q + i) := hkept₃ ⟨q, l'⟩ (Multiset.mem_cons_self _ _) (mem_backing hi₂)
        _ = s₁.mem (p + i) := hcopy i (lt_min hi₁ (hsize ▸ hi₂))
        _ = s.mem (p + i) := hmatch.kept ⟨p, l⟩ hb (mem_backing hi₁)
    · rw [← hrep₂.grants, hrep₁.grants] at hfreed
      cases hmatch.fresh with
      | inl hsame =>
        rw [hsame] at hfreed
        exact ⟨0, .inl rfl, by rwa [zero_add]⟩
      | inr hnew =>
        rw [hnew] at hfreed
        exact ⟨_, .inr rfl, hfreed⟩

end Raw

def Op.others (live : Multiset Block) : Op → Multiset Block
  | .alloc _ => live
  | .dealloc ptr layout => live.erase ⟨ptr, layout⟩
  | .realloc ptr layout _ => live.erase ⟨ptr, layout⟩

namespace RawSystem
variable {s : RawSystem H} {h : H} {m : Mem}

theorem call_match {a : FixedSizeBlockAllocator} (hrep : Represents heap Sound s.raw a s.live)
    (hc : heap.Contract Sound) {op : Op} (hlegal : op.Legal s.live) :
    ∃ p t a', s.raw.call heap op = .ok (p, t) ∧
      System.call (answerOf heap s.raw) a op = .ok (p, a') ∧
      Represents heap Sound t a' (op.track s.live p) ∧
      Kept s.raw.mem t.mem (op.others s.live) := by
  cases op with
  | alloc l =>
    obtain ⟨p, t, a', hs, ha, hmatch⟩ := Raw.alloc_match (l := l) hrep hc
    refine ⟨p, t, a', hs, ha, ?_, hmatch.kept⟩
    obtain ⟨rfl, rfl, rfl⟩ | ⟨hne, hrep'⟩ := hmatch.outcome
    · rwa [System.track_null _ _ (by simp)]
    · simp only [Op.track, if_neg hne]
      exact hrep'
  | dealloc p l =>
    obtain ⟨t, a', hs, ha, hrep', hkept, -⟩ := Raw.dealloc_match hrep hc hlegal
    refine ⟨0, t, a', ?_, ?_, hrep', hkept⟩
    · rw [Raw.call, hs]
      rfl
    · rw [System.call, ha]
      rfl
  | realloc p l n =>
    obtain ⟨q, t, a', hs, ha, hkept, hq⟩ := Raw.realloc_match hrep hc hlegal n
    refine ⟨q, t, a', hs, ha, ?_, hkept⟩
    obtain ⟨rfl, rfl, rfl⟩ | ⟨l', hl, hne, hrep', -⟩ := hq
    · rwa [System.track_null _ _ (by simp)]
    · simp only [Op.track, hl, if_neg hne]
      exact hrep'

theorem fill_match {a : FixedSizeBlockAllocator} (hrep : Represents heap Sound s.raw a s.live)
    (hc : heap.Contract Sound) {b : Block} (hb : b ∈ s.live) (contents : Nat → UInt8) :
    Represents heap Sound (s.fill b contents).raw a s.live := by
  refine hrep.write hc hb ?_
  have hout := write_eqOn s.raw.mem b.ptr ((List.range b.layout.size).map contents)
  rw [List.length_map, List.length_range] at hout
  exact hout.mono (Set.compl_subset_compl.mpr (span_subset (granted_fits b.layout).1))

/-- Refinement. Every run of the byte level, with clients that write into their blocks, is
a run of the allocator with lists, whose state the memory represents. -/
theorem refines (hc : heap.Contract Sound) (hsound : Sound h m) (hempty : heap.grants h = 0)
    (hr : Reachable (Step heap) (new h m) s) :
    ∃ t, Reachable System.Step System.new t ∧ t.live = s.live ∧
      Represents heap Sound s.raw t.allocator t.live := by
  have hstep (u : RawSystem H) (e : Event) (v : RawSystem H)
      (hu : ∃ t, Reachable System.Step System.new t ∧ t.live = u.live ∧
        Represents heap Sound u.raw t.allocator t.live) (hk : Step heap u e v) :
      ∃ t, Reachable System.Step System.new t ∧ t.live = v.live ∧
        Represents heap Sound v.raw t.allocator t.live := by
    obtain ⟨t, ht, hlive, hrep⟩ := hu
    rw [hlive] at hrep
    cases hk with
    | @call op p raw hlegal hcall =>
      obtain ⟨p', raw', a', hs, ha, hrep', -⟩ := call_match hrep hc hlegal
      obtain ⟨rfl, rfl⟩ := Prod.mk.inj (Except.ok.inj (hcall.symm.trans hs))
      have happly : System.apply (answerOf heap u.raw) op t = .ok ⟨a', op.track t.live p⟩ :=
        System.apply_of_call ha
      refine ⟨_, ht.step (e := (op, answerOf heap u.raw)) ⟨?_, hrep.honest hc, happly⟩, ?_, ?_⟩
      · exact hlive ▸ hlegal
      · rw [hlive]
      · rw [hlive]
        exact hrep'
    | @fill b contents hb =>
      refine ⟨t, ht, hlive, ?_⟩
      rw [hlive]
      exact fill_match hrep hc hb contents
  exact hr.invariant hstep
    ⟨System.new, ⟨[], .nil _⟩, rfl, fun k => rfl, hempty.symm, hsound, Accounted.new⟩

end RawSystem
end MoltOS.Allocator
