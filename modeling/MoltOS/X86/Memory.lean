import Mathlib.Algebra.Group.Nat.Defs
import Mathlib.Data.Set.Disjoint
import Mathlib.Data.Set.Function
import Mathlib.Data.Set.Lattice
import Mathlib.Order.CompletePartialOrder

/-! Byte memory of a 64-bit machine: little-endian words, regions of addresses, and
memories that agree on a region. Addresses wrap around. -/
namespace MoltOS.X86

abbrev Word := BitVec 64
abbrev Mem := Word → BitVec 8

def region (a : Word) (n : Nat) : Set Word := {x | (x - a).toNat < n}

def byte (v : Word) (i : Nat) : BitVec 8 := v.extractLsb' (8 * i) 8

def load64 (m : Mem) (a : Word) : Word :=
  m (a + 7#64) ++ m (a + 6#64) ++ m (a + 5#64) ++ m (a + 4#64) ++ m (a + 3#64) ++ m (a + 2#64) ++ m (a + 1#64) ++ m a

def store64 (m : Mem) (a v : Word) : Mem :=
  fun x => if (x - a).toNat < 8 then byte v (x - a).toNat else m x

variable {m m' : Mem} {a b v : Word} {n k : Nat}

theorem mem_region {x : Word} : x ∈ region a n ↔ (x - a).toNat < n := Iff.rfl

instance (x : Word) : Decidable (x ∈ region a n) := decidable_of_iff _ mem_region.symm

theorem region_subset (h : (b - a).toNat + k ≤ n) : region b k ⊆ region a n := by
  intro x hx
  rw [mem_region] at *
  bv_omega

theorem region_disjoint (h : n ≤ (b - a).toNat) (hk : (b - a).toNat + k ≤ 2 ^ 64) :
    Disjoint (region a n) (region b k) := by
  refine Set.disjoint_left.mpr fun x hx hy => ?_
  rw [mem_region] at *
  bv_omega

theorem offset_toNat (a : Word) (hk : k < 2 ^ 64) : (a + BitVec.ofNat 64 k - a).toNat = k := by
  bv_omega

/- A word of a record that starts at `a`. -/
theorem field_subset {d : Nat} (h : d + 8 ≤ n) (hn : n ≤ 2 ^ 64) :
    region (a + BitVec.ofNat 64 d) 8 ⊆ region a n :=
  region_subset (by rw [offset_toNat a (by omega)]; exact h)

theorem field_disjoint {d e : Nat} (h : d + 8 ≤ e ∨ e + 8 ≤ d) (hd : d + 8 ≤ 2 ^ 64)
    (he : e + 8 ≤ 2 ^ 64) :
    Disjoint (region (a + BitVec.ofNat 64 d) 8) (region (a + BitVec.ofNat 64 e) 8) := by
  refine Set.disjoint_left.mpr fun x hx hy => ?_
  rw [mem_region] at *
  bv_omega

/- The word right below `a`, and what starts at `a`. -/
theorem below_disjoint (h : n + 8 ≤ 2 ^ 64) : Disjoint (region (a - 8) 8) (region a n) := by
  refine Set.disjoint_left.mpr fun x hx hy => ?_
  rw [mem_region] at *
  bv_omega

theorem append_bytes (v : Word) : byte v 7 ++ byte v 6 ++ byte v 5 ++ byte v 4 ++ byte v 3 ++
    byte v 2 ++ byte v 1 ++ byte v 0 = v := by
  refine BitVec.eq_of_getLsbD_eq fun i hi => ?_
  simp only [byte, BitVec.getLsbD_append, BitVec.getLsbD_extractLsb']
  grind

theorem store64_byte (m : Mem) (a v : Word) (hk : k < 8) :
    store64 m a v (a + BitVec.ofNat 64 k) = byte v k := by
  have hoff := offset_toNat a (k := k) (by omega)
  simp only [store64, hoff, hk, if_true]

@[simp] theorem load64_store64 (m : Mem) (a v : Word) : load64 (store64 m a v) a = v := by
  have h0 : store64 m a v a = byte v 0 := by
    have h := store64_byte m a v (k := 0) (by decide)
    rwa [BitVec.add_zero] at h
  calc load64 (store64 m a v) a
      = byte v 7 ++ byte v 6 ++ byte v 5 ++ byte v 4 ++ byte v 3 ++ byte v 2 ++ byte v 1 ++
          byte v 0 := by
        rw [load64, h0, store64_byte m a v (k := 7) (by decide),
          store64_byte m a v (k := 6) (by decide), store64_byte m a v (k := 5) (by decide),
          store64_byte m a v (k := 4) (by decide), store64_byte m a v (k := 3) (by decide),
          store64_byte m a v (k := 2) (by decide), store64_byte m a v (k := 1) (by decide)]
    _ = v := append_bytes v

/-- A load depends on the eight bytes it reads, and a store changes no other byte. -/
theorem load64_congr (h : Set.EqOn m m' (region a 8)) : load64 m a = load64 m' a := by
  have hk (k : Nat) (hk : k < 8) : m (a + BitVec.ofNat 64 k) = m' (a + BitVec.ofNat 64 k) := by
    refine h ?_
    rw [mem_region, offset_toNat a (by omega)]
    exact hk
  have h0 := hk 0 (by decide)
  rw [BitVec.add_zero] at h0
  rw [load64, load64, h0, hk 1 (by decide), hk 2 (by decide), hk 3 (by decide),
    hk 4 (by decide), hk 5 (by decide), hk 6 (by decide), hk 7 (by decide)]

theorem store64_eqOn (m : Mem) (a v : Word) : Set.EqOn (store64 m a v) m (region a 8)ᶜ := by
  intro x hx
  exact if_neg hx

theorem store64_eqOn_of_disjoint (m : Mem) (v : Word) {A : Set Word}
    (h : Disjoint (region a 8) A) : Set.EqOn (store64 m a v) m A :=
  (store64_eqOn m a v).mono h.subset_compl_left

theorem load64_store64_of_disjoint (m : Mem) (v : Word)
    (h : Disjoint (region a 8) (region b 8)) : load64 (store64 m a v) b = load64 m b :=
  load64_congr (store64_eqOn_of_disjoint m v h)

def Apart (d e : Nat) : Prop := d + 8 ≤ e ∨ e + 8 ≤ d

instance (d e : Nat) : Decidable (Apart d e) := inferInstanceAs (Decidable (_ ∨ _))

def storeAll (a : Word) (l : List (Nat × Word)) (m : Mem) : Mem :=
  l.foldl (fun m p => store64 m (a + BitVec.ofNat 64 p.1) p.2) m

theorem storeAll_eqOn (l : List (Nat × Word)) (m : Mem) (hn : n ≤ 2 ^ 64)
    (h : ∀ p ∈ l, p.1 + 8 ≤ n) : Set.EqOn (storeAll a l m) m (region a n)ᶜ := by
  induction l generalizing m with
  | nil => exact Set.eqOn_refl m _
  | cons p l ih =>
    have hp := field_subset (a := a) (h p (List.mem_cons_self ..)) hn
    have hrest := ih (store64 m (a + BitVec.ofNat 64 p.1) p.2)
      fun q hq => h q (List.mem_cons_of_mem _ hq)
    exact hrest.trans ((store64_eqOn m _ _).mono (Set.compl_subset_compl.mpr hp))

theorem load64_storeAll_apart (l : List (Nat × Word)) (m : Mem) {d : Nat} (hd : d + 8 ≤ 2 ^ 64)
    (h : ∀ p ∈ l, p.1 + 8 ≤ 2 ^ 64 ∧ Apart p.1 d) :
    load64 (storeAll a l m) (a + BitVec.ofNat 64 d) = load64 m (a + BitVec.ofNat 64 d) := by
  induction l generalizing m with
  | nil => rfl
  | cons p l ih =>
    obtain ⟨hp, happ⟩ := h p (List.mem_cons_self ..)
    calc load64 (storeAll a (p :: l) m) (a + BitVec.ofNat 64 d)
        = load64 (store64 m (a + BitVec.ofNat 64 p.1) p.2) (a + BitVec.ofNat 64 d) :=
          ih _ fun q hq => h q (List.mem_cons_of_mem _ hq)
      _ = load64 m (a + BitVec.ofNat 64 d) :=
          load64_store64_of_disjoint m p.2 (field_disjoint happ hp hd)

theorem load64_storeAll (l : List (Nat × Word)) (m : Mem) (h : ∀ p ∈ l, p.1 + 8 ≤ 2 ^ 64)
    (hl : l.Pairwise fun p q => Apart p.1 q.1) {p : Nat × Word} (hp : p ∈ l) :
    load64 (storeAll a l m) (a + BitVec.ofNat 64 p.1) = p.2 := by
  induction l generalizing m with
  | nil => cases hp
  | cons q l ih =>
    obtain ⟨hq, hl⟩ := List.pairwise_cons.mp hl
    have htail (r : Nat × Word) (hr : r ∈ l) : r.1 + 8 ≤ 2 ^ 64 :=
      h r (List.mem_cons_of_mem _ hr)
    cases List.mem_cons.mp hp with
    | inl he =>
      subst he
      have hself := h p (List.mem_cons_self ..)
      calc load64 (storeAll a (p :: l) m) (a + BitVec.ofNat 64 p.1)
          = load64 (store64 m (a + BitVec.ofNat 64 p.1) p.2) (a + BitVec.ofNat 64 p.1) :=
            load64_storeAll_apart l _ hself fun r hr => ⟨htail r hr, (hq r hr).symm⟩
        _ = p.2 := load64_store64 m _ p.2
    | inr hmem => exact ih _ htail hl hmem

def copyAll (dst src : Word) (l : List (Nat × Nat)) (m : Mem) : Mem :=
  l.foldl (fun m p =>
    store64 m (dst + BitVec.ofNat 64 p.1) (load64 m (src + BitVec.ofNat 64 p.2))) m

theorem copyAll_cons (dst src : Word) (d e : Nat) (l : List (Nat × Nat)) (m : Mem) :
    copyAll dst src ((d, e) :: l) m = copyAll dst src l
      (store64 m (dst + BitVec.ofNat 64 d) (load64 m (src + BitVec.ofNat 64 e))) := rfl

theorem copyAll_eqOn {dst src : Word} (l : List (Nat × Nat)) (m : Mem) (hn : n ≤ 2 ^ 64)
    (h : ∀ p ∈ l, p.1 + 8 ≤ n) : Set.EqOn (copyAll dst src l m) m (region dst n)ᶜ := by
  induction l generalizing m with
  | nil => exact Set.eqOn_refl m _
  | cons p l ih =>
    have hp := field_subset (a := dst) (h p (List.mem_cons_self ..)) hn
    have hrest := ih (store64 m (dst + BitVec.ofNat 64 p.1) (load64 m (src + BitVec.ofNat 64 p.2)))
      fun q hq => h q (List.mem_cons_of_mem _ hq)
    exact hrest.trans ((store64_eqOn m _ _).mono (Set.compl_subset_compl.mpr hp))

theorem load64_copyAll_apart {dst src : Word} (l : List (Nat × Nat)) (m : Mem) {d : Nat}
    (hd : d + 8 ≤ 2 ^ 64) (h : ∀ p ∈ l, p.1 + 8 ≤ 2 ^ 64 ∧ Apart p.1 d) :
    load64 (copyAll dst src l m) (dst + BitVec.ofNat 64 d) =
      load64 m (dst + BitVec.ofNat 64 d) := by
  induction l generalizing m with
  | nil => rfl
  | cons p l ih =>
    obtain ⟨hp, happ⟩ := h p (List.mem_cons_self ..)
    have hrest := ih (store64 m (dst + BitVec.ofNat 64 p.1) (load64 m (src + BitVec.ofNat 64 p.2)))
      fun q hq => h q (List.mem_cons_of_mem _ hq)
    exact hrest.trans (load64_store64_of_disjoint m _ (field_disjoint happ hp hd))

/-- If the two records do not overlap, every copied word is the one that was there first. -/
theorem copyAll_eq_storeAll {dst src : Word} (l : List (Nat × Nat)) (m : Mem) (hn : n ≤ 2 ^ 64)
    (hk : k ≤ 2 ^ 64) (hdisj : Disjoint (region dst n) (region src k))
    (h : ∀ p ∈ l, p.1 + 8 ≤ n ∧ p.2 + 8 ≤ k) :
    copyAll dst src l m =
      storeAll dst (l.map fun p => (p.1, load64 m (src + BitVec.ofNat 64 p.2))) m := by
  induction l generalizing m with
  | nil => rfl
  | cons p l ih =>
    obtain ⟨hp, hp'⟩ := h p (List.mem_cons_self ..)
    have hsame (q : Nat × Nat) (hq : q ∈ l) :
        load64 (store64 m (dst + BitVec.ofNat 64 p.1) (load64 m (src + BitVec.ofNat 64 p.2)))
          (src + BitVec.ofNat 64 q.2) = load64 m (src + BitVec.ofNat 64 q.2) := by
      have hq' := (h q (List.mem_cons_of_mem _ hq)).2
      exact load64_store64_of_disjoint m _
        (hdisj.mono (field_subset hp hn) (field_subset hq' hk))
    have hrest := ih (store64 m (dst + BitVec.ofNat 64 p.1) (load64 m (src + BitVec.ofNat 64 p.2)))
      fun q hq => h q (List.mem_cons_of_mem _ hq)
    refine hrest.trans ?_
    rw [List.map_congr_left fun q hq => by rw [hsame q hq]]
    rfl

end MoltOS.X86
