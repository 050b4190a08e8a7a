import Mathlib.Data.Multiset.AddSub
import Mathlib.Data.Multiset.ZeroCons
import Mathlib.Data.Set.Function
import Mathlib.Order.CompletePartialOrder
import Mathlib.Order.Interval.Set.Disjoint
import MoltOS.Bytes

/-! A flat byte memory: spans of addresses, stored byte strings and words, and bags whose
members are related two by two. -/
namespace MoltOS.RawMemory
open MoltOS.Rust

abbrev Mem := Nat → UInt8

def span (a n : Nat) : Set Nat := Set.Ico a (a + n)

def read (m : Mem) (a n : Nat) : List UInt8 := (List.range n).map fun i => m (a + i)

def write (m : Mem) (a : Nat) (l : List UInt8) : Mem :=
  fun x => if a ≤ x then (l[x - a]?).getD (m x) else m x

def readWord (m : Mem) (a : Nat) : Nat := fromLeBytes (read m a 8)

def writeWord (m : Mem) (a n : Nat) : Mem := write m a (toLeBytes 8 n)

section
variable {m m' : Mem} {a b n k i : Nat} {l : List UInt8}

theorem span_subset (h : k ≤ n) : span a k ⊆ span a n :=
  Set.Ico_subset_Ico_right (by omega)

theorem write_eqOn (m : Mem) (a : Nat) (l : List UInt8) :
    Set.EqOn (write m a l) m (span a l.length)ᶜ := by
  intro x hx
  unfold write
  split
  next hle =>
    have hout : l.length ≤ x - a := by
      by_contra hlt
      exact hx ⟨hle, by omega⟩
    rw [List.getElem?_eq_none hout, Option.getD_none]
  · rfl

theorem write_apply (m : Mem) (a : Nat) (h : i < l.length) :
    write m a l (a + i) = l[i] := by
  unfold write
  rw [if_pos (Nat.le_add_right a i), Nat.add_sub_cancel_left, List.getElem?_eq_getElem h,
    Option.getD_some]

@[simp] theorem read_length (m : Mem) (a n : Nat) : (read m a n).length = n := by simp [read]

theorem read_congr (h : Set.EqOn m m' (span a n)) : read m a n = read m' a n := by
  refine List.map_congr_left fun i hi => h ⟨Nat.le_add_right a i, ?_⟩
  exact Nat.add_lt_add_left (List.mem_range.mp hi) a

theorem read_write (m : Mem) (a : Nat) (l : List UInt8) : read (write m a l) a l.length = l := by
  refine List.ext_getElem (read_length _ _ _) fun i h _ => ?_
  rw [read_length] at h
  simp only [read, List.getElem_map, List.getElem_range]
  exact write_apply m a h

theorem read_add (m : Mem) (a n k : Nat) : read m a (n + k) = read m a n ++ read m (a + n) k := by
  simp only [read, List.range_add, List.map_append, List.map_map]
  refine congrArg _ (List.map_congr_left fun i _ => ?_)
  exact congrArg m (Nat.add_assoc a n i).symm

theorem take_read (m : Mem) (a : Nat) (h : k ≤ n) : (read m a n).take k = read m a k := by
  obtain ⟨d, rfl⟩ := Nat.exists_eq_add_of_le h
  rw [read_add, List.take_left' (read_length m a k)]

theorem drop_read (m : Mem) (a : Nat) (h : k ≤ n) :
    (read m a n).drop k = read m (a + k) (n - k) := by
  obtain ⟨d, rfl⟩ := Nat.exists_eq_add_of_le h
  rw [read_add, List.drop_left' (read_length m a k), Nat.add_sub_cancel_left]

theorem span_disjoint (h : a + n ≤ b ∨ b + k ≤ a) : span a n ⊆ (span b k)ᶜ := by
  intro x hx hin
  have hlow := hx.1
  have hhigh := hx.2
  have hlow' := hin.1
  have hhigh' := hin.2
  omega

/-- Reading a span of which a part has been written. -/
theorem read_write_within (m : Mem) (a : Nat) (h : k + l.length ≤ n) :
    read (write m (a + k) l) a n = (read m a n).take k ++ (l ++ (read m a n).drop (k + l.length)) := by
  obtain ⟨d, rfl⟩ := Nat.exists_eq_add_of_le h
  have hbefore : Set.EqOn (write m (a + k) l) m (span a k) :=
    (write_eqOn m (a + k) l).mono (span_disjoint (.inl (Nat.le_refl _)))
  have hafter : Set.EqOn (write m (a + k) l) m (span (a + (k + l.length)) d) :=
    (write_eqOn m (a + k) l).mono (span_disjoint (.inr (by omega)))
  rw [take_read m a (by omega), drop_read m a (by omega), Nat.add_sub_cancel_left, read_add, read_add,
    read_congr hbefore, read_write, read_congr hafter, List.append_assoc]

theorem readWord_writeWord (m : Mem) (a : Nat) (h : n < 2 ^ 64) :
    readWord (writeWord m a n) a = n := by
  have hread := read_write m a (toLeBytes 8 n)
  rw [toLeBytes_length] at hread
  rw [readWord, writeWord, hread]
  exact fromLeBytes_toLeBytes 8 n h

theorem writeWord_eqOn (m : Mem) (a n : Nat) : Set.EqOn (writeWord m a n) m (span a 8)ᶜ := by
  have h := write_eqOn m a (toLeBytes 8 n)
  rwa [toLeBytes_length] at h

theorem readWord_congr (h : Set.EqOn m m' (span a 8)) : readWord m a = readWord m' a := by
  rw [readWord, readWord, read_congr h]

/-- A copy into another span. -/
theorem write_read_apply (m : Mem) (a b : Nat) (h : i < n) :
    write m b (read m a n) (b + i) = m (a + i) := by
  rw [write_apply m b (by rwa [read_length])]
  simp [read]

end

section
variable {α : Type*} {r : α → α → Prop} [Std.Symm r] {a b : α} {s t : Multiset α}

theorem pairwise_cons :
    (a ::ₘ s).Pairwise r ↔ (∀ b ∈ s, r a b) ∧ s.Pairwise r := by
  induction s using Quotient.inductionOn with
  | h l =>
    rw [Multiset.quot_mk_to_coe, Multiset.cons_coe, Multiset.pairwise_coe_iff_pairwise,
      Multiset.pairwise_coe_iff_pairwise, List.pairwise_cons]
    rfl

theorem pairwise_one (a : α) : (a ::ₘ 0).Pairwise r :=
  pairwise_cons.mpr ⟨fun b hb => absurd hb (Multiset.notMem_zero b), Multiset.pairwise_zero _⟩

theorem pairwise_add : (s + t).Pairwise r ↔
    s.Pairwise r ∧ t.Pairwise r ∧ ∀ a ∈ s, ∀ b ∈ t, r a b := by
  induction s using Multiset.induction with
  | empty => simp [Multiset.pairwise_zero]
  | cons a s ih =>
    rw [Multiset.cons_add, pairwise_cons, pairwise_cons, ih]
    simp only [Multiset.mem_add, Multiset.mem_cons]
    grind

end
end MoltOS.RawMemory
