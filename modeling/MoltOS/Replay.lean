import Mathlib.Algebra.BigOperators.Group.Finset.Basic
import MoltOS.Kernel

/-! Replaying the tenures of a mutex on its initial data, in acquisition order. -/
namespace MoltOS.Kernel
variable {α : Type}

def applyAll (us : List (α → α)) (d : α) : α := us.foldl (fun d f => f d) d

def replay (d : α) (ts : List (Tenure α)) : α := ts.foldl (fun d t => applyAll t.updates d) d

theorem replay_snoc (d : α) (ts : List (Tenure α)) (t : Tenure α) :
    replay d (ts ++ [t]) = applyAll t.updates (replay d ts) := by
  simp [replay]

theorem applyAll_snoc (us : List (α → α)) (f : α → α) (d : α) :
    applyAll (us ++ [f]) d = f (applyAll us d) := by
  simp [applyAll]

/-- Tenures that all make the same single update. -/
theorem replay_uniform {f : α → α} (d : α) (ts : List (Tenure α))
    (h : ∀ t ∈ ts, t.updates = [f]) : replay d ts = f^[ts.length] d := by
  induction ts using List.reverseRecOn with
  | nil => rfl
  | append_singleton ts t ih =>
    have ht := h t (by simp)
    have hts := ih fun u hu => h u (by simp [hu])
    rw [replay_snoc, ht, hts, List.length_append, List.length_singleton,
      Function.iterate_succ_apply']
    rfl

/-- `k` owners with `n` tenures each make `k * n` tenures. -/
theorem length_of_owners {ts : List (Tenure α)} {owners : Finset Flow} {n : Nat}
    (hmem : ∀ t ∈ ts, t.owner ∈ owners)
    (hn : ∀ f ∈ owners, (ts.map (·.owner)).count f = n) : ts.length = owners.card * n := by
  have hsum := Multiset.sum_count_eq_card (s := owners) (m := (ts.map (·.owner) : List Flow))
    (by simpa using hmem)
  simp only [Multiset.coe_count, Multiset.coe_card, List.length_map] at hsum
  rw [← hsum]
  exact Finset.sum_const_nat hn

end MoltOS.Kernel
