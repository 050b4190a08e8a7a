import Mathlib.Data.List.Basic
import Mathlib.Logic.Function.Basic

/-! Trees of tables in a store. A table is an address with an entry for every index; an entry
leads to another table or says why it does not, which may depend on its depth. What writing one
entry and linking a blank table do to the walks from the root. -/
namespace MoltOS.NodeTree
variable {ν ι E ε : Type*}

def walk (next : Nat → E → Except ε ν) (m : ν → ι → E) : Nat → ν → List ι → Except ε ν
  | _, n, [] => .ok n
  | d, n, i :: p => match next d (m n i) with
    | .ok c => walk next m (d + 1) c p
    | .error x => .error x

/- No table is reached on two ways of at most `depth` steps. -/
def Tree (next : Nat → E → Except ε ν) (m : ν → ι → E) (root : ν) (depth : Nat) : Prop :=
  ∀ p q n, p.length ≤ depth → q.length ≤ depth → walk next m 0 root p = .ok n →
    walk next m 0 root q = .ok n → p = q

section Walk
variable {next : Nat → E → Except ε ν} {m m' : ν → ι → E} {d : Nat} {n c : ν} {i : ι} {p : List ι}
  {x : ε}

theorem walk_cons_ok (h : next d (m n i) = .ok c) :
    walk next m d n (i :: p) = walk next m (d + 1) c p := by
  simp only [walk, h]

theorem walk_cons_error (h : next d (m n i) = .error x) : walk next m d n (i :: p) = .error x := by
  simp only [walk, h]

theorem walk_append_ok (h : walk next m d n p = .ok c) (q : List ι) :
    walk next m d n (p ++ q) = walk next m (d + p.length) c q := by
  induction p generalizing d n with
  | nil =>
    cases h
    rfl
  | cons i p ih =>
    cases hi : next d (m n i) with
    | error x =>
      rw [walk_cons_error hi] at h
      cases h
    | ok b =>
      rw [walk_cons_ok hi] at h
      rw [List.cons_append, walk_cons_ok hi, ih h, List.length_cons, Nat.add_assoc, Nat.add_comm 1]

theorem walk_append_error (h : walk next m d n p = .error x) (q : List ι) :
    walk next m d n (p ++ q) = .error x := by
  induction p generalizing d n with
  | nil => cases h
  | cons i p ih =>
    cases hi : next d (m n i) with
    | error y =>
      rw [walk_cons_error hi] at h
      rw [List.cons_append, walk_cons_error hi, h]
    | ok b =>
      rw [walk_cons_ok hi] at h
      rw [List.cons_append, walk_cons_ok hi, ih h]

theorem walk_snoc (h : walk next m d n p = .ok c) :
    walk next m d n (p ++ [i]) = next (d + p.length) (m c i) := by
  rw [walk_append_ok h]
  cases hi : next (d + p.length) (m c i) with
  | ok b => rw [walk_cons_ok hi, walk]
  | error x => rw [walk_cons_error hi]

theorem walk_snoc_ok (h : walk next m d n (p ++ [i]) = .ok c) :
    ∃ b, walk next m d n p = .ok b ∧ next (d + p.length) (m b i) = .ok c := by
  cases hp : walk next m d n p with
  | error x =>
    rw [walk_append_error hp] at h
    cases h
  | ok b =>
    rw [walk_snoc hp] at h
    exact ⟨b, rfl, h⟩

/-- A walk fails at one entry. -/
theorem walk_eq_error : walk next m d n p = .error x ↔ ∃ q i r c, p = q ++ i :: r ∧
    walk next m d n q = .ok c ∧ next (d + q.length) (m c i) = .error x := by
  constructor
  · intro h
    induction p generalizing d n with
    | nil => cases h
    | cons i p ih =>
      cases hi : next d (m n i) with
      | error y =>
        rw [walk_cons_error hi] at h
        cases h
        exact ⟨[], i, p, n, rfl, rfl, hi⟩
      | ok b =>
        rw [walk_cons_ok hi] at h
        obtain ⟨q, j, r, c, rfl, hq, hj⟩ := ih h
        refine ⟨i :: q, j, r, c, rfl, by rw [walk_cons_ok hi, hq], ?_⟩
        rw [List.length_cons, Nat.add_comm q.length, ← Nat.add_assoc, hj]
  · rintro ⟨q, i, r, c, rfl, hq, hi⟩
    rw [walk_append_ok hq, walk_cons_error hi]

/-- Two stores whose entries lead to the same along a walk. -/
theorem walk_agree (h : ∀ q i r c, p = q ++ i :: r → walk next m d n q = .ok c →
    next (d + q.length) (m' c i) = next (d + q.length) (m c i)) :
    walk next m' d n p = walk next m d n p := by
  induction p generalizing d n with
  | nil => rfl
  | cons i p ih =>
    have hfirst : next d (m' n i) = next d (m n i) := h [] i p n rfl rfl
    cases hi : next d (m n i) with
    | error x => rw [walk_cons_error hi, walk_cons_error (hfirst.trans hi)]
    | ok b =>
      rw [walk_cons_ok hi, walk_cons_ok (hfirst.trans hi)]
      refine ih fun q j r c hp hq => ?_
      have hwalk : walk next m d n (i :: q) = .ok c := by rw [walk_cons_ok hi, hq]
      have hlater := h (i :: q) j r c (by rw [hp, List.cons_append]) hwalk
      rwa [List.length_cons, Nat.add_comm q.length, ← Nat.add_assoc] at hlater

/-- Two readings of the entries that find the same tables find the same walks. -/
theorem walk_ok_of_reading {ε' : Type*} {next' : Nat → E → Except ε' ν} (depth : Nat)
    (h : ∀ d e c, d < depth → next d e = .ok c → next' d e = .ok c)
    (hlen : d + p.length ≤ depth) (hwalk : walk next m d n p = .ok c) :
    walk next' m d n p = .ok c := by
  induction p generalizing d n with
  | nil =>
    cases hwalk
    rfl
  | cons i p ih =>
    rw [List.length_cons] at hlen
    cases hi : next d (m n i) with
    | error x =>
      rw [walk_cons_error hi] at hwalk
      cases hwalk
    | ok b =>
      rw [walk_cons_ok hi] at hwalk
      rw [walk_cons_ok (h d _ b (by omega) hi)]
      exact ih (by omega) hwalk

theorem walk_error_of_reading {ε' : Type*} {next' : Nat → E → Except ε' ν} {x' : ε'}
    (hok : ∀ d e c, next d e = .ok c → next' d e = .ok c)
    (herror : ∀ d e, next d e = .error x → next' d e = .error x')
    (hwalk : walk next m d n p = .error x) : walk next' m d n p = .error x' := by
  induction p generalizing d n with
  | nil => cases hwalk
  | cons i p ih =>
    cases hi : next d (m n i) with
    | error y =>
      rw [walk_cons_error hi] at hwalk
      cases hwalk
      exact walk_cons_error (herror d _ hi)
    | ok b =>
      rw [walk_cons_ok hi] at hwalk
      rw [walk_cons_ok (hok d _ b hi)]
      exact ih hwalk

end Walk

theorem not_snoc_le (q : List ι) (i : ι) : ¬ (q ++ [i]) <+: q := by
  intro h
  have hle := h.length_le
  rw [List.length_append, List.length_singleton] at hle
  omega

section Write
variable [DecidableEq ν] [DecidableEq ι]

def set (m : ν → ι → E) (n : ν) (i : ι) (e : E) : ν → ι → E :=
  Function.update m n (Function.update (m n) i e)

def clear (m : ν → ι → E) (n : ν) (blank : E) : ν → ι → E := Function.update m n fun _ => blank

@[simp] theorem set_same (m : ν → ι → E) (n : ν) (i : ι) (e : E) : set m n i e n i = e := by
  simp [set]

theorem set_other (m : ν → ι → E) {n c : ν} {i j : ι} (e : E) (h : c = n → j ≠ i) :
    set m n i e c j = m c j := by
  by_cases hc : c = n
  · subst hc
    simp [set, h rfl]
  · simp [set, hc]

variable {next : Nat → E → Except ε ν} {m : ν → ι → E} {root n c : ν} {i : ι} {e blank : E}
  {p q : List ι} {depth : Nat} {absent : ε}

def link (m : ν → ι → E) (n : ν) (i : ι) (e : E) (c : ν) (blank : E) : ν → ι → E :=
  clear (set m n i e) c blank

theorem link_other {b : ν} {j : ι} (hb : b ≠ c) (hj : b = n → j ≠ i) :
    link m n i e c blank b j = m b j := by
  rw [link, clear, Function.update_of_ne hb, set_other m e hj]

structure Links (next : Nat → E → Except ε ν) (m : ν → ι → E) (root : ν) (depth : Nat)
    (q : List ι) (n : ν) (i : ι) (e : E) (c : ν) (blank : E) (absent : ε) : Prop where
  tree : Tree next m root depth
  parent : walk next m 0 root q = .ok n
  short : q.length < depth
  unlinked : next q.length (m n i) = .error absent
  linked : next q.length e = .ok c
  blank : ∀ d, next d blank = .error absent
  fresh : ∀ p, p.length ≤ depth → walk next m 0 root p ≠ .ok c

namespace Links
variable (h : Links next m root depth q n i e c blank absent)
include h

omit [DecidableEq ν] [DecidableEq ι] in
theorem ne_parent : n ≠ c := by
  rintro rfl
  exact h.fresh q (Nat.le_of_lt h.short) h.parent

theorem walk_avoiding (hp : p.length ≤ depth + 1) (hne : ¬ (q ++ [i]) <+: p) :
    walk next (link m n i e c blank) 0 root p = walk next m 0 root p := by
  refine walk_agree fun q' j r b he hb => ?_
  have hlen : q'.length ≤ depth := by
    rw [he, List.length_append, List.length_cons] at hp
    omega
  have hfresh : b ≠ c := by
    rintro rfl
    exact h.fresh q' hlen hb
  rw [link_other hfresh ?_]
  rintro rfl rfl
  obtain rfl : q' = q := h.tree q' q _ hlen (Nat.le_of_lt h.short) hb h.parent
  exact hne ⟨r, by rw [he, List.append_assoc]; rfl⟩

theorem walk_parent : walk next (link m n i e c blank) 0 root q = .ok n := by
  rw [h.walk_avoiding (Nat.le_succ_of_le (Nat.le_of_lt h.short)) (not_snoc_le q i), h.parent]

theorem walk_new : walk next (link m n i e c blank) 0 root (q ++ [i]) = .ok c := by
  rw [walk_snoc h.walk_parent, link, clear, Function.update_of_ne h.ne_parent, set_same,
    Nat.zero_add, h.linked]

/-- The way to the new table is the only one that changes: beyond it nothing was found, and
nothing is. -/
theorem walk_eq (hp : p.length ≤ depth + 1) (hne : p ≠ q ++ [i]) :
    walk next (link m n i e c blank) 0 root p = walk next m 0 root p := by
  by_cases hpre : (q ++ [i]) <+: p
  · obtain ⟨r, rfl⟩ := hpre
    cases r with
    | nil => exact absurd (List.append_nil _) hne
    | cons j r =>
      have hold : walk next m 0 root (q ++ [i]) = .error absent := by
        rw [walk_snoc h.parent, Nat.zero_add, h.unlinked]
      have hblank : link m n i e c blank c j = blank := by simp [link, clear]
      rw [walk_append_error hold, walk_append_ok h.walk_new,
        walk_cons_error (by rw [hblank]; exact h.blank _)]
  · exact h.walk_avoiding hp hpre

/-- The tables of the new tree are the old ones and the new one. -/
theorem walk_ok (hp : p.length ≤ depth) {b : ν}
    (hwalk : walk next (link m n i e c blank) 0 root p = .ok b) :
    (p = q ++ [i] ∧ b = c) ∨ (p ≠ q ++ [i] ∧ walk next m 0 root p = .ok b) := by
  by_cases he : p = q ++ [i]
  · subst he
    rw [h.walk_new] at hwalk
    exact .inl ⟨rfl, (Except.ok.inj hwalk).symm⟩
  · rw [h.walk_eq (Nat.le_succ_of_le hp) he] at hwalk
    exact .inr ⟨he, hwalk⟩

theorem tree_link : Tree next (link m n i e c blank) root depth := by
  intro p p' b hp hp' hb hb'
  obtain ⟨he, rfl⟩ | ⟨_, hold⟩ := h.walk_ok hp hb
  · obtain ⟨he', -⟩ | ⟨_, hold'⟩ := h.walk_ok hp' hb'
    · rw [he, he']
    · exact absurd hold' (h.fresh p' hp')
  · obtain ⟨_, rfl⟩ | ⟨_, hold'⟩ := h.walk_ok hp' hb'
    · exact absurd hold (h.fresh p hp)
    · exact h.tree p p' b hp hp' hold hold'

end Links

end Write

end MoltOS.NodeTree
