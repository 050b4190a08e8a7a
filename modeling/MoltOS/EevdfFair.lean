import Mathlib.Algebra.Order.BigOperators.Group.List
import Mathlib.Tactic.Ring
import MoltOS.EevdfSelect

/-! Bounded unfairness for a fixed set of threads that never block: the vruntimes
stay within the total weight plus one charge of each other. No assumption is made
on the order or the spacing of the ticks beyond the bound on a charged slice. -/
namespace MoltOS.Eevdf
open MoltOS.Rust MoltOS.Transition

namespace EevdfScheduler

def spawnAll (ts : List (Thread × Nat)) : EevdfScheduler :=
  ts.foldl (fun s x => s.spawnWithWeight x.1 x.2) EevdfScheduler.new

def TickWithin (T : Nat) (s : EevdfScheduler) (e : Op × Option Switch) : Prop :=
  ∃ t, e.1 = .tickPrepare t ∧ (s.current ≠ none → s.timeSlice t ≤ T)

/-- The two-part invariant: every vruntime is within `W + 1024*T` of the minimum,
and the thread selected last is within `W` of it. -/
structure Balanced (W T : Nat) (s : EevdfScheduler) : Prop where
  fits : s.Fits
  runnable : ∀ m ∈ s.metadata, m.blocked = false
  total : totalWeight s.metadata = W
  weights : ∀ m ∈ s.metadata, 1 ≤ m.weight
  lengths : s.threads.length = s.metadata.length
  low : ∀ m ∈ s.metadata, s.minVruntime ≤ m.vruntime
  high : ∀ m ∈ s.metadata, m.vruntime ≤ s.minVruntime + W + 1024 * T
  selected : ∀ i m, s.current = some i → s.metadata[i]? = some m → m.vruntime ≤ s.minVruntime + W

theorem weight_le_total {ms : List ThreadMeta} {m : ThreadMeta} (hm : m ∈ ms)
    (hb : m.blocked = false) : m.weight ≤ totalWeight ms := by
  apply List.le_sum_of_mem
  exact List.mem_map_of_mem (List.mem_filter.mpr ⟨hm, by simp [hb]⟩)

theorem charge_le {m : ThreadMeta} {ts W T : Nat} (hw : m.weight ≤ W) (ht : ts ≤ T) :
    (m.charge ts W).vruntime ≤ m.vruntime + 1024 * T := by
  have hmul : ts * m.weight * 1024 ≤ W * (1024 * T) := by
    calc ts * m.weight * 1024 ≤ T * W * 1024 :=
          Nat.mul_le_mul_right 1024 (Nat.mul_le_mul ht hw)
      _ = W * (1024 * T) := by ring
  have hdiv := Nat.div_le_of_le_mul hmul
  unfold ThreadMeta.charge
  simp only
  omega

/-- Each entry after the charge comes from one before it, moved up by at most one
charge, and only if it is the current thread's. -/
theorem chargedMeta_getElem? {s : EevdfScheduler} {ts i : Nat} {m : ThreadMeta}
    (h : (s.chargedMeta ts)[i]? = some m) :
    ∃ m₀, s.metadata[i]? = some m₀ ∧
      (m = m₀ ∨ s.current = some i ∧ m = m₀.charge ts (totalWeight s.metadata)) := by
  unfold chargedMeta at h
  cases hc : s.current with
  | none =>
    simp only [hc] at h
    exact ⟨m, h, Or.inl rfl⟩
  | some j =>
    simp only [hc] at h
    by_cases ht : totalWeight s.metadata = 0
    · rw [if_pos ht] at h
      exact ⟨m, h, Or.inl rfl⟩
    · rw [if_neg ht] at h
      by_cases hj : j = i
      · subst hj
        rw [List.getElem?_modify_eq] at h
        obtain ⟨m₀, hm₀, rfl⟩ := Option.map_eq_some_iff.mp h
        exact ⟨m₀, hm₀, Or.inr ⟨rfl, rfl⟩⟩
      · rw [List.getElem?_modify_ne _ _ hj] at h
        exact ⟨m, h, Or.inl rfl⟩

theorem le_charge (m : ThreadMeta) (ts W : Nat) : m.vruntime ≤ (m.charge ts W).vruntime :=
  Nat.le_add_right _ _

variable {s s' : EevdfScheduler} {W T : Nat}

theorem Balanced.charged (hb : Balanced W T s) {ts i : Nat} {m : ThreadMeta}
    (ht : s.current ≠ none → ts ≤ T) (h : (s.chargedMeta ts)[i]? = some m) :
    s.minVruntime ≤ m.vruntime ∧ m.vruntime ≤ s.minVruntime + W + 1024 * T := by
  obtain ⟨m₀, hm₀, hm⟩ := chargedMeta_getElem? h
  have hmem := List.mem_of_getElem? hm₀
  have hlow := hb.low m₀ hmem
  cases hm with
  | inl hm =>
    subst hm
    exact ⟨hlow, hb.high m hmem⟩
  | inr hm =>
    obtain ⟨hcur, rfl⟩ := hm
    have hw := weight_le_total hmem (hb.runnable m₀ hmem)
    have hle := charge_le hw (ht (by simp [hcur]))
    have hge := le_charge m₀ ts (totalWeight s.metadata)
    have hsel := hb.selected i m₀ hcur hm₀
    omega

theorem mem_of_shape {ms ms' : List ThreadMeta} (h : shape ms' = shape ms) {m : ThreadMeta}
    (hm : m ∈ ms') : ∃ m₀ ∈ ms, m₀.weight = m.weight ∧ m₀.blocked = m.blocked := by
  have hmem : (m.weight, m.blocked) ∈ shape ms := h ▸ List.mem_map_of_mem hm
  obtain ⟨m₀, hm₀, he⟩ := List.mem_map.mp hmem
  simp only [Prod.mk.injEq] at he
  exact ⟨m₀, hm₀, he⟩

/-- One tick keeps the invariant and does not lower the minimum. -/
theorem Balanced.step (hb : Balanced W T s) {e : Op × Option Switch}
    (h : Restrict (Step .dev) (TickWithin T) s e s') :
    Balanced W T s' ∧ s.minVruntime ≤ s'.minVruntime := by
  obtain ⟨hs, t, he, ht⟩ := h
  obtain ⟨op, r⟩ := e
  subst he
  have hshape := tickPrepare_shape hs
  have hfits := fits_step hb.fits hs
  by_cases hne : s.threads = []
  · obtain ⟨_, rfl, _⟩ | ⟨hne', _⟩ := tickPrepare_cases hs
    · exact ⟨hb, le_rfl⟩
    · exact absurd hne hne'
  · have hpos : 0 < s.metadata.length := by
      rw [← hb.lengths]
      exact List.length_pos_iff.mpr hne
    have hrun : RunnableAt s.metadata 0 :=
      ⟨s.metadata[0], by simp [hpos], hb.runnable _ (List.getElem_mem hpos)⟩
    have hsel := tickPrepare_selected hb.fits hrun hne hs
    obtain ⟨i, hcur, _, m, ⟨hi, _, hmle⟩, _⟩ := hsel.picked
    have htot : totalWeight s'.metadata = W := (totalWeight_of_shape hshape.2.1).trans hb.total
    have hrunnable : ∀ m ∈ s'.metadata, m.blocked = false := by
      intro m hm
      obtain ⟨m₀, hm₀, _, hbl⟩ := mem_of_shape hshape.2.1 hm
      rw [← hbl]
      exact hb.runnable m₀ hm₀
    have hweights : ∀ m ∈ s'.metadata, 1 ≤ m.weight := by
      intro m hm
      obtain ⟨m₀, hm₀, hw, _⟩ := mem_of_shape hshape.2.1 hm
      rw [← hw]
      exact hb.weights m₀ hm₀
    have hbound (m : ThreadMeta) (hm : m ∈ s'.metadata) :
        s.minVruntime ≤ m.vruntime ∧ m.vruntime ≤ s.minVruntime + W + 1024 * T := by
      rw [hsel.charged] at hm
      obtain ⟨j, hj⟩ := List.mem_iff_getElem?.mp hm
      exact hb.charged ht hj
    have hmono : s.minVruntime ≤ s'.minVruntime := by
      obtain ⟨x, hx, _, hv⟩ := hsel.isMin.1
      exact hv ▸ (hbound x hx).1
    have hW : 1 ≤ W := by
      have hmem := List.mem_of_getElem? hi
      have hw := weight_le_total hmem (hrunnable m hmem)
      have hone := hweights m hmem
      omega
    refine ⟨⟨hfits, hrunnable, htot, hweights, ?_, ?_, ?_, ?_⟩, hmono⟩
    · rw [hshape.1, hb.lengths, shape_length hshape.2.1]
    · intro x hx
      exact hsel.isMin.2 ⟨x, hx, hrunnable x hx, rfl⟩
    · intro x hx
      have hx' := (hbound x hx).2
      omega
    · intro j x hj hx
      rw [hcur, Option.some.injEq] at hj
      subst hj
      rw [hi, Option.some.injEq] at hx
      subst hx
      rw [htot] at hmle
      omega

theorem spawnAll_snoc (ts : List (Thread × Nat)) (x : Thread × Nat) :
    spawnAll (ts ++ [x]) = (spawnAll ts).spawnWithWeight x.1 x.2 := by
  simp [spawnAll]

/-- Spawning leaves every thread at vruntime zero, with its own weight. -/
theorem spawnAll_state (ts : List (Thread × Nat)) (hw : ∀ x ∈ ts, 1 ≤ x.2) :
    spawnAll ts = ⟨ts.map (·.1), ts.map fun x => ⟨0, x.2, false⟩, none, 0, 0⟩ := by
  induction ts using List.reverseRecOn with
  | nil => rfl
  | append_singleton ts x ih =>
    have hx : max x.2 1 = x.2 := max_eq_left (hw x (by simp))
    rw [spawnAll_snoc, ih fun y hy => hw y (by simp [hy])]
    simp [spawnWithWeight, ThreadMeta.new, hx]

theorem balanced_spawnAll (ts : List (Thread × Nat)) (hw : ∀ x ∈ ts, 1 ≤ x.2) :
    Balanced (ts.map (·.2)).sum T (spawnAll ts) := by
  rw [spawnAll_state ts hw]
  have hrun : runnable (ts.map fun x => (⟨0, x.2, false⟩ : ThreadMeta)) =
      ts.map fun x => ⟨0, x.2, false⟩ := by
    apply List.filter_eq_self.mpr
    intro m hm
    obtain ⟨x, _, rfl⟩ := List.mem_map.mp hm
    rfl
  refine ⟨?_, ?_, ?_, ?_, by simp, ?_, ?_, by simp⟩
  · intro m hm
    obtain ⟨x, _, rfl⟩ := List.mem_map.mp hm
    exact Nat.zero_le _
  · intro m hm
    obtain ⟨x, _, rfl⟩ := List.mem_map.mp hm
    rfl
  · simp only [totalWeight, hrun, List.map_map]
    rfl
  · intro m hm
    obtain ⟨x, hx, rfl⟩ := List.mem_map.mp hm
    exact hw x hx
  · intro m _
    exact Nat.zero_le _
  · intro m hm
    obtain ⟨x, _, rfl⟩ := List.mem_map.mp hm
    exact Nat.zero_le _

/-- Bounded unfairness. In every run of ticks over a fixed set of threads, each
charge for at most `T` ticks and none overflowing, any two vruntimes differ by at
most `W + 1024*T`, and no further tick lowers `min_vruntime`. -/
theorem run_vruntime_spread (ts : List (Thread × Nat)) (hw : ∀ x ∈ ts, 1 ≤ x.2) (T : Nat)
    (es : List (Op × Option Switch)) (s : EevdfScheduler)
    (h : Run (Restrict (Step .dev) (TickWithin T)) (spawnAll ts) es s) :
    (∀ m ∈ s.metadata, ∀ m' ∈ s.metadata,
      m.vruntime ≤ m'.vruntime + ((ts.map (·.2)).sum + 1024 * T)) ∧
    ∀ e s', Restrict (Step .dev) (TickWithin T) s e s' → s.minVruntime ≤ s'.minVruntime := by
  have hb : Balanced (ts.map (·.2)).sum T s :=
    h.invariant (fun _ _ _ hb hs => (hb.step hs).1) (balanced_spawnAll ts hw)
  refine ⟨?_, fun e s' hs => (hb.step hs).2⟩
  intro m hm m' hm'
  have hhigh := hb.high m hm
  have hlow := hb.low m' hm'
  omega

theorem twoThreads_spread : ∃ s, s.metadata = [⟨682, 2, false⟩, ⟨0, 1, false⟩] ∧
    Run (Restrict (Step .dev) (TickWithin 1)) (spawnAll [(⟨7⟩, 2), (⟨8⟩, 1)])
      [(.tickPrepare 1, some (.bootstrap, .thread 0)), (.tickPrepare 2, some (.thread 0, .thread 1))]
      s ∧ 682 ≤ 0 + (3 + 1024 * 1) := by
  have h : Run (Restrict (Step .dev) (TickWithin 1)) (spawnAll [(⟨7⟩, 2), (⟨8⟩, 1)])
      [(.tickPrepare 1, some (.bootstrap, .thread 0)), (.tickPrepare 2, some (.thread 0, .thread 1))]
      ⟨[⟨7⟩, ⟨8⟩], [⟨682, 2, false⟩, ⟨0, 1, false⟩], some 1, 0, 2⟩ := by
    refine Run.cons (t := twoThreads) ⟨by decide, 1, rfl, by decide⟩ ?_
    exact Run.cons ⟨by decide +kernel, 2, rfl, by decide⟩ (Run.nil _)
  have hspread := (run_vruntime_spread _ (by simp) 1 _ _ h).1
  exact ⟨_, rfl, h, hspread ⟨682, 2, false⟩ (by simp) ⟨0, 1, false⟩ (by simp)⟩

end EevdfScheduler
end MoltOS.Eevdf
