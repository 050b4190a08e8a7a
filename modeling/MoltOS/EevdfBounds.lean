import MoltOS.EevdfSelect

/-! Sufficient bounds for a tick to go through without a checked overflow. -/
namespace MoltOS.Eevdf
open MoltOS.Rust MoltOS.Transition

theorem virtualDeadline_ok {m : ThreadMeta} {ts w : Nat} (hmul : ts * w * 1024 ≤ u64Max)
    (h : m.deadline ts w ≤ u64Max) : m.virtualDeadline .dev ts w = .ok (m.deadline ts w) := by
  unfold ThreadMeta.deadline at h
  unfold ThreadMeta.virtualDeadline ThreadMeta.deadline
  by_cases hw : m.weight = 0
  · rw [if_pos hw, if_pos hw]
  · rw [if_neg hw] at h
    simp only [if_neg hw, bind_eq_ok, mul, add, fit_dev]
    exact ⟨_, ⟨rfl, by omega⟩, _, ⟨rfl, hmul⟩, rfl, h⟩

theorem virtualDeadline_fits {m : ThreadMeta} {ts w d : Nat}
    (h : m.virtualDeadline .dev ts w = .ok d) (hw : m.weight ≠ 0) : ts * w * 1024 ≤ u64Max := by
  unfold ThreadMeta.virtualDeadline at h
  simp only [if_neg hw, bind_eq_ok, mul, add, fit_dev] at h
  obtain ⟨x, ⟨rfl, _⟩, y, ⟨rfl, hy⟩, _⟩ := h
  exact hy

namespace EevdfScheduler
variable {s s' : EevdfScheduler} {ts t : Nat}

/-- A charge whose products and sum are representable goes through. -/
theorem charge_ok (hv : s.Valid) (htot : totalWeight s.metadata ≤ u64Max)
    (hch : ∀ i m, s.current = some i → s.metadata[i]? = some m →
      ts * m.weight * 1024 ≤ u64Max ∧ (m.charge ts (totalWeight s.metadata)).vruntime ≤ u64Max) :
    ∃ c, s.charge .dev ts = .ok c := by
  unfold charge
  cases hc : s.current with
  | none => exact ⟨s, rfl⟩
  | some prev =>
    have hsum : sumWeights .dev s.metadata = .ok (totalWeight s.metadata) :=
      sum_dev.mpr ⟨rfl, htot⟩
    obtain ⟨m, hm⟩ := hv.index_metadata hc
    obtain ⟨hmul, hadd⟩ := hch prev m hc (index_eq_ok.mp hm)
    by_cases h0 : totalWeight s.metadata = 0
    · exact ⟨s, by simp [hsum, h0, bind, Except.bind, pure, Except.pure]⟩
    · refine ⟨{ s with
        metadata := s.metadata.set prev (m.charge ts (totalWeight s.metadata))
        current := some prev }, bind_eq_ok.mpr ⟨_, hsum, ?_⟩⟩
      simp only [if_neg h0, bind_eq_ok, mul, add, fit_dev]
      exact ⟨m, hm, _, ⟨rfl, by omega⟩, _, ⟨rfl, hmul⟩, _, ⟨rfl, hadd⟩, rfl⟩

/-- A tick whose products and deadlines are all representable goes through. -/
theorem tickPrepare_ok (hv : s.Valid) (hne : s.threads ≠ [])
    (hmul : s.timeSlice t * totalWeight s.metadata * 1024 ≤ u64Max)
    (htot : totalWeight s.metadata ≤ u64Max)
    (hch : ∀ i m, s.current = some i → s.metadata[i]? = some m →
      s.timeSlice t * m.weight * 1024 ≤ u64Max ∧
        (m.charge (s.timeSlice t) (totalWeight s.metadata)).vruntime ≤ u64Max)
    (hdl : ∀ m ∈ s.chargedMeta (s.timeSlice t),
      m.deadline (s.timeSlice t) (totalWeight s.metadata) ≤ u64Max) :
    ∃ s' r, s.tickPrepare .dev .bootstrap t = .ok (s', r) := by
  obtain ⟨c, hc⟩ := charge_ok hv htot hch
  have hcm := charge_dev hc
  have hct : totalWeight c.metadata = totalWeight s.metadata :=
    totalWeight_of_shape (charge_charged hc).shape
  have hsum : sumWeights .dev c.metadata = .ok (totalWeight s.metadata) := by
    rw [← hct] at htot ⊢
    exact sum_dev.mpr ⟨rfl, htot⟩
  obtain ⟨best, hbest⟩ := minBy_ok
    (fun e : ThreadMeta × Nat =>
      e.1.virtualDeadline .dev (s.timeSlice t) (totalWeight s.metadata))
    (c.updateMin.eligible (max (totalWeight s.metadata) 1)) (by
      intro e he
      have hmem : e.1 ∈ c.metadata := List.mem_of_getElem? (mem_eligible.mp he).1
      exact ⟨_, virtualDeadline_ok hmul (hdl e.1 (hcm ▸ hmem))⟩)
  have hed : c.updateMin.earliestDeadline .dev (s.timeSlice t) = .ok (best.map (·.2)) :=
    bind_eq_ok.mpr ⟨_, hsum, bind_eq_ok.mpr ⟨_, hbest, rfl⟩⟩
  have hnext : c.updateMin.nextIdx .dev (s.timeSlice t) =
      .ok ((best.map (·.2)).or c.updateMin.firstRunnable) :=
    bind_eq_ok.mpr ⟨_, hed, rfl⟩
  have hv' := hv.charged (updateMin_charged (charge_charged hc))
  unfold tickPrepare
  simp only [if_neg hne, hc, hnext, bind, Except.bind]
  cases hx : (best.map (·.2)).or c.updateMin.firstRunnable with
  | none => exact ⟨_, _, rfl⟩
  | some n =>
    have hlt : n < c.updateMin.threads.length := by
      rw [hv'.lengths]
      exact (nextIdx_some (hx ▸ hnext)).lt
    obtain ⟨⟨s', r⟩, hs⟩ | ⟨_, herr⟩ := onlyOverflow_switchTo (p := .release) (b := .bootstrap)
      (t := t) hv' hlt
    · exact ⟨s', r, hs⟩
    · contradiction

end EevdfScheduler
end MoltOS.Eevdf
