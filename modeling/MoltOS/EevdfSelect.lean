import Mathlib.Order.Bounds.Basic
import MoltOS.EevdfRun

/-! The exact selection rule of `tick_prepare` when no checked operation overflows:
the charge, the minimum, the eligible set and the first earliest deadline, in
unbounded arithmetic. The fallback after `min_by` is never reached. -/
namespace MoltOS.Eevdf
open MoltOS.Rust MoltOS.Transition

def totalWeight (ms : List ThreadMeta) : Nat := ((runnable ms).map (·.weight)).sum

def ThreadMeta.deadline (m : ThreadMeta) (timeSlice total : Nat) : Nat :=
  if m.weight = 0 then u64Max else m.vruntime + timeSlice * total * 1024 / m.weight

def ThreadMeta.charge (m : ThreadMeta) (timeSlice total : Nat) : ThreadMeta :=
  { m with vruntime := m.vruntime + timeSlice * m.weight * 1024 / total }

theorem totalWeight_of_shape {ms ms' : List ThreadMeta} (h : shape ms' = shape ms) :
    totalWeight ms' = totalWeight ms := by
  have hshape (l : List ThreadMeta) : totalWeight l =
      (((shape l).filter fun e => !e.2).map (·.1)).sum := by
    simp only [totalWeight, runnable, shape, List.filter_map, List.map_map]
    rfl
  rw [hshape, hshape, h]

theorem virtualDeadline_dev {m : ThreadMeta} {ts w d : Nat}
    (h : m.virtualDeadline .dev ts w = .ok d) : d = m.deadline ts w := by
  unfold ThreadMeta.virtualDeadline at h
  unfold ThreadMeta.deadline
  by_cases hw : m.weight = 0
  · rw [if_pos hw] at h ⊢
    cases h
    rfl
  · simp only [if_neg hw, bind_eq_ok, mul, add, fit_dev] at h ⊢
    obtain ⟨_, ⟨rfl, _⟩, _, ⟨rfl, _⟩, rfl, _⟩ := h
    rfl

theorem sumWeights_dev {ms : List ThreadMeta} {w : Nat} (h : sumWeights .dev ms = .ok w) :
    w = totalWeight ms := (sum_dev.mp h).1

namespace EevdfScheduler
variable {s s' : EevdfScheduler} {t ts i : Nat} {r : Option Switch}

def chargedMeta (s : EevdfScheduler) (ts : Nat) : List ThreadMeta :=
  match s.current with
  | none => s.metadata
  | some i =>
    if totalWeight s.metadata = 0 then s.metadata
    else s.metadata.modify i (·.charge ts (totalWeight s.metadata))

theorem charge_dev (h : s.charge .dev ts = .ok s') : s'.metadata = s.chargedMeta ts := by
  unfold chargedMeta
  obtain ⟨rfl, hidle⟩ | ⟨prev, total, m, a, b, v, hc, hsum, ht, hm, ha, hb, hv, rfl⟩ := charge_cases h
  · obtain hc | hsum := hidle
    · rw [hc]
    · have hzero : totalWeight s'.metadata = 0 := (sumWeights_dev hsum).symm
      simp only [hzero, if_true]
      cases s'.current <;> rfl
  · rw [sumWeights_dev hsum] at ht hv
    simp only [mul, add, fit_dev] at ha hb hv
    obtain ⟨⟨rfl, _⟩, ⟨rfl, _⟩, ⟨rfl, _⟩⟩ := And.intro ha (And.intro hb hv)
    simp only [hc, if_neg ht]
    apply List.ext_getElem?
    intro j
    by_cases hj : prev = j
    · subst hj
      obtain ⟨hlt, hget⟩ := List.getElem?_eq_some_iff.mp hm
      simp [hlt, hget, ThreadMeta.charge]
    · simp [List.getElem?_set_ne hj, List.getElem?_modify_ne _ _ hj]

def Eligible (s : EevdfScheduler) (i : Nat) (m : ThreadMeta) : Prop :=
  s.metadata[i]? = some m ∧ m.blocked = false ∧
    m.vruntime ≤ s.minVruntime + max (totalWeight s.metadata) 1

/-- `i` is the lowest index of earliest deadline among the eligible threads. -/
def EarliestEligible (s : EevdfScheduler) (ts i : Nat) : Prop :=
  ∃ m, s.Eligible i m ∧ ∀ j m', s.Eligible j m' →
    m.deadline ts (totalWeight s.metadata) ≤ m'.deadline ts (totalWeight s.metadata) ∧
    (j < i → m.deadline ts (totalWeight s.metadata) < m'.deadline ts (totalWeight s.metadata))

def Fits (s : EevdfScheduler) : Prop := ∀ m ∈ s.metadata, m.vruntime ≤ u64Max

/-- On representable vruntimes the saturating test is the plain one. -/
theorem mem_eligible_iff (hf : s.Fits) {m : ThreadMeta} :
    (m, i) ∈ s.eligible (max (totalWeight s.metadata) 1) ↔ s.Eligible i m := by
  rw [mem_eligible, Eligible]
  constructor
  · intro h
    exact ⟨h.1, h.2.1, h.2.2.trans (min_le_left _ _)⟩
  · intro h
    exact ⟨h.1, h.2.1, le_min h.2.2 (hf m (List.mem_of_getElem? h.1))⟩

theorem eligible_sorted (s : EevdfScheduler) (lag : Nat) :
    (s.eligible lag).Pairwise fun x y => x.2 < y.2 := by
  unfold eligible
  apply List.Pairwise.filter
  have h : (s.metadata.zipIdx.map Prod.snd).Pairwise (· < ·) := by
    rw [List.zipIdx_map_snd]
    exact List.pairwise_lt_range'
  exact List.pairwise_map.mp h

theorem firstMin_before {α : Type} {f g : α → Nat} {l : List α} {b : α}
    (hl : l.Pairwise fun x y => g x < g y) (h : FirstMin f l b) {y : α} (hy : y ∈ l)
    (hlt : g y < g b) : f b < f y := by
  obtain ⟨pre, post, rfl, hpre, _⟩ := h
  have hpw := (List.pairwise_append.mp hl).2.1
  simp only [List.mem_append, List.mem_cons] at hy
  obtain hy | rfl | hy := hy
  · exact hpre y hy
  · omega
  · have hgt := (List.pairwise_cons.mp hpw).1 y hy
    omega

theorem earliestDeadline_dev (hf : s.Fits) (h : s.earliestDeadline .dev ts = .ok (some i)) :
    s.EarliestEligible ts i := by
  simp only [earliestDeadline, bind_eq_ok, pure_eq_ok] at h
  obtain ⟨total, hsum, best, hbest, hi⟩ := h
  obtain ⟨⟨m, j⟩, rfl, rfl⟩ := Option.map_eq_some_iff.mp hi
  rw [sumWeights_dev hsum] at hbest
  have hmin := minBy_firstMin (f := fun e => e.1.deadline ts (totalWeight s.metadata))
    (fun e k hk => virtualDeadline_dev hk) hbest
  refine ⟨m, (mem_eligible_iff hf).mp hmin.mem, ?_⟩
  intro j' m' he
  have hmem := (mem_eligible_iff hf).mpr he
  exact ⟨hmin.le (m', j') hmem, firstMin_before (s.eligible_sorted _) hmin hmem⟩

def IsMinVruntime (s : EevdfScheduler) : Prop :=
  IsLeast { v | ∃ m ∈ s.metadata, m.blocked = false ∧ m.vruntime = v } s.minVruntime

theorem updateMin_isMin (h : RunnableAt s.metadata i) : s.updateMin.IsMinVruntime := by
  have hset (v : Nat) : v ∈ (runnable s.metadata).map (·.vruntime) ↔
      ∃ m ∈ s.metadata, m.blocked = false ∧ m.vruntime = v := by
    simp only [runnable, List.mem_map, List.mem_filter, Bool.not_eq_true', and_assoc]
  cases hm : ((runnable s.metadata).map (·.vruntime)).min? with
  | none =>
    obtain ⟨m, hi, hb⟩ := h
    have hmem := (hset m.vruntime).mpr ⟨m, List.mem_of_getElem? hi, hb, rfl⟩
    simp [List.min?_eq_none_iff.mp hm] at hmem
  | some v =>
    have hv := List.min?_eq_some_iff.mp hm
    have hmin : s.updateMin.minVruntime = v := by simp [updateMin, hm]
    constructor
    · rw [hmin]
      exact (hset v).mp hv.1
    · intro u hu
      rw [hmin]
      exact hv.2 u ((hset u).mpr hu)

/-- The thread of least vruntime is always eligible, so `min_by` sees a non-empty
list and the fallback behind it is dead. -/
theorem earliestDeadline_isSome (hf : s.Fits) (hmin : s.IsMinVruntime) {x : Option Nat}
    (h : s.earliestDeadline .dev ts = .ok x) : ∃ i, x = some i := by
  simp only [earliestDeadline, bind_eq_ok, pure_eq_ok] at h
  obtain ⟨total, hsum, best, hbest, hx⟩ := h
  rw [sumWeights_dev hsum] at hbest
  obtain ⟨m, hm, hb, hv⟩ := hmin.1
  obtain ⟨i, hi⟩ := List.mem_iff_getElem?.mp hm
  have hmem : (m, i) ∈ s.eligible (max (totalWeight s.metadata) 1) :=
    (mem_eligible_iff hf).mpr ⟨hi, hb, by omega⟩
  obtain ⟨b, rfl⟩ := minBy_isSome hbest (List.ne_nil_of_mem hmem)
  exact ⟨b.2, hx.symm⟩

theorem nextIdx_dev (hf : s.Fits) (hmin : s.IsMinVruntime) {x : Option Nat}
    (h : s.nextIdx .dev ts = .ok x) :
    ∃ i, x = some i ∧ s.earliestDeadline .dev ts = .ok (some i) ∧ s.EarliestEligible ts i := by
  simp only [nextIdx, bind_eq_ok, pure_eq_ok] at h
  obtain ⟨best, hbest, hx⟩ := h
  obtain ⟨i, rfl⟩ := earliestDeadline_isSome hf hmin hbest
  exact ⟨i, hx.symm, hbest, earliestDeadline_dev hf hbest⟩

theorem fits_of_charge {p : Profile} (hf : s.Fits) (h : s.charge p ts = .ok s') : s'.Fits := by
  obtain ⟨rfl, _⟩ | ⟨_, _, m, _, _, v, _, _, _, _, _, _, hv, rfl⟩ := charge_cases h
  · exact hf
  · intro x hx
    cases List.mem_or_eq_of_mem_set hx with
    | inl hx => exact hf x hx
    | inr hx => exact hx ▸ fit_le hv

structure Selected (s : EevdfScheduler) (t : Nat) (s' : EevdfScheduler) : Prop where
  charged : s'.metadata = s.chargedMeta (s.timeSlice t)
  isMin : s'.IsMinVruntime
  picked : ∃ i, s'.current = some i ∧ s'.earliestDeadline .dev (s.timeSlice t) = .ok (some i) ∧
    s'.EarliestEligible (s.timeSlice t) i

theorem tickPrepare_selected {b : CtxPtr} (hf : s.Fits) (hrun : RunnableAt s.metadata i)
    (hne : s.threads ≠ []) (h : s.tickPrepare .dev b t = .ok (s', r)) : Selected s t s' := by
  obtain ⟨he, _⟩ | ⟨_, c, hc, hch, hres⟩ := tickPrepare_cases h
  · exact absurd he hne
  · have hcharged : c.metadata = s.chargedMeta (s.timeSlice t) := charge_dev hc
    have hfits : c.Fits := fits_of_charge hf hc
    have hmin : c.updateMin.IsMinVruntime :=
      updateMin_isMin ((runnableAt_of_shape (charge_charged hc).shape).mpr hrun)
    obtain ⟨hn, _⟩ | ⟨n, hn, hres⟩ := hres
    · obtain ⟨i, hi, _⟩ := nextIdx_dev (s := c.updateMin) hfits hmin hn
      cases hi
    · obtain ⟨i, hi, hed, hsel⟩ := nextIdx_dev (s := c.updateMin) hfits hmin hn
      cases hi
      obtain ⟨hk, rfl, _⟩ | ⟨_, rfl, _⟩ := hres
      · exact ⟨hcharged, hmin, n, by rw [hch.current, hk.1], hed, hsel⟩
      · exact ⟨hcharged, hmin, n, rfl, hed, hsel⟩

theorem fits_step {p : Profile} {e : Op × Option Switch} (hf : s.Fits) (h : Step p s e s') :
    s'.Fits := by
  have hset {s₀ : EevdfScheduler} {j : Nat} {m : ThreadMeta} (x : Bool) (hf : s₀.Fits)
      (hm : s₀.metadata[j]? = some m) :
      ({ s₀ with metadata := s₀.metadata.set j { m with blocked := x } } : EevdfScheduler).Fits := by
    intro y hy
    cases List.mem_or_eq_of_mem_set hy with
    | inl hy => exact hf y hy
    | inr hy => exact hy ▸ hf m (List.mem_of_getElem? hm)
  have hpush (m : ThreadMeta) (hm : m.vruntime = 0) : ∀ x ∈ s.metadata ++ [m], x.vruntime ≤ u64Max := by
    intro x hx
    simp only [List.mem_append, List.mem_singleton] at hx
    cases hx with
    | inl hx => exact hf x hx
    | inr hx => simp [hx, hm]
  have htick (s₀ : EevdfScheduler) (u : Nat) (hf : s₀.Fits)
      (h : s₀.tickPrepare p .bootstrap u = .ok (s', e.2)) : s'.Fits := by
    obtain ⟨_, rfl, _⟩ | ⟨_, c, hc, _, hres⟩ := tickPrepare_cases h
    · exact hf
    · have hfits : c.Fits := fits_of_charge hf hc
      obtain ⟨_, rfl, _⟩ | ⟨n, _, ⟨_, rfl, _⟩ | ⟨_, rfl, _⟩⟩ := hres <;> exact hfits
  obtain ⟨op, r⟩ := e
  cases op with
  | spawn thread =>
    cases h
    exact hpush _ rfl
  | spawnWithWeight thread weight =>
    cases h
    exact hpush _ rfl
  | unblockThread id =>
    simp only [Step, apply, bind_eq_ok, pure_eq_ok, Prod.mk.injEq] at h
    obtain ⟨_, hu, rfl, _⟩ := h
    obtain ⟨rfl, _⟩ | ⟨j, _, m, _, _, hj, rfl⟩ := unblockThread_ok hu
    · exact hf
    · exact hset false hf hj
  | tickPrepare currentTick => exact htick s currentTick hf h
  | blockCurrentAndPrepareSwitch currentTick =>
    obtain ⟨_, h⟩ | ⟨j, m, _, hj, h⟩ := block_cases h
    · exact htick s currentTick hf h
    · exact htick _ currentTick (hset true hf hj) h

theorem run_fits {p : Profile} {es : List (Op × Option Switch)}
    (h : Run (Step p) EevdfScheduler.new es s) : s.Fits :=
  h.invariant (fun _ _ _ hf hs => fits_step hf hs) (by simp [Fits, EevdfScheduler.new])

theorem run_valid {p : Profile} {es : List (Op × Option Switch)}
    (h : Run (Step p) EevdfScheduler.new es s) : s.Valid :=
  h.invariant (fun _ _ _ hv hs => hv.step hs) Valid.new

/-- EEVDF selection is exact. From every reachable scheduler, a tick that does not
overflow charges the running thread, then selects the lowest-index thread of
earliest deadline among the eligible ones, found by `min_by` and not by the
fallback; it returns nothing only in the three cases named, and it writes no
weight, blocked flag or identity and no vruntime but the charged one. -/
theorem tickPrepare_selects_exactly (es : List (Op × Option Switch)) (s : EevdfScheduler)
    (h : Run (Step .dev) EevdfScheduler.new es s) (t : Nat)
    (hno : s.tickPrepare .dev .bootstrap t ≠ .error .overflow) :
    ∃ s' r, s.tickPrepare .dev .bootstrap t = .ok (s', r) ∧
      (∀ i, RunnableAt s.metadata i → Selected s t s') ∧
      (r = none → s.threads = [] ∨ AllBlocked s.metadata ∨
        ∃ i, s'.current = some i ∧ s.current = some i ∧ t ≠ 0 ∧ t ≤ s.lastSwitchTick) ∧
      s'.threads = s.threads ∧ shape s'.metadata = shape s.metadata ∧
      ∀ j, s.current ≠ some j → s'.metadata[j]? = s.metadata[j]? := by
  have hv := run_valid h
  obtain ⟨⟨s', r⟩, hok⟩ | ⟨_, herr⟩ := onlyOverflow_tickPrepare (p := .dev) (b := .bootstrap) (t := t) hv
  · refine ⟨s', r, hok, ?_, ?_, tickPrepare_shape hok⟩
    · intro i hi
      refine tickPrepare_selected (run_fits h) hi ?_ hok
      intro he
      have hlt := hi.lt
      rw [← hv.lengths, he] at hlt
      simp at hlt
    · intro hr
      obtain ⟨he, _⟩ | ⟨_, c, _, hch, ⟨hn, _⟩ | ⟨n, _, ⟨hk, rfl, _⟩ | ⟨_, _, hs⟩⟩⟩ :=
        tickPrepare_cases hok
      · exact Or.inl he
      · have hall := allBlocked_iff.mp (nextIdx_none hn)
        simp only [runnableAt_of_shape hch.shape] at hall
        exact Or.inr (Or.inl (allBlocked_iff.mpr hall))
      · exact Or.inr (Or.inr ⟨n, hch.current.trans hk.1, hk⟩)
      · rw [hr] at hs
        cases hs
  · exact absurd herr hno

theorem twoThreads_selects :
    ∃ s' r, twoThreads.tickPrepare .dev .bootstrap 2 = .ok (s', r) ∧ Selected twoThreads 2 s' := by
  obtain ⟨s', r, hok, hsel, _⟩ :=
    tickPrepare_selects_exactly _ _ twoThreads_run 2 (by decide)
  exact ⟨s', r, hok, hsel 0 ⟨_, rfl, rfl⟩⟩

end EevdfScheduler
end MoltOS.Eevdf
