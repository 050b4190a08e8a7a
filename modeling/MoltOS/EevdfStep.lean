import Mathlib.Data.List.Pairwise
import MoltOS.Eevdf

/-! What one call of `tick_prepare` or `block_current_and_prepare_switch` can do,
stated once. Everything here holds under both profiles. -/
namespace MoltOS.Eevdf
open MoltOS.Rust

/- The part of a thread's metadata that scheduling never writes. -/
def shape (ms : List ThreadMeta) : List (Nat × Bool) := ms.map fun m => (m.weight, m.blocked)

def AllBlocked (ms : List ThreadMeta) : Prop := ∀ m ∈ ms, m.blocked = true

def RunnableAt (ms : List ThreadMeta) (i : Nat) : Prop := ∃ m, ms[i]? = some m ∧ m.blocked = false

/-- Whether a thread is there with its flag set, or with it clear, depends on the shape only. -/
theorem flag_of_shape {ms ms' : List ThreadMeta} (h : shape ms' = shape ms) {i : Nat} {c : Bool} :
    (∃ m, ms'[i]? = some m ∧ m.blocked = c) ↔ ∃ m, ms[i]? = some m ∧ m.blocked = c := by
  have hi := congrArg (fun l => l[i]?) h
  simp only [shape, List.getElem?_map] at hi
  cases h1 : ms'[i]? <;> cases h2 : ms[i]? <;> simp_all

theorem flag_set {ms : List ThreadMeta} {i j : Nat} {m : ThreadMeta} {b c : Bool}
    (hi : ms[i]? = some m) :
    (∃ x, (ms.set i { m with blocked := b })[j]? = some x ∧ x.blocked = c) ↔
      (j = i ∧ b = c) ∨ (j ≠ i ∧ ∃ x, ms[j]? = some x ∧ x.blocked = c) := by
  by_cases hj : i = j
  · subst hj
    have hlt := (List.getElem?_eq_some_iff.mp hi).1
    simp [hlt]
  · rw [List.getElem?_set_ne hj]
    simp [Ne.symm hj]

theorem runnableAt_of_shape {ms ms' : List ThreadMeta} (h : shape ms' = shape ms) {i : Nat} :
    RunnableAt ms' i ↔ RunnableAt ms i := flag_of_shape h

theorem runnable_of_allBlocked {ms : List ThreadMeta} (h : AllBlocked ms) : runnable ms = [] := by
  apply List.filter_eq_nil_iff.mpr
  intro m hm
  simp [h m hm]

theorem allBlocked_iff {ms : List ThreadMeta} : AllBlocked ms ↔ ∀ i, ¬ RunnableAt ms i := by
  constructor
  · intro h i hr
    obtain ⟨m, hm, hb⟩ := hr
    have hbl := h m (List.mem_of_getElem? hm)
    rw [hb] at hbl
    cases hbl
  · intro h m hm
    obtain ⟨i, hi⟩ := List.mem_iff_getElem?.mp hm
    by_contra hb
    exact h i ⟨m, hi, by simpa using hb⟩

theorem RunnableAt.lt {ms : List ThreadMeta} {i : Nat} (h : RunnableAt ms i) : i < ms.length := by
  obtain ⟨m, hm, _⟩ := h
  exact (List.getElem?_eq_some_iff.mp hm).1

theorem shape_length {ms ms' : List ThreadMeta} (h : shape ms' = shape ms) :
    ms'.length = ms.length := by
  simpa [shape] using congrArg List.length h

theorem shape_set_vruntime {ms : List ThreadMeta} {i : Nat} {m : ThreadMeta} (v : Nat)
    (h : ms[i]? = some m) : shape (ms.set i { m with vruntime := v }) = shape ms := by
  apply List.ext_getElem?
  intro j
  by_cases hj : i = j
  · subst hj
    obtain ⟨hlt, hm⟩ := List.getElem?_eq_some_iff.mp h
    simp [shape, hlt, hm]
  · simp [shape, List.getElem?_map, List.getElem?_set_ne hj]

namespace EevdfScheduler

structure Valid (s : EevdfScheduler) : Prop where
  lengths : s.threads.length = s.metadata.length
  weights : ∀ m ∈ s.metadata, 1 ≤ m.weight
  current : ∀ i, s.current = some i → i < s.threads.length

structure Charged (s s' : EevdfScheduler) : Prop where
  threads : s'.threads = s.threads
  current : s'.current = s.current
  lastSwitchTick : s'.lastSwitchTick = s.lastSwitchTick
  shape : shape s'.metadata = shape s.metadata
  others : ∀ j, s.current ≠ some j → s'.metadata[j]? = s.metadata[j]?

theorem Charged.refl (s : EevdfScheduler) : Charged s s :=
  ⟨rfl, rfl, rfl, rfl, fun _ _ => rfl⟩

/-- A charge that goes through finds nobody running or no weight, or stores the running
thread's new vruntime. -/
theorem charge_cases {s s' : EevdfScheduler} {p : Profile} {timeSlice : Nat}
    (h : s.charge p timeSlice = .ok s') :
    (s' = s ∧ (s.current = none ∨ sumWeights p s.metadata = .ok 0)) ∨
    ∃ prev total m a b v, s.current = some prev ∧ sumWeights p s.metadata = .ok total ∧ total ≠ 0 ∧
      s.metadata[prev]? = some m ∧ mul p timeSlice m.weight = .ok a ∧ mul p a 1024 = .ok b ∧
      add p m.vruntime (b / total) = .ok v ∧
      s' = { s with metadata := s.metadata.set prev { m with vruntime := v } } := by
  unfold charge at h
  cases hc : s.current with
  | none =>
    simp only [hc, Except.ok.injEq] at h
    exact .inl ⟨h.symm, .inl rfl⟩
  | some prev =>
    simp only [hc, bind_eq_ok] at h
    obtain ⟨total, hsum, h⟩ := h
    by_cases ht : total = 0
    · rw [if_pos ht, pure_eq_ok] at h
      exact .inl ⟨h.symm, .inr (ht ▸ hsum)⟩
    · simp only [if_neg ht, bind_eq_ok, pure_eq_ok, index_eq_ok] at h
      obtain ⟨m, hm, a, ha, b, hb, v, hv, rfl⟩ := h
      exact .inr ⟨prev, total, m, a, b, v, rfl, hsum, ht, hm, ha, hb, hv, rfl⟩

theorem charge_charged {s s' : EevdfScheduler} {p : Profile} {timeSlice : Nat}
    (h : s.charge p timeSlice = .ok s') : Charged s s' := by
  obtain ⟨rfl, _⟩ | ⟨prev, _, m, _, _, v, hc, _, _, hm, _, _, _, rfl⟩ := charge_cases h
  · exact Charged.refl s'
  · refine ⟨rfl, rfl, rfl, shape_set_vruntime v hm, ?_⟩
    intro j hj
    have hne : prev ≠ j := fun he => hj (by rw [hc, he])
    simp [List.getElem?_set_ne hne]

theorem updateMin_charged {s s' : EevdfScheduler} (h : Charged s s') : Charged s s'.updateMin :=
  ⟨h.threads, h.current, h.lastSwitchTick, h.shape, h.others⟩

theorem mem_eligible {s : EevdfScheduler} {lag : Nat} {m : ThreadMeta} {i : Nat} :
    (m, i) ∈ s.eligible lag ↔
      s.metadata[i]? = some m ∧ m.blocked = false ∧ m.vruntime ≤ saturatingAdd s.minVruntime lag := by
  simp [eligible, List.mem_filter, List.mk_mem_zipIdx_iff_getElem?]

theorem firstRunnable_some {s : EevdfScheduler} {i : Nat} (h : s.firstRunnable = some i) :
    RunnableAt s.metadata i := by
  unfold firstRunnable at h
  obtain ⟨⟨m, j⟩, hf, hi⟩ := Option.map_eq_some_iff.mp h
  subst hi
  have hb := List.find?_some hf
  have hm := List.mem_of_find?_eq_some hf
  exact ⟨m, List.mk_mem_zipIdx_iff_getElem?.mp hm, by simpa using hb⟩

theorem firstRunnable_none {s : EevdfScheduler} (h : s.firstRunnable = none) :
    AllBlocked s.metadata := by
  simp only [firstRunnable, Option.map_eq_none_iff, List.find?_eq_none] at h
  intro m hm
  obtain ⟨i, hi⟩ := List.mem_iff_getElem?.mp hm
  simpa using h (m, i) (List.mk_mem_zipIdx_iff_getElem?.mpr hi)

theorem earliestDeadline_runnable {s : EevdfScheduler} {p : Profile} {ts i : Nat}
    (h : s.earliestDeadline p ts = .ok (some i)) : RunnableAt s.metadata i := by
  simp only [earliestDeadline, bind_eq_ok, pure_eq_ok] at h
  obtain ⟨total, _, best, hbest, hi⟩ := h
  obtain ⟨⟨m, j⟩, rfl, rfl⟩ := Option.map_eq_some_iff.mp hi
  have hm := mem_eligible.mp (minBy_mem hbest)
  exact ⟨m, hm.1, hm.2.1⟩

/-- Whatever the arithmetic does, the chosen index is a non-blocked thread. -/
theorem nextIdx_some {s : EevdfScheduler} {p : Profile} {ts i : Nat}
    (h : s.nextIdx p ts = .ok (some i)) : RunnableAt s.metadata i := by
  simp only [nextIdx, bind_eq_ok, pure_eq_ok] at h
  obtain ⟨best, hbest, hi⟩ := h
  cases best with
  | some j =>
    simp only [Option.some_or, Option.some.injEq] at hi
    exact hi ▸ earliestDeadline_runnable hbest
  | none => exact firstRunnable_some (by simpa using hi)

theorem nextIdx_none {s : EevdfScheduler} {p : Profile} {ts : Nat}
    (h : s.nextIdx p ts = .ok none) : AllBlocked s.metadata := by
  simp only [nextIdx, bind_eq_ok, pure_eq_ok, Option.or_eq_none_iff] at h
  obtain ⟨_, _, _, hf⟩ := h
  exact firstRunnable_none hf

def ctxOf (bootstrapCtx : CtxPtr) : Option Nat → CtxPtr
  | none => bootstrapCtx
  | some i => .thread i

theorem fromCtx_ok {s : EevdfScheduler} {b c : CtxPtr} (h : s.fromCtx b = .ok c) :
    c = ctxOf b s.current := by
  unfold fromCtx at h
  cases hc : s.current with
  | none =>
    simp only [hc, Except.ok.injEq] at h
    exact h.symm
  | some prev =>
    simp only [hc, contextPtr, bind_eq_ok, pure_eq_ok] at h
    obtain ⟨_, _, rfl⟩ := h
    rfl

def Keeps (s : EevdfScheduler) (currentTick next : Nat) : Prop :=
  s.current = some next ∧ currentTick ≠ 0 ∧ currentTick ≤ s.lastSwitchTick

instance (s : EevdfScheduler) (t n : Nat) : Decidable (s.Keeps t n) :=
  inferInstanceAs (Decidable (_ ∧ _ ∧ _))

theorem keeps_iff {s : EevdfScheduler} {t n : Nat} :
    (s.current = some n ∧ t ≠ 0 ∧ saturatingSub t s.lastSwitchTick < minTimeSlice) ↔ s.Keeps t n := by
  unfold Keeps saturatingSub minTimeSlice
  constructor <;> intro h <;> exact ⟨h.1, h.2.1, by omega⟩

theorem switchTo_ok {s s' : EevdfScheduler} {b : CtxPtr} {t n : Nat} {r : Option Switch}
    (h : s.switchTo b t n = .ok (s', r)) :
    (s.Keeps t n ∧ s' = s ∧ r = none) ∨
    (¬ s.Keeps t n ∧ s' = { s with current := some n, lastSwitchTick := t } ∧
      r = some (ctxOf b s.current, .thread n)) := by
  unfold switchTo at h
  simp only [keeps_iff] at h
  by_cases hk : s.Keeps t n
  · simp only [if_pos hk, Except.ok.injEq, Prod.mk.injEq] at h
    exact Or.inl ⟨hk, h.1.symm, h.2.symm⟩
  · right
    simp only [if_neg hk, bind_eq_ok, contextPtr, pure_eq_ok] at h
    obtain ⟨ctx, hfrom, toCtx, ⟨_, _, rfl⟩, h⟩ := h
    simp only [Prod.mk.injEq] at h
    exact ⟨hk, h.1.symm, by rw [← h.2, fromCtx_ok hfrom]⟩

/-- Inversion of `tick_prepare`: nothing to schedule, everyone blocked, the current
thread kept, or a switch to `n`. -/
theorem tickPrepare_cases {s s' : EevdfScheduler} {p : Profile} {b : CtxPtr} {t : Nat}
    {r : Option Switch} (h : s.tickPrepare p b t = .ok (s', r)) :
    (s.threads = [] ∧ s' = s ∧ r = none) ∨
    (s.threads ≠ [] ∧ ∃ c, s.charge p (s.timeSlice t) = .ok c ∧ Charged s c.updateMin ∧
      ((c.updateMin.nextIdx p (s.timeSlice t) = .ok none ∧ s' = c.updateMin ∧ r = none) ∨
       ∃ n, c.updateMin.nextIdx p (s.timeSlice t) = .ok (some n) ∧
        ((s.Keeps t n ∧ s' = c.updateMin ∧ r = none) ∨
         (¬ s.Keeps t n ∧ s' = { c.updateMin with current := some n, lastSwitchTick := t } ∧
          r = some (ctxOf b s.current, .thread n))))) := by
  unfold tickPrepare at h
  by_cases he : s.threads = []
  · simp only [if_pos he, Except.ok.injEq, Prod.mk.injEq] at h
    exact Or.inl ⟨he, h.1.symm, h.2.symm⟩
  · right
    simp only [if_neg he, bind_eq_ok] at h
    obtain ⟨c, hc, next, hn, h⟩ := h
    have hch := updateMin_charged (charge_charged hc)
    refine ⟨he, c, hc, hch, ?_⟩
    cases next with
    | none =>
      simp only [pure_eq_ok, Prod.mk.injEq] at h
      exact Or.inl ⟨hn, h.1.symm, h.2.symm⟩
    | some n =>
      refine Or.inr ⟨n, hn, ?_⟩
      have hs := switchTo_ok h
      unfold Keeps at hs ⊢
      rw [hch.current, hch.lastSwitchTick] at hs
      exact hs

theorem setBlocked_ok {s s' : EevdfScheduler} {i : Nat} {b : Bool}
    (h : s.setBlocked i b = .ok s') :
    ∃ m, s.metadata[i]? = some m ∧
      s' = { s with metadata := s.metadata.set i { m with blocked := b } } := by
  simp only [setBlocked, bind_eq_ok, pure_eq_ok, index_eq_ok] at h
  obtain ⟨m, hm, rfl⟩ := h
  exact ⟨m, hm, rfl⟩

/-- Inversion of `block_current_and_prepare_switch` into its mark and its tick. -/
theorem block_cases {s s' : EevdfScheduler} {p : Profile} {b : CtxPtr} {t : Nat}
    {r : Option Switch} (h : s.blockCurrentAndPrepareSwitch p b t = .ok (s', r)) :
    (s.current = none ∧ s.tickPrepare p b t = .ok (s', r)) ∨
    ∃ i m, s.current = some i ∧ s.metadata[i]? = some m ∧
      ({ s with metadata := s.metadata.set i { m with blocked := true } } :
        EevdfScheduler).tickPrepare p b t = .ok (s', r) := by
  simp only [blockCurrentAndPrepareSwitch, bind_eq_ok] at h
  obtain ⟨marked, hm, h⟩ := h
  unfold markCurrentBlocked at hm
  cases hc : s.current with
  | none =>
    simp only [hc, Except.ok.injEq] at hm
    exact Or.inl ⟨rfl, hm ▸ h⟩
  | some i =>
    simp only [hc] at hm
    obtain ⟨m, hi, rfl⟩ := setBlocked_ok hm
    rw [hc] at h
    exact Or.inr ⟨i, m, rfl, hi, h⟩

theorem unblockThread_ok {s s' : EevdfScheduler} {id : ThreadId}
    (h : s.unblockThread id = .ok s') :
    (s' = s ∧ ∀ t ∈ s.threads, t.id ≠ id) ∨
    ∃ i t m, s.threads[i]? = some t ∧ t.id = id ∧ s.metadata[i]? = some m ∧
      s' = { s with metadata := s.metadata.set i { m with blocked := false } } := by
  unfold unblockThread at h
  cases hf : s.threads.findIdx? (fun t => t.id == id) with
  | none =>
    simp only [hf, Except.ok.injEq] at h
    rw [List.findIdx?_eq_none_iff] at hf
    exact Or.inl ⟨h.symm, fun t ht => by simpa using hf t ht⟩
  | some i =>
    simp only [hf] at h
    obtain ⟨m, hm, rfl⟩ := setBlocked_ok h
    obtain ⟨hlt, hid, _⟩ := List.findIdx?_eq_some_iff_getElem.mp hf
    exact Or.inr ⟨i, s.threads[i], m, by simp [hlt], by simpa using hid, hm, rfl⟩

end EevdfScheduler
end MoltOS.Eevdf
