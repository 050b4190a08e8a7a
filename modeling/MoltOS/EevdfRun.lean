import Mathlib.Data.List.Chain
import MoltOS.EevdfStep
import MoltOS.Transition

/-! Runs of scheduler operations from an empty scheduler: indices stay valid, a
blocked thread is never dispatched, and the returned pairs chain. -/
namespace MoltOS.Eevdf
open MoltOS.Rust MoltOS.Transition

inductive Op where
  | spawn (thread : Thread)
  | spawnWithWeight (thread : Thread) (weight : Nat)
  | unblockThread (id : ThreadId)
  | tickPrepare (currentTick : Nat)
  | blockCurrentAndPrepareSwitch (currentTick : Nat)
deriving DecidableEq, Repr

def Op.tick? : Op → Option Nat
  | .tickPrepare currentTick => some currentTick
  | .blockCurrentAndPrepareSwitch currentTick => some currentTick
  | _ => none

namespace EevdfScheduler

def apply (p : Profile) (s : EevdfScheduler) : Op → Except Panic (EevdfScheduler × Option Switch)
  | .spawn thread => .ok (s.spawn thread, none)
  | .spawnWithWeight thread weight => .ok (s.spawnWithWeight thread weight, none)
  | .unblockThread id => do
    let s' ← s.unblockThread id
    pure (s', none)
  | .tickPrepare currentTick => s.tickPrepare p .bootstrap currentTick
  | .blockCurrentAndPrepareSwitch currentTick =>
    s.blockCurrentAndPrepareSwitch p .bootstrap currentTick

def Step (p : Profile) (s : EevdfScheduler) (e : Op × Option Switch) (s' : EevdfScheduler) : Prop :=
  s.apply p e.1 = .ok (s', e.2)

instance (p : Profile) (s : EevdfScheduler) (e : Op × Option Switch) (s' : EevdfScheduler) :
    Decidable (Step p s e s') := inferInstanceAs (Decidable (_ = _))

variable {s s' : EevdfScheduler} {p : Profile} {b : CtxPtr} {t : Nat} {r : Option Switch}

theorem Valid.new : EevdfScheduler.new.Valid := ⟨rfl, by simp [EevdfScheduler.new], by simp [EevdfScheduler.new]⟩

theorem Valid.push (h : s.Valid) (thread : Thread) (m : ThreadMeta) (hm : 1 ≤ m.weight) :
    ({ s with threads := s.threads ++ [thread], metadata := s.metadata ++ [m] } :
      EevdfScheduler).Valid := by
  refine ⟨by simp [h.lengths], ?_, ?_⟩
  · intro x hx
    simp only [List.mem_append, List.mem_singleton] at hx
    cases hx with
    | inl hx => exact h.weights x hx
    | inr hx => exact hx ▸ hm
  · intro i hi
    have hlt := h.current i hi
    simp only [List.length_append, List.length_singleton]
    omega

theorem Valid.set (h : s.Valid) {i : Nat} {m : ThreadMeta} (hi : s.metadata[i]? = some m) (x : Bool) :
    ({ s with metadata := s.metadata.set i { m with blocked := x } } : EevdfScheduler).Valid := by
  refine ⟨by simp [h.lengths], ?_, h.current⟩
  intro y hy
  cases List.mem_or_eq_of_mem_set hy with
  | inl hy => exact h.weights y hy
  | inr hy =>
    rw [hy]
    exact h.weights m (List.mem_of_getElem? hi)

theorem Valid.charged (h : s.Valid) (hc : Charged s s') : s'.Valid := by
  refine ⟨by rw [hc.threads, shape_length hc.shape, h.lengths], ?_, ?_⟩
  · intro m hm
    have hs : (m.weight, m.blocked) ∈ shape s.metadata := by
      rw [← hc.shape]
      exact List.mem_map_of_mem hm
    obtain ⟨m', hm', he⟩ := List.mem_map.mp hs
    have hw := h.weights m' hm'
    simp only [Prod.mk.injEq] at he
    omega
  · rw [hc.current, hc.threads]
    exact h.current

theorem tickPrepare_shape (h : s.tickPrepare p b t = .ok (s', r)) :
    s'.threads = s.threads ∧ shape s'.metadata = shape s.metadata ∧
      ∀ j, s.current ≠ some j → s'.metadata[j]? = s.metadata[j]? := by
  obtain ⟨_, rfl, _⟩ | ⟨_, c, _, hc, hres⟩ := tickPrepare_cases h
  · exact ⟨rfl, rfl, fun _ _ => rfl⟩
  · have hs : s'.threads = c.updateMin.threads ∧ s'.metadata = c.updateMin.metadata := by
      obtain ⟨_, rfl, _⟩ | ⟨n, _, ⟨_, rfl, _⟩ | ⟨_, rfl, _⟩⟩ := hres <;> exact ⟨rfl, rfl⟩
    rw [hs.1, hs.2]
    exact ⟨hc.threads, hc.shape, hc.others⟩

/-- After a tick on a non-empty scheduler either nobody can run or the current
thread can. -/
theorem tickPrepare_dispatch (h : s.tickPrepare p b t = .ok (s', r)) (hne : s.threads ≠ []) :
    AllBlocked s'.metadata ∨ ∃ i, s'.current = some i ∧ RunnableAt s'.metadata i := by
  obtain ⟨he, _⟩ | ⟨_, c, _, hc, ⟨hn, rfl, _⟩ | ⟨n, hn, ⟨hk, rfl, _⟩ | ⟨_, rfl, _⟩⟩⟩ :=
    tickPrepare_cases h
  · exact absurd he hne
  · exact Or.inl (nextIdx_none hn)
  · exact Or.inr ⟨n, by rw [hc.current, hk.1], nextIdx_some hn⟩
  · exact Or.inr ⟨n, rfl, nextIdx_some hn⟩

theorem tickPrepare_pair (h : s.tickPrepare p b t = .ok (s', r)) {x : Switch} (hr : r = some x) :
    ∃ i, s'.current = some i ∧ x = (ctxOf b s.current, .thread i) := by
  obtain ⟨_, _, h0⟩ | ⟨_, c, _, hc, ⟨_, _, h0⟩ | ⟨n, hn, ⟨_, _, h0⟩ | ⟨_, rfl, h0⟩⟩⟩ :=
    tickPrepare_cases h
  · exact absurd (hr.symm.trans h0) (by simp)
  · exact absurd (hr.symm.trans h0) (by simp)
  · exact absurd (hr.symm.trans h0) (by simp)
  · exact ⟨n, rfl, Option.some.inj (hr.symm.trans h0)⟩

theorem tickPrepare_keep (h : s.tickPrepare p b t = .ok (s', r)) (hr : r = none) :
    s'.current = s.current := by
  obtain ⟨_, rfl, _⟩ | ⟨_, c, _, hc, ⟨_, rfl, _⟩ | ⟨n, hn, ⟨_, rfl, _⟩ | ⟨_, _, h0⟩⟩⟩ :=
    tickPrepare_cases h
  · rfl
  · exact hc.current
  · exact hc.current
  · exact absurd (h0.symm.trans hr) (by simp)

theorem Valid.tickPrepare (hv : s.Valid) (h : s.tickPrepare p b t = .ok (s', r)) : s'.Valid := by
  obtain ⟨_, rfl, _⟩ | ⟨_, c, _, hc, hres⟩ := tickPrepare_cases h
  · exact hv
  · have hv' := hv.charged hc
    obtain ⟨_, rfl, _⟩ | ⟨n, hn, ⟨_, rfl, _⟩ | ⟨_, rfl, _⟩⟩ := hres
    · exact hv'
    · exact hv'
    · refine ⟨hv'.lengths, hv'.weights, ?_⟩
      intro i hi
      have hlt := (nextIdx_some hn).lt
      rw [← hv'.lengths] at hlt
      simp only [Option.some.injEq] at hi
      exact hi ▸ hlt

theorem Valid.block (hv : s.Valid) (h : s.blockCurrentAndPrepareSwitch p b t = .ok (s', r)) :
    s'.Valid := by
  obtain ⟨_, h⟩ | ⟨i, m, hc, hi, h⟩ := block_cases h
  · exact hv.tickPrepare h
  · exact (hv.set hi true).tickPrepare h

theorem Valid.unblock {id : ThreadId} (hv : s.Valid) (h : s.unblockThread id = .ok s') :
    s'.Valid := by
  obtain ⟨rfl, _⟩ | ⟨i, _, m, _, _, hi, rfl⟩ := unblockThread_ok h
  · exact hv
  · exact hv.set hi false

theorem block_threads (h : s.blockCurrentAndPrepareSwitch p b t = .ok (s', r)) :
    s'.threads = s.threads := by
  cases block_cases h with
  | inl h => exact (tickPrepare_shape h.2).1
  | inr h =>
    obtain ⟨i, m, _, _, h⟩ := h
    exact (tickPrepare_shape h).1

theorem unblock_frame {id : ThreadId} (h : s.unblockThread id = .ok s') :
    s'.threads = s.threads ∧ s'.current = s.current := by
  cases unblockThread_ok h with
  | inl h => exact ⟨by rw [h.1], by rw [h.1]⟩
  | inr h =>
    obtain ⟨i, x, m, _, _, _, rfl⟩ := h
    exact ⟨rfl, rfl⟩

theorem Valid.step {e : Op × Option Switch} (hv : s.Valid) (h : Step p s e s') : s'.Valid := by
  obtain ⟨op, r⟩ := e
  cases op with
  | spawn thread =>
    cases h
    exact hv.push thread _ (by simp [ThreadMeta.new, defaultWeight])
  | spawnWithWeight thread weight =>
    cases h
    exact hv.push thread _ (le_max_right weight 1)
  | unblockThread id =>
    simp only [Step, apply, bind_eq_ok, pure_eq_ok, Prod.mk.injEq] at h
    obtain ⟨_, hu, rfl, _⟩ := h
    exact hv.unblock hu
  | tickPrepare currentTick => exact hv.tickPrepare h
  | blockCurrentAndPrepareSwitch currentTick => exact hv.block h

/-- In the marked scheduler exactly the other non-blocked threads can run. -/
theorem runnableAt_marked {i j : Nat} {m : ThreadMeta} {ms : List ThreadMeta}
    (hi : ms[i]? = some m) :
    RunnableAt (ms.set i { m with blocked := true }) j ↔ j ≠ i ∧ RunnableAt ms j :=
  (flag_set hi).trans (or_iff_right fun h => Bool.noConfusion h.2)

/-- Blocking the current thread switches exactly when another thread can run, and
then to one of those. -/
theorem block_switch {i : Nat} (hv : s.Valid) (hcur : s.current = some i)
    (h : s.blockCurrentAndPrepareSwitch p b t = .ok (s', r)) :
    (r = none ∧ s'.current = some i ∧ ∀ j, j ≠ i → ¬ RunnableAt s.metadata j) ∨
    ∃ j, j ≠ i ∧ RunnableAt s.metadata j ∧ s'.current = some j ∧ r = some (.thread i, .thread j) := by
  obtain ⟨hn, _⟩ | ⟨i', m, hc, hi, h⟩ := block_cases h
  · rw [hcur] at hn
    cases hn
  · rw [hcur, Option.some.injEq] at hc
    subst hc
    have hmark (j : Nat) := runnableAt_marked (j := j) hi
    obtain ⟨he, _⟩ | ⟨_, c, _, hch, ⟨hn, rfl, hr⟩ | ⟨n, hn, ⟨hk, _, _⟩ | ⟨_, rfl, hr⟩⟩⟩ :=
      tickPrepare_cases h
    · have hlt := hv.current i hcur
      have he' : s.threads = [] := he
      simp [he'] at hlt
    · refine Or.inl ⟨hr, hch.current.trans hcur, ?_⟩
      intro j hj hrun
      have hall := allBlocked_iff.mp (nextIdx_none hn) j
      rw [runnableAt_of_shape hch.shape, hmark] at hall
      exact hall ⟨hj, hrun⟩
    · have hrun := nextIdx_some hn
      rw [runnableAt_of_shape hch.shape, hmark] at hrun
      exact absurd (Option.some.inj (hk.1.symm.trans hcur)) hrun.1
    · have hrun := nextIdx_some hn
      rw [runnableAt_of_shape hch.shape, hmark] at hrun
      exact Or.inr ⟨n, hrun.1, hrun.2, rfl, by rw [hr, hcur]; rfl⟩

theorem onlyOverflow_virtualDeadline (m : ThreadMeta) (ts w : Nat) :
    OnlyOverflow p (m.virtualDeadline p ts w) := by
  unfold ThreadMeta.virtualDeadline
  by_cases hw : m.weight = 0
  · rw [if_pos hw]
    exact onlyOverflow_ok _
  · rw [if_neg hw]
    exact onlyOverflow_bind (onlyOverflow_fit p _) fun _ _ =>
      onlyOverflow_bind (onlyOverflow_fit p _) fun _ _ => onlyOverflow_fit p _

theorem Valid.index_metadata (hv : s.Valid) {i : Nat} (hi : s.current = some i) :
    ∃ m, index s.metadata i = .ok m := by
  have hlt := hv.current i hi
  rw [hv.lengths] at hlt
  exact ⟨s.metadata[i], index_eq_ok.mpr (by simp [hlt])⟩

theorem Valid.index_threads {i : Nat} (hi : i < s.threads.length) :
    s.contextPtr i = .ok (.thread i) := by
  have hidx : index s.threads i = .ok s.threads[i] := index_eq_ok.mpr (by simp [hi])
  simp [contextPtr, hidx, bind, Except.bind, pure, Except.pure]

theorem onlyOverflow_charge (hv : s.Valid) (ts : Nat) : OnlyOverflow p (s.charge p ts) := by
  unfold charge
  cases hc : s.current with
  | none => exact onlyOverflow_ok s
  | some prev =>
    refine onlyOverflow_bind (onlyOverflow_sum p _) fun total _ => ?_
    by_cases ht : total = 0
    · rw [if_pos ht]
      exact onlyOverflow_ok _
    · rw [if_neg ht]
      obtain ⟨m, hm⟩ := hv.index_metadata hc
      rw [hm]
      exact onlyOverflow_bind (onlyOverflow_ok m) fun _ _ =>
        onlyOverflow_bind (onlyOverflow_fit p _) fun _ _ =>
        onlyOverflow_bind (onlyOverflow_fit p _) fun _ _ =>
        onlyOverflow_bind (onlyOverflow_fit p _) fun _ _ => onlyOverflow_ok _

theorem onlyOverflow_nextIdx (s : EevdfScheduler) (ts : Nat) : OnlyOverflow p (s.nextIdx p ts) := by
  refine onlyOverflow_bind (onlyOverflow_bind (onlyOverflow_sum p _) fun total _ => ?_)
    fun _ _ => onlyOverflow_ok _
  exact onlyOverflow_bind
    (onlyOverflow_minBy (fun e : ThreadMeta × Nat => onlyOverflow_virtualDeadline e.1 ts total) _)
    fun _ _ => onlyOverflow_ok _

theorem onlyOverflow_switchTo (hv : s.Valid) {n : Nat} (hn : n < s.threads.length) :
    OnlyOverflow p (s.switchTo b t n) := by
  have hfrom : OnlyOverflow p (s.fromCtx b) := by
    unfold fromCtx
    cases hc : s.current with
    | none => exact onlyOverflow_ok b
    | some prev => exact Or.inl ⟨_, Valid.index_threads (hv.current prev hc)⟩
  unfold switchTo
  by_cases hk : s.current = some n ∧ t ≠ 0 ∧ saturatingSub t s.lastSwitchTick < minTimeSlice
  · rw [if_pos hk]
    exact onlyOverflow_ok _
  · rw [if_neg hk, Valid.index_threads hn]
    exact onlyOverflow_bind hfrom fun _ _ => onlyOverflow_ok _

/-- On a valid scheduler a tick fails only by a checked overflow, so not at all in
a release build. -/
theorem onlyOverflow_tickPrepare (hv : s.Valid) : OnlyOverflow p (s.tickPrepare p b t) := by
  unfold EevdfScheduler.tickPrepare
  by_cases he : s.threads = []
  · rw [if_pos he]
    exact onlyOverflow_ok _
  · rw [if_neg he]
    refine onlyOverflow_bind (onlyOverflow_charge hv _) fun c hc =>
      onlyOverflow_bind (onlyOverflow_nextIdx _ _) fun next hn => ?_
    have hv' := hv.charged (updateMin_charged (charge_charged hc))
    cases next with
    | none => exact onlyOverflow_ok _
    | some n => exact onlyOverflow_switchTo hv' (hv'.lengths ▸ (nextIdx_some hn).lt)

theorem onlyOverflow_block (hv : s.Valid) :
    OnlyOverflow p (s.blockCurrentAndPrepareSwitch p b t) := by
  refine onlyOverflow_bind ?_ fun marked hm => onlyOverflow_tickPrepare ?_
  · unfold markCurrentBlocked
    cases hc : s.current with
    | none => exact onlyOverflow_ok s
    | some i =>
      obtain ⟨m, hm⟩ := hv.index_metadata hc
      simp only [setBlocked, hm]
      exact onlyOverflow_ok _
  · unfold markCurrentBlocked at hm
    cases hc : s.current with
    | none =>
      simp only [hc, Except.ok.injEq] at hm
      exact hm ▸ hv
    | some i =>
      simp only [hc] at hm
      obtain ⟨m, hi, rfl⟩ := setBlocked_ok hm
      exact hv.set hi true

theorem step_pair {e : Op × Option Switch} (h : Step p s e s') :
    (e.2 = none ∧ s'.current = s.current) ∨
    ∃ i, s'.current = some i ∧ e.2 = some (ctxOf .bootstrap s.current, .thread i) := by
  obtain ⟨op, r⟩ := e
  have htick (s₀ : EevdfScheduler) (t : Nat) (hs : s₀.current = s.current)
      (h : s₀.tickPrepare p .bootstrap t = .ok (s', r)) :
      (r = none ∧ s'.current = s.current) ∨
      ∃ i, s'.current = some i ∧ r = some (ctxOf .bootstrap s.current, .thread i) := by
    cases r with
    | none => exact Or.inl ⟨rfl, (tickPrepare_keep h rfl).trans hs⟩
    | some x =>
      obtain ⟨i, hi, hx⟩ := tickPrepare_pair h rfl
      exact Or.inr ⟨i, hi, by rw [hx, hs]⟩
  cases op with
  | spawn thread =>
    cases h
    exact Or.inl ⟨rfl, rfl⟩
  | spawnWithWeight thread weight =>
    cases h
    exact Or.inl ⟨rfl, rfl⟩
  | unblockThread id =>
    simp only [Step, apply, bind_eq_ok, pure_eq_ok, Prod.mk.injEq] at h
    obtain ⟨_, hu, rfl, hr⟩ := h
    obtain ⟨rfl, _⟩ | ⟨i, _, m, _, _, hi, rfl⟩ := unblockThread_ok hu <;> exact Or.inl ⟨hr.symm, rfl⟩
  | tickPrepare currentTick => exact htick s currentTick rfl h
  | blockCurrentAndPrepareSwitch currentTick =>
    obtain ⟨_, h⟩ | ⟨i, m, hc, hi, h⟩ := block_cases h
    · exact htick s currentTick rfl h
    · exact htick _ currentTick (by rfl) h

/-- The pairs returned along a run chain, starting from the context of the thread
that was current before it. -/
theorem run_chain {es : List (Op × Option Switch)} (h : Run (Step p) s es s') :
    (es.filterMap (·.2)).IsChain (fun x y => y.1 = x.2) ∧
      ∀ x ∈ (es.filterMap (·.2)).head?, x.1 = ctxOf .bootstrap s.current := by
  induction h with
  | nil s => simp
  | @cons s t u e es hs _ ih =>
    obtain ⟨hr, hcur⟩ | ⟨i, hcur, hr⟩ := step_pair hs
    · rw [List.filterMap_cons_none hr, ← hcur]
      exact ih
    · rw [List.filterMap_cons_some hr]
      rw [hcur] at ih
      refine ⟨List.isChain_cons.mpr ⟨?_, ih.1⟩, by simp⟩
      intro y hy
      exact ih.2 y hy

/-- A blocked thread is never dispatched, in any run of scheduler operations with
any ticks and ids. The calls fail only by a checked overflow. -/
theorem run_never_dispatches_blocked (p : Profile) (es : List (Op × Option Switch))
    (s : EevdfScheduler) (h : Run (Step p) EevdfScheduler.new es s) :
    (s.threads.length = s.metadata.length ∧ (∀ m ∈ s.metadata, 1 ≤ m.weight) ∧
      ∀ i, s.current = some i → i < s.threads.length) ∧
    (es.filterMap (·.2)).IsChain (fun x y => y.1 = x.2) ∧
    (∀ op t s' r, op = Op.tickPrepare t ∨ op = Op.blockCurrentAndPrepareSwitch t →
      s.apply p op = .ok (s', r) →
      (s.threads ≠ [] →
        AllBlocked s'.metadata ∨ ∃ i, s'.current = some i ∧ RunnableAt s'.metadata i) ∧
      ∀ x, r = some x → ∃ i, s'.current = some i ∧ x = (ctxOf .bootstrap s.current, .thread i)) ∧
    ∀ t i, s.current = some i →
      OnlyOverflow p (s.blockCurrentAndPrepareSwitch p .bootstrap t) ∧
      ∀ s' r, s.blockCurrentAndPrepareSwitch p .bootstrap t = .ok (s', r) →
        ((∃ x, r = some x) ↔ ∃ j, j ≠ i ∧ RunnableAt s.metadata j) ∧
        (∀ x, r = some x → x.1 ≠ x.2) ∧ (r = none → s'.current = some i) := by
  have hv : s.Valid := h.invariant (fun _ _ _ hv hs => hv.step hs) Valid.new
  refine ⟨⟨hv.lengths, hv.weights, hv.current⟩, (run_chain h).1, ?_, ?_⟩
  · intro op t s' r hop happ
    refine ⟨?_, ?_⟩
    · intro hne
      cases hop with
      | inl hop =>
        subst hop
        exact tickPrepare_dispatch happ hne
      | inr hop =>
        subst hop
        obtain ⟨_, h'⟩ | ⟨i, m, _, _, h'⟩ := block_cases happ
        · exact tickPrepare_dispatch h' hne
        · exact tickPrepare_dispatch h' hne
    · intro x hx
      obtain ⟨hn, _⟩ | ⟨i, hi, hr⟩ := step_pair (e := (op, r)) happ
      · exact absurd (hx.symm.trans hn) (by simp)
      · exact ⟨i, hi, Option.some.inj (hx.symm.trans hr)⟩
  · intro t i hi
    refine ⟨onlyOverflow_block hv, ?_⟩
    intro s' r hb
    obtain ⟨rfl, hcur, hno⟩ | ⟨j, hj, hrun, _, rfl⟩ := block_switch hv hi hb
    · refine ⟨⟨by simp, ?_⟩, by simp, fun _ => hcur⟩
      intro hex
      obtain ⟨j, hj, hrun⟩ := hex
      exact absurd hrun (hno j hj)
    · refine ⟨⟨fun _ => ⟨j, hj, hrun⟩, fun _ => ⟨_, rfl⟩⟩, ?_, by simp⟩
      intro x hx
      cases hx
      simpa using Ne.symm hj

def twoThreads : EevdfScheduler := ⟨[⟨7⟩, ⟨8⟩], [⟨0, 2, false⟩, ⟨0, 1, false⟩], some 0, 0, 1⟩

def twoThreadsRun : List (Op × Option Switch) :=
  [(.spawnWithWeight ⟨7⟩ 2, none), (.spawnWithWeight ⟨8⟩ 1, none),
    (.tickPrepare 1, some (.bootstrap, .thread 0))]

theorem twoThreads_run : Run (Step .dev) EevdfScheduler.new twoThreadsRun twoThreads :=
  Run.cons rfl (Run.cons rfl (Run.cons rfl (Run.nil _)))

theorem twoThreads_block_switches :
    ∃ s' x, twoThreads.blockCurrentAndPrepareSwitch .dev .bootstrap 2 = .ok (s', some x) ∧
      x.1 ≠ x.2 := by
  have h := (run_never_dispatches_blocked .dev _ _ twoThreads_run).2.2.2 2 0 rfl
  exact ⟨_, _, rfl, (h.2 _ _ rfl).2.1 _ rfl⟩

end EevdfScheduler
end MoltOS.Eevdf
