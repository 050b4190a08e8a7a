import MoltOS.EevdfBlocked
import MoltOS.EevdfCharge

/-! The scheduler on a clock. Beside it the time slices that were charged and the times
during which threads were blocked are written down, both as spans of ticks. -/
namespace MoltOS.Eevdf
open MoltOS.Rust MoltOS.Transition

structure Span where
  thread : Nat
  start : Nat
  stop : Nat
deriving DecidableEq, Repr

def Span.length (x : Span) : Nat := x.stop - x.start

namespace EevdfScheduler

/- What `tick_prepare` charges, and to whom: the slice since the last switch, unless there is
   no current thread or no weight to divide by. -/
def slice? (s : EevdfScheduler) (p : Profile) (currentTick : Nat) : Option Span :=
  match s.current with
  | none => none
  | some i =>
    if sumWeights p s.metadata = .ok 0 then none
    else some ⟨i, s.lastSwitchTick, s.lastSwitchTick + s.timeSlice currentTick⟩

def charged (s : EevdfScheduler) (p : Profile) : Op → Option Span
  | .tickPrepare currentTick => s.slice? p currentTick
  | .blockCurrentAndPrepareSwitch currentTick =>
    match s.markCurrentBlocked with
    | .ok marked => marked.slice? p currentTick
    | .error _ => none
  | _ => none

def waiting (s : EevdfScheduler) (start stop : Nat) : List Span :=
  s.metadata.zipIdx.filterMap fun e => if e.1.blocked then some ⟨e.2, start, stop⟩ else none

section Charged
variable {s s' : EevdfScheduler} {p : Profile} {b : CtxPtr} {t : Nat} {r : Option Switch} {c : Span}
  {op : Op}

theorem slice?_eq_some : s.slice? p t = some c ↔ s.current = some c.thread ∧
    sumWeights p s.metadata ≠ .ok 0 ∧ c.start = s.lastSwitchTick ∧
    c.stop = s.lastSwitchTick + max (saturatingSub t s.lastSwitchTick) minTimeSlice := by
  obtain ⟨i, start, stop⟩ := c
  unfold slice? timeSlice
  cases hc : s.current with
  | none => simp
  | some j =>
    by_cases hw : sumWeights p s.metadata = .ok 0
    · simp [hw]
    · simp only [if_neg hw, Option.some.injEq, Span.mk.injEq, Option.isSome_some, if_true]
      constructor
      · rintro ⟨rfl, rfl, rfl⟩
        exact ⟨rfl, hw, rfl, rfl⟩
      · rintro ⟨rfl, _, rfl, rfl⟩
        exact ⟨rfl, rfl, rfl⟩

/-- A charge is to the current thread, for the slice since the last switch. -/
theorem charged_spec (h : s.charged p op = some c) : s.current = some c.thread ∧
    c.start = s.lastSwitchTick ∧ ∃ t, op.tick? = some t ∧
      c.stop = s.lastSwitchTick + max (saturatingSub t s.lastSwitchTick) minTimeSlice := by
  cases op with
  | spawn thread => cases h
  | spawnWithWeight thread weight => cases h
  | unblockThread id => cases h
  | tickPrepare t =>
    obtain ⟨hcur, _, hstart, hstop⟩ := slice?_eq_some.mp h
    exact ⟨hcur, hstart, t, rfl, hstop⟩
  | blockCurrentAndPrepareSwitch t =>
    simp only [charged] at h
    split at h
    next marked hm =>
      have hframe : marked.current = s.current ∧ marked.lastSwitchTick = s.lastSwitchTick := by
        unfold markCurrentBlocked at hm
        split at hm
        · cases hm
          exact ⟨rfl, rfl⟩
        · obtain ⟨_, _, rfl⟩ := setBlocked_ok hm
          exact ⟨rfl, rfl⟩
      obtain ⟨hcur, _, hstart, hstop⟩ := slice?_eq_some.mp h
      rw [hframe.2] at hstart hstop
      exact ⟨hframe.1 ▸ hcur, hstart, t, rfl, hstop⟩
    · cases h

theorem sumWeights_of_allBlocked {ms : List ThreadMeta} (h : AllBlocked ms) :
    sumWeights p ms = .ok 0 := by
  unfold sumWeights
  rw [runnable_of_allBlocked h]
  rfl

theorem tickPrepare_clock (h : s.tickPrepare p b t = .ok (s', r)) :
    (r = none ∧ s'.current = s.current ∧ s'.lastSwitchTick = s.lastSwitchTick ∧
      (s.threads ≠ [] → ∀ c, s.slice? p t = some c → t ≤ s.lastSwitchTick)) ∨
    ∃ n, r ≠ none ∧ s'.current = some n ∧ RunnableAt s'.metadata n ∧ s'.lastSwitchTick = t := by
  obtain ⟨he, rfl, hr⟩ | ⟨_, c, _, hch, ⟨hn, rfl, hr⟩ | ⟨n, hn, ⟨hk, rfl, hr⟩ | ⟨_, rfl, hr⟩⟩⟩ :=
    tickPrepare_cases h
  · exact Or.inl ⟨hr, rfl, rfl, fun hne => absurd he hne⟩
  · refine Or.inl ⟨hr, hch.current, hch.lastSwitchTick, fun _ x hx => ?_⟩
    have hall := allBlocked_iff.mp (nextIdx_none hn)
    simp only [runnableAt_of_shape hch.shape] at hall
    exact absurd (sumWeights_of_allBlocked (allBlocked_iff.mpr hall)) (slice?_eq_some.mp hx).2.1
  · exact Or.inl ⟨hr, hch.current, hch.lastSwitchTick, fun _ _ _ => hk.2.2⟩
  · exact Or.inr ⟨n, by simp [hr], rfl, nextIdx_some hn, rfl⟩

theorem charged_block_none (hn : s.current = none) :
    s.charged p (.blockCurrentAndPrepareSwitch t) = s.slice? p t := by
  simp [charged, markCurrentBlocked, hn]

theorem charged_block {i : Nat} {m : ThreadMeta} (hc : s.current = some i)
    (hi : s.metadata[i]? = some m) :
    s.charged p (.blockCurrentAndPrepareSwitch t) =
      ({ s with metadata := s.metadata.set i { m with blocked := true } } :
        EevdfScheduler).slice? p t := by
  have hidx : index s.metadata i = .ok m := index_eq_ok.mpr hi
  simp [charged, markCurrentBlocked, hc, setBlocked, hidx, bind, Except.bind, pure, Except.pure]

structure SameAccounts (s s' : EevdfScheduler) : Prop where
  current : s'.current = s.current
  lastSwitchTick : s'.lastSwitchTick = s.lastSwitchTick
  entries : ∀ (i : Nat) (m : ThreadMeta), s.metadata[i]? = some m →
    ∃ m', s'.metadata[i]? = some m' ∧ m'.vruntime = m.vruntime ∧ m'.weight = m.weight

theorem SameAccounts.refl (s : EevdfScheduler) : SameAccounts s s :=
  ⟨rfl, rfl, fun _ m hm => ⟨m, hm, rfl, rfl⟩⟩

theorem getElem?_set_blocked {ms : List ThreadMeta} {i j : Nat} {m x : ThreadMeta}
    (hj : ms[j]? = some x) (b : Bool) (hm : ms[i]? = some m) :
    ∃ m', (ms.set j { x with blocked := b })[i]? = some m' ∧
      m'.vruntime = m.vruntime ∧ m'.weight = m.weight := by
  by_cases he : j = i
  · subst he
    obtain rfl := Option.some.inj (hj.symm.trans hm)
    refine ⟨{ x with blocked := b }, ?_, rfl, rfl⟩
    simp [(List.getElem?_eq_some_iff.mp hm).1]
  · exact ⟨m, (List.getElem?_set_ne he).trans hm, rfl, rfl⟩

theorem sameAccounts_set {j : Nat} {x : ThreadMeta} (hj : s.metadata[j]? = some x) (b : Bool) :
    SameAccounts s { s with metadata := s.metadata.set j { x with blocked := b } } :=
  ⟨rfl, rfl, fun _ _ hm => getElem?_set_blocked hj b hm⟩

theorem sameAccounts_push (threads : List Thread) (x : ThreadMeta) :
    SameAccounts s { s with threads := threads, metadata := s.metadata ++ [x] } := by
  refine ⟨rfl, rfl, fun i m hm => ⟨m, ?_, rfl, rfl⟩⟩
  exact (List.getElem?_append_left (List.getElem?_eq_some_iff.mp hm).1).trans hm

/-- A call charges nobody and leaves the accounts alone, or it selects a thread at its tick,
from the state as it was or with the current thread marked. -/
theorem apply_cases (hv : s.Valid) (h : s.apply p op = .ok (s', r)) :
    (r = none ∧ s.charged p op = none ∧ SameAccounts s s') ∨
    ∃ s₀ t, op.tick? = some t ∧ s₀.Valid ∧ SameAccounts s s₀ ∧ s.charged p op = s₀.slice? p t ∧
      s₀.tickPrepare p .bootstrap t = .ok (s', r) := by
  cases op with
  | spawn thread =>
    cases h
    exact Or.inl ⟨rfl, rfl, sameAccounts_push _ _⟩
  | spawnWithWeight thread weight =>
    cases h
    exact Or.inl ⟨rfl, rfl, sameAccounts_push _ _⟩
  | unblockThread id =>
    simp only [apply, bind_eq_ok, pure_eq_ok, Prod.mk.injEq] at h
    obtain ⟨_, hu, rfl, hr⟩ := h
    obtain ⟨rfl, _⟩ | ⟨j, _, x, _, _, hj, rfl⟩ := unblockThread_ok hu
    · exact Or.inl ⟨hr.symm, rfl, .refl _⟩
    · exact Or.inl ⟨hr.symm, rfl, sameAccounts_set hj false⟩
  | tickPrepare t => exact Or.inr ⟨s, t, rfl, hv, .refl s, rfl, h⟩
  | blockCurrentAndPrepareSwitch t =>
    obtain ⟨hn, hb⟩ | ⟨j, x, hc, hj, hb⟩ := block_cases h
    · exact Or.inr ⟨s, t, rfl, hv, .refl s, charged_block_none hn, hb⟩
    · exact Or.inr ⟨_, t, rfl, hv.set hj true, sameAccounts_set hj true, charged_block hc hj, hb⟩

/-- One call either leaves the current thread and the time of the last switch alone, and then
a charge it makes is not for time that has passed, or it switches. -/
theorem apply_clock (hv : s.Valid) (h : s.apply p op = .ok (s', r)) :
    (r = none ∧ s'.current = s.current ∧ s'.lastSwitchTick = s.lastSwitchTick ∧
      ∀ c, s.charged p op = some c → ∀ t, op.tick? = some t → t ≤ s.lastSwitchTick) ∨
    ∃ n t, op.tick? = some t ∧ r ≠ none ∧ s'.current = some n ∧ RunnableAt s'.metadata n ∧
      s'.lastSwitchTick = t := by
  obtain ⟨hr, hnone, hsame⟩ | ⟨s₀, t, htick, hv₀, hsame, hcharged, hcall⟩ := apply_cases hv h
  · refine Or.inl ⟨hr, hsame.current, hsame.lastSwitchTick, fun c hc => ?_⟩
    rw [hnone] at hc
    cases hc
  · obtain ⟨hr, hcur, hlast, hkept⟩ | ⟨n, hsw⟩ := tickPrepare_clock hcall
    · refine Or.inl ⟨hr, hcur.trans hsame.current, hlast.trans hsame.lastSwitchTick,
        fun c hc t' ht' => ?_⟩
      rw [hcharged] at hc
      have hne := hv₀.threads_ne_nil (slice?_eq_some.mp hc).1
      have hle := hkept hne c hc
      rw [htick] at ht'
      cases ht'
      exact hsame.lastSwitchTick ▸ hle
    · exact Or.inr ⟨n, t, htick, hsw⟩

theorem mem_waiting {start stop : Nat} {w : Span} : w ∈ s.waiting start stop ↔
    BlockedAt s.metadata w.thread ∧ w.start = start ∧ w.stop = stop := by
  unfold waiting
  rw [List.mem_filterMap]
  constructor
  · rintro ⟨⟨m, i⟩, hm, hw⟩
    by_cases hb : m.blocked = true
    · simp only [hb, if_true, Option.some.injEq] at hw
      subst hw
      exact ⟨⟨m, List.mk_mem_zipIdx_iff_getElem?.mp hm, hb⟩, rfl, rfl⟩
    · simp [hb] at hw
  · rintro ⟨⟨m, hm, hb⟩, rfl, rfl⟩
    exact ⟨(m, w.thread), List.mk_mem_zipIdx_iff_getElem?.mpr hm, by simp [hb]⟩

/- The current thread is not blocked unless another can take over. -/
def Relieved (s : EevdfScheduler) (op : Op) : Prop :=
  ∀ t i, op = .blockCurrentAndPrepareSwitch t → s.current = some i →
    ∃ j, j ≠ i ∧ RunnableAt s.metadata j

theorem apply_keeps_current (hv : s.Valid) (hrel : s.Relieved op) {i : Nat}
    (hcur : s.current = some i) (hrun : RunnableAt s.metadata i)
    (h : s.apply p op = .ok (s', none)) : RunnableAt s'.metadata i := by
  cases op with
  | spawn thread =>
    cases h
    exact runnableAt_push _ hrun
  | spawnWithWeight thread weight =>
    cases h
    exact runnableAt_push _ hrun
  | unblockThread id =>
    simp only [apply, bind_eq_ok, pure_eq_ok, Prod.mk.injEq] at h
    obtain ⟨_, hu, rfl, _⟩ := h
    exact unblock_runnableAt hu hrun
  | tickPrepare t => exact (tickPrepare_runnableAt h).mpr hrun
  | blockCurrentAndPrepareSwitch t =>
    obtain ⟨j, hj, hjrun⟩ := hrel t i rfl hcur
    obtain ⟨_, _, hno⟩ | ⟨_, _, _, _, hr⟩ := block_switch hv hcur h
    · exact absurd hjrun (hno j hj)
    · cases hr

theorem sumWeights_of_charge {ts i : Nat} {c : EevdfScheduler} (hcur : s.current = some i)
    (h : s.charge .dev ts = .ok c) : sumWeights .dev s.metadata = .ok (totalWeight s.metadata) := by
  simp only [charge, hcur, bind_eq_ok] at h
  obtain ⟨total, hsum, _⟩ := h
  rw [hsum, sumWeights_dev hsum]

theorem tickPrepare_slice (hv : s.Valid) (h : s.tickPrepare .dev b t = .ok (s', r)) {i : Nat}
    {m : ThreadMeta} (hm : s.metadata[i]? = some m) :
    (s'.metadata[i]? = some m ∧ ∀ c, s.slice? .dev t = some c → c.thread ≠ i) ∨
    ∃ c, s.slice? .dev t = some c ∧ c.thread = i ∧
      s'.metadata[i]? = some (m.charge c.length (totalWeight s'.metadata)) := by
  have htotal := totalWeight_of_shape (tickPrepare_shape h).2.1
  have hother := (tickPrepare_shape h).2.2 i
  obtain ⟨he, _⟩ | ⟨hne, c, hc, _⟩ := tickPrepare_cases h
  · have hlt := (List.getElem?_eq_some_iff.mp hm).1
    rw [← hv.lengths, he] at hlt
    exact absurd hlt (Nat.not_lt_zero i)
  by_cases hcur : s.current = some i
  · have hsum := sumWeights_of_charge hcur hc
    by_cases hzero : totalWeight s.metadata = 0
    · left
      rw [tickPrepare_charges hne h]
      refine ⟨by simp [chargedMeta, hcur, hzero, hm], fun x hx => ?_⟩
      rw [hzero] at hsum
      exact absurd hsum (slice?_eq_some.mp hx).2.1
    · right
      have hslice : s.slice? .dev t =
          some ⟨i, s.lastSwitchTick, s.lastSwitchTick + s.timeSlice t⟩ := by
        simp [slice?, hcur, hsum, hzero]
      refine ⟨_, hslice, rfl, ?_⟩
      rw [htotal, tickPrepare_charges_current hv hcur hm (Nat.pos_of_ne_zero hzero) h]
      simp [Span.length]
  · left
    refine ⟨(hother hcur).trans hm, fun x hx he => hcur ?_⟩
    rw [(slice?_eq_some.mp hx).1, he]

/-- Without overflow the spans written down are what the vruntimes are charged with. -/
theorem apply_charges (hv : s.Valid) (h : s.apply .dev op = .ok (s', r)) {i : Nat}
    {m : ThreadMeta} (hm : s.metadata[i]? = some m) :
    ∃ m', s'.metadata[i]? = some m' ∧
      ((m'.vruntime = m.vruntime ∧ ∀ c, s.charged .dev op = some c → c.thread ≠ i) ∨
       ∃ c, s.charged .dev op = some c ∧ c.thread = i ∧
        m'.vruntime = m.vruntime + c.length * m.weight * 1024 / totalWeight s'.metadata) := by
  obtain ⟨_, hnone, hsame⟩ | ⟨s₀, t, _, hv₀, hsame, hcharged, hcall⟩ := apply_cases hv h
  · obtain ⟨m', hm', hvr, _⟩ := hsame.entries i m hm
    refine ⟨m', hm', Or.inl ⟨hvr, fun c hc => ?_⟩⟩
    rw [hnone] at hc
    cases hc
  · obtain ⟨m₀, hm₀, hvr, hweight⟩ := hsame.entries i m hm
    rw [hcharged]
    obtain ⟨hkept, hno⟩ | ⟨c, hc, hi, hpaid⟩ := tickPrepare_slice hv₀ hcall hm₀
    · exact ⟨m₀, hkept, Or.inl ⟨hvr, hno⟩⟩
    · refine ⟨_, hpaid, Or.inr ⟨c, hc, hi, ?_⟩⟩
      rw [← hvr, ← hweight]
      rfl

end Charged
end EevdfScheduler

structure Event where
  time : Nat
  op : Op
deriving DecidableEq, Repr

/- The scheduler, the time of the last event, the last tick it was called with, the tick of
   its first dispatch, and the two ledgers. -/
structure Timeline where
  sched : EevdfScheduler
  now : Nat
  called : Nat
  first : Option Nat
  charges : List Span
  waits : List Span
deriving DecidableEq, Repr

namespace Timeline

def new : Timeline := ⟨EevdfScheduler.new, 0, 0, none, [], []⟩

def record (s : Timeline) (p : Profile) (e : Event) (sched : EevdfScheduler)
    (r : Option Switch) : Timeline where
  sched := sched
  now := e.time
  called := if e.op.tick? = none then s.called else e.time
  first := s.first.or (r.map fun _ => e.time)
  charges := s.charges ++ (s.sched.charged p e.op).toList
  waits := s.waits ++ s.sched.waiting s.now e.time

/- Time does not go back, and a call is made with the tick it is made at. -/
def Step (p : Profile) (s : Timeline) (e : Event) (s' : Timeline) : Prop :=
  s.now ≤ e.time ∧ (∀ t, e.op.tick? = some t → t = e.time) ∧
    ∃ sched r, s.sched.apply p e.op = .ok (sched, r) ∧ s' = s.record p e sched r

def total (s : Timeline) : Nat := (s.charges.map Span.length).sum

def Later (p : Profile) (s : Timeline) (e : Event) : Prop :=
  ∀ c, s.sched.charged p e.op = some c → s.sched.lastSwitchTick < e.time

section
variable {p : Profile} {s s' : Timeline} {e : Event}

/-- Under `Later` a charge is exactly for the time since the last switch. -/
theorem charged_elapsed {c : Span} (htime : ∀ t, e.op.tick? = some t → t = e.time)
    (hlater : Later p s e) (hc : s.sched.charged p e.op = some c) :
    c.start = s.sched.lastSwitchTick ∧ c.stop = e.time := by
  obtain ⟨_, hstart, t, ht, hstop⟩ := EevdfScheduler.charged_spec hc
  have hlt := hlater c hc
  have := htime t ht
  refine ⟨hstart, ?_⟩
  rw [hstop]
  unfold saturatingSub minTimeSlice
  omega

structure Elapsed (s : Timeline) : Prop where
  valid : s.sched.Valid
  before : s.first = none → s.sched.current = none ∧ s.charges = []
  since : ∀ f, s.first = some f → f + s.total ≤ s.sched.lastSwitchTick
  called : s.sched.lastSwitchTick ≤ s.called
  now : s.called ≤ s.now

theorem Elapsed.stay {sched : EevdfScheduler} (hs : Elapsed s) (hnow : s.now ≤ e.time)
    (hvalid : sched.Valid) (hcur : sched.current = s.sched.current)
    (hlast : sched.lastSwitchTick = s.sched.lastSwitchTick)
    (hnone : s.sched.charged p e.op = none) : Elapsed (s.record p e sched none) := by
  have hcalled := hs.called
  have hle := hs.now
  have hcharges : (s.record p e sched none).charges = s.charges := by
    simp [record, hnone]
  refine ⟨hvalid, fun hf => ?_, fun f hf => ?_, ?_, ?_⟩
  · obtain ⟨hn, hempty⟩ := hs.before (by simpa [record] using hf)
    exact ⟨hcur.trans hn, hcharges.trans hempty⟩
  · have hsince := hs.since f (by simpa [record] using hf)
    simp only [total, hcharges]
    exact hlast ▸ hsince
  · simp only [record, hlast]
    split <;> omega
  · simp only [record]
    split <;> omega

/-- Before the first dispatch there is nobody to charge. -/
theorem Elapsed.charged_first (hs : Elapsed s) (hfirst : s.first = none) :
    s.sched.charged p e.op = none := by
  by_contra hc
  obtain ⟨c, hc⟩ := Option.ne_none_iff_exists'.mp hc
  have hcur := (EevdfScheduler.charged_spec hc).1
  rw [(hs.before hfirst).1] at hcur
  cases hcur

theorem Elapsed.switch {sched : EevdfScheduler} {x : Switch} (hs : Elapsed s)
    (hnow : s.now ≤ e.time) (htime : ∀ t, e.op.tick? = some t → t = e.time) (hlater : Later p s e)
    (ht : e.op.tick? = some e.time) (hvalid : sched.Valid) (hlast : sched.lastSwitchTick = e.time) :
    Elapsed (s.record p e sched (some x)) := by
  have hcalled := hs.called
  have hle := hs.now
  have hsum : (s.record p e sched (some x)).total =
      s.total + ((s.sched.charged p e.op).toList.map Span.length).sum := by
    simp [total, record]
  refine ⟨hvalid, fun hf => ?_, fun f hf => ?_, ?_, ?_⟩
  · simp [record] at hf
  · rw [hsum]
    simp only [record, hlast]
    cases hfirst : s.first with
    | none =>
      have he : e.time = f := by simpa [record, hfirst] using hf
      simp [hs.charged_first hfirst, total, (hs.before hfirst).2, he]
    | some f₀ =>
      have he : f₀ = f := by simpa [record, hfirst] using hf
      have hsince := hs.since f (he ▸ hfirst)
      cases hc : s.sched.charged p e.op with
      | none =>
        simp only [Option.toList_none, List.map_nil, List.sum_nil]
        omega
      | some c =>
        obtain ⟨hstart, hstop⟩ := charged_elapsed htime hlater hc
        simp only [Option.toList_some, List.map_cons, List.map_nil, List.sum_cons, List.sum_nil,
          Span.length, hstart, hstop]
        omega
  · simp [record, hlast, ht]
  · simp [record, ht]

theorem Elapsed.step (hs : Elapsed s) (hlater : Later p s e) (h : Step p s e s') : Elapsed s' := by
  obtain ⟨hnow, htime, sched, r, happ, rfl⟩ := h
  have hvalid : sched.Valid := hs.valid.step (e := (e.op, r)) happ
  obtain ⟨rfl, hcur, hlast, hkept⟩ | ⟨n, t, ht, hr, hcur, _, hlast⟩ :=
    EevdfScheduler.apply_clock hs.valid happ
  · -- no switch: a charge would not be later than the last one
    have hnone : s.sched.charged p e.op = none := by
      by_contra hc
      obtain ⟨c, hc⟩ := Option.ne_none_iff_exists'.mp hc
      obtain ⟨_, _, t, ht, _⟩ := EevdfScheduler.charged_spec hc
      have hlt := hlater c hc
      have := hkept c hc t ht
      have := htime t ht
      omega
    exact hs.stay hnow hvalid hcur hlast hnone
  · obtain rfl := htime t ht
    obtain ⟨x, rfl⟩ := Option.ne_none_iff_exists'.mp hr
    exact hs.switch hnow htime hlater ht hvalid hlast

theorem Elapsed.new : Elapsed new :=
  ⟨EevdfScheduler.Valid.new, fun _ => ⟨rfl, rfl⟩, nofun, le_rfl, le_rfl⟩

structure Unblocked (s : Timeline) : Prop where
  waited : ∀ w ∈ s.waits, w.stop ≤ s.now
  paid : ∀ c ∈ s.charges, c.stop ≤ s.sched.lastSwitchTick
  running : ∀ i, s.sched.current = some i → RunnableAt s.sched.metadata i ∧
    ∀ w ∈ s.waits, w.thread = i → w.stop ≤ s.sched.lastSwitchTick
  apart : ∀ c ∈ s.charges, ∀ w ∈ s.waits, c.thread = w.thread → c.stop ≤ w.start ∨ w.stop ≤ c.start

theorem Unblocked.apart_step (hs : Unblocked s) (he : Elapsed s)
    (htime : ∀ t, e.op.tick? = some t → t = e.time) (hlater : Later p s e)
    {c w : Span} (hc : c ∈ s.charges ++ (s.sched.charged p e.op).toList)
    (hw : w ∈ s.waits ++ s.sched.waiting s.now e.time) (hsame : c.thread = w.thread) :
    c.stop ≤ w.start ∨ w.stop ≤ c.start := by
  have hcalled := he.called
  have hnow := he.now
  rcases List.mem_append.mp hc with hc | hc <;> rcases List.mem_append.mp hw with hw | hw
  · exact hs.apart c hc w hw hsame
  · have hstop := hs.paid c hc
    have hstart := (EevdfScheduler.mem_waiting.mp hw).2.1
    omega
  · have hc := Option.mem_toList.mp hc
    have hrun := (hs.running _ (EevdfScheduler.charged_spec hc).1).2 w hw hsame.symm
    have hstart := (charged_elapsed htime hlater hc).1
    omega
  · have hc := Option.mem_toList.mp hc
    have hrun := (hs.running _ (EevdfScheduler.charged_spec hc).1).1
    exact absurd (hsame ▸ hrun) (EevdfScheduler.mem_waiting.mp hw).1.not_runnable

theorem Unblocked.step (hs : Unblocked s) (he : Elapsed s) (hlater : Later p s e)
    (hrel : s.sched.Relieved e.op) (h : Step p s e s') : Unblocked s' := by
  obtain ⟨hnow, htime, sched, r, happ, rfl⟩ := h
  have hcalled := he.called
  have hle := he.now
  have hwaited : ∀ w ∈ s.waits ++ s.sched.waiting s.now e.time, w.stop ≤ e.time := by
    intro w hw
    rcases List.mem_append.mp hw with hw | hw
    · exact (hs.waited w hw).trans hnow
    · exact (EevdfScheduler.mem_waiting.mp hw).2.2.le
  have hpaid : ∀ c ∈ s.charges ++ (s.sched.charged p e.op).toList, c.stop ≤ sched.lastSwitchTick := by
    intro c hc
    obtain ⟨rfl, _, hlast, hkept⟩ | ⟨n, t, ht, _, _, _, hlast⟩ :=
      EevdfScheduler.apply_clock he.valid happ <;> rcases List.mem_append.mp hc with hc | hc
    · exact hlast ▸ hs.paid c hc
    · have hc := Option.mem_toList.mp hc
      obtain ⟨_, _, t, ht, _⟩ := EevdfScheduler.charged_spec hc
      have hlt := hlater c hc
      have := hkept c hc t ht
      have := htime t ht
      omega
    · have hstop := hs.paid c hc
      have := htime t ht
      omega
    · rw [(charged_elapsed htime hlater (Option.mem_toList.mp hc)).2, hlast, htime t ht]
  refine ⟨hwaited, hpaid, ?_, fun c hc w hw => hs.apart_step he htime hlater hc hw⟩
  intro i hi
  obtain ⟨rfl, hcur, hlast, _⟩ | ⟨n, t, ht, _, hcur, hrun, hlast⟩ :=
    EevdfScheduler.apply_clock he.valid happ
  · -- the thread that keeps running is not one of those that wait
    have hi' : s.sched.current = some i := hcur ▸ hi
    obtain ⟨hbefore, hold⟩ := hs.running i hi'
    refine ⟨EevdfScheduler.apply_keeps_current he.valid hrel hi' hbefore happ, ?_⟩
    intro w hw hwi
    rcases List.mem_append.mp hw with hw | hw
    · exact hlast ▸ hold w hw hwi
    · exact absurd (hwi ▸ hbefore) (EevdfScheduler.mem_waiting.mp hw).1.not_runnable
  · obtain rfl : n = i := Option.some.inj (hcur.symm.trans hi)
    refine ⟨hrun, fun w hw _ => ?_⟩
    have := htime t ht
    exact (hwaited w hw).trans (by simp only [record]; omega)

theorem Unblocked.new : Unblocked new :=
  ⟨nofun, nofun, nofun, nofun⟩

/-- While every charge comes at a later tick than the last switch, what is charged in all is
at most the time from the first dispatch to the last call; and if besides no thread blocks
without another to take over, no thread is charged for a time it was blocked. What a call adds
to the charges is what it adds to the vruntimes, unless a sum can wrap. -/
theorem charged_within_elapsed (p : Profile) (es : List Event) (s : Timeline)
    (h : Run (Restrict (Step p) (Later p)) new es s) :
    (s.first = none → s.charges = []) ∧
    (∀ f, s.first = some f → f + (s.charges.map Span.length).sum ≤ s.called) ∧
    (Run (Restrict (Step p) fun s e => Later p s e ∧ s.sched.Relieved e.op) new es s →
      ∀ c ∈ s.charges, ∀ w ∈ s.waits, c.thread = w.thread → c.stop ≤ w.start ∨ w.stop ≤ c.start) ∧
    (p = .dev → ∀ e s', Step p s e s' → ∃ paid : Option Span,
      s'.charges = s.charges ++ paid.toList ∧
      ∀ (i : Nat) (m : ThreadMeta), s.sched.metadata[i]? = some m →
        ∃ m', s'.sched.metadata[i]? = some m' ∧
          ((m'.vruntime = m.vruntime ∧ ∀ c, paid = some c → c.thread ≠ i) ∨
           ∃ c, paid = some c ∧ c.thread = i ∧ m'.vruntime =
            m.vruntime + c.length * m.weight * 1024 / totalWeight s'.sched.metadata)) := by
  have he : Elapsed s := h.invariant (fun _ _ _ he hs => he.step hs.2 hs.1) Elapsed.new
  refine ⟨fun hf => (he.before hf).2, fun f hf => (he.since f hf).trans he.called,
    fun hrun => ?_, ?_⟩
  swap
  · rintro rfl e s' ⟨_, _, sched, r, happ, rfl⟩
    exact ⟨s.sched.charged .dev e.op, rfl,
      fun i m hm => EevdfScheduler.apply_charges he.valid happ hm⟩
  have hstep (u : Timeline) (e : Event) (v : Timeline) (hu : Elapsed u ∧ Unblocked u)
      (hs : Restrict (Step p) (fun s e => Later p s e ∧ s.sched.Relieved e.op) u e v) :
      Elapsed v ∧ Unblocked v :=
    ⟨hu.1.step hs.2.1 hs.1, hu.2.step hu.1 hs.2.1 hs.2.2 hs.1⟩
  exact (hrun.invariant hstep ⟨Elapsed.new, Unblocked.new⟩).2.apart

theorem step_of_apply {sched : EevdfScheduler} {r : Option Switch} (hnow : s.now ≤ e.time)
    (htime : e.op.tick? = none ∨ e.op.tick? = some e.time)
    (h : s.sched.apply p e.op = .ok (sched, r)) : Step p s e (s.record p e sched r) := by
  refine ⟨hnow, fun t ht => ?_, sched, r, h, rfl⟩
  rcases htime with hn | hn <;> rw [hn] at ht <;> cases ht
  rfl

def handover : List Event :=
  [⟨0, .spawn ⟨7⟩⟩, ⟨0, .spawn ⟨8⟩⟩, ⟨1, .tickPrepare 1⟩, ⟨5, .blockCurrentAndPrepareSwitch 5⟩,
    ⟨9, .unblockThread 7⟩]

theorem handover_within_elapsed : ∃ s : Timeline, s.first = some 1 ∧ s.charges = [⟨0, 1, 5⟩] ∧
    s.waits = [⟨0, 5, 9⟩] ∧ 1 + (s.charges.map Span.length).sum ≤ s.called ∧
    ∀ c ∈ s.charges, ∀ w ∈ s.waits, c.thread = w.thread → c.stop ≤ w.start ∨ w.stop ≤ c.start := by
  have hrun : Run (Restrict (Step .dev) fun s e => Later .dev s e ∧ s.sched.Relieved e.op) new
      handover _ :=
    .cons ⟨step_of_apply (by decide) (.inl rfl) rfl, nofun, nofun⟩ <|
    .cons ⟨step_of_apply (by decide) (.inl rfl) rfl, nofun, nofun⟩ <|
    .cons ⟨step_of_apply (by decide) (.inr rfl) rfl, nofun, nofun⟩ <|
    .cons ⟨step_of_apply (by decide) (.inr rfl) rfl, fun _ _ => by decide,
      by rintro _ _ - ⟨⟩; exact ⟨1, by decide, _, rfl, rfl⟩⟩ <|
    .cons ⟨step_of_apply (by decide) (.inl rfl) rfl, nofun, nofun⟩ <| .nil _
  have h := charged_within_elapsed .dev _ _ (hrun.mono fun _ _ _ hs => ⟨hs.1, hs.2.1⟩)
  exact ⟨_, rfl, rfl, rfl, h.2.1 1 rfl, h.2.2.1 hrun⟩

/-- Two calls at one tick charge a tick that has not passed, and a thread that blocked with
nobody to take over is charged for the time it waited. -/
theorem overcharged :
    (∃ es s, Run (Step .dev) new es s ∧ s.first = some 5 ∧ s.called = 5 ∧
      s.charges = [⟨0, 5, 6⟩]) ∧
    ∃ es s, Run (Step .dev) new es s ∧ (⟨1, 2, 9⟩ : Span) ∈ s.charges ∧
      (⟨1, 3, 8⟩ : Span) ∈ s.waits := by
  have hsame : Run (Step .dev) new
      [⟨0, .spawn ⟨7⟩⟩, ⟨5, .tickPrepare 5⟩, ⟨5, .tickPrepare 5⟩] _ :=
    .cons (step_of_apply (by decide) (.inl rfl) rfl) <|
    .cons (step_of_apply (by decide) (.inr rfl) rfl) <|
    .cons (step_of_apply (by decide) (.inr rfl) rfl) <| .nil _
  have hleft : Run (Step .dev) new
      [⟨0, .spawn ⟨7⟩⟩, ⟨0, .spawn ⟨8⟩⟩, ⟨1, .tickPrepare 1⟩, ⟨2, .blockCurrentAndPrepareSwitch 2⟩,
        ⟨3, .blockCurrentAndPrepareSwitch 3⟩, ⟨8, .unblockThread 7⟩, ⟨9, .tickPrepare 9⟩] _ :=
    .cons (step_of_apply (by decide) (.inl rfl) rfl) <|
    .cons (step_of_apply (by decide) (.inl rfl) rfl) <|
    .cons (step_of_apply (by decide) (.inr rfl) rfl) <|
    .cons (step_of_apply (by decide) (.inr rfl) rfl) <|
    .cons (step_of_apply (by decide) (.inr rfl) rfl) <|
    .cons (step_of_apply (by decide) (.inl rfl) rfl) <|
    .cons (step_of_apply (by decide) (.inr rfl) rfl) <| .nil _
  exact ⟨⟨_, _, hsame, rfl, rfl, rfl⟩, _, _, hleft, by decide, by decide⟩

end
end Timeline
end MoltOS.Eevdf
