import MoltOS.EevdfBlocked
import MoltOS.EevdfFair

/-! When virtual time goes back. `min_vruntime` is recomputed as a plain minimum, a
spawned thread starts at vruntime zero and a woken one keeps the vruntime it blocked
with, so the next `tick_prepare` lowers `min_vruntime` exactly when such a thread is
behind it. -/
namespace MoltOS.Eevdf
open MoltOS.Rust MoltOS.Transition

namespace EevdfScheduler
variable {s s' s₁ s₂ : EevdfScheduler} {e : Op × Option Switch} {b : CtxPtr} {t low j : Nat}
  {r : Option Switch}

def Behind (s : EevdfScheduler) (low j : Nat) : Prop :=
  ∃ m, s.metadata[j]? = some m ∧ m.blocked = false ∧ m.vruntime < low

/- Not among the threads that could run in `s`: not spawned yet, or blocked. -/
def Late (s : EevdfScheduler) (j : Nat) : Prop := s.metadata.length ≤ j ∨ BlockedAt s.metadata j

def CurrentAhead (s : EevdfScheduler) : Prop :=
  ∀ i m, s.current = some i → s.metadata[i]? = some m → s.minVruntime ≤ m.vruntime

def Settled (s : EevdfScheduler) : Prop :=
  ∀ m ∈ s.metadata, m.blocked = false → s.minVruntime ≤ m.vruntime

theorem updateMin_settled (s : EevdfScheduler) : s.updateMin.Settled := by
  intro m hm hb
  obtain ⟨i, hi⟩ := List.mem_iff_getElem?.mp hm
  exact (updateMin_isMin (s := s) ⟨m, hi, hb⟩).2 ⟨m, hm, hb, rfl⟩

theorem updateMin_of_allBlocked (h : AllBlocked s.metadata) :
    s.updateMin.minVruntime = s.minVruntime := by
  simp [updateMin, runnable_of_allBlocked h]

theorem charge_minVruntime {p : Profile} {ts : Nat} (h : s.charge p ts = .ok s') :
    s'.minVruntime = s.minVruntime := by
  obtain ⟨rfl, _⟩ | ⟨_, _, _, _, _, _, _, _, _, _, _, _, _, rfl⟩ := charge_cases h
  · rfl
  · rfl

/-- What a tick does to the metadata and the minimum: the running thread is charged,
and the minimum moves only if somebody can run. -/
theorem tickPrepare_minVruntime (hv : s.Valid) (h : s.tickPrepare .dev b t = .ok (s', r)) :
    s'.metadata = s.chargedMeta (s.timeSlice t) ∧ s'.Settled ∧
      ((AllBlocked s'.metadata ∧ s'.minVruntime = s.minVruntime) ∨ s'.IsMinVruntime) := by
  obtain ⟨he, rfl, _⟩ | ⟨_, c, hc, hch, hres⟩ := tickPrepare_cases h
  · have hmeta : s'.metadata = [] := by
      rw [← List.length_eq_zero_iff, ← hv.lengths, he]
      rfl
    refine ⟨?_, ?_, Or.inl ⟨?_, rfl⟩⟩
    · unfold chargedMeta
      cases s'.current <;> simp [hmeta]
    · intro m hm
      simp [hmeta] at hm
    · intro m hm
      simp [hmeta] at hm
  · have hsame : s'.metadata = c.metadata ∧ s'.minVruntime = c.updateMin.minVruntime := by
      obtain ⟨_, rfl, _⟩ | ⟨n, _, ⟨_, rfl, _⟩ | ⟨_, rfl, _⟩⟩ := hres <;> exact ⟨rfl, rfl⟩
    have hset := updateMin_settled c
    refine ⟨hsame.1.trans (charge_dev hc), ?_, ?_⟩
    · intro m hm hb
      rw [hsame.2]
      exact hset m (hsame.1 ▸ hm) hb
    · by_cases hall : AllBlocked c.metadata
      · refine Or.inl ⟨by rw [hsame.1]; exact hall, ?_⟩
        rw [hsame.2, updateMin_of_allBlocked hall, charge_minVruntime hc]
      · right
        rw [allBlocked_iff, not_forall] at hall
        obtain ⟨i, hi⟩ := hall
        have hmin := updateMin_isMin (not_not.mp hi)
        unfold IsMinVruntime at hmin ⊢
        rw [hsame.1, hsame.2]
        exact hmin

theorem chargedMeta_le {ts : Nat} {m : ThreadMeta} (h : (s.chargedMeta ts)[j]? = some m) :
    ∃ m₀, s.metadata[j]? = some m₀ ∧ m₀.blocked = m.blocked ∧ m₀.vruntime ≤ m.vruntime := by
  obtain ⟨m₀, hm₀, rfl | ⟨_, rfl⟩⟩ := chargedMeta_getElem? h
  · exact ⟨m, hm₀, rfl, le_rfl⟩
  · exact ⟨m₀, hm₀, rfl, le_charge m₀ _ _⟩

/-- One tick lowers the minimum exactly when a runnable thread is behind it. -/
theorem tickPrepare_rewinds_iff (hv : s.Valid) (ha : s.CurrentAhead)
    (h : s.tickPrepare .dev b t = .ok (s', r)) :
    s'.minVruntime < s.minVruntime ↔ ∃ j, s.Behind s.minVruntime j := by
  obtain ⟨hmeta, hset, hmin⟩ := tickPrepare_minVruntime hv h
  constructor
  · intro hlt
    obtain ⟨_, he⟩ | hmin := hmin
    · omega
    · obtain ⟨m, hm, hb, hvr⟩ := hmin.1
      obtain ⟨j, hj⟩ := List.mem_iff_getElem?.mp hm
      rw [hmeta] at hj
      obtain ⟨m₀, hm₀, hb₀, hle⟩ := chargedMeta_le hj
      exact ⟨j, m₀, hm₀, hb₀.trans hb, by omega⟩
  · intro hbehind
    obtain ⟨j, m, hj, hb, hlt⟩ := hbehind
    have hne : s.current ≠ some j := fun hc => absurd (ha j m hc hj) (by omega)
    have hj' := ((tickPrepare_shape h).2.2 j hne).trans hj
    exact (hset m (List.mem_of_getElem? hj') hb).trans_lt hlt

theorem CurrentAhead.tickPrepare (hv : s.Valid) (ha : s.CurrentAhead)
    (h : s.tickPrepare .dev b t = .ok (s', r)) : s'.CurrentAhead := by
  obtain ⟨hmeta, hset, hmin⟩ := tickPrepare_minVruntime hv h
  intro i m hi hm
  obtain hrun | ⟨hall, hcur, _⟩ := tickPrepare_current hv h hi
  · obtain ⟨m', hm', hb⟩ := hrun
    obtain rfl := Option.some.inj (hm'.symm.trans hm)
    exact hset m' (List.mem_of_getElem? hm) hb
  · rw [hmeta] at hm
    obtain ⟨m₀, hm₀, _, hle⟩ := chargedMeta_le hm
    have hlow := ha i m₀ hcur hm₀
    obtain ⟨_, he⟩ | hmin := hmin
    · omega
    · obtain ⟨x, hx, hb, _⟩ := hmin.1
      rw [hall x hx] at hb
      cases hb

structure Kept (s s' : EevdfScheduler) : Prop where
  current : s'.current = s.current
  minVruntime : s'.minVruntime = s.minVruntime
  vruntime : ∀ (j : Nat) (m : ThreadMeta), s.metadata[j]? = some m →
    ∃ m' : ThreadMeta, s'.metadata[j]? = some m' ∧ m'.vruntime = m.vruntime

theorem Kept.refl (s : EevdfScheduler) : Kept s s := ⟨rfl, rfl, fun _ m hm => ⟨m, hm, rfl⟩⟩

theorem Kept.trans (h : Kept s s₁) (k : Kept s₁ s₂) : Kept s s₂ := by
  refine ⟨k.current.trans h.current, k.minVruntime.trans h.minVruntime, ?_⟩
  intro j m hm
  obtain ⟨m₁, hm₁, he₁⟩ := h.vruntime j m hm
  obtain ⟨m₂, hm₂, he₂⟩ := k.vruntime j m₁ hm₁
  exact ⟨m₂, hm₂, he₂.trans he₁⟩

theorem Kept.push (s : EevdfScheduler) (thread : Thread) (m : ThreadMeta) :
    Kept s { s with threads := s.threads ++ [thread], metadata := s.metadata ++ [m] } := by
  refine ⟨rfl, rfl, ?_⟩
  intro j x hx
  have hlt := (List.getElem?_eq_some_iff.mp hx).1
  exact ⟨x, by rw [List.getElem?_append_left hlt]; exact hx, rfl⟩

theorem Kept.set {i : Nat} {m : ThreadMeta} (hi : s.metadata[i]? = some m) (x : Bool) :
    Kept s { s with metadata := s.metadata.set i { m with blocked := x } } := by
  refine ⟨rfl, rfl, ?_⟩
  intro j y hy
  by_cases hj : i = j
  · subst hj
    obtain rfl := Option.some.inj (hi.symm.trans hy)
    have hlt := (List.getElem?_eq_some_iff.mp hi).1
    exact ⟨{ m with blocked := x }, by simp [hlt], rfl⟩
  · exact ⟨y, by simp [List.getElem?_set_ne hj, hy], rfl⟩

theorem Kept.currentAhead (h : Kept s s') (hv : s.Valid) (ha : s.CurrentAhead) :
    s'.CurrentAhead := by
  intro i m hi hm
  rw [h.current] at hi
  obtain ⟨m₀, hm₀⟩ := hv.index_metadata hi
  have hm₀ := index_eq_ok.mp hm₀
  obtain ⟨m', hm', he⟩ := h.vruntime i m₀ hm₀
  obtain rfl := Option.some.inj (hm'.symm.trans hm)
  rw [h.minVruntime, he]
  exact ha i m₀ hi hm₀

/-- A step that does not schedule changes no vruntime; one that does ticks a scheduler
that differs from `s` in blocked flags only. -/
theorem step_kept (h : Step .dev s e s') :
    (e.1.tick? = none ∧ Kept s s') ∨
    ∃ t s₀, e.1.tick? = some t ∧ Kept s s₀ ∧ (s.Valid → s₀.Valid) ∧
      (∀ j, s₀.Behind s.minVruntime j → s.Behind s.minVruntime j) ∧
      (∀ j, s.current ≠ some j → s.Behind s.minVruntime j → s₀.Behind s.minVruntime j) ∧
      s₀.tickPrepare .dev .bootstrap t = .ok (s', e.2) := by
  obtain ⟨op, r⟩ := e
  cases op with
  | spawn thread =>
    cases h
    exact Or.inl ⟨rfl, Kept.push s thread _⟩
  | spawnWithWeight thread weight =>
    cases h
    exact Or.inl ⟨rfl, Kept.push s thread _⟩
  | unblockThread id =>
    simp only [Step, apply, bind_eq_ok, pure_eq_ok, Prod.mk.injEq] at h
    obtain ⟨_, hu, rfl, _⟩ := h
    obtain ⟨rfl, _⟩ | ⟨i, _, m, _, _, hi, rfl⟩ := unblockThread_ok hu
    · exact Or.inl ⟨rfl, Kept.refl _⟩
    · exact Or.inl ⟨rfl, Kept.set hi false⟩
  | tickPrepare currentTick =>
    exact Or.inr ⟨currentTick, s, rfl, Kept.refl s, id, fun _ => id, fun _ _ => id, h⟩
  | blockCurrentAndPrepareSwitch currentTick =>
    obtain ⟨_, h⟩ | ⟨i, m, hc, hi, h⟩ := block_cases h
    · exact Or.inr ⟨currentTick, s, rfl, Kept.refl s, id, fun _ => id, fun _ _ => id, h⟩
    · refine Or.inr ⟨currentTick, _, rfl, Kept.set hi true, fun hv => hv.set hi true, ?_, ?_, h⟩
      · rintro j ⟨x, hx, hb, hlt⟩
        obtain ⟨hj, _⟩ := (runnableAt_marked hi).mp ⟨x, hx, hb⟩
        rw [List.getElem?_set_ne (Ne.symm hj)] at hx
        exact ⟨x, hx, hb, hlt⟩
      · rintro j hj ⟨x, hx, hb, hlt⟩
        have hne : i ≠ j := fun he => hj (by rw [hc, he])
        exact ⟨x, by simp [List.getElem?_set_ne hne, hx], hb, hlt⟩

theorem CurrentAhead.step (hv : s.Valid) (ha : s.CurrentAhead) (h : Step .dev s e s') :
    s'.CurrentAhead := by
  obtain ⟨_, hk⟩ | ⟨t, s₀, _, hk, hv₀, _, _, h⟩ := step_kept h
  · exact hk.currentAhead hv ha
  · exact (hk.currentAhead hv ha).tickPrepare (hv₀ hv) h

theorem run_currentAhead {es : List (Op × Option Switch)}
    (h : Run (Step .dev) EevdfScheduler.new es s) : s.CurrentAhead := by
  have hstep (u : EevdfScheduler) (e : Op × Option Switch) (v : EevdfScheduler)
      (hu : u.Valid ∧ u.CurrentAhead) (hs : Step .dev u e v) : v.Valid ∧ v.CurrentAhead :=
    ⟨hu.1.step hs, hu.2.step hu.1 hs⟩
  exact (h.invariant hstep ⟨Valid.new, fun _ _ hi => by cases hi⟩).2

theorem step_rewinds_iff (hv : s.Valid) (ha : s.CurrentAhead) (h : Step .dev s e s')
    (ht : e.1.tick? = some t) :
    s'.minVruntime < s.minVruntime ↔ ∃ j, s.Behind s.minVruntime j := by
  obtain ⟨hn, _⟩ | ⟨_, s₀, _, hk, hv₀, hdown, hup, h⟩ := step_kept h
  · rw [hn] at ht
    cases ht
  · have hiff := tickPrepare_rewinds_iff (hv₀ hv) (hk.currentAhead hv ha) h
    rw [hk.minVruntime] at hiff
    rw [hiff]
    refine exists_congr fun j => ⟨hdown j, fun hb => hup j ?_ hb⟩
    intro hc
    obtain ⟨m, hm, _, hlt⟩ := hb
    exact absurd (ha j m hc hm) (by omega)

theorem step_settled (hv : s.Valid) (h : Step .dev s e s') (ht : e.1.tick? = some t) :
    s'.Settled := by
  obtain ⟨hn, _⟩ | ⟨_, s₀, _, _, hv₀, _, _, h⟩ := step_kept h
  · rw [hn] at ht
    cases ht
  · exact (tickPrepare_minVruntime (hv₀ hv) h).2.1

def Quiet (_ : EevdfScheduler) (e : Op × Option Switch) : Prop := e.1.tick? = none

theorem run_quiet_kept {es : List (Op × Option Switch)}
    (h : Run (Restrict (Step .dev) Quiet) s es s') : Kept s s' := by
  refine h.invariant (fun s₁ e s₂ hk hs => hk.trans ?_) (Kept.refl s)
  obtain ⟨_, hk'⟩ | ⟨_, _, ht, _⟩ := step_kept hs.1
  · exact hk'
  · rw [hs.2] at ht
    cases ht

/-- Whoever is behind the minimum of the last tick was not among the threads that
could run at it. -/
theorem Settled.late (hset : s.Settled) (hk : Kept s s') (hb : s'.Behind s.minVruntime j) :
    s.Late j := by
  by_cases hj : j < s.metadata.length
  · obtain hrun | hblk := runnable_or_blocked hj
    · obtain ⟨m, hm, hbl⟩ := hrun
      obtain ⟨m', hm', he⟩ := hk.vruntime j m hm
      obtain ⟨x, hx, _, hlt⟩ := hb
      obtain rfl := Option.some.inj (hm'.symm.trans hx)
      have hle := hset m (List.mem_of_getElem? hm) hbl
      omega
    · exact Or.inr hblk
  · exact Or.inl (by omega)

/-- From one scheduling call to the next, in any run, `min_vruntime` goes down exactly
when a thread that was spawned or woken in between has a vruntime below it. -/
theorem minVruntime_rewinds_iff (es es' : List (Op × Option Switch)) (e₁ e₂ : Op × Option Switch)
    (t₁ t₂ : Nat) (s₀ s₁ s₂ s₃ : EevdfScheduler)
    (h₀ : Run (Step .dev) EevdfScheduler.new es s₀)
    (h₁ : Step .dev s₀ e₁ s₁) (ht₁ : e₁.1.tick? = some t₁)
    (h₂ : Run (Restrict (Step .dev) Quiet) s₁ es' s₂)
    (h₃ : Step .dev s₂ e₂ s₃) (ht₂ : e₂.1.tick? = some t₂) :
    s₃.minVruntime < s₁.minVruntime ↔ ∃ j, s₁.Late j ∧ s₂.Behind s₁.minVruntime j := by
  have hv₀ := run_valid h₀
  have hv₁ := hv₀.step h₁
  have ha₁ := (run_currentAhead h₀).step hv₀ h₁
  have hk := run_quiet_kept h₂
  have hv₂ : s₂.Valid := h₂.invariant (fun _ _ _ hv hs => hv.step hs.1) hv₁
  have hiff := step_rewinds_iff hv₂ (hk.currentAhead hv₁ ha₁) h₃ ht₂
  rw [hk.minVruntime] at hiff
  rw [hiff]
  refine exists_congr fun j => ⟨fun hb => ⟨?_, hb⟩, fun hb => hb.2⟩
  exact (step_settled hv₀ h₁ ht₁).late hk hb

/-- A thread that wakes with as much vruntime as the one that runs does not rewind it. -/
theorem early_wake_keeps_time : ∃ s₁ s₂ s₃ : EevdfScheduler, s₁.minVruntime = 1024 ∧
    Step .dev s₁ (.unblockThread 7, none) s₂ ∧
    Step .dev s₂ (.tickPrepare 4, some (.thread 1, .thread 0)) s₃ ∧
    ¬ s₃.minVruntime < s₁.minVruntime := by
  have h₀ : Run (Step .dev) EevdfScheduler.new
      [(.spawn ⟨7⟩, none), (.spawn ⟨8⟩, none), (.tickPrepare 1, some (.bootstrap, .thread 0)),
        (.blockCurrentAndPrepareSwitch 2, some (.thread 0, .thread 1))]
      ⟨[⟨7⟩, ⟨8⟩], [⟨1024, 1024, true⟩, ⟨0, 1024, false⟩], some 1, 0, 2⟩ := by
    refine Run.cons rfl (Run.cons rfl
      (Run.cons (t := ⟨[⟨7⟩, ⟨8⟩], [⟨0, 1024, false⟩, ⟨0, 1024, false⟩], some 0, 0, 1⟩) ?_
      (Run.cons ?_ (Run.nil _)))) <;> decide +kernel
  have h₁ : Step .dev ⟨[⟨7⟩, ⟨8⟩], [⟨1024, 1024, true⟩, ⟨0, 1024, false⟩], some 1, 0, 2⟩
      (.tickPrepare 3, some (.thread 1, .thread 1))
      ⟨[⟨7⟩, ⟨8⟩], [⟨1024, 1024, true⟩, ⟨1024, 1024, false⟩], some 1, 1024, 3⟩ := by
    decide +kernel
  have h₂ : Step .dev ⟨[⟨7⟩, ⟨8⟩], [⟨1024, 1024, true⟩, ⟨1024, 1024, false⟩], some 1, 1024, 3⟩
      (.unblockThread 7, none)
      ⟨[⟨7⟩, ⟨8⟩], [⟨1024, 1024, false⟩, ⟨1024, 1024, false⟩], some 1, 1024, 3⟩ := by
    decide +kernel
  have h₃ : Step .dev ⟨[⟨7⟩, ⟨8⟩], [⟨1024, 1024, false⟩, ⟨1024, 1024, false⟩], some 1, 1024, 3⟩
      (.tickPrepare 4, some (.thread 1, .thread 0))
      ⟨[⟨7⟩, ⟨8⟩], [⟨1024, 1024, false⟩, ⟨1536, 1024, false⟩], some 0, 1024, 4⟩ := by
    decide +kernel
  refine ⟨_, _, _, rfl, h₂, h₃, ?_⟩
  rw [minVruntime_rewinds_iff _ _ _ _ 3 4 _ _ _ _ h₀ h₁ rfl (Run.cons ⟨h₂, rfl⟩ (Run.nil _)) h₃
    rfl]
  rintro ⟨j, _, m, hm, _, hlt⟩
  match j, hm with
  | 0, hm | 1, hm =>
    cases hm
    exact absurd hlt (lt_irrefl _)

def aloneRun : List (Op × Option Switch) :=
  [(.spawn ⟨7⟩, none), (.tickPrepare 1, some (.bootstrap, .thread 0)),
    (.tickPrepare 1001, some (.thread 0, .thread 0))]

def sleeperRun : List (Op × Option Switch) :=
  [(.spawn ⟨7⟩, none), (.spawn ⟨8⟩, none), (.tickPrepare 1, some (.bootstrap, .thread 0)),
    (.blockCurrentAndPrepareSwitch 2, some (.thread 0, .thread 1)),
    (.tickPrepare 1001, some (.thread 1, .thread 1))]

/-- A spawn, or a wake, at tick 1001 rewinds `min_vruntime`, and the thread that had
been running is out of the eligible set by about a thousand ticks of charge. -/
theorem late_thread_rewinds :
    (∃ s₁ s₂ s₃, Run (Step .dev) EevdfScheduler.new aloneRun s₁ ∧
      Step .dev s₁ (.spawn ⟨8⟩, none) s₂ ∧
      Step .dev s₂ (.tickPrepare 1002, some (.thread 0, .thread 1)) s₃ ∧
      s₁.minVruntime = 1024000 ∧ s₃.minVruntime = 0 ∧ ∀ m, ¬ s₃.Eligible 0 m) ∧
    ∃ s₁ s₂ s₃, Run (Step .dev) EevdfScheduler.new sleeperRun s₁ ∧
      Step .dev s₁ (.unblockThread 7, none) s₂ ∧
      Step .dev s₂ (.tickPrepare 1002, some (.thread 1, .thread 0)) s₃ ∧
      s₁.minVruntime = 1022976 ∧ s₃.minVruntime = 1024 ∧ ∀ m, ¬ s₃.Eligible 1 m := by
  refine ⟨⟨⟨[⟨7⟩], [⟨1024000, 1024, false⟩], some 0, 1024000, 1001⟩, _,
      ⟨[⟨7⟩, ⟨8⟩], [⟨1024512, 1024, false⟩, ⟨0, 1024, false⟩], some 1, 0, 1002⟩,
      ?_, rfl, by decide +kernel, rfl, rfl, ?_⟩,
    ⟨[⟨7⟩, ⟨8⟩], [⟨1024, 1024, true⟩, ⟨1022976, 1024, false⟩], some 1, 1022976, 1001⟩,
    ⟨[⟨7⟩, ⟨8⟩], [⟨1024, 1024, false⟩, ⟨1022976, 1024, false⟩], some 1, 1022976, 1001⟩,
    ⟨[⟨7⟩, ⟨8⟩], [⟨1024, 1024, false⟩, ⟨1023488, 1024, false⟩], some 0, 1024, 1002⟩,
    ?_, by decide +kernel, by decide +kernel, rfl, rfl, ?_⟩
  · refine Run.cons rfl (Run.cons (t := ⟨[⟨7⟩], [⟨0, 1024, false⟩], some 0, 0, 1⟩) ?_
      (Run.cons ?_ (Run.nil _))) <;> decide +kernel
  · rintro m ⟨hm, _, hle⟩
    cases hm
    revert hle
    decide
  · refine Run.cons rfl (Run.cons rfl
      (Run.cons (t := ⟨[⟨7⟩, ⟨8⟩], [⟨0, 1024, false⟩, ⟨0, 1024, false⟩], some 0, 0, 1⟩) ?_
      (Run.cons (t := ⟨[⟨7⟩, ⟨8⟩], [⟨1024, 1024, true⟩, ⟨0, 1024, false⟩], some 1, 0, 2⟩) ?_
      (Run.cons ?_ (Run.nil _))))) <;> decide +kernel
  · rintro m ⟨hm, _, hle⟩
    cases hm
    revert hle
    decide

end EevdfScheduler
end MoltOS.Eevdf
