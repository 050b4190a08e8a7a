import MoltOS.EevdfFair

/-! What one call charges to the running thread. The divisor is the weight of the threads
that can run, and a thread that blocks is not counted in it any more. -/
namespace MoltOS.Eevdf
open MoltOS.Rust MoltOS.Transition

theorem totalWeight_cons (m : ThreadMeta) (ms : List ThreadMeta) :
    totalWeight (m :: ms) = (if m.blocked then 0 else m.weight) + totalWeight ms := by
  unfold totalWeight runnable
  cases hb : m.blocked <;> simp [hb]

theorem totalWeight_mark {ms : List ThreadMeta} {i : Nat} {m : ThreadMeta} (hi : ms[i]? = some m)
    (hb : m.blocked = false) :
    totalWeight (ms.set i { m with blocked := true }) + m.weight = totalWeight ms := by
  induction ms generalizing i with
  | nil => simp at hi
  | cons x ms ih =>
    cases i with
    | zero =>
      have hx : x = m := by simpa using hi
      rw [List.set_cons_zero, totalWeight_cons, totalWeight_cons, hx, if_pos rfl, hb]
      simp only [Bool.false_eq_true, if_false]
      omega
    | succ i =>
      have := ih (i := i) (by simpa using hi)
      rw [List.set_cons_succ, totalWeight_cons, totalWeight_cons]
      omega

/-- Leaving `w` out of the divisor `d + w` keeps the quotient only while the remainder has
room for it. -/
theorem div_eq_div_add_iff {x d w : Nat} (hd : 0 < d) :
    x / d = x / (d + w) ↔ x % (d + w) + (x / (d + w) + 1) * w < d + w := by
  have hle : x / (d + w) ≤ x / d := Nat.div_le_div_left (Nat.le_add_right d w) hd
  have hx := Nat.div_add_mod x (d + w)
  have hlt : x / d < x / (d + w) + 1 ↔ x < (x / (d + w) + 1) * d := Nat.div_lt_iff_lt_mul hd
  generalize x / (d + w) = q at *
  generalize x % (d + w) = r at *
  have hring : (d + w) * q = q * d + q * w := by ring
  have hsucc : (q + 1) * d = q * d + d ∧ (q + 1) * w = q * w + w := ⟨by ring, by ring⟩
  constructor
  · intro he
    have := hlt.mp (by omega)
    omega
  · intro h
    have := hlt.mpr (by omega)
    omega

namespace EevdfScheduler
variable {s s' : EevdfScheduler} {b : CtxPtr} {t i : Nat} {m : ThreadMeta} {r : Option Switch}

theorem tickPrepare_charges (hne : s.threads ≠ []) (h : s.tickPrepare .dev b t = .ok (s', r)) :
    s'.metadata = s.chargedMeta (s.timeSlice t) := by
  obtain ⟨he, _⟩ | ⟨_, c, hc, _, hres⟩ := tickPrepare_cases h
  · exact absurd he hne
  · have hcharged : c.metadata = s.chargedMeta (s.timeSlice t) := charge_dev hc
    obtain ⟨_, rfl, _⟩ | ⟨n, _, ⟨_, rfl, _⟩ | ⟨_, rfl, _⟩⟩ := hres <;> exact hcharged

theorem chargedMeta_current {ts : Nat} (hcur : s.current = some i) (hm : s.metadata[i]? = some m)
    (hpos : 0 < totalWeight s.metadata) :
    (s.chargedMeta ts)[i]? = some (m.charge ts (totalWeight s.metadata)) := by
  unfold chargedMeta
  simp only [hcur, if_neg (Nat.pos_iff_ne_zero.mp hpos)]
  rw [List.getElem?_modify_eq, hm]
  rfl

theorem Valid.threads_ne_nil (hv : s.Valid) (hcur : s.current = some i) : s.threads ≠ [] := by
  intro he
  have hlt := hv.current i hcur
  rw [he] at hlt
  exact absurd hlt (Nat.not_lt_zero i)

/-- The charge of a tick on a scheduler with a running thread and somebody to run. -/
theorem tickPrepare_charges_current (hv : s.Valid) (hcur : s.current = some i)
    (hm : s.metadata[i]? = some m) (hpos : 0 < totalWeight s.metadata)
    (h : s.tickPrepare .dev b t = .ok (s', r)) :
    s'.metadata[i]? = some (m.charge (s.timeSlice t) (totalWeight s.metadata)) := by
  rw [tickPrepare_charges (hv.threads_ne_nil hcur) h]
  exact chargedMeta_current hcur hm hpos

theorem Valid.weight_pos (hv : s.Valid) (hm : s.metadata[i]? = some m) : 0 < m.weight :=
  hv.weights m (List.mem_of_getElem? hm)

theorem Valid.totalWeight_pos (hv : s.Valid) (h : RunnableAt s.metadata i) :
    0 < totalWeight s.metadata := by
  obtain ⟨m, hm, hb⟩ := h
  exact (hv.weight_pos hm).trans_le (weight_le_total (List.mem_of_getElem? hm) hb)

/-- A tick that does not overflow moves the running thread's vruntime up exactly when its
scaled share of the slice reaches the weight of all threads that can run. -/
theorem tickPrepare_grows_iff (es : List (Op × Option Switch)) (s : EevdfScheduler)
    (h : Run (Step .dev) EevdfScheduler.new es s) (i : Nat) (m : ThreadMeta)
    (hcur : s.current = some i) (hm : s.metadata[i]? = some m) (hb : m.blocked = false) (t : Nat)
    (s' : EevdfScheduler) (r : Option Switch)
    (hok : s.tickPrepare .dev .bootstrap t = .ok (s', r)) :
    ∃ m', s'.metadata[i]? = some m' ∧
      m'.vruntime = m.vruntime + s.timeSlice t * m.weight * 1024 / totalWeight s.metadata ∧
      (m.vruntime < m'.vruntime ↔ totalWeight s.metadata ≤ s.timeSlice t * m.weight * 1024) := by
  have hpos := (run_valid h).totalWeight_pos ⟨m, hm, hb⟩
  refine ⟨_, tickPrepare_charges_current (run_valid h) hcur hm hpos hok, rfl, ?_⟩
  have hdiv := @Nat.div_pos_iff (s.timeSlice t * m.weight * 1024) (totalWeight s.metadata)
  unfold ThreadMeta.charge
  simp only
  omega

theorem twoThreads_grows : ∃ s' r, twoThreads.tickPrepare .dev .bootstrap 2 = .ok (s', r) ∧
    ∃ m', s'.metadata[0]? = some m' ∧ 0 < m'.vruntime := by
  obtain ⟨m', hm', _, hgrows⟩ := tickPrepare_grows_iff _ _ twoThreads_run 0 _ rfl rfl rfl 2 _ _ rfl
  exact ⟨_, _, rfl, m', hm', hgrows.mpr (by decide)⟩

def lightThread : EevdfScheduler :=
  ⟨[⟨7⟩, ⟨8⟩], [⟨0, 1, false⟩, ⟨0, 1024, false⟩], some 0, 0, 1⟩

theorem lightThread_run : Run (Step .dev) EevdfScheduler.new
    [(.spawnWithWeight ⟨7⟩ 1, none), (.tickPrepare 1, some (.bootstrap, .thread 0)),
      (.spawn ⟨8⟩, none)] lightThread :=
  Run.cons rfl (Run.cons rfl (Run.cons rfl (Run.nil _)))

theorem lightThread_not_charged :
    ∃ es, Run (Step .dev) EevdfScheduler.new es lightThread ∧ lightThread.current = some 0 ∧
      lightThread.metadata[0]? = some ⟨0, 1, false⟩ ∧
      ∃ s' r, lightThread.tickPrepare .dev .bootstrap 2 = .ok (s', r) ∧
        s'.metadata[0]? = some ⟨0, 1, false⟩ :=
  ⟨_, lightThread_run, rfl, rfl, _, _, rfl, rfl⟩

/-- Blocking charges with the blocking thread's own weight left out of the divisor, so never
less than a tick would, and the same only while the remainder of the division has room. -/
theorem block_charges_as_tick_iff (es : List (Op × Option Switch)) (s : EevdfScheduler)
    (h : Run (Step .dev) EevdfScheduler.new es s) (i : Nat) (m : ThreadMeta)
    (hcur : s.current = some i) (hm : s.metadata[i]? = some m) (hb : m.blocked = false)
    (j : Nat) (hj : j ≠ i) (hrun : RunnableAt s.metadata j) (t : Nat)
    (s₁ s₂ : EevdfScheduler) (r₁ r₂ : Option Switch)
    (htick : s.tickPrepare .dev .bootstrap t = .ok (s₁, r₁))
    (hblock : s.blockCurrentAndPrepareSwitch .dev .bootstrap t = .ok (s₂, r₂)) :
    ∃ m₁ m₂ W X, W = totalWeight s.metadata ∧ X = s.timeSlice t * m.weight * 1024 ∧
      s₁.metadata[i]? = some m₁ ∧ m₁.vruntime = m.vruntime + X / W ∧
      s₂.metadata[i]? = some m₂ ∧ m₂.vruntime = m.vruntime + X / (W - m.weight) ∧
      m₁.vruntime ≤ m₂.vruntime ∧
      (m₂.vruntime = m₁.vruntime ↔ X % W + (X / W + 1) * m.weight < W) := by
  have hv := run_valid h
  obtain ⟨hn, _⟩ | ⟨i', m', hc', hm', hmarked⟩ := block_cases hblock
  · rw [hcur] at hn
    cases hn
  obtain rfl : i = i' := Option.some.inj (hcur.symm.trans hc')
  obtain rfl : m = m' := Option.some.inj (hm.symm.trans hm')
  have hsum := totalWeight_mark hm hb
  have hv' := hv.set hm true
  have hpos' := hv'.totalWeight_pos ((runnableAt_marked hm).mpr ⟨hj, hrun⟩)
  have hmark : (s.metadata.set i { m with blocked := true })[i]? = some { m with blocked := true } := by
    simp [(List.getElem?_eq_some_iff.mp hm).1]
  have h₁ := tickPrepare_charges_current hv hcur hm (hv.totalWeight_pos ⟨m, hm, hb⟩) htick
  have h₂ := tickPrepare_charges_current hv' hcur hmark hpos' hmarked
  simp only at hpos' h₂
  generalize hd : totalWeight (s.metadata.set i { m with blocked := true }) = d at hsum hpos' h₂
  have hsub : totalWeight s.metadata - m.weight = d := by omega
  refine ⟨_, _, _, _, rfl, rfl, h₁, rfl, h₂, ?_, ?_, ?_⟩
  · rw [hsub]
    rfl
  · exact Nat.add_le_add_left (Nat.div_le_div_left (by omega) hpos') _
  · rw [← hsum, ← div_eq_div_add_iff hpos']
    exact Nat.add_left_cancel_iff

def smallShare : EevdfScheduler :=
  ⟨[⟨7⟩, ⟨8⟩], [⟨0, 1, false⟩, ⟨0, 600, false⟩], some 0, 0, 1⟩

theorem smallShare_run : Run (Step .dev) EevdfScheduler.new
    [(.spawnWithWeight ⟨7⟩ 1, none), (.tickPrepare 1, some (.bootstrap, .thread 0)),
      (.spawnWithWeight ⟨8⟩ 600, none)] smallShare :=
  Run.cons rfl (Run.cons rfl (Run.cons rfl (Run.nil _)))

theorem smallShare_charged_alike :
    ∃ s₁ s₂ r₁ r₂ m₁ m₂, smallShare.tickPrepare .dev .bootstrap 2 = .ok (s₁, r₁) ∧
      smallShare.blockCurrentAndPrepareSwitch .dev .bootstrap 2 = .ok (s₂, r₂) ∧
      s₁.metadata[0]? = some m₁ ∧ s₂.metadata[0]? = some m₂ ∧ m₂.vruntime = m₁.vruntime := by
  obtain ⟨m₁, m₂, _, _, rfl, rfl, h₁, _, h₂, _, _, hsame⟩ :=
    block_charges_as_tick_iff _ _ smallShare_run 0 _ rfl rfl rfl 1 (by decide) ⟨_, rfl, rfl⟩ 2
      _ _ _ _ rfl rfl
  exact ⟨_, _, _, _, m₁, m₂, rfl, rfl, h₁, h₂, hsame.mpr (by decide)⟩

theorem twoThreads_block_overcharges :
    ∃ es s₁ s₂ r₁ r₂, Run (Step .dev) EevdfScheduler.new es twoThreads ∧
      twoThreads.current = some 0 ∧ twoThreads.metadata = [⟨0, 2, false⟩, ⟨0, 1, false⟩] ∧
      twoThreads.tickPrepare .dev .bootstrap 2 = .ok (s₁, r₁) ∧
      twoThreads.blockCurrentAndPrepareSwitch .dev .bootstrap 2 = .ok (s₂, r₂) ∧
      s₁.metadata[0]? = some ⟨682, 2, false⟩ ∧ s₂.metadata[0]? = some ⟨2048, 2, true⟩ :=
  ⟨_, _, _, _, _, twoThreads_run, rfl, rfl, rfl, rfl, rfl, rfl⟩

end EevdfScheduler
end MoltOS.Eevdf
