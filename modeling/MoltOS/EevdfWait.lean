import MoltOS.EevdfEnvelope

/-! Bounded waiting for a fixed set of threads that never block, each with a share of the total
weight that a tick is charged for: every thread runs again within a bounded number of ticks. -/
namespace MoltOS.Eevdf
open MoltOS.Rust MoltOS.Transition

theorem sum_modify_lt {α : Type} {g : α → Nat} {f : α → α} {l : List α} {j : Nat}
    (hj : j < l.length) (h : ∀ x ∈ l, g x < g (f x)) :
    (l.map g).sum < ((l.modify j f).map g).sum := by
  induction l generalizing j with
  | nil => exact absurd hj (Nat.not_lt_zero j)
  | cons x l ih =>
    cases j with
    | zero =>
      have := h x List.mem_cons_self
      simp only [List.modify_zero_cons, List.map_cons, List.sum_cons]
      omega
    | succ j =>
      have := ih (Nat.lt_of_succ_lt_succ hj) fun y hy => h y (List.mem_cons_of_mem _ hy)
      simp only [List.modify_succ_cons, List.map_cons, List.sum_cons]
      omega

namespace EevdfScheduler
variable {s s' : EevdfScheduler} {W T : Nat}

def totalVruntime (s : EevdfScheduler) : Nat := (s.metadata.map (·.vruntime)).sum

structure Shared (W T : Nat) (s : EevdfScheduler) : Prop extends Balanced W T s where
  share : ∀ m ∈ s.metadata, W ≤ 1024 * m.weight

theorem Shared.le_totalVruntime (h : Shared W T s) : s.metadata.length * s.minVruntime ≤ s.totalVruntime := by
  have := List.card_nsmul_le_sum (s.metadata.map (·.vruntime)) s.minVruntime fun v hv => by
    obtain ⟨m, hm, rfl⟩ := List.mem_map.mp hv
    exact h.low m hm
  simpa [totalVruntime] using this

theorem Shared.totalVruntime_le (h : Shared W T s) :
    s.totalVruntime ≤ s.metadata.length * (s.minVruntime + W + 1024 * T) := by
  have := List.sum_le_card_nsmul (s.metadata.map (·.vruntime)) (s.minVruntime + W + 1024 * T)
    fun v hv => by
      obtain ⟨m, hm, rfl⟩ := List.mem_map.mp hv
      exact h.high m hm
  simpa [totalVruntime] using this

theorem lt_charge {m : ThreadMeta} {ts : Nat} (hshare : W ≤ 1024 * m.weight) (hW : 0 < W)
    (hts : 1 ≤ ts) : m.vruntime < (m.charge ts W).vruntime := by
  have hmul : 1 * W ≤ ts * m.weight * 1024 := by
    calc 1 * W = W := Nat.one_mul W
      _ ≤ 1024 * m.weight := hshare
      _ ≤ ts * (1024 * m.weight) := Nat.le_mul_of_pos_left _ hts
      _ = ts * m.weight * 1024 := by ring
  have hdiv := (Nat.le_div_iff_mul_le hW).mpr hmul
  simp only [ThreadMeta.charge]
  omega

theorem one_le_timeSlice (s : EevdfScheduler) (t : Nat) : 1 ≤ s.timeSlice t := by
  unfold timeSlice minTimeSlice
  split
  · exact le_max_right _ _
  · exact le_rfl

/-- One tick. It leaves some thread running, keeps the vruntime of every other thread than the
one that was, and raises the sum if there was one. -/
theorem Shared.step (h : Shared W T s) (hne : s.threads ≠ []) {e : Op × Option Switch}
    (hs : Restrict (Step .dev) (TickWithin T) s e s') :
    Shared W T s' ∧ s'.threads = s.threads ∧ (∃ i < s'.metadata.length, s'.current = some i) ∧
      (∀ j, s.current ≠ some j → s'.metadata[j]? = s.metadata[j]?) ∧
      s.minVruntime ≤ s'.minVruntime ∧
      ∀ i < s.metadata.length, s.current = some i → s.totalVruntime < s'.totalVruntime := by
  obtain ⟨hb, hmono⟩ := h.toBalanced.step hs
  obtain ⟨hs, t, he, -⟩ := hs
  obtain ⟨op, r⟩ := e
  subst he
  obtain ⟨hthreads, hshape, hothers⟩ := tickPrepare_shape hs
  have hpos : 0 < s.metadata.length := by
    rw [← h.lengths]
    exact List.length_pos_iff.mpr hne
  have hrun : RunnableAt s.metadata 0 :=
    ⟨s.metadata[0], by simp [hpos], h.runnable _ (List.getElem_mem hpos)⟩
  have hsel := tickPrepare_selected h.fits hrun hne hs
  obtain ⟨i, hcur, -, m, ⟨hi, -⟩, -⟩ := hsel.picked
  have hshare : ∀ m ∈ s'.metadata, W ≤ 1024 * m.weight := by
    intro m hm
    obtain ⟨m₀, hm₀, hw, -⟩ := mem_of_shape hshape hm
    rw [← hw]
    exact h.share m₀ hm₀
  refine ⟨⟨hb, hshare⟩, hthreads, ⟨i, (List.getElem?_eq_some_iff.mp hi).1, hcur⟩, hothers, hmono,
    fun j hj hcur => ?_⟩
  have hW : 0 < W := by
    have hw := weight_le_total (List.getElem_mem hj) (h.runnable _ (List.getElem_mem hj))
    have hone := h.weights _ (List.getElem_mem hj)
    rw [h.total] at hw
    omega
  have hmeta : s'.metadata = s.metadata.modify j (·.charge (s.timeSlice t) W) := by
    rw [hsel.charged, chargedMeta, hcur]
    simp only [h.total, if_neg hW.ne']
  rw [totalVruntime, totalVruntime, hmeta]
  exact sum_modify_lt hj fun x hx => lt_charge (h.share x hx) hW (s.one_le_timeSlice t)

/-- Ticks after which thread `i` is never the one that runs: its vruntime stays, and all of them
together grow by at least one each time. -/
theorem Shared.avoiding {i : Nat} {es : List (Op × Option Switch)} (h : Shared W T s)
    (hne : s.threads ≠ []) (hcur : ∃ j < s.metadata.length, s.current = some j)
    (hi : s.current ≠ some i)
    (hr : Run (fun s e s' => Restrict (Step .dev) (TickWithin T) s e s' ∧ ¬ s'.current = some i)
      s es s') :
    Shared W T s' ∧ s'.metadata[i]? = s.metadata[i]? ∧ s'.metadata.length = s.metadata.length ∧
      s.totalVruntime + es.length ≤ s'.totalVruntime := by
  induction hr with
  | nil s => exact ⟨h, rfl, rfl, le_rfl⟩
  | @cons s u s' e es k _ ih =>
    obtain ⟨hstep, hu⟩ := k
    obtain ⟨hshared, hthreads, hrunning, hothers, -, hgrow⟩ := h.step hne hstep
    obtain ⟨hend, hsame, hlen, hspent⟩ := ih hshared (hthreads ▸ hne) hrunning hu
    obtain ⟨j, hj, hcur⟩ := hcur
    have hlt := hgrow j hj hcur
    refine ⟨hend, hsame.trans (hothers i hi), ?_, ?_⟩
    · rw [hlen, ← hshared.lengths, hthreads, h.lengths]
    · rw [List.length_cons]
      omega

theorem Shared.avoiding_short {i : Nat} {es : List (Op × Option Switch)} (h : Shared W T s)
    (hne : s.threads ≠ []) (hcur : ∃ j < s.metadata.length, s.current = some j)
    (hi : s.current ≠ some i) (hlt : i < s.metadata.length)
    (hr : Run (fun s e s' => Restrict (Step .dev) (TickWithin T) s e s' ∧ ¬ s'.current = some i)
      s es s') : es.length ≤ 2 * s.metadata.length * (W + 1024 * T) := by
  obtain ⟨hend, hsame, hlen, hspent⟩ := h.avoiding hne hcur hi hr
  have hget : s.metadata[i]? = some s.metadata[i] := List.getElem?_eq_getElem hlt
  -- the vruntime of thread `i` is above the last minimum and close to the first one
  have hmin : s'.minVruntime ≤ s.minVruntime + (W + 1024 * T) := by
    have hlow := hend.low _ (List.mem_of_getElem? (hsame.trans hget))
    have hhigh := h.high _ (List.getElem_mem hlt)
    omega
  have hupper : s'.totalVruntime ≤ s.metadata.length * s.minVruntime +
      2 * s.metadata.length * (W + 1024 * T) := by
    calc s'.totalVruntime ≤ s.metadata.length * (s'.minVruntime + W + 1024 * T) := hlen ▸ hend.totalVruntime_le
      _ ≤ s.metadata.length * (s.minVruntime + 2 * (W + 1024 * T)) :=
        Nat.mul_le_mul_left _ (by omega)
      _ = s.metadata.length * s.minVruntime + 2 * s.metadata.length * (W + 1024 * T) := by ring
  have hlower := h.le_totalVruntime
  omega

theorem shared_spawnAll (ts : List (Thread × Nat)) (hw : ∀ x ∈ ts, 1 ≤ x.2)
    (hshare : ∀ x ∈ ts, (ts.map (·.2)).sum ≤ 1024 * x.2) :
    Shared (ts.map (·.2)).sum T (spawnAll ts) := by
  refine ⟨balanced_spawnAll ts hw, fun m hm => ?_⟩
  rw [spawnAll_state ts hw] at hm
  obtain ⟨x, hx, rfl⟩ := List.mem_map.mp hm
  exact hshare x hx

/-- Bounded waiting. Threads that never block, each with at least a 1024th of the total weight
`W`, and ticks charged for at most `T` each: at any time of the run, every thread is the running
one after some of the next `2 n (W + 1024 T) + 2` ticks. -/
theorem every_thread_runs_again (ts : List (Thread × Nat)) (hw : ∀ x ∈ ts, 1 ≤ x.2)
    (hshare : ∀ x ∈ ts, (ts.map (·.2)).sum ≤ 1024 * x.2) (T : Nat)
    (es : List (Op × Option Switch)) (s : EevdfScheduler)
    (h : Run (Restrict (Step .dev) (TickWithin T)) (spawnAll ts) es s)
    (window : List (Op × Option Switch)) (s' : EevdfScheduler)
    (hr : Run (Restrict (Step .dev) (TickWithin T)) s window s')
    (hlong : 2 * ts.length * ((ts.map (·.2)).sum + 1024 * T) + 1 < window.length)
    (i : Nat) (hi : i < ts.length) :
    ∃ fore aft u, window = fore ++ aft ∧ fore ≠ [] ∧
      Run (Restrict (Step .dev) (TickWithin T)) s fore u ∧
      Run (Restrict (Step .dev) (TickWithin T)) u aft s' ∧ u.current = some i := by
  have hne : ts ≠ [] := List.ne_nil_of_length_pos (by omega)
  have hinv : Shared (ts.map (·.2)).sum T s ∧ s.threads = ts.map (·.1) := by
    have hstep : ∀ u e v, (Shared (ts.map (·.2)).sum T u ∧ u.threads = ts.map (·.1)) →
        Restrict (Step .dev) (TickWithin T) u e v →
        Shared (ts.map (·.2)).sum T v ∧ v.threads = ts.map (·.1) := by
      rintro u e v ⟨hu, hthreads⟩ hs
      obtain ⟨hv, hsame, -⟩ := hu.step (by rw [hthreads]; simpa using hne) hs
      exact ⟨hv, hsame.trans hthreads⟩
    exact h.invariant hstep ⟨shared_spawnAll ts hw hshare, by rw [spawnAll_state ts hw]⟩
  obtain ⟨hshared, hthreads⟩ := hinv
  have hnil : s.threads ≠ [] := by rw [hthreads]; simpa using hne
  obtain hmeets | havoid := hr.meets_or_avoids (P := fun u => u.current = some i)
  · exact hmeets
  · -- after the first tick some other thread runs, and goes on doing so for too long
    cases havoid with
    | nil s => exact absurd hlong (Nat.not_lt_zero _)
    | @cons _ u _ e rest k havoid =>
      obtain ⟨hstep, hu⟩ := k
      obtain ⟨hu', hsame, hrunning, -⟩ := hshared.step hnil hstep
      have hlen : u.metadata.length = ts.length := by
        rw [← hu'.lengths, hsame, hthreads, List.length_map]
      have hshort := hu'.avoiding_short (hsame ▸ hnil) hrunning hu (hlen ▸ hi) havoid
      rw [hlen] at hshort
      rw [List.length_cons] at hlong
      omega

structure Ticking (W k : Nat) (s : EevdfScheduler) : Prop extends Balanced W 1 s where
  budget : Budget W k k s
  some : s.threads ≠ []
  weightSum : s.weightSum ≤ W
  last : s.current ≠ none → s.lastSwitchTick = k

theorem Ticking.step {k N : Nat} (h : Ticking W k s) (hk : k + 1 ≤ N)
    (henv : 1024 * W * (2 * N + N) < 2 ^ 64) :
    ∃ r s', Restrict (Step .dev) (TickWithin 1) s (.tickPrepare (k + 1), r) s' ∧
      Ticking W (k + 1) s' := by
  have hfits : 1024 * W * (2 * N + (k + 1)) < 2 ^ 64 :=
    (Nat.mul_le_mul_left _ (by omega)).trans_lt henv
  obtain ⟨s', r, hs⟩ := h.budget.tickPrepare_ok h.weightSum (Nat.le_succ k) hk hfits
  have hwithin : TickWithin 1 s (.tickPrepare (k + 1), r) := by
    refine ⟨k + 1, rfl, fun hcur => ?_⟩
    have hlast := h.last hcur
    simp [timeSlice, saturatingSub, minTimeSlice, hlast]
  have hstep : Restrict (Step .dev) (TickWithin 1) s (.tickPrepare (k + 1), r) s' := ⟨hs, hwithin⟩
  obtain ⟨hthreads, hshape, -⟩ := tickPrepare_shape hs
  refine ⟨r, s', hstep, (h.toBalanced.step hstep).1,
    h.budget.tickPrepare h.weightSum (Nat.le_succ k) hs, hthreads ▸ h.some,
    (weightSum_of_shape hshape).trans_le h.weightSum, fun _ => ?_⟩
  -- nobody is blocked and the tick is new, so there is a switch
  have hlast := h.budget.last
  obtain ⟨he, -⟩ | ⟨-, c, -, hch, ⟨hn, -⟩ | ⟨n, -, ⟨hkeep, -⟩ | ⟨-, rfl, -⟩⟩⟩ := tickPrepare_cases hs
  · exact absurd he h.some
  · have hpos : 0 < s.metadata.length := by
      rw [← h.lengths]
      exact List.length_pos_iff.mpr h.some
    have hall := allBlocked_of_shape hch.shape (nextIdx_none hn)
    have hblocked := hall _ (List.getElem_mem hpos)
    rw [h.runnable _ (List.getElem_mem hpos)] at hblocked
    cases hblocked
  · have := hkeep.2.2
    omega
  · rfl

theorem Ticking.run {k n N : Nat} (h : Ticking W k s) (hn : k + n ≤ N)
    (henv : 1024 * W * (2 * N + N) < 2 ^ 64) :
    ∃ es s', es.length = n ∧ Run (Restrict (Step .dev) (TickWithin 1)) s es s' := by
  induction n generalizing k s with
  | zero => exact ⟨[], s, rfl, .nil s⟩
  | succ n ih =>
    obtain ⟨r, u, hstep, hu⟩ := h.step (by omega) henv
    obtain ⟨es, s', hlen, hrun⟩ := ih hu (by omega)
    exact ⟨_ :: es, s', by rw [List.length_cons, hlen], .cons hstep hrun⟩

theorem ticking_spawnAll (ts : List (Thread × Nat)) (hne : ts ≠ []) (hw : ∀ x ∈ ts, 1 ≤ x.2) :
    Ticking (ts.map (·.2)).sum 0 (spawnAll ts) := by
  refine ⟨balanced_spawnAll ts hw, ?_, ?_, ?_, ?_⟩
  all_goals rw [spawnAll_state ts hw]
  · refine ⟨⟨by simp, ?_, by simp⟩, le_rfl, by simp, ?_⟩
    · intro m hm
      obtain ⟨x, hx, rfl⟩ := List.mem_map.mp hm
      exact hw x hx
    · intro m hm
      obtain ⟨x, -, rfl⟩ := List.mem_map.mp hm
      exact Nat.zero_le _
  · simpa using hne
  · simp [EevdfScheduler.weightSum, Function.comp_def]
  · simp

theorem second_thread_runs : ∃ window s', window.length = 4110 ∧
    Run (Restrict (Step .dev) (TickWithin 1)) (spawnAll [(⟨7⟩, 2), (⟨8⟩, 1)]) window s' ∧
    ∃ fore aft u, window = fore ++ aft ∧ fore ≠ [] ∧
      Run (Restrict (Step .dev) (TickWithin 1)) (spawnAll [(⟨7⟩, 2), (⟨8⟩, 1)]) fore u ∧
      Run (Restrict (Step .dev) (TickWithin 1)) u aft s' ∧ u.current = some 1 := by
  obtain ⟨window, s', hlen, hrun⟩ := (ticking_spawnAll [(⟨7⟩, 2), (⟨8⟩, 1)] (by simp)
    (by simp)).run (n := 4110) (Nat.le_refl (0 + 4110)) (by simp)
  exact ⟨window, s', hlen, hrun, every_thread_runs_again _ (by simp) (by simp) 1 [] _ (.nil _)
    window s' hrun (by rw [hlen]; decide) 1 (by decide)⟩

end EevdfScheduler
end MoltOS.Eevdf
