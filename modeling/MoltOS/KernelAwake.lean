import MoltOS.EevdfBlocked
import MoltOS.KernelSleep

/-! Blocked threads when only `KMutex::lock` blocks. A blocked thread sleeps inside its
lock call; the current thread can run, unless it has found every thread blocked and is
stuck there for good. -/
namespace MoltOS.Kernel
open MoltOS.Rust MoltOS.Eevdf MoltOS.Transition

variable {μ α R : Type} {s t : Core μ α R} {e : Event μ α R} {p : Profile}

structure Awake (s : Core μ α R) : Prop where
  asleep : ∀ i, BlockedAt s.sched.metadata i → (s.pc (.thread i)).sleepsOn ≠ none
  current : ∀ i, s.sched.current = some i → RunnableAt s.sched.metadata i ∨
    (s.running = .thread i ∧ (s.pc (.thread i)).stuck = true)
  stuck : ∀ f, (s.pc f).stuck = true →
    s.running = f ∧ AllBlocked s.sched.metadata ∧ ∀ c, s.mode ≠ .loading c

theorem Awake.init (data : μ → α) (r : R) : Awake (Core.init data r) := by
  refine ⟨?_, ?_, ?_⟩ <;> simp [Core.init, EevdfScheduler.new, BlockedAt, Pc.stuck]

theorem Awake.goto (h : Awake s) {u : Core μ α R} {k : Pc μ α R} (hr : u.running = s.running)
    (hpc : u.pc = s.pc) (hsched : u.sched = s.sched) (hm : u.mode = .normal)
    (hst : k.stuck = (s.pc s.running).stuck)
    (hsl : ∀ i, s.running = .thread i → BlockedAt s.sched.metadata i → k.sleepsOn ≠ none) :
    Awake (u.goto k) := by
  refine ⟨?_, ?_, ?_⟩
  · intro i hb
    change BlockedAt u.sched.metadata i at hb
    rw [hsched] at hb
    by_cases hi : Flow.thread i = u.running
    · rw [hi, goto_pc_self]
      exact hsl i (hr ▸ hi.symm) hb
    · rw [goto_pc_other u k hi, hpc]
      exact h.asleep i hb
  · intro i hi
    change u.sched.current = some i at hi
    change RunnableAt u.sched.metadata i ∨ _
    rw [hsched] at hi ⊢
    refine (h.current i hi).imp_right fun hs => ⟨hr.trans hs.1, ?_⟩
    have hself : Flow.thread i = u.running := (hr.trans hs.1).symm
    rw [hself, goto_pc_self, hst, hs.1]
    exact hs.2
  · intro f hf
    have hold : s.running = f ∧ AllBlocked s.sched.metadata := by
      by_cases hne : f = u.running
      · subst hne
        rw [goto_pc_self, hst] at hf
        exact ⟨hr.symm, (h.stuck _ hf).2.1⟩
      · rw [goto_pc_other u k hne, hpc] at hf
        exact ⟨(h.stuck f hf).1, (h.stuck f hf).2.1⟩
    refine ⟨hr.trans hold.1, hsched ▸ hold.2, fun c hc => ?_⟩
    exact absurd (hm.symm.trans hc) (by simp)

/- A flow that does not sleep is not blocked. -/
theorem Awake.not_blocked (h : Awake s) (hk : (s.pc s.running).sleepsOn = none) (i : Nat)
    (hi : s.running = .thread i) : ¬ BlockedAt s.sched.metadata i := by
  intro hb
  have hs := h.asleep i hb
  rw [← hi] at hs
  exact hs hk

/- Neither is one that runs outside a pending switch. -/
theorem Awake.running_runnable (h : Awake s) (hc : CoreInv s) (hm : s.mode = .normal)
    (hsw : (s.pc s.running).switch = none) (hst : (s.pc s.running).stuck = false) (i : Nat)
    (hi : s.running = .thread i) : RunnableAt s.sched.metadata i := by
  have hcur := hc.current hm hsw
  rw [hi] at hcur
  cases ho : s.sched.current with
  | none =>
    rw [ho] at hcur
    cases hcur
  | some j =>
    rw [ho] at hcur
    cases hcur
    cases h.current i ho with
    | inl hr => exact hr
    | inr hs =>
      rw [← hi, hst] at hs
      cases hs.2

/- What a tick of the scheduler leaves of the current thread. -/
theorem Awake.tick (h : Awake s) (hv : s.sched.Valid) {sched : EevdfScheduler} {sw : Option Switch}
    (hs : s.sched.tickPrepare p .bootstrap s.ticks = .ok (sched, sw)) {i : Nat}
    (hi : sched.current = some i) : RunnableAt sched.metadata i ∨
      (s.running = .thread i ∧ (s.pc (.thread i)).stuck = true) := by
  cases EevdfScheduler.tickPrepare_current hv hs hi with
  | inl hr => exact Or.inl hr
  | inr hall =>
    obtain ⟨hall, hcur, _⟩ := hall
    refine (h.current i hcur).imp_left fun hr => ?_
    exact (EevdfScheduler.tickPrepare_runnableAt hs).mpr hr

/-- A step of a flow that is neither asleep nor stuck, after which the scheduler blocks
no other thread and still runs what it ran. -/
theorem Awake.goto_sched (h : Awake s) {u : Core μ α R} {k : Pc μ α R}
    (hr : u.running = s.running) (hpc : u.pc = s.pc)
    (hk : k.stuck = false) (hsl : (s.pc s.running).sleepsOn = none)
    (hb : ∀ i, BlockedAt u.sched.metadata i → BlockedAt s.sched.metadata i)
    (hcur : ∀ i, u.sched.current = some i → RunnableAt u.sched.metadata i) : Awake (u.goto k) := by
  refine ⟨?_, fun i hi => Or.inl (hcur i hi), ?_⟩
  · intro i hi
    have hold := hb i hi
    by_cases hf : Flow.thread i = u.running
    · exact absurd hold (h.not_blocked hsl i (hr ▸ hf.symm))
    · rw [goto_pc_other u k hf, hpc]
      exact h.asleep i hold
  · intro f hf
    by_cases hne : f = u.running
    · subst hne
      rw [goto_pc_self, hk] at hf
      cases hf
    · rw [goto_pc_other u k hne, hpc] at hf
      exact absurd ((h.stuck f hf).1.symm.trans hr.symm) hne

/-- A thread that enqueues itself is blocked; another one takes over, or it is stuck. -/
theorem Awake.enqueue (h : Awake s) (hc : CoreInv s) (hq : Enqueues s) {m : μ} {id : ThreadId}
    {sched : EevdfScheduler} {sw : Option Switch} {u : Core μ α R}
    (hpc : s.pc s.running = .enqueue m id)
    (hs : s.sched.blockCurrentAndPrepareSwitch p .bootstrap s.ticks = .ok (sched, sw))
    (hur : u.running = s.running) (hupc : u.pc = s.pc) (hus : u.sched = sched)
    (hum : u.mode = .normal) : Awake (u.goto (.prepared (.kmutexLock m) sw)) := by
  obtain ⟨i₀, _, hcur, hrun, _, _⟩ := hq.current hc hpc
  have hblk (i : Nat) := EevdfScheduler.block_blockedAt hcur hs (i := i)
  have hother (f : Flow) (hf : f ≠ s.running) :
      (u.goto (.prepared (.kmutexLock m) sw)).pc f = s.pc f := by
    rw [goto_pc_other u _ (hur ▸ hf), hupc]
  have hself : (u.goto (.prepared (.kmutexLock m) sw)).pc s.running =
      .prepared (.kmutexLock m) sw := by
    rw [← hur, goto_pc_self]
  have hnostuck (f : Flow) (hf : f ≠ s.running) : (s.pc f).stuck = false := by
    cases hst : (s.pc f).stuck with
    | false => rfl
    | true => exact absurd (h.stuck f hst).1.symm hf
  refine ⟨?_, ?_, ?_⟩
  · intro i hi
    change BlockedAt u.sched.metadata i at hi
    rw [hus, hblk] at hi
    by_cases hf : Flow.thread i = s.running
    · rw [hf, hself]
      simp [Pc.sleepsOn]
    · have hne : i ≠ i₀ := by
        intro he
        exact hf (by rw [he, hrun])
      rw [hother _ hf]
      exact h.asleep i (hi.resolve_left hne)
  · intro i hi
    change u.sched.current = some i at hi
    change RunnableAt u.sched.metadata i ∨ (u.running = .thread i ∧ _)
    rw [hus] at hi ⊢
    cases EevdfScheduler.block_current hc.valid hcur hs with
    | inl hnone =>
      obtain ⟨rfl, hsame, _⟩ := hnone
      rw [hsame] at hi
      cases hi
      refine Or.inr ⟨hur.trans hrun, ?_⟩
      rw [← hrun, hself]
      rfl
    | inr hsome =>
      obtain ⟨j, _, hj, hr, _⟩ := hsome
      rw [hj] at hi
      cases hi
      exact Or.inl hr
  · intro f hf
    by_cases hne : f = s.running
    · subst hne
      rw [hself] at hf
      cases EevdfScheduler.block_current hc.valid hcur hs with
      | inl hnone =>
        refine ⟨hur, ?_, fun c hc => ?_⟩
        · change AllBlocked u.sched.metadata
          rw [hus]
          exact hnone.2.2
        · exact absurd (hum.symm.trans hc) (by simp)
      | inr hsome =>
        obtain ⟨j, _, _, _, rfl⟩ := hsome
        cases hf
    · rw [hother f hne, hnostuck f hne] at hf
      cases hf

variable [DecidableEq μ]

theorem Awake.step (h : Awake s) (hc : CoreInv s) (hq : Enqueues s)
    (hy : Calls (fun c => c.yields = false) s) (hs : Step p s e t) : Awake t := by
  have plain {u : Core μ α R} {k : Pc μ α R} (hm : u.mode = .normal) (hr : u.running = s.running)
      (hpc : u.pc = s.pc) (hsched : u.sched = s.sched)
      (hst : k.stuck = (s.pc s.running).stuck) (hsl : (s.pc s.running).sleepsOn = none) :
      Awake (u.goto k) :=
    h.goto hr hpc hsched hm hst fun i hi hb => absurd hb (h.not_blocked hsl i hi)
  have sleeps {u : Core μ α R} {k : Pc μ α R} (hm : u.mode = .normal) (hr : u.running = s.running)
      (hpc : u.pc = s.pc) (hsched : u.sched = s.sched)
      (hst : k.stuck = (s.pc s.running).stuck) (hsl : k.sleepsOn = (s.pc s.running).sleepsOn) :
      Awake (u.goto k) := by
    refine h.goto hr hpc hsched hm hst fun i hi hb => ?_
    have hold := h.asleep i hb
    rw [← hi] at hold
    rw [hsl]
    exact hold
  cases hs.move with
  | jump hm hj =>
    have hrun := h.running_runnable hc hm hj.switch.1 hj.stuck.1
    exact h.goto rfl rfl rfl hm (by rw [hj.stuck.1, hj.stuck.2]) fun i hi hb =>
      absurd (hrun i hi) hb.not_runnable
  | compute r hm hpc => exact ⟨h.asleep, h.current, h.stuck⟩
  | setInterrupts b hm hpc => exact ⟨h.asleep, h.current, h.stuck⟩
  | newThread weight entry hm hpc =>
    exact plain hm rfl rfl rfl (by rw [hpc]; rfl) (by rw [hpc]; rfl)
  | drop m hm hpc hg => exact plain hm rfl rfl rfl (by rw [hpc]; rfl) (by rw [hpc]; rfl)
  | write m v f hm hpc => exact plain hm rfl rfl rfl (by rw [hpc]; rfl) (by rw [hpc]; rfl)
  | own m k hm hl hk =>
    exact plain hm rfl rfl rfl (by rw [hk.sleepsOn.2.1, hk.sleepsOn.2.2]) hk.sleepsOn.1
  | disable c w hm hpc => exact plain hm rfl rfl rfl (by rw [hpc]; rfl) (by rw [hpc]; rfl)
  | take c w hm hpc hh => exact plain hm rfl rfl rfl (by rw [hpc]; rfl) (by rw [hpc]; rfl)
  | tick w sched sw hm hpc hsched =>
    refine h.goto_sched rfl rfl rfl (by rw [hpc]; rfl)
      (fun i hi => (EevdfScheduler.tickPrepare_blockedAt hsched).mp hi) fun i hi => ?_
    refine (h.tick hc.valid hsched hi).resolve_right fun hst => ?_
    rw [← hst.1, hpc] at hst
    cases hst.2
  | block w sched sw hm hpc hsched =>
    have hno := hy s.running .blockAndYield (by rw [hpc]; rfl)
    cases hno
  | enqueue m id sched sw hm hpc hw hsched =>
    exact h.enqueue hc hq hpc hsched rfl rfl rfl hm
  | unblock id k w sched hm hpc hsched =>
    refine h.goto_sched rfl rfl rfl (by rw [hpc]; rfl)
      (fun i hi => EevdfScheduler.unblock_blockedAt hsched hi) fun i hi => ?_
    have hcur : s.sched.current = some i := (EevdfScheduler.unblock_frame hsched).2 ▸ hi
    refine EevdfScheduler.unblock_runnableAt hsched ((h.current i hcur).resolve_right fun hst => ?_)
    rw [← hst.1, hpc] at hst
    cases hst.2
  | spawn thread weight entry w hm hpc =>
    refine h.goto_sched rfl rfl rfl (by rw [hpc]; rfl) (fun i hi => ?_) fun i hi => ?_
    · cases weight with
      | none => exact (blockedAt_push (by rfl)).mp hi
      | some w => exact (blockedAt_push (by rfl)).mp hi
    · have hcur : s.sched.current = some i := spawnThread_current s thread weight entry ▸ hi
      have hrun : RunnableAt s.sched.metadata i :=
        (h.current i hcur).resolve_right fun hst => by
          rw [← hst.1, hpc] at hst
          cases hst.2
      cases weight with
      | none => exact runnableAt_push _ hrun
      | some w => exact runnableAt_push _ hrun
  | unlock w k hm hpc => exact plain hm rfl rfl rfl (by rw [hpc]; rfl) (by rw [hpc]; rfl)
  | restore w k hm hpc =>
    exact plain hm rfl rfl rfl (by rw [hpc, Cont.pc_stuck]; rfl) (by rw [hpc]; rfl)
  | release c sw hm hpc =>
    refine sleeps hm rfl rfl rfl ?_ ?_
    · rw [hpc]
      cases c <;> cases sw <;> rfl
    · rw [hpc]
      cases c <;> rfl
  | save c fromCtx toCtx hm hpc =>
    refine ⟨?_, ?_, ?_⟩
    · intro i hb
      have hold := h.asleep i hb
      by_cases hf : Flow.thread i = s.running
      · rw [hf, hpc] at hold
        rw [hf]
        cases c <;> simp_all [Core.goto, Pc.sleepsOn]
      · simpa [Core.goto, hf] using hold
    · intro i hi
      refine Or.inl ((h.current i hi).resolve_right fun hst => ?_)
      rw [← hst.1, hpc] at hst
      cases c <;> cases hst.2
    · intro f hf
      by_cases hne : f = s.running
      · subst hne
        simp [Core.goto, Pc.stuck] at hf
      · simp only [Core.goto, Function.update_of_ne hne] at hf
        exact absurd (h.stuck f hf).1.symm hne
  | halt c hm hpc =>
    exact sleeps hm rfl rfl rfl (by rw [hpc]; exact haltPc_stuck c) (by rw [hpc]; exact haltPc_sleepsOn c)
  | dropLock m hm hpc hw => exact plain hm rfl rfl rfl (by rw [hpc]; rfl) (by rw [hpc]; rfl)
  | pop m id rest hm hpc hw => exact plain hm rfl rfl rfl (by rw [hpc]; rfl) (by rw [hpc]; rfl)
  | dropUnlock m hm hpc => exact plain hm rfl rfl rfl (by rw [hpc]; rfl) (by rw [hpc]; rfl)
  | irq k hm hi =>
    exact ⟨h.asleep, h.current, fun f hf => ⟨(h.stuck f hf).1, (h.stuck f hf).2.1, by simp [Core.irq]⟩⟩
  | irqTick frame sched sw hm hh hsched =>
    refine ⟨fun i hi => h.asleep i ((EevdfScheduler.tickPrepare_blockedAt hsched).mp hi),
      fun i hi => h.tick hc.valid hsched hi, fun f hf => ?_⟩
    refine ⟨(h.stuck f hf).1, allBlocked_iff.mpr fun i hr => ?_, by simp⟩
    exact allBlocked_iff.mp (h.stuck f hf).2.1 i
      ((EevdfScheduler.tickPrepare_runnableAt hsched).mp hr)
  | irqReturn frame sw hm hsw =>
    exact ⟨h.asleep, h.current, fun f hf => ⟨(h.stuck f hf).1, (h.stuck f hf).2.1, by simp⟩⟩
  | irqSave frame fromCtx toCtx hne hm =>
    refine ⟨h.asleep, h.current, fun f hf => ?_⟩
    have hn : Names s.running s.sched (some (fromCtx, toCtx)) := by
      simpa [Core.Agrees, hm] using hc.agrees
    obtain ⟨hfrom, i, hi, hto⟩ := hn
    cases h.current i hi with
    | inl hr => exact absurd hr (allBlocked_iff.mp (h.stuck f hf).2.1 i)
    | inr hst =>
      rw [hst.1] at hfrom
      exact absurd (hfrom.trans hto.symm) hne
  | load toCtx f r hm hcx =>
    have hnone (g : Flow) : (s.pc g).stuck = false := by
      cases hst : (s.pc g).stuck with
      | false => rfl
      | true => exact absurd hm ((h.stuck g hst).2.2 toCtx)
    refine ⟨h.asleep, fun i hi => Or.inl ((h.current i hi).resolve_right fun hst => ?_),
      fun g hg => ?_⟩
    · rw [hnone] at hst
      cases hst.2
    · rw [hnone] at hg
      cases hg

end MoltOS.Kernel
