import MoltOS.KernelAgree

/-! Context switches over whole runs: who executes while interrupts are enabled, which
context a switch saves into and which one it loads. Timer and keyboard interrupts,
cooperative switches, unblocks and spawns interleave freely. -/
namespace MoltOS.Kernel
open MoltOS.Rust MoltOS.Eevdf MoltOS.Transition

variable {μ α R : Type} {s t : Core μ α R}

def Core.liveRegs (s : Core μ α R) : R :=
  match s.mode with
  | .irqSpin frame => frame
  | .irqSwitch frame _ => frame
  | _ => s.regs

/- In the middle of a switch nobody executes: one flow is saved, the next not loaded. -/
def Core.Executes (s : Core μ α R) (f : Flow) : Prop := s.running = f ∧ ∀ c, s.mode ≠ .loading c

/-- What a step does to the saved contexts. A switch first saves the executing flow
into its own context, then loads the context of the thread that is current; nothing
else writes a context, except that a spawn adds the initial one of the new thread. -/
structure Switches (s t : Core μ α R) : Prop where
  saves : ∀ c, t.mode = .loading c → (∀ d, s.mode ≠ .loading d) →
    c = (flowOf t.sched.current).ctx ∧
    t.contexts = Function.update s.contexts s.running.ctx (some (s.running, s.liveRegs))
  loads : ∀ c, s.mode = .loading c → t.running = flowOf t.sched.current ∧
    c = t.running.ctx ∧ s.contexts c = some (t.running, t.regs) ∧ t.contexts = s.contexts
  stays : (∀ c, s.mode ≠ .loading c) → t.running = s.running
  spawns : (∀ c, s.mode ≠ .loading c) → (∀ c, t.mode ≠ .loading c) →
    t.contexts = s.contexts ∨ ∃ r, t.contexts = Function.update s.contexts
      (.thread s.sched.threads.length) (some (.thread s.sched.threads.length, r))

theorem Switches.quiet (hs : ∀ c, s.mode ≠ .loading c) (ht : ∀ c, t.mode ≠ .loading c)
    (hr : t.running = s.running) (hc : t.contexts = s.contexts) : Switches s t :=
  ⟨fun c hc _ => absurd hc (ht c), fun c hc => absurd hc (hs c), fun _ => hr,
    fun _ _ => Or.inl hc⟩

variable [DecidableEq μ] {p : Profile} {e : Event μ α R}

theorem CoreInv.switches (h : CoreInv s) (hs : Step p s e t) : Switches s t := by
  have quiet {u : Core μ α R} (hm : s.mode = .normal) (hu : u.mode = .normal)
      (hr : u.running = s.running) (hc : u.contexts = s.contexts) : Switches s u :=
    Switches.quiet (by simp [hm]) (by simp [hu]) hr hc
  cases hs.move with
  | jump hm hj => exact quiet hm hm rfl rfl
  | compute r hm hpc => exact quiet hm hm rfl rfl
  | setInterrupts b hm hpc => exact quiet hm hm rfl rfl
  | newThread weight entry hm hpc => exact quiet hm hm rfl rfl
  | drop m hm hpc hg => exact quiet hm hm rfl rfl
  | write m v f hm hpc => exact quiet hm hm rfl rfl
  | own m k hm hl hk => exact quiet hm hm rfl rfl
  | disable c w hm hpc => exact quiet hm hm rfl rfl
  | take c w hm hpc hh => exact quiet hm hm rfl rfl
  | tick w sched sw hm hpc hsched => exact quiet hm hm rfl rfl
  | block w sched sw hm hpc hsched => exact quiet hm hm rfl rfl
  | enqueue m id sched sw hm hpc hw hsched => exact quiet hm hm rfl rfl
  | unblock id k w sched hm hpc hsched => exact quiet hm hm rfl rfl
  | spawn thread weight entry w hm hpc =>
    have hmode (c : CtxPtr) : s.mode ≠ .loading c := by simp [hm]
    exact ⟨fun c hc _ => absurd hc (hmode c), fun c hc => absurd hc (hmode c), fun _ => rfl,
      fun _ _ => Or.inr ⟨entry, rfl⟩⟩
  | unlock w k hm hpc => exact quiet hm hm rfl rfl
  | restore w k hm hpc => exact quiet hm hm rfl rfl
  | release c sw hm hpc => exact quiet hm hm rfl rfl
  | save c fromCtx toCtx hm hpc =>
    have hn := h.names hm
    rw [hpc] at hn
    obtain ⟨hfrom, i, hi, hto⟩ := hn
    simp only at hfrom hto
    subst hfrom hto
    refine ⟨fun d hd _ => ?_, fun d hd => ?_, fun _ => rfl, fun _ ht => absurd rfl (ht _)⟩
    · cases hd
      simp [Core.goto, Core.liveRegs, hm, hi, flowOf, Flow.ctx]
    · simp [hm] at hd
  | halt c hm hpc => exact quiet hm hm rfl rfl
  | dropLock m hm hpc hw => exact quiet hm hm rfl rfl
  | pop m id rest hm hpc hw => exact quiet hm hm rfl rfl
  | dropUnlock m hm hpc => exact quiet hm hm rfl rfl
  | irq k hm hi => exact Switches.quiet (by simp [hm]) (by simp [Core.irq]) rfl rfl
  | irqTick frame sched sw hm hh hsched => exact Switches.quiet (by simp [hm]) (by simp) rfl rfl
  | irqReturn frame sw hm hsw => exact Switches.quiet (by simp [hm]) (by simp) rfl rfl
  | irqSave frame fromCtx toCtx hne hm =>
    have hn : Names s.running s.sched (some (fromCtx, toCtx)) := by
      simpa [Core.Agrees, hm] using h.agrees
    obtain ⟨hfrom, i, hi, hto⟩ := hn
    simp only at hfrom hto
    subst hfrom hto
    refine ⟨fun d hd _ => ?_, fun d hd => ?_, fun _ => rfl, fun _ ht => absurd rfl (ht _)⟩
    · cases hd
      simp [Core.liveRegs, hm, hi, flowOf, Flow.ctx]
    · simp [hm] at hd
  | load toCtx f r hm hc =>
    obtain rfl := h.loads hm hc
    refine ⟨fun d hd => absurd hd (by simp), fun d hd => ?_, fun hne => absurd hm (hne _),
      fun hne => absurd hm (hne _)⟩
    rw [hm] at hd
    cases hd
    exact ⟨rfl, (h.target hm).1, hc, rfl⟩

/-- While a flow does not execute, its saved context stays. -/
theorem CoreInv.keeps_context (h : CoreInv s) {f : Flow} {x : Flow × R} (hs : Step p s e t)
    (hx : s.contexts f.ctx = some x) (hf : ¬ s.Executes f) : t.contexts f.ctx = some x := by
  have hsw := h.switches hs
  by_cases hl : ∃ c, s.mode = .loading c
  · obtain ⟨c, hc⟩ := hl
    rw [(hsw.loads c hc).2.2.2]
    exact hx
  · have hnl (c : CtxPtr) : s.mode ≠ .loading c := fun hc => hl ⟨c, hc⟩
    have hne : f ≠ s.running := fun he => hf ⟨he.symm, hnl⟩
    by_cases htl : ∃ c, t.mode = .loading c
    · obtain ⟨c, hc⟩ := htl
      have hctx : f.ctx ≠ s.running.ctx := fun he => hne (Flow.ctx_injective he)
      rw [(hsw.saves c hc hnl).2, Function.update_of_ne hctx]
      exact hx
    · cases hsw.spawns hnl (fun c hc => htl ⟨c, hc⟩) with
      | inl hc =>
        rw [hc]
        exact hx
      | inr hc =>
        obtain ⟨r, hc⟩ := hc
        have hctx : f.ctx ≠ .thread s.sched.threads.length := by
          intro he
          rw [he, h.stored.fresh _ le_rfl] at hx
          cases hx
        rw [hc, Function.update_of_ne hctx]
        exact hx

theorem run_keeps_context (h : CoreInv s) {f : Flow} {x : Flow × R} {es : List (Event μ α R)}
    (hx : s.contexts f.ctx = some x)
    (hr : Run (Restrict (Step p) fun u _ => ¬ u.Executes f) s es t) :
    t.contexts f.ctx = some x := by
  have hstep (u : Core μ α R) (e : Event μ α R) (v : Core μ α R)
      (hu : CoreInv u ∧ u.contexts f.ctx = some x)
      (hs : Restrict (Step p) (fun u _ => ¬ u.Executes f) u e v) :
      CoreInv v ∧ v.contexts f.ctx = some x :=
    ⟨hu.1.step hs.1, hu.1.keeps_context hs.1 hu.2 hs.2⟩
  exact (hr.invariant hstep ⟨h, hx⟩).2

/- A pending switch is always completed by the next step. -/
theorem CoreInv.load_step (h : CoreInv s) {c : CtxPtr} (hm : s.mode = .loading c) :
    ∃ t, Step p s .advance t := by
  obtain ⟨_, r, hc⟩ := h.target hm
  simp [Step, Core.step, Core.advance, Core.load, hm, hc]

/-- In every reachable state with interrupts enabled the flow that executes is the one
`scheduler.current` names. Every switch saves the executing flow into its own context and
loads the context of the thread that became current, and a context once written stays
until its own flow executes again, so what is loaded is what was last saved. -/
theorem running_is_current (data : μ → α) (r₀ : R) (s : Core μ α R)
    (h : Reachable (Step p) (Core.init data r₀) s) :
    (s.interrupts = true → s.running = flowOf s.sched.current) ∧
    (∀ e t, Step p s e t → Switches s t) ∧
    (∀ c, s.mode = .loading c → ∃ t, Step p s .advance t) ∧
    ∀ f x es t, s.contexts f.ctx = some x →
      Run (Restrict (Step p) fun u _ => ¬ u.Executes f) s es t → t.contexts f.ctx = some x := by
  have hinv := reachable_coreInv h
  refine ⟨fun hi => ?_, fun e t hs => hinv.switches hs, fun c hc => hinv.load_step hc, fun f x es t hx hr =>
    run_keeps_context hinv hx hr⟩
  obtain ⟨hm, hopen⟩ := hinv.shielded.normal hi
  exact hinv.current hm (Pc.switch_none hopen)

def preemptEvents : List (Event Unit Nat Nat) :=
  .spawn none 7 :: List.replicate 6 .advance ++
    [.setInterrupts true, .irq .timer] ++ List.replicate 3 .advance

theorem bootstrap_preempted : ∃ s : Core Unit Nat Nat,
    Reachable (Step .dev) (Core.init (fun _ => 0) 1) s ∧ s.interrupts = true ∧
      s.running = .thread 0 ∧ s.running = flowOf s.sched.current := by
  have hrun : ((exec (Core.step .dev) (Core.init (fun _ => 0) 1) preemptEvents).any fun s =>
      s.interrupts && decide (s.running = .thread 0)) = true := by decide +kernel
  obtain ⟨s, hreach, hp⟩ := reachable_of_exec hrun
  simp only [Bool.and_eq_true, decide_eq_true_eq] at hp
  exact ⟨s, hreach, hp.1, hp.2, (running_is_current _ _ s hreach).1 hp.1⟩

end MoltOS.Kernel
