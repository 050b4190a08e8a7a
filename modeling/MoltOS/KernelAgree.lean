import MoltOS.KernelInv

/-! The invariant of the core: outside a pending switch the running flow is the one
`scheduler.current` names, inside one it is the `from` of the pair, and every saved
context holds the flow it belongs to. -/
namespace MoltOS.Kernel
open MoltOS.Rust MoltOS.Eevdf MoltOS.Transition

variable {μ α R : Type} {s t : Core μ α R}

/- What a result of the scheduler says about the flow that asked for it: without a
   pair it is still current, with one it is the `from` and the new current the `to`. -/
def Names (running : Flow) (sched : EevdfScheduler) : Option Switch → Prop
  | none => running = flowOf sched.current
  | some x => x.1 = running.ctx ∧ ∃ i, sched.current = some i ∧ x.2 = .thread i

theorem names_tick {running : Flow} {sched sched' : EevdfScheduler} {p : Profile} {n : Nat}
    {sw : Option Switch} (hr : running = flowOf sched.current)
    (h : sched.tickPrepare p .bootstrap n = .ok (sched', sw)) : Names running sched' sw := by
  cases sw with
  | none =>
    have hk := EevdfScheduler.tickPrepare_keep h rfl
    simpa [Names, hk] using hr
  | some x =>
    obtain ⟨i, hi, rfl⟩ := EevdfScheduler.tickPrepare_pair h rfl
    refine ⟨?_, i, hi, rfl⟩
    rw [hr, flowOf_ctx]

theorem names_block {running : Flow} {sched sched' : EevdfScheduler} {p : Profile} {n : Nat}
    {sw : Option Switch} (hr : running = flowOf sched.current)
    (h : sched.blockCurrentAndPrepareSwitch p .bootstrap n = .ok (sched', sw)) :
    Names running sched' sw := by
  cases EevdfScheduler.block_cases h with
  | inl h => exact names_tick hr h.2
  | inr h =>
    obtain ⟨i, m, _, _, h⟩ := h
    refine names_tick ?_ h
    exact hr

def Core.Agrees (s : Core μ α R) : Prop :=
  match s.mode with
  | .normal => Names s.running s.sched (s.pc s.running).switch
  | .irqSpin _ => s.running = flowOf s.sched.current
  | .irqSwitch _ sw => Names s.running s.sched sw
  | .loading toCtx => ∃ i, s.sched.current = some i ∧ toCtx = .thread i

structure Stored (s : Core μ α R) : Prop where
  thread : ∀ i, i < s.sched.threads.length → ∃ r, s.contexts (.thread i) = some (.thread i, r)
  fresh : ∀ i, s.sched.threads.length ≤ i → s.contexts (.thread i) = none
  boot : ∀ f r, s.contexts .bootstrap = some (f, r) → f = .bootstrap
  running : ∀ i, s.running = .thread i → i < s.sched.threads.length

theorem Stored.congr (h : Stored s) (ht : t.sched.threads = s.sched.threads)
    (hc : t.contexts = s.contexts) (hr : t.running = s.running) : Stored t := by
  refine ⟨?_, ?_, ?_, ?_⟩
  · rw [ht, hc]
    exact h.thread
  · rw [ht, hc]
    exact h.fresh
  · rw [hc]
    exact h.boot
  · rw [ht, hr]
    exact h.running

theorem Stored.save (h : Stored s) {r : R} (ht : t.sched.threads = s.sched.threads)
    (hc : t.contexts = Function.update s.contexts s.running.ctx (some (s.running, r)))
    (hr : t.running = s.running) : Stored t := by
  refine ⟨?_, ?_, ?_, ?_⟩
  · intro i hi
    rw [ht] at hi
    rw [hc]
    cases hf : s.running with
    | bootstrap => simpa [Flow.ctx] using h.thread i hi
    | thread j =>
      by_cases hij : i = j
      · exact ⟨r, by simp [Flow.ctx, hij]⟩
      · simpa [Flow.ctx, hij] using h.thread i hi
  · intro i hi
    rw [ht] at hi
    rw [hc]
    cases hf : s.running with
    | bootstrap => simpa [Flow.ctx] using h.fresh i hi
    | thread j =>
      have hj := h.running j hf
      have hij : i ≠ j := by omega
      simpa [Flow.ctx, hij] using h.fresh i hi
  · intro f x hx
    rw [hc] at hx
    cases hf : s.running with
    | bootstrap =>
      simp only [hf, Flow.ctx, Function.update_self, Option.some.injEq, Prod.mk.injEq] at hx
      exact hx.1.symm
    | thread j =>
      simp only [hf, Flow.ctx, ne_eq, reduceCtorEq, not_false_eq_true,
        Function.update_of_ne] at hx
      exact h.boot f x hx
  · rw [ht, hr]
    exact h.running

theorem Stored.spawn (h : Stored s) {thread : Thread} {r : R}
    (ht : t.sched.threads = s.sched.threads ++ [thread])
    (hc : t.contexts = Function.update s.contexts (.thread s.sched.threads.length)
      (some (.thread s.sched.threads.length, r)))
    (hr : t.running = s.running) : Stored t := by
  refine ⟨?_, ?_, ?_, ?_⟩
  · intro i hi
    rw [ht, List.length_append, List.length_singleton] at hi
    rw [hc]
    by_cases hij : i = s.sched.threads.length
    · exact ⟨r, by simp [hij]⟩
    · simpa [hij] using h.thread i (by omega)
  · intro i hi
    rw [ht, List.length_append, List.length_singleton] at hi
    have hij : i ≠ s.sched.threads.length := by omega
    rw [hc]
    simpa [hij] using h.fresh i (by omega)
  · intro f x hx
    rw [hc] at hx
    simp only [ne_eq, reduceCtorEq, not_false_eq_true, Function.update_of_ne] at hx
    exact h.boot f x hx
  · intro i hi
    rw [hr] at hi
    have hlt := h.running i hi
    rw [ht, List.length_append]
    omega

structure CoreInv (s : Core μ α R) : Prop where
  shielded : Shielded s
  valid : s.sched.Valid
  agrees : s.Agrees
  stored : Stored s

theorem CoreInv.names (h : CoreInv s) (hm : s.mode = .normal) :
    Names s.running s.sched (s.pc s.running).switch := by
  simpa [Core.Agrees, hm] using h.agrees

/- Outside a pending switch the running flow is the current one. -/
theorem CoreInv.current (h : CoreInv s) (hm : s.mode = .normal)
    (hk : (s.pc s.running).switch = none) : s.running = flowOf s.sched.current := by
  simpa [hk, Names] using h.names hm

theorem agrees_goto {u : Core μ α R} {k : Pc μ α R} (hm : u.mode = .normal)
    (h : Names u.running u.sched k.switch) : (u.goto k).Agrees := by
  have hself : (u.goto k).pc u.running = k := goto_pc_self u k
  unfold Core.Agrees
  simp only [Core.goto, hm]
  simpa [Core.goto] using h

theorem spawnThread_threads (s : Core μ α R) (thread : Thread) (weight : Option Nat) (entry : R) :
    (s.spawnThread thread weight entry).sched.threads = s.sched.threads ++ [thread] := by
  cases weight <;> rfl

theorem spawnThread_current (s : Core μ α R) (thread : Thread) (weight : Option Nat) (entry : R) :
    (s.spawnThread thread weight entry).sched.current = s.sched.current := by
  cases weight <;> rfl

theorem spawnThread_valid (hv : s.sched.Valid) (thread : Thread) (weight : Option Nat) (entry : R) :
    (s.spawnThread thread weight entry).sched.Valid := by
  cases weight with
  | none => exact hv.push thread _ (by simp [ThreadMeta.new, defaultWeight])
  | some w => exact hv.push thread _ (le_max_right w 1)

theorem CoreInv.init (data : μ → α) (r : R) : CoreInv (Core.init data r) := by
  refine ⟨⟨?_, ?_⟩, EevdfScheduler.Valid.new, rfl, ⟨?_, ?_, ?_, ?_⟩⟩ <;>
    simp [Core.init, Pc.masked, EevdfScheduler.new]

/- The pending switch loads the context of the current thread. -/
theorem CoreInv.target (h : CoreInv s) {toCtx : CtxPtr} (hm : s.mode = .loading toCtx) :
    toCtx = (flowOf s.sched.current).ctx ∧ ∃ r, s.contexts toCtx = some (flowOf s.sched.current, r) := by
  have hto : ∃ i, s.sched.current = some i ∧ toCtx = .thread i := by
    simpa [Core.Agrees, hm] using h.agrees
  obtain ⟨i, hi, rfl⟩ := hto
  rw [hi]
  exact ⟨rfl, h.stored.thread i (h.valid.current i hi)⟩

theorem CoreInv.loads (h : CoreInv s) {toCtx : CtxPtr} {f : Flow} {r : R}
    (hm : s.mode = .loading toCtx) (hc : s.contexts toCtx = some (f, r)) :
    f = flowOf s.sched.current := by
  obtain ⟨_, x, hx⟩ := h.target hm
  have he := hc.symm.trans hx
  simp only [Option.some.injEq, Prod.mk.injEq] at he
  exact he.1

variable [DecidableEq μ] {p : Profile} {e : Event μ α R}

/-- A step that neither schedules nor switches. -/
theorem CoreInv.plain (h : CoreInv s) (hs : Step p s e t) {u : Core μ α R} {k : Pc μ α R}
    (ht : t = u.goto k) (hsched : u.sched = s.sched) (hctx : u.contexts = s.contexts)
    (hrun : u.running = s.running) (hm : s.mode = .normal) (hum : u.mode = .normal)
    (hpc : k.switch = (s.pc s.running).switch) : CoreInv t := by
  refine ⟨h.shielded.step hs, ?_, ?_, ?_⟩
  · rw [ht]
    exact hsched ▸ h.valid
  · rw [ht]
    refine agrees_goto hum ?_
    rw [hrun, hsched, hpc]
    exact h.names hm
  · rw [ht]
    exact h.stored.congr (by rw [← hsched]; rfl) (by rw [← hctx]; rfl) (by rw [← hrun]; rfl)

/-- A step that asks the scheduler for a pair. -/
theorem CoreInv.asks (h : CoreInv s) (hs : Step p s e t) {u : Core μ α R} {sw : Option Switch}
    {k : Pc μ α R} (ht : t = u.goto k) (hv : u.sched.Valid)
    (hthreads : u.sched.threads = s.sched.threads) (hctx : u.contexts = s.contexts)
    (hrun : u.running = s.running) (hum : u.mode = .normal) (hk : k.switch = sw)
    (hn : Names s.running u.sched sw) : CoreInv t := by
  refine ⟨h.shielded.step hs, ?_, ?_, ?_⟩
  · rw [ht]
    exact hv
  · rw [ht]
    refine agrees_goto hum ?_
    rw [hrun, hk]
    exact hn
  · rw [ht]
    exact h.stored.congr (by rw [← hthreads]; rfl) (by rw [← hctx]; rfl) (by rw [← hrun]; rfl)

theorem CoreInv.step (h : CoreInv s) (hs : Step p s e t) : CoreInv t := by
  cases hs.move with
  | jump hm hj =>
    exact h.plain hs rfl rfl rfl rfl hm hm (by rw [hj.switch.1, hj.switch.2])
  | compute r hm hpc =>
    exact ⟨h.shielded.step hs, h.valid, h.agrees, h.stored.congr rfl rfl rfl⟩
  | setInterrupts b hm hpc =>
    exact ⟨h.shielded.step hs, h.valid, h.agrees, h.stored.congr rfl rfl rfl⟩
  | newThread weight entry hm hpc => exact h.plain hs rfl rfl rfl rfl hm hm (by rw [hpc]; rfl)
  | drop m hm hpc hg => exact h.plain hs rfl rfl rfl rfl hm hm (by rw [hpc]; rfl)
  | write m v f hm hpc => exact h.plain hs rfl rfl rfl rfl hm hm (by rw [hpc]; rfl)
  | own m k hm hl hk =>
    exact h.plain hs rfl rfl rfl rfl hm hm (by rw [hk.switch.1, hk.switch.2])
  | disable c w hm hpc => exact h.plain hs rfl rfl rfl rfl hm hm (by rw [hpc]; rfl)
  | take c w hm hpc hh => exact h.plain hs rfl rfl rfl rfl hm hm (by rw [hpc]; rfl)
  | tick w sched sw hm hpc hsched =>
    have hcur := h.current hm (by rw [hpc]; rfl)
    exact h.asks hs rfl (h.valid.tickPrepare hsched) (EevdfScheduler.tickPrepare_shape hsched).1
      rfl rfl hm rfl (names_tick hcur hsched)
  | block w sched sw hm hpc hsched =>
    have hcur := h.current hm (by rw [hpc]; rfl)
    exact h.asks hs rfl (h.valid.block hsched) (EevdfScheduler.block_threads hsched)
      rfl rfl hm rfl (names_block hcur hsched)
  | enqueue m id sched sw hm hpc hw hsched =>
    have hcur := h.current hm (by rw [hpc]; rfl)
    exact h.asks hs rfl (h.valid.block hsched) (EevdfScheduler.block_threads hsched)
      rfl rfl hm rfl (names_block hcur hsched)
  | unblock id k w sched hm hpc hsched =>
    have hcur := h.current hm (by rw [hpc]; rfl)
    obtain ⟨hthreads, hcurrent⟩ := EevdfScheduler.unblock_frame hsched
    have hn : Names s.running sched none := by simpa [Names, hcurrent] using hcur
    exact h.asks hs rfl (h.valid.unblock hsched) hthreads rfl rfl hm rfl hn
  | spawn thread weight entry w hm hpc =>
    have hcur := h.current hm (by rw [hpc]; rfl)
    refine ⟨h.shielded.step hs, spawnThread_valid h.valid thread weight entry, ?_, ?_⟩
    · have hn : Names s.running (s.spawnThread thread weight entry).sched none := by
        unfold Names
        rw [spawnThread_current]
        exact hcur
      exact agrees_goto hm hn
    · exact h.stored.spawn (spawnThread_threads s thread weight entry) rfl rfl
  | unlock w k hm hpc => exact h.plain hs rfl rfl rfl rfl hm hm (by rw [hpc]; rfl)
  | restore w k hm hpc => exact h.plain hs rfl rfl rfl rfl hm hm (by rw [hpc, Cont.pc_switch]; rfl)
  | release c sw hm hpc => exact h.plain hs rfl rfl rfl rfl hm hm (by rw [hpc]; rfl)
  | save c fromCtx toCtx hm hpc =>
    have hn := h.names hm
    rw [hpc] at hn
    obtain ⟨hfrom, hto⟩ := hn
    simp only at hfrom
    subst hfrom
    exact ⟨h.shielded.step hs, h.valid, hto, h.stored.save rfl rfl rfl⟩
  | halt c hm hpc => exact h.plain hs rfl rfl rfl rfl hm hm (by rw [hpc, haltPc_switch]; rfl)
  | dropLock m hm hpc hw => exact h.plain hs rfl rfl rfl rfl hm hm (by rw [hpc]; rfl)
  | pop m id rest hm hpc hw => exact h.plain hs rfl rfl rfl rfl hm hm (by rw [hpc]; rfl)
  | dropUnlock m hm hpc => exact h.plain hs rfl rfl rfl rfl hm hm (by rw [hpc]; rfl)
  | irq k hm hi =>
    have hcur := h.current hm (Pc.switch_none (h.shielded.normal hi).2)
    exact ⟨h.shielded.step hs, h.valid, hcur, h.stored.congr rfl rfl rfl⟩
  | irqTick frame sched sw hm hh hsched =>
    have hcur : s.running = flowOf s.sched.current := by simpa [Core.Agrees, hm] using h.agrees
    exact ⟨h.shielded.step hs, h.valid.tickPrepare hsched, names_tick hcur hsched,
      h.stored.congr (EevdfScheduler.tickPrepare_shape hsched).1 rfl rfl⟩
  | irqReturn frame sw hm hsw =>
    have hn : Names s.running s.sched sw := by simpa [Core.Agrees, hm] using h.agrees
    have hcur : s.running = flowOf s.sched.current := by
      cases sw with
      | none => exact hn
      | some x =>
        obtain ⟨hfrom, i, hi, hto⟩ := hn
        rw [hi]
        exact Flow.ctx_injective (hfrom.symm.trans ((hsw x rfl).trans hto))
    have hplain := Pc.switch_none (h.shielded.open_of_mode (by simp [hm]) s.running)
    refine ⟨h.shielded.step hs, h.valid, ?_, h.stored.congr rfl rfl rfl⟩
    simpa [Core.Agrees, hplain, Names] using hcur
  | irqSave frame fromCtx toCtx hne hm =>
    have hn : Names s.running s.sched (some (fromCtx, toCtx)) := by
      simpa [Core.Agrees, hm] using h.agrees
    obtain ⟨hfrom, hto⟩ := hn
    simp only at hfrom
    subst hfrom
    exact ⟨h.shielded.step hs, h.valid, hto, h.stored.save rfl rfl rfl⟩
  | load toCtx f r hm hc =>
    obtain rfl := h.loads hm hc
    have hplain := Pc.switch_none
      (h.shielded.open_of_mode (by simp [hm]) (flowOf s.sched.current))
    refine ⟨h.shielded.step hs, h.valid, ?_, ?_⟩
    · simp [Core.Agrees, hplain, Names]
    · refine ⟨h.stored.thread, h.stored.fresh, h.stored.boot, fun i hi => ?_⟩
      cases hcur : s.sched.current with
      | none => simp [hcur, flowOf] at hi
      | some j =>
        simp only [hcur, flowOf, Flow.thread.injEq] at hi
        exact hi ▸ h.valid.current j hcur

theorem reachable_coreInv {data : μ → α} {r₀ : R}
    (h : Reachable (Step p) (Core.init data r₀) s) : CoreInv s :=
  h.invariant (fun _ _ _ hi hs => hi.step hs) (CoreInv.init data r₀)

end MoltOS.Kernel
