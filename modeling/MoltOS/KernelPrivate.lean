import MoltOS.KernelSwitch

/-! Preemption as the threads see it. The core with its one set of registers, its interrupt
frames and its saved contexts refines a machine in which every flow has registers of its own:
only the flow that executes changes them, and nobody else's. -/
namespace MoltOS.Kernel
open MoltOS.Rust MoltOS.Eevdf MoltOS.Transition

variable {μ α R : Type} {s t : Core μ α R}

structure Private (R : Type) where
  executing : Option Flow
  regs : Flow → Option R

inductive PrivateStep : Private R → Event μ α R → Private R → Prop where
  | compute (f : Flow) (regs : Flow → Option R) (r : R) :
      PrivateStep ⟨some f, regs⟩ (.compute r) ⟨some f, Function.update regs f (some r)⟩
  | spawn (x : Option Flow) (regs : Flow → Option R) (i : Nat) (entry : R)
      (hnew : regs (.thread i) = none) :
      PrivateStep ⟨x, regs⟩ .advance ⟨x, Function.update regs (.thread i) (some entry)⟩
  | other {e : Event μ α R} (x y : Option Flow) (regs : Flow → Option R)
      (he : ∀ r, e ≠ .compute r) : PrivateStep ⟨x, regs⟩ e ⟨y, regs⟩

def Core.executing (s : Core μ α R) : Option Flow :=
  match s.mode with
  | .loading _ => none
  | _ => some s.running

/- The registers of a flow: in the processor or the frame of an interrupt while it executes,
   otherwise in its context. -/
def Core.regsOf (s : Core μ α R) (f : Flow) : Option R :=
  if s.executing = some f then some s.liveRegs else (s.contexts f.ctx).map (·.2)

def Core.privately (s : Core μ α R) : Private R := ⟨s.executing, s.regsOf⟩

theorem regsOf_executing {f : Flow} (h : s.executing = some f) : s.regsOf f = some s.liveRegs :=
  if_pos h

theorem regsOf_suspended {f : Flow} (h : s.executing ≠ some f) :
    s.regsOf f = (s.contexts f.ctx).map (·.2) := if_neg h

/-- The same flow executes, with the same registers and the same contexts. -/
theorem regsOf_congr (he : t.executing = s.executing) (hr : t.liveRegs = s.liveRegs)
    (hc : t.contexts = s.contexts) : t.regsOf = s.regsOf := by
  funext f
  simp only [Core.regsOf, he, hr, hc]

/-- The executing flow goes into its own context. -/
theorem regsOf_save {f : Flow} {r : R} (hs : s.executing = some f) (hr : s.liveRegs = r)
    (ht : t.executing = none) (hc : t.contexts = Function.update s.contexts f.ctx (some (f, r))) :
    t.regsOf = s.regsOf := by
  funext g
  rw [regsOf_suspended (s := t) (by simp [ht]), hc]
  by_cases hg : g = f
  · rw [hg, Function.update_self, regsOf_executing hs, hr]
    rfl
  · have hctx : g.ctx ≠ f.ctx := fun h => hg (Flow.ctx_injective h)
    rw [Function.update_of_ne hctx, regsOf_suspended]
    rw [hs]
    exact fun h => hg (Option.some.inj h).symm

/-- A context is loaded by the flow that was saved into it. -/
theorem regsOf_load {f : Flow} {r : R} (hs : s.executing = none)
    (hload : s.contexts f.ctx = some (f, r)) (ht : t.executing = some f) (hr : t.liveRegs = r)
    (hc : t.contexts = s.contexts) : t.regsOf = s.regsOf := by
  funext g
  rw [regsOf_suspended (s := s) (by simp [hs])]
  by_cases hg : g = f
  · rw [hg, regsOf_executing ht, hr, hload]
    rfl
  · rw [regsOf_suspended, hc]
    rw [ht]
    exact fun h => hg (Option.some.inj h).symm

/-- The executing flow changes its own registers. -/
theorem regsOf_compute {f : Flow} {r : R} (hs : s.executing = some f) (ht : t.executing = some f)
    (hr : t.liveRegs = r) (hc : t.contexts = s.contexts) :
    t.regsOf = Function.update s.regsOf f (some r) := by
  funext g
  by_cases hg : g = f
  · rw [hg, Function.update_self, regsOf_executing ht, hr]
  · have hne : some f ≠ some g := fun h => hg (Option.some.inj h).symm
    rw [Function.update_of_ne hg, regsOf_suspended (ht ▸ hne), regsOf_suspended (hs ▸ hne), hc]

/-- A flow that does not execute gets a context. -/
theorem regsOf_create {f : Flow} {r : R} (hs : s.executing ≠ some f) (he : t.executing = s.executing)
    (hr : t.liveRegs = s.liveRegs)
    (hc : t.contexts = Function.update s.contexts f.ctx (some (f, r))) :
    t.regsOf = Function.update s.regsOf f (some r) := by
  funext g
  by_cases hg : g = f
  · rw [hg, Function.update_self, regsOf_suspended (he ▸ hs), hc, Function.update_self]
    rfl
  · have hctx : g.ctx ≠ f.ctx := fun h => hg (Flow.ctx_injective h)
    rw [Function.update_of_ne hg, Core.regsOf, Core.regsOf, he, hr, hc, Function.update_of_ne hctx]

theorem executing_normal (h : s.mode = .normal) : s.executing = some s.running := by
  rw [Core.executing, h]

theorem liveRegs_normal (h : s.mode = .normal) : s.liveRegs = s.regs := by
  rw [Core.liveRegs, h]

section Steps
variable {e : Event μ α R}

/-- A step in which the registers do not move. -/
theorem private_other (he : ∀ r, e ≠ .compute r) (h : t.regsOf = s.regsOf) :
    PrivateStep s.privately e t.privately := by
  rw [Core.privately, Core.privately, h]
  exact .other _ _ _ he

theorem private_quiet (he : ∀ r, e ≠ .compute r) (hs : s.mode = .normal) (ht : t.mode = .normal)
    (hrun : t.running = s.running) (hr : t.regs = s.regs) (hc : t.contexts = s.contexts) :
    PrivateStep s.privately e t.privately := by
  refine private_other he (regsOf_congr ?_ ?_ hc)
  · rw [executing_normal hs, executing_normal ht, hrun]
  · rw [liveRegs_normal hs, liveRegs_normal ht, hr]

theorem private_compute {r : R} (hs : s.mode = .normal) (ht : t.mode = .normal)
    (hrun : t.running = s.running) (hr : t.regs = r) (hc : t.contexts = s.contexts) :
    PrivateStep s.privately (.compute r : Event μ α R) t.privately := by
  have hexec : t.executing = some s.running := hrun ▸ executing_normal ht
  have hregs := regsOf_compute (executing_normal hs) hexec ((liveRegs_normal ht).trans hr) hc
  rw [Core.privately, Core.privately, hregs, hexec, executing_normal hs]
  exact .compute _ _ _

theorem private_spawn (h : CoreInv s) {entry : R} (hs : s.mode = .normal) (ht : t.mode = .normal)
    (hrun : t.running = s.running) (hr : t.regs = s.regs)
    (hc : t.contexts = Function.update s.contexts (.thread s.sched.len)
      (some (.thread s.sched.len, entry))) :
    PrivateStep s.privately (.advance : Event μ α R) t.privately := by
  -- the new thread is not the one that runs, and has had no context so far
  have hnot : s.executing ≠ some (.thread s.sched.len) := by
    rw [executing_normal hs]
    exact fun he => Nat.lt_irrefl _ (h.stored.running _ (Option.some.inj he))
  have hnone : s.regsOf (.thread s.sched.len) = none := by
    rw [regsOf_suspended hnot]
    exact congrArg (Option.map Prod.snd) (h.stored.fresh s.sched.len (Nat.le_refl _))
  have hexec : t.executing = s.executing := by
    rw [executing_normal hs, executing_normal ht, hrun]
  have hlive : t.liveRegs = s.liveRegs := by rw [liveRegs_normal hs, liveRegs_normal ht, hr]
  have hregs := regsOf_create (f := .thread s.sched.len) hnot hexec hlive hc
  rw [Core.privately, Core.privately, hregs, hexec]
  exact .spawn _ _ _ _ hnone

variable [DecidableEq μ] {p : Profile}

/-- Every step of the core is a step of the machine with private registers. -/
theorem private_step (h : CoreInv s) (hs : Step p s e t) : PrivateStep s.privately e t.privately := by
  cases hs.move with
  | compute r hm hpc => exact private_compute hm hm rfl rfl rfl
  | spawn thread weight entry w hm hpc => exact private_spawn h hm hm rfl rfl rfl
  | jump hm hj => exact private_quiet (by rintro r rfl; cases hj) hm hm rfl rfl rfl
  | setInterrupts b hm hpc => exact private_quiet (by simp) hm hm rfl rfl rfl
  | newThread weight entry hm hpc => exact private_quiet (by simp) hm hm rfl rfl rfl
  | drop m hm hpc hg => exact private_quiet (by simp) hm hm rfl rfl rfl
  | write m v f hm hpc => exact private_quiet (by simp) hm hm rfl rfl rfl
  | own m k hm hl hk => exact private_quiet (by simp) hm hm rfl rfl rfl
  | disable c w hm hpc => exact private_quiet (by simp) hm hm rfl rfl rfl
  | take c w hm hpc hh => exact private_quiet (by simp) hm hm rfl rfl rfl
  | tick w sched sw hm hpc hs => exact private_quiet (by simp) hm hm rfl rfl rfl
  | block w sched sw hm hpc hs => exact private_quiet (by simp) hm hm rfl rfl rfl
  | enqueue m id sched sw hm hpc hw hs => exact private_quiet (by simp) hm hm rfl rfl rfl
  | unblock id k w sched hm hpc hs => exact private_quiet (by simp) hm hm rfl rfl rfl
  | unlock w k hm hpc => exact private_quiet (by simp) hm hm rfl rfl rfl
  | restore w k hm hpc => exact private_quiet (by simp) hm hm rfl rfl rfl
  | release c sw hm hpc => exact private_quiet (by simp) hm hm rfl rfl rfl
  | halt c hm hpc => exact private_quiet (by simp) hm hm rfl rfl rfl
  | dropLock m hm hpc hw => exact private_quiet (by simp) hm hm rfl rfl rfl
  | pop m id rest hm hpc hw => exact private_quiet (by simp) hm hm rfl rfl rfl
  | dropUnlock m hm hpc => exact private_quiet (by simp) hm hm rfl rfl rfl
  | save c fromCtx toCtx hm hpc =>
    have hfrom : fromCtx = s.running.ctx := by
      have hnames := h.names hm
      rw [hpc] at hnames
      exact hnames.1
    exact private_other (by simp) (regsOf_save (executing_normal hm) (liveRegs_normal hm) rfl
      (by rw [hfrom]; rfl))
  | irq k hm hi =>
    refine private_other (by simp) (regsOf_congr ?_ ?_ rfl)
    · rw [executing_normal hm]
      rfl
    · rw [liveRegs_normal hm]
      rfl
  | irqTick frame sched sw hm hh hs =>
    refine private_other (by simp) (regsOf_congr ?_ ?_ rfl)
    · simp [Core.executing, hm]
    · simp [Core.liveRegs, hm]
  | irqReturn frame sw hm hsw =>
    refine private_other (by simp) (regsOf_congr ?_ ?_ rfl)
    · simp [Core.executing, hm]
    · simp [Core.liveRegs, hm]
  | irqSave frame fromCtx toCtx hne hm =>
    have hfrom : fromCtx = s.running.ctx := by
      have hnames : Names s.running s.sched (some (fromCtx, toCtx)) := by
        simpa [Core.Agrees, hm] using h.agrees
      exact hnames.1
    refine private_other (by simp) (regsOf_save (f := s.running) (r := frame) ?_ ?_ rfl
      (by rw [hfrom]))
    · simp [Core.executing, hm]
    · simp [Core.liveRegs, hm]
  | load toCtx f r hm hc =>
    have hto : toCtx = f.ctx := by rw [h.loads hm hc, (h.target hm).1]
    refine private_other (by simp) (regsOf_load (f := f) (r := r) ?_ (hto ▸ hc) rfl rfl rfl)
    simp [Core.executing, hm]

/-- Preemption is invisible. Every run of the core is a run of the machine in which every flow
has registers of its own: an interrupt, a switch or another flow's step never changes them, and
a new thread begins with the registers it was created with. -/
theorem core_refines_private (data : μ → α) (r₀ : R) (es : List (Event μ α R)) (s : Core μ α R)
    (h : Run (Step p) (Core.init data r₀) es s) :
    Run PrivateStep (Core.init data r₀).privately es s.privately :=
  (h.simulate (fun _ _ _ hinv hs => ⟨hinv.step hs, private_step hinv hs⟩)
    (CoreInv.init data r₀)).2

theorem preempted_refines_private : ∃ s : Core Unit Nat Nat,
    Run (Step .dev) (Core.init (fun _ => 0) 1) preemptEvents s ∧ s.running = .thread 0 ∧
      s.regsOf .bootstrap = some 1 ∧ s.regsOf (.thread 0) = some 7 ∧
      Run PrivateStep (Core.privately (Core.init (fun _ => 0) 1 : Core Unit Nat Nat)) preemptEvents
        s.privately := by
  have hrun : ((exec (Core.step .dev) (Core.init (fun _ => 0) 1) preemptEvents).any fun s =>
      decide (s.running = .thread 0 ∧ s.regsOf .bootstrap = some 1 ∧
        s.regsOf (.thread 0) = some 7)) = true := by decide +kernel
  obtain ⟨s, hexec, hq⟩ := (Option.any_eq_true _ _).mp hrun
  obtain ⟨hthread, hboot, hnew⟩ := of_decide_eq_true hq
  have hs : Run (Step .dev) (Core.init (fun _ => 0) 1) preemptEvents s := run_of_exec hexec
  exact ⟨s, hs, hthread, hboot, hnew, core_refines_private _ _ _ s hs⟩

end Steps
end MoltOS.Kernel
