import MoltOS.EevdfRun
import MoltOS.KernelMove

/-! The masked windows of the core. Between taking a pair out of the scheduler and
switching, the running flow and `scheduler.current` differ; a flow in that window has
interrupts off, and there is at most one of them. -/
namespace MoltOS.Kernel
open MoltOS.Rust MoltOS.Eevdf MoltOS.Transition

variable {μ α R : Type} {s t : Core μ α R}

/- From `IrqMutex::lock` having disabled interrupts to their being enabled again. -/
def Pc.masked : Pc μ α R → Bool
  | .spin _ _ | .locked _ _ | .enqueue _ _ | .prepared _ _ | .released _ _ | .unlock _ _
  | .restore _ _ => true
  | _ => false

def Pc.switch : Pc μ α R → Option Switch
  | .prepared _ sw | .released _ sw => sw
  | _ => none

theorem Flow.ctx_injective {f g : Flow} (h : f.ctx = g.ctx) : f = g := by
  cases f <;> cases g <;> simp_all [Flow.ctx]

theorem flowOf_ctx (o : Option Nat) : (flowOf o).ctx = EevdfScheduler.ctxOf .bootstrap o := by
  cases o <;> rfl

@[simp] theorem Cont.pc_masked (k : Cont μ) : (k.pc : Pc μ α R).masked = false := by
  cases k <;> rfl

@[simp] theorem Cont.pc_switch (k : Cont μ) : (k.pc : Pc μ α R).switch = none := by
  cases k <;> rfl

@[simp] theorem haltPc_masked (c : Call μ R) : (haltPc c : Pc μ α R).masked = false := by
  cases c <;> rfl

@[simp] theorem haltPc_switch (c : Call μ R) : (haltPc c : Pc μ α R).switch = none := by
  cases c <;> rfl

/- A pair is pending only while interrupts are masked. -/
theorem Pc.switch_none {k : Pc μ α R} (h : k.masked = false) : k.switch = none := by
  cases k <;> first | rfl | cases h

theorem afterSwitch_plain {c : Call μ R} {k : Pc μ α R} (h : Core.afterSwitch c = some k) :
    k.masked = false ∧ k.switch = none := by
  cases c <;> cases h <;> exact ⟨rfl, rfl⟩

theorem Acquires.switch {m : μ} {k k' : Pc μ α R} (h : Acquires m k k') :
    k.switch = none ∧ k'.switch = none := by
  cases h <;> exact ⟨rfl, rfl⟩

theorem Acquires.masked {m : μ} {k k' : Pc μ α R} (h : Acquires m k k') :
    k'.masked = k.masked := by
  cases h <;> rfl

/-- Interrupts are off in every handler, in every switch and in every masked window,
and only the running flow can be in one. -/
structure Shielded (s : Core μ α R) : Prop where
  normal : s.interrupts = true → s.mode = .normal ∧ (s.pc s.running).masked = false
  alone : ∀ f, (s.pc f).masked = true → f = s.running ∧ s.mode = .normal

theorem Shielded.off (h : Shielded s) (hk : (s.pc s.running).masked = true) :
    s.interrupts = false := by
  cases hi : s.interrupts with
  | false => rfl
  | true =>
    have hn := (h.normal hi).2
    rw [hk] at hn
    cases hn

theorem Shielded.open_of_mode (h : Shielded s) (hm : s.mode ≠ .normal) (f : Flow) :
    (s.pc f).masked = false := by
  cases hf : (s.pc f).masked with
  | false => rfl
  | true => exact absurd (h.alone f hf).2 hm

theorem Shielded.goto (h : Shielded s) {u : Core μ α R} {k : Pc μ α R} (hr : u.running = s.running)
    (hpc : u.pc = s.pc) (hm : u.mode = .normal) (hk : u.interrupts = true → k.masked = false) :
    Shielded (u.goto k) := by
  refine ⟨fun hi => ⟨hm, ?_⟩, fun f hf => ⟨?_, hm⟩⟩
  · have hself := goto_pc_self u k
    change ((u.goto k).pc u.running).masked = false
    rw [hself]
    exact hk hi
  · by_cases hne : f = u.running
    · exact hne
    · rw [goto_pc_other u k hne, hpc] at hf
      have hrun := (h.alone f hf).1
      exact absurd (hrun.trans hr.symm) hne

/- A masked window that goes on leaves the flag alone. -/
theorem Shielded.goto_same (h : Shielded s) {u : Core μ α R} {k : Pc μ α R}
    (hr : u.running = s.running) (hpc : u.pc = s.pc) (hm : u.mode = .normal)
    (hi : u.interrupts = s.interrupts) (hk : k.masked = (s.pc s.running).masked) :
    Shielded (u.goto k) := by
  refine h.goto hr hpc hm fun hu => ?_
  rw [hk]
  exact (h.normal (hi ▸ hu)).2

variable {e : Event μ α R}

theorem Jump.masked {k k' : Pc μ α R} (h : Jump s e k k') : k'.masked = k.masked := by
  cases h with
  | resume c k hk => exact (afterSwitch_plain hk).1
  | _ => rfl

theorem Jump.switch {k k' : Pc μ α R} (h : Jump s e k k') : k.switch = none ∧ k'.switch = none := by
  cases h with
  | resume c k hk => exact ⟨rfl, (afterSwitch_plain hk).2⟩
  | _ => exact ⟨rfl, rfl⟩

variable [DecidableEq μ] {p : Profile}

theorem Shielded.step (h : Shielded s) (hs : Step p s e t) : Shielded t := by
  cases hs.move with
  | jump hm hj => exact h.goto_same rfl rfl hm rfl hj.masked
  | compute r hm hpc => exact ⟨h.normal, h.alone⟩
  | setInterrupts b hm hpc => exact ⟨fun _ => ⟨hm, by rw [hpc]; rfl⟩, h.alone⟩
  | newThread weight entry hm hpc => exact h.goto rfl rfl hm fun _ => rfl
  | drop m hm hpc hg => exact h.goto rfl rfl hm fun _ => rfl
  | write m v f hm hpc => exact h.goto rfl rfl hm fun _ => rfl
  | own m k hm hl hk => exact h.goto_same rfl rfl hm rfl hk.masked
  | disable c w hm hpc => exact h.goto rfl rfl hm fun hi => by cases hi
  | take c w hm hpc hh => exact h.goto_same rfl rfl hm rfl (by rw [hpc]; rfl)
  | tick w sched sw hm hpc hs => exact h.goto_same rfl rfl hm rfl (by rw [hpc]; rfl)
  | block w sched sw hm hpc hs => exact h.goto_same rfl rfl hm rfl (by rw [hpc]; rfl)
  | enqueue m id sched sw hm hpc hw hs => exact h.goto_same rfl rfl hm rfl (by rw [hpc]; rfl)
  | unblock id k w sched hm hpc hs => exact h.goto_same rfl rfl hm rfl (by rw [hpc]; rfl)
  | spawn thread weight entry w hm hpc => exact h.goto_same rfl rfl hm rfl (by rw [hpc]; rfl)
  | unlock w k hm hpc => exact h.goto_same rfl rfl hm rfl (by rw [hpc]; rfl)
  | restore w k hm hpc => exact h.goto rfl rfl hm fun _ => Cont.pc_masked k
  | release c sw hm hpc => exact h.goto_same rfl rfl hm rfl (by rw [hpc]; rfl)
  | save c fromCtx toCtx hm hpc =>
    have hoff := h.off (by rw [hpc]; rfl)
    refine ⟨fun hi => ?_, fun f hf => ?_⟩
    · exact absurd (hi.symm.trans hoff) (by simp)
    · by_cases hne : f = s.running
      · subst hne
        simp [Core.goto, Pc.masked] at hf
      · simp only [Core.goto, Function.update_of_ne hne] at hf
        exact absurd (h.alone f hf).1 hne
  | halt c hm hpc => exact h.goto rfl rfl hm fun _ => haltPc_masked c
  | dropLock m hm hpc hw => exact h.goto rfl rfl hm fun _ => rfl
  | pop m id rest hm hpc hw => exact h.goto rfl rfl hm fun _ => rfl
  | dropUnlock m hm hpc => exact h.goto rfl rfl hm fun _ => rfl
  | irq k hm hi =>
    refine ⟨fun hf => absurd hf (by simp [Core.irq]), fun f hf => ?_⟩
    obtain ⟨rfl, _⟩ := h.alone f hf
    exact absurd (hf.symm.trans (h.normal hi).2) (by simp)
  | irqTick frame sched sw hm hh hs =>
    refine ⟨fun hi => ?_, fun f hf => ?_⟩
    · exact absurd ((h.normal hi).1.symm.trans hm) (by simp)
    · exact absurd ((h.alone f hf).2.symm.trans hm) (by simp)
  | irqReturn frame sw hm hsw =>
    have hnone := h.open_of_mode (by simp [hm])
    exact ⟨fun _ => ⟨rfl, hnone _⟩, fun f hf => absurd (hf.symm.trans (hnone f)) (by simp)⟩
  | irqSave frame fromCtx toCtx hne hm =>
    refine ⟨fun hi => ?_, fun f hf => ?_⟩
    · exact absurd ((h.normal hi).1.symm.trans hm) (by simp)
    · exact absurd ((h.alone f hf).2.symm.trans hm) (by simp)
  | load toCtx f r hm hc =>
    have hnone := h.open_of_mode (by simp [hm])
    exact ⟨fun _ => ⟨rfl, hnone _⟩, fun g hg => absurd (hg.symm.trans (hnone g)) (by simp)⟩

end MoltOS.Kernel
