import Mathlib.Data.Fintype.Basic
import MoltOS.KernelAgree

/-! The spin lock on the wait queue of a sleeping mutex. It is taken with interrupts on in
the guard drop and with interrupts off in the slow path of `lock`; a thread preempted
while it holds the lock lets another one spin on it for ever. -/
namespace MoltOS.Kernel
open MoltOS.Rust MoltOS.Eevdf MoltOS.Transition

variable {μ α R : Type} {s t : Core μ α R} {e : Event μ α R}

def Core.Wedged (s : Core μ α R) : Prop :=
  s.interrupts = false ∧ s.mode = .normal ∧ ∃ m id g, s.pc s.running = .enqueue m id ∧
    (s.mutexes m).waitersHeld = some g ∧ g ≠ s.running

def Pc.holds : Pc μ α R → Option μ
  | .dropPop m | .dropUnlock m => some m
  | .acquire (.unblockThread _ k) | .disable (.unblockThread _ k) _
  | .spin (.unblockThread _ k) _ | .locked (.unblockThread _ k) _ => k
  | .unlock _ (.dropUnlock m) | .restore _ (.dropUnlock m) => some m
  | _ => none

def KeepsHolder (s : Core μ α R) (_ : Event μ α R) : Prop :=
  match s.mode with
  | .irqSwitch _ (some x) => x.1 = x.2 ∨ ∀ m, (s.mutexes m).waitersHeld ≠ some s.running
  | _ => True

instance [Fintype μ] (s : Core μ α R) (e : Event μ α R) : Decidable (KeepsHolder s e) := by
  unfold KeepsHolder
  split <;> infer_instance

def HeldByRunning (s : Core μ α R) : Prop :=
  ∀ m g, (s.mutexes m).waitersHeld = some g →
    g = s.running ∧ (s.pc s.running).holds = some m ∧ ∀ c, s.mode ≠ .loading c

theorem Jump.holds {k k' : Pc μ α R} (h : Jump s e k k') {m : μ} (hm : k.holds = some m) :
    k'.holds = some m := by
  cases h with
  | flag c => cases c <;> exact hm
  | popNone n hw => exact hm
  | _ => cases hm

theorem HeldByRunning.goto (h : HeldByRunning s) {u : Core μ α R} {k : Pc μ α R}
    (hr : u.running = s.running)
    (hw : ∀ m, (u.mutexes m).waitersHeld = (s.mutexes m).waitersHeld) (hm : u.mode = .normal)
    (hk : ∀ m, (s.pc s.running).holds = some m → k.holds = some m) : HeldByRunning (u.goto k) := by
  intro m g hg
  change (u.mutexes m).waitersHeld = some g at hg
  rw [hw] at hg
  obtain ⟨hrun, hpc, _⟩ := h m g hg
  refine ⟨hrun.trans hr.symm, ?_, fun c hc => ?_⟩
  · change ((u.goto k).pc u.running).holds = some m
    rw [goto_pc_self]
    exact hk m hpc
  · exact absurd (hm.symm.trans hc) (by simp)

variable [DecidableEq μ] {p : Profile}

theorem setWaiters_held (s : Core μ α R) (m : μ) (l : List ThreadId) (n : μ) :
    ((s.setWaiters m l).mutexes n).waitersHeld = (s.mutexes n).waitersHeld :=
  setMutex_keeps KMutex.waitersHeld s m { s.mutexes m with waiters := l } rfl n

theorem HeldByRunning.step (h : HeldByRunning s) (hs : Restrict (Step p) KeepsHolder s e t) :
    HeldByRunning t := by
  have plain {u : Core μ α R} {k : Pc μ α R} (hr : u.running = s.running)
      (hu : u.mutexes = s.mutexes) (hm : u.mode = .normal)
      (hk : ∀ m, (s.pc s.running).holds = some m → k.holds = some m) : HeldByRunning (u.goto k) :=
    h.goto hr (fun _ => by rw [hu]) hm hk
  have absent {k : Pc μ α R} (hk : (s.pc s.running).holds = none) (m : μ)
      (hm : (s.pc s.running).holds = some m) : k.holds = some m := by
    rw [hk] at hm
    cases hm
  have free (hk : (s.pc s.running).holds = none) (m : μ) (g : Flow) :
      (s.mutexes m).waitersHeld ≠ some g := by
    intro hg
    rw [(h m g hg).2.1] at hk
    cases hk
  obtain ⟨hs, hkeep⟩ := hs
  cases hs.move with
  | jump hm hj => exact plain rfl rfl hm fun m hk => hj.holds hk
  | compute r hm hpc => exact fun m g hg => ⟨(h m g hg).1, (h m g hg).2.1, (h m g hg).2.2⟩
  | setInterrupts b hm hpc => exact fun m g hg => h m g hg
  | newThread weight entry hm hpc => exact plain rfl rfl hm (absent (by rw [hpc]; rfl))
  | drop m hm hpc hg =>
    exact h.goto rfl (setMutex_keeps KMutex.waitersHeld s m _ rfl) hm (absent (by rw [hpc]; rfl))
  | write m v f hm hpc =>
    exact h.goto rfl (setMutex_keeps KMutex.waitersHeld s m _ rfl) hm (absent (by rw [hpc]; rfl))
  | own m k hm hl hk =>
    refine h.goto rfl (setMutex_keeps KMutex.waitersHeld s m _ rfl) hm (absent ?_)
    generalize s.pc s.running = k₀ at hk
    cases hk <;> rfl
  | disable c w hm hpc =>
    exact plain rfl rfl hm fun m hk => by rw [hpc] at hk; cases c <;> exact hk
  | take c w hm hpc hh =>
    exact plain rfl rfl hm fun m hk => by rw [hpc] at hk; cases c <;> exact hk
  | tick w sched sw hm hpc hsched => exact plain rfl rfl hm (absent (by rw [hpc]; rfl))
  | block w sched sw hm hpc hsched => exact plain rfl rfl hm (absent (by rw [hpc]; rfl))
  | enqueue m id sched sw hm hpc hw hsched =>
    exact h.goto rfl (setWaiters_held s m _) hm (absent (by rw [hpc]; rfl))
  | unblock id k w sched hm hpc hsched =>
    refine plain rfl rfl hm fun m hk => ?_
    rw [hpc] at hk
    cases k <;> exact hk
  | spawn thread weight entry w hm hpc => exact plain rfl rfl hm (absent (by rw [hpc]; rfl))
  | unlock w k hm hpc =>
    exact plain rfl rfl hm fun m hk => by rw [hpc] at hk; cases k <;> exact hk
  | restore w k hm hpc =>
    exact plain rfl rfl hm fun m hk => by rw [hpc] at hk; cases k <;> exact hk
  | release c sw hm hpc => exact plain rfl rfl hm (absent (by rw [hpc]; rfl))
  | save c fromCtx toCtx hm hpc => exact fun m g hg => absurd hg (free (by rw [hpc]; rfl) m g)
  | halt c hm hpc => exact plain rfl rfl hm (absent (by rw [hpc]; rfl))
  | dropLock m hm hpc hw =>
    intro n g hg
    by_cases hn : n = m
    · subst hn
      simp only [Core.goto, Core.setWaitersHeld, Core.setMutex, Function.update_self,
        Option.some.injEq] at hg
      refine ⟨hg.symm, ?_, fun c hc => absurd (hm.symm.trans hc) (by simp)⟩
      simp [Core.goto, Core.setWaitersHeld, Core.setMutex, Pc.holds]
    · simp only [Core.goto, Core.setWaitersHeld, Core.setMutex, Function.update_of_ne hn] at hg
      exact absurd hg (free (by rw [hpc]; rfl) n g)
  | pop m id rest hm hpc hw =>
    exact h.goto rfl (setWaiters_held s m _) hm fun n hk => by rw [hpc] at hk; exact hk
  | dropUnlock m hm hpc =>
    intro n g hg
    by_cases hn : n = m
    · subst hn
      simp [Core.goto, Core.setWaitersHeld, Core.setMutex] at hg
    · simp only [Core.goto, Core.setWaitersHeld, Core.setMutex, Function.update_of_ne hn] at hg
      have hk := (h n g hg).2.1
      rw [hpc] at hk
      cases hk
      exact absurd rfl hn
  | irq k hm hi =>
    exact fun m g hg => ⟨(h m g hg).1, (h m g hg).2.1, by simp [Core.irq]⟩
  | irqTick frame sched sw hm hh hsched =>
    exact fun m g hg => ⟨(h m g hg).1, (h m g hg).2.1, by simp⟩
  | irqReturn frame sw hm hsw =>
    exact fun m g hg => ⟨(h m g hg).1, (h m g hg).2.1, by simp⟩
  | irqSave frame fromCtx toCtx hne hm =>
    intro m g hg
    have hrun := (h m g hg).1
    simp only [KeepsHolder, hm] at hkeep
    exact absurd (hrun ▸ hg) (hkeep.resolve_left hne m)
  | load toCtx f r hm hc => exact fun m g hg => absurd hm ((h m g hg).2.2 toCtx)

/-- In every run in which no interrupt handler switches away from a flow that has locked a
wait queue, no state is reached in which the core spins on one with interrupts off. -/
theorem wait_queue_never_wedges (data : μ → α) (r₀ : R) (s : Core μ α R)
    (h : Reachable (Restrict (Step p) KeepsHolder) (Core.init data r₀) s) : ¬ s.Wedged := by
  have hinv : HeldByRunning s := by
    refine h.invariant (fun _ _ _ hi hs => hi.step hs) fun m g hg => ?_
    cases hg
  intro hw
  obtain ⟨_, _, m, id, g, _, hg, hne⟩ := hw
  exact hne (hinv m g hg).1

def Core.atEnqueue (s : Core μ α R) : Bool :=
  match s.pc s.running with
  | .enqueue _ _ => true
  | _ => false

theorem queued_without_wedge : ∃ s : Core Unit Nat Unit,
    Reachable (Restrict (Step .dev) KeepsHolder) (Core.init (fun _ => 0) ()) s ∧
      s.atEnqueue = true ∧ ¬ s.Wedged := by
  have hrun : ((exec (checked (Core.step .dev) KeepsHolder) (Core.init (fun _ => 0) ())
      contendEvents).any Core.atEnqueue) = true := by decide +kernel
  obtain ⟨s, hreach, hp⟩ := reachable_of_checked hrun
  exact ⟨s, hreach, hp, wait_queue_never_wedges _ _ s hreach⟩

/-- A wedged core takes no further step. -/
theorem Core.Wedged.frozen (h : s.Wedged) : ¬ Step p s e t := by
  obtain ⟨hi, hm, m, id, g, hpc, hg, _⟩ := h
  intro hs
  cases hs.move with
  | jump hm hj =>
    rw [hpc] at hj
    cases hj
  | own n k hm hl hk =>
    rw [hpc] at hk
    cases hk
  | enqueue n id sched sw hm hpc' hw hsched =>
    rw [hpc] at hpc'
    cases hpc'
    rw [hg] at hw
    cases hw
  | irq k hm hi' =>
    rw [hi] at hi'
    cases hi'
  | irqTick frame sched sw hm' | irqReturn frame sw hm' | irqSave frame fromCtx toCtx hne hm'
  | load toCtx f r hm' =>
    rw [hm] at hm'
    cases hm'
  | compute _ _ hpc' | setInterrupts _ _ hpc' | newThread _ _ _ hpc' | drop _ _ hpc'
  | write _ _ _ _ hpc' | disable _ _ _ hpc' | take _ _ _ hpc' | tick _ _ _ _ hpc'
  | block _ _ _ _ hpc' | unblock _ _ _ _ _ hpc' | spawn _ _ _ _ _ hpc' | unlock _ _ _ hpc'
  | restore _ _ _ hpc' | release _ _ _ hpc' | save _ _ _ _ hpc' | halt _ _ hpc'
  | dropLock _ _ hpc' | pop _ _ _ _ hpc' | dropUnlock _ _ hpc' =>
    rw [hpc] at hpc'
    cases hpc'

/- Three threads. The first is preempted in its guard drop with the wait queue locked,
   the second acquires the free mutex, the third finds it taken and goes to enqueue itself. -/
def wedgeEvents : List (Event Unit Nat Unit) :=
  let steps (n : Nat) : List (Event Unit Nat Unit) := List.replicate n .advance
  bootEvents 3 ++ [.lock ()] ++ steps 1 ++ [.drop ()] ++ steps 1 ++ [.irq .timer] ++ steps 3 ++
    [.lock ()] ++ steps 1 ++ [.irq .timer] ++ steps 3 ++ [.lock ()] ++ steps 5

def Mode.isNormal : Mode R → Bool
  | .normal => true
  | _ => false

theorem preempted_drop_wedges : ∃ s : Core Unit Nat Unit,
    Reachable (Step .dev) (Core.init (fun _ => 0) ()) s ∧ s.Wedged ∧ ∀ e t, ¬ Step .dev s e t := by
  have hrun : ((exec (Core.step .dev) (Core.init (fun _ => 0) ()) wedgeEvents).any fun s =>
      !s.interrupts && s.mode.isNormal && s.atEnqueue &&
        decide ((s.mutexes ()).waitersHeld = some (.thread 0)) &&
        decide (s.running = .thread 2)) = true := by decide +kernel
  obtain ⟨s, hreach, hp⟩ := reachable_of_exec hrun
  simp only [Bool.and_eq_true, decide_eq_true_eq, Bool.not_eq_true'] at hp
  obtain ⟨⟨⟨⟨hi, hm⟩, hq⟩, hheld⟩, hr⟩ := hp
  have hmode : s.mode = .normal := by
    unfold Mode.isNormal at hm
    cases hmode : s.mode <;> simp_all
  have hpc : ∃ id, s.pc s.running = .enqueue () id := by
    unfold Core.atEnqueue at hq
    cases hk : s.pc s.running <;> simp_all
  obtain ⟨id, hpc⟩ := hpc
  have hw : s.Wedged := ⟨hi, hmode, (), id, .thread 0, hpc, hheld, by simp [hr]⟩
  exact ⟨s, hreach, hw, fun e t => hw.frozen⟩

end MoltOS.Kernel
