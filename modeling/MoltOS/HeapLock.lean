import MoltOS.KernelInv

/-! The lock of the global heap on the core that runs kernel threads. `alloc` and `dealloc`
take a plain spin lock and leave the interrupt flag as they find it; sections under the
SCHEDULER lock allocate with interrupts off. -/
namespace MoltOS.HeapLock
open MoltOS.Rust MoltOS.Kernel MoltOS.Transition

variable {μ α R : Type}

/- Where a flow stands in `alloc` or `dealloc`: in neither, at `self.lock()`, or between it
   and the drop of the guard. -/
inductive HeapPc where
  | outside
  | lock
  | body
deriving DecidableEq

/- `allocator` is the flag of the spin lock, kept as the flow that holds it. -/
structure State (μ α R : Type) where
  core : Core μ α R
  heap : Flow → HeapPc
  allocator : Option Flow

inductive Event (μ α R : Type) where
  | core (e : Kernel.Event μ α R)
  | call
  | advance

/- Where a flow may call the heap: its own code; under SCHEDULER the argument and the two
   pushes of `spawn`; and `push_back` of `KMutex::lock`, once it has locked the queue. -/
def mayCall (s : Core μ α R) : Bool :=
  match s.mode, s.pc s.running with
  | .normal, .code | .normal, .update _ _ | .normal, .locked (.spawn _ _ _) _ => true
  | .normal, .enqueue m _ => (s.mutexes m).waitersHeld.isNone
  | _, _ => false

def mayStep (s : State μ α R) (e : Kernel.Event μ α R) : Bool :=
  match e, s.core.mode with
  | .irq _, _ => true
  | _, .normal => s.heap s.core.running = .outside
  | _, _ => true

namespace State

def init (data : μ → α) (r : R) : State μ α R := ⟨Core.init data r, fun _ => .outside, none⟩

def goto (s : State μ α R) (k : HeapPc) : State μ α R :=
  { s with heap := Function.update s.heap s.core.running k }

def advance (s : State μ α R) : Option (State μ α R) :=
  match s.core.mode, s.heap s.core.running with
  | .normal, .lock =>
    match s.allocator with
    | some _ => none
    | none => some ({ s with allocator := some s.core.running }.goto .body)
  | .normal, .body => some ({ s with allocator := none }.goto .outside)
  | _, _ => none

def step [DecidableEq μ] (p : Profile) (s : State μ α R) : Event μ α R → Option (State μ α R)
  | .core e =>
    if mayStep s e then (s.core.step p e).map fun core => { s with core := core } else none
  | .call => if mayCall s.core ∧ s.heap s.core.running = .outside then some (s.goto .lock) else none
  | .advance => s.advance

def Wedged (s : State μ α R) : Prop :=
  s.core.interrupts = false ∧ s.core.mode = .normal ∧ s.heap s.core.running = .lock ∧
    ∃ g, s.allocator = some g ∧ g ≠ s.core.running

end State

variable [DecidableEq μ] {p : Profile} {s t : State μ α R} {e : Event μ α R}

def Step (p : Profile) (s : State μ α R) (e : Event μ α R) (t : State μ α R) : Prop :=
  s.step p e = some t

omit [DecidableEq μ] in
theorem mayStep_cases {e : Kernel.Event μ α R} (hm : s.core.mode = .normal)
    (h : mayStep s e = true) : (∃ k, e = .irq k) ∨ s.heap s.core.running = .outside := by
  cases e with
  | irq k => exact .inl ⟨k, rfl⟩
  | _ => exact .inr (by simpa [mayStep, hm] using h)

inductive Move (p : Profile) (s : State μ α R) : Event μ α R → State μ α R → Prop where
  | core (e : Kernel.Event μ α R) (core : Core μ α R) (hmay : mayStep s e = true)
      (hs : Kernel.Step p s.core e core) : Move p s (.core e) { s with core := core }
  | call (hmay : mayCall s.core = true) (hk : s.heap s.core.running = .outside) :
      Move p s .call (s.goto .lock)
  | take (hm : s.core.mode = .normal) (hk : s.heap s.core.running = .lock)
      (hfree : s.allocator = none) :
      Move p s .advance ({ s with allocator := some s.core.running }.goto .body)
  | release (hm : s.core.mode = .normal) (hk : s.heap s.core.running = .body) :
      Move p s .advance ({ s with allocator := none }.goto .outside)

theorem Step.move (h : Step p s e t) : Move p s e t := by
  unfold Step State.step at h
  cases e with
  | core e =>
    simp only at h
    split at h
    next hmay =>
      obtain ⟨core, hs, rfl⟩ := Option.map_eq_some_iff.mp h
      exact .core e core hmay hs
    · cases h
  | call =>
    simp only at h
    split at h
    next hmay =>
      cases h
      exact .call hmay.1 hmay.2
    · cases h
  | advance =>
    simp only [State.advance] at h
    split at h
    next hm hk =>
      split at h
      · cases h
      next hfree =>
        cases h
        exact .take hm hk hfree
    next hm hk =>
      cases h
      exact .release hm hk
    · cases h

/-- Without its heap calls a run is a run of the core. -/
theorem core_reachable {data : μ → α} {r : R} (h : Reachable (Step p) (State.init data r) s) :
    Reachable (Kernel.Step p) (Core.init data r) s.core := by
  have hstep (u : State μ α R) (e : Event μ α R) (v : State μ α R)
      (hu : Reachable (Kernel.Step p) (Core.init data r) u.core) (hs : Step p u e v) :
      Reachable (Kernel.Step p) (Core.init data r) v.core := by
    cases hs.move with
    | core e core hmay hstep => exact hu.step hstep
    | call hmay hk => exact hu
    | take hm hk hfree => exact hu
    | release hm hk => exact hu
  exact h.invariant hstep ⟨[], .nil _⟩

/-- Under SCHEDULER, a flow that spins on a heap locked by another one is wedged. -/
theorem section_spin_wedged {data : μ → α} {r : R} {g : Flow}
    (h : Reachable (Step p) (State.init data r) s)
    (hmask : (s.core.pc s.core.running).masked = true) (hk : s.heap s.core.running = .lock)
    (hg : s.allocator = some g) (hne : g ≠ s.core.running) : s.Wedged := by
  have hinit : Shielded (Core.init data r) :=
    ⟨by simp [Core.init], by simp [Core.init, Pc.masked]⟩
  have hshield : Shielded s.core :=
    (core_reachable h).invariant (fun _ _ _ hu hs => hu.step hs) hinit
  exact ⟨hshield.off hmask, (hshield.alone _ hmask).2, hk, g, hg, hne⟩

/-- A wedged core takes no further step. -/
theorem State.Wedged.frozen (h : s.Wedged) : ¬ Step p s e t := by
  obtain ⟨hi, hm, hk, g, hg, -⟩ := h
  intro hs
  cases hs.move with
  | core e core hmay hstep =>
    obtain ⟨k, rfl⟩ | hout := mayStep_cases hm hmay
    · simp [Kernel.Step, Core.step, hm, hi] at hstep
    · rw [hk] at hout
      cases hout
  | call hmay hk' =>
    rw [hk] at hk'
    cases hk'
  | take hm' hk' hfree =>
    rw [hg] at hfree
    cases hfree
  | release hm' hk' =>
    rw [hk] at hk'
    cases hk'

def KeepsAllocator (s : State μ α R) (_ : Event μ α R) : Prop :=
  match s.core.mode with
  | .irqSwitch _ (some x) => x.1 = x.2 ∨ s.allocator ≠ some s.core.running
  | _ => True

instance (s : State μ α R) (e : Event μ α R) : Decidable (KeepsAllocator s e) := by
  unfold KeepsAllocator
  split <;> infer_instance

def LockedByRunning (s : State μ α R) : Prop :=
  ∀ g, s.allocator = some g →
    g = s.core.running ∧ s.heap g = .body ∧ ∀ c, s.core.mode ≠ .loading c

/-- The steps that go on over a heap call: interrupt entry and the handler, which leave the
running flow in place, the switch away from it, and the load of another one. -/
theorem core_step_cases {c d : Core μ α R} {e : Kernel.Event μ α R} (hs : Kernel.Step p c e d) :
    (c.mode = .normal ∧ ∀ k, e ≠ .irq k) ∨
    (d.running = c.running ∧ ∀ x, d.mode ≠ .loading x) ∨
    (∃ frame x, c.mode = .irqSwitch frame (some x) ∧ x.1 ≠ x.2) ∨
    ∃ x, c.mode = .loading x := by
  cases hs.move with
  | jump hm hj =>
    refine .inl ⟨hm, ?_⟩
    rintro k rfl
    cases hj
  | irq k hm hi => exact .inr (.inl ⟨rfl, by simp [Core.irq]⟩)
  | irqTick frame sched sw hm hh hsched => exact .inr (.inl ⟨rfl, by simp⟩)
  | irqReturn frame sw hm hsw => exact .inr (.inl ⟨rfl, by simp⟩)
  | irqSave frame fromCtx toCtx hne hm => exact .inr (.inr (.inl ⟨frame, _, hm, hne⟩))
  | load toCtx f r hm hc => exact .inr (.inr (.inr ⟨toCtx, hm⟩))
  | _ => exact .inl ⟨by assumption, by simp⟩

theorem LockedByRunning.step (h : LockedByRunning s)
    (hs : Restrict (Step p) KeepsAllocator s e t) : LockedByRunning t := by
  obtain ⟨hs, hkeep⟩ := hs
  cases hs.move with
  | core e core hmay hstep =>
    intro g hg
    obtain ⟨hrun, hbody, hload⟩ := h g hg
    obtain ⟨hm, hirq⟩ | ⟨hsame, hmode⟩ | ⟨frame, x, hm, hne⟩ | ⟨x, hm⟩ := core_step_cases hstep
    · -- the code of the flow waits for its heap call
      obtain ⟨k, hk⟩ | hout := mayStep_cases hm hmay
      · exact absurd hk (hirq k)
      · rw [← hrun, hbody] at hout
        cases hout
    · exact ⟨hrun.trans hsame.symm, hbody, hmode⟩
    · simp only [KeepsAllocator, hm] at hkeep
      exact absurd (hrun ▸ hg) (hkeep.resolve_left hne)
    · exact absurd hm (hload x)
  | call hmay hk =>
    intro g hg
    obtain ⟨hrun, hbody, -⟩ := h g hg
    rw [hrun, hk] at hbody
    cases hbody
  | take hm hk hfree =>
    intro g hg
    cases hg
    refine ⟨rfl, by simp [State.goto], fun c hc => ?_⟩
    exact absurd (hm.symm.trans hc) (by simp)
  | release hm hk =>
    intro g hg
    cases hg

/-- In every run in which no interrupt handler switches away from a flow that has locked the
heap, no state is reached in which the core spins on ALLOCATOR with interrupts off and a
flow that is not executing holds it. In any run, to spin so under SCHEDULER is the end: no
step is left. -/
theorem heap_lock_never_wedges (data : μ → α) (r : R) (s : State μ α R) :
    (Reachable (Restrict (Step p) KeepsAllocator) (State.init data r) s → ¬ s.Wedged) ∧
    (Reachable (Step p) (State.init data r) s → (s.core.pc s.core.running).masked = true →
      s.heap s.core.running = .lock → ∀ g, s.allocator = some g → g ≠ s.core.running →
        s.Wedged ∧ ∀ e t, ¬ Step p s e t) := by
  constructor
  · intro h hw
    have hinv : LockedByRunning s := by
      refine h.invariant (fun _ _ _ hi hs => hi.step hs) fun g hg => ?_
      cases hg
    obtain ⟨-, -, -, g, hg, hne⟩ := hw
    exact hne (hinv g hg).1
  · intro h hmask hk g hg hne
    have hw := section_spin_wedged h hmask hk hg hne
    exact ⟨hw, fun e t => hw.frozen⟩

/- Two threads. The first allocates and is preempted outside the heap, the second one
   allocates under SCHEDULER for a thread it spawns. -/
def allocateEvents : List (Event Unit Nat Unit) :=
  let steps (n : Nat) : List (Event Unit Nat Unit) := List.replicate n (.core .advance)
  (bootEvents 2).map .core ++ [.call, .advance, .advance, .core (.irq .timer)] ++ steps 3 ++
    [.core (.spawn none ())] ++ steps 3 ++ [.call]

def spinsMasked (s : State Unit Nat Unit) : Bool :=
  !s.core.interrupts && (match s.core.mode with | .normal => true | _ => false) &&
    decide (s.heap s.core.running = .lock) && decide (s.core.running = .thread 1)

theorem section_allocates_unwedged : ∃ s : State Unit Nat Unit,
    Reachable (Restrict (Step .dev) KeepsAllocator) (State.init (fun _ => 0) ()) s ∧
      spinsMasked s = true ∧ ¬ s.Wedged := by
  have hrun : ((exec (checked (State.step .dev) KeepsAllocator) (State.init (fun _ => 0) ())
      allocateEvents).any spinsMasked) = true := by decide +kernel
  obtain ⟨s, hreach, hp⟩ := reachable_of_checked hrun
  exact ⟨s, hreach, hp, (heap_lock_never_wedges _ _ s).1 hreach⟩

def wedgeEvents : List (Event Unit Nat Unit) :=
  let steps (n : Nat) : List (Event Unit Nat Unit) := List.replicate n (.core .advance)
  (bootEvents 2).map .core ++ [.call, .advance, .core (.irq .timer)] ++ steps 3 ++
    [.core (.spawn none ())] ++ steps 3 ++ [.call]

/-- A thread is preempted inside `alloc`; another one takes SCHEDULER, which turns interrupts
off, and allocates the stack of the thread it spawns. It spins for ever. -/
theorem preempted_allocation_wedges : ∃ s : State Unit Nat Unit,
    Reachable (Step .dev) (State.init (fun _ => 0) ()) s ∧ s.Wedged ∧
      ∀ e t, ¬ Step .dev s e t := by
  have hrun : ((exec (State.step .dev) (State.init (fun _ => 0) ()) wedgeEvents).any fun s =>
      spinsMasked s && decide (s.allocator = some (.thread 0))) = true := by decide +kernel
  obtain ⟨s, hreach, hp⟩ := reachable_of_exec hrun
  simp only [spinsMasked, Bool.and_eq_true, decide_eq_true_eq, Bool.not_eq_true'] at hp
  obtain ⟨⟨⟨⟨hi, hm⟩, hk⟩, hr⟩, hheld⟩ := hp
  have hmode : s.core.mode = .normal := by
    cases hmode : s.core.mode <;> simp_all
  have hw : s.Wedged := ⟨hi, hmode, hk, .thread 0, hheld, by simp [hr]⟩
  exact ⟨s, hreach, hw, fun e t => hw.frozen⟩

end MoltOS.HeapLock
