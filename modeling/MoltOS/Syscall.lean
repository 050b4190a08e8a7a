import Mathlib.Algebra.Group.Nat.Defs
import Mathlib.Logic.Function.Basic
import MoltOS.Transition

/-! System calls through `int 0x80`. The handler runs with interrupts off and leaves its
result in one global cell; the caller loads the cell after the trap has returned, with
interrupts on again, so any number of switches may lie between the two. -/
namespace MoltOS.Syscalls
open MoltOS.Transition

inductive Syscall where
  | uptime
  | putChar
  | exit
deriving DecidableEq, Repr

def Syscall.asU64 : Syscall → UInt64
  | .uptime => 0
  | .putChar => 1
  | .exit => 2

inductive Printed where
  | newline
  | char (c : UInt8)
deriving DecidableEq, Repr

def dispatch (uptimeTicks number arg1 _arg2 _arg3 : UInt64) : UInt64 × List Printed :=
  if number = 0 then (uptimeTicks, [])
  else if number = 1 then
    let c := (arg1 &&& 0xff).toUInt8
    (0, if c = 10 then [.newline] else [.char c])
  else if number = 2 then (0, [])
  else (UInt64.ofNat (2 ^ 64 - 1), [])

structure Registers where
  rax : UInt64
  rdi : UInt64
  rsi : UInt64
  rdx : UInt64
deriving DecidableEq, Repr

inductive Invoke where
  | syscall0 (n : UInt64)
  | syscall1 (n a1 : UInt64)
  | syscall2 (n a1 a2 : UInt64)
deriving DecidableEq, Repr

/- The registers at `int 0x80`: an argument that is not passed is what the register held. -/
def Invoke.registers (regs : Registers) : Invoke → Registers
  | .syscall0 n => { regs with rax := n }
  | .syscall1 n a1 => { regs with rax := n, rdi := a1 }
  | .syscall2 n a1 a2 => { regs with rax := n, rdi := a1, rsi := a2 }

/- `trapped own`: back from `int 0x80` and not yet at the load, where `own` is what
   `dispatch` returned for this call. -/
inductive Pc where
  | code
  | trapped (own : UInt64)
deriving DecidableEq, Repr

structure Returned where
  thread : Nat
  own : UInt64
  value : UInt64
deriving DecidableEq, Repr

structure Core where
  tickCount : UInt64
  syscallReturn : UInt64
  console : List Printed
  running : Nat
  pc : Nat → Pc
  returned : List Returned

def Core.init (running : Nat) : Core := ⟨0, 0, [], running, fun _ => .code, []⟩

inductive Event where
  | int80 (call : Invoke) (regs : Registers)
  | load
  | timer (next : Nat)
  | keyboard (next : Nat)
deriving DecidableEq, Repr

def Core.syscallHandler (s : Core) (regs : Registers) : Core :=
  let r := dispatch s.tickCount regs.rax regs.rdi regs.rsi regs.rdx
  { s with
    syscallReturn := r.1
    console := s.console ++ r.2
    pc := Function.update s.pc s.running (.trapped r.1) }

def Core.step (s : Core) : Event → Option Core
  | .int80 call regs => match s.pc s.running with
    | .code => some (s.syscallHandler (call.registers regs))
    | .trapped _ => none
  | .load => match s.pc s.running with
    | .code => none
    | .trapped own => some { s with
        pc := Function.update s.pc s.running .code
        returned := s.returned ++ [⟨s.running, own, s.syscallReturn⟩] }
  | .timer next => some { s with tickCount := s.tickCount + 1, running := next }
  | .keyboard next => some { s with running := next }

def Step (s : Core) (e : Event) (t : Core) : Prop := s.step e = some t

def Exclusive (s : Core) : Event → Prop
  | .int80 _ _ => ∀ i, s.pc i = .code
  | _ => True

variable {s t : Core} {e : Event}

/-- What one step does to the cell, the program counters and the log. -/
theorem step_cases (h : Step s e t) :
    (∃ call regs own, e = .int80 call regs ∧ t.syscallReturn = own ∧
      t.pc = Function.update s.pc s.running (.trapped own) ∧ t.returned = s.returned) ∨
    (∃ own, e = .load ∧ s.pc s.running = .trapped own ∧ t.syscallReturn = s.syscallReturn ∧
      t.pc = Function.update s.pc s.running .code ∧
      t.returned = s.returned ++ [⟨s.running, own, s.syscallReturn⟩]) ∨
    (t.syscallReturn = s.syscallReturn ∧ t.pc = s.pc ∧ t.returned = s.returned) := by
  unfold Step Core.step at h
  cases e with
  | int80 call regs =>
    cases hpc : s.pc s.running with
    | code =>
      simp only [hpc, Option.some.injEq] at h
      subst h
      exact Or.inl ⟨call, regs, _, rfl, rfl, rfl, rfl⟩
    | trapped own => simp [hpc] at h
  | load =>
    cases hpc : s.pc s.running with
    | code => simp [hpc] at h
    | trapped own =>
      simp only [hpc, Option.some.injEq] at h
      subst h
      exact Or.inr (Or.inl ⟨own, rfl, rfl, rfl, rfl, rfl⟩)
  | timer next | keyboard next =>
    cases h
    exact Or.inr (Or.inr ⟨rfl, rfl, rfl⟩)

structure Own (s : Core) : Prop where
  cell : ∀ i own, s.pc i = .trapped own → s.syscallReturn = own
  logged : ∀ c ∈ s.returned, c.value = c.own

theorem Own.init (running : Nat) : Own (Core.init running) :=
  ⟨fun _ _ h => (by cases h), fun _ h => (by cases h)⟩

theorem Own.step (ho : Own s) (h : Restrict Step Exclusive s e t) : Own t := by
  obtain ⟨hs, hex⟩ := h
  obtain ⟨call, regs, own, rfl, hcell, hpc, hlog⟩ | ⟨own, rfl, hown, hcell, hpc, hlog⟩ |
    ⟨hcell, hpc, hlog⟩ := step_cases hs
  · -- every other thread is in its own code, so only the trapping one is affected
    refine ⟨fun i v hi => ?_, by rw [hlog]; exact ho.logged⟩
    rw [hpc] at hi
    by_cases he : i = s.running
    · subst he
      rw [Function.update_self, Pc.trapped.injEq] at hi
      exact hcell.trans hi
    · rw [Function.update_of_ne he, hex i] at hi
      cases hi
  · refine ⟨fun i v hi => ?_, fun c hc => ?_⟩
    · rw [hpc] at hi
      by_cases he : i = s.running
      · subst he
        rw [Function.update_self] at hi
        cases hi
      · rw [Function.update_of_ne he] at hi
        rw [hcell]
        exact ho.cell i v hi
    · rw [hlog] at hc
      obtain hc | hc := List.mem_append.mp hc
      · exact ho.logged c hc
      · rw [List.mem_singleton.mp hc]
        exact ho.cell _ _ hown
  · exact ⟨by rw [hcell, hpc]; exact ho.cell, by rw [hlog]; exact ho.logged⟩

/-- If no thread traps while another one is between its trap and its load, every call
returns what `dispatch` computed for it. -/
theorem syscall_returns_own (running : Nat) (s : Core)
    (h : Reachable (Restrict Step Exclusive) (Core.init running) s) :
    ∀ c ∈ s.returned, c.value = c.own := by
  have ho : Own s := h.invariant (fun _ _ _ ho hs => ho.step hs) (Own.init running)
  exact ho.logged

/- Thread 0 asks for the uptime, then thread 1 calls the no-op, each undisturbed. -/
theorem two_calls_return_own : ∃ s,
    Reachable (Restrict Step Exclusive) (Core.init 0) s ∧ s.returned.length = 2 ∧
      ∀ c ∈ s.returned, c.value = c.own := by
  let regs : Registers := ⟨0, 0, 0, 0⟩
  have hrun : Reachable (Restrict Step Exclusive) (Core.init 0)
      ⟨2, 0, [], 1, Function.update (Function.update (Function.update (Function.update
        (fun _ => .code) 0 (.trapped 1)) 0 .code) 1 (.trapped 0)) 1 .code,
        [⟨0, 1, 1⟩, ⟨1, 0, 0⟩]⟩ := by
    refine ⟨[.timer 0, .int80 (.syscall0 Syscall.uptime.asU64) regs, .load, .timer 1,
      .int80 (.syscall2 Syscall.exit.asU64 0 0) regs, .load], ?_⟩
    refine Run.cons ⟨rfl, trivial⟩ (Run.cons ⟨rfl, fun _ => rfl⟩ (Run.cons ⟨rfl, trivial⟩
      (Run.cons ⟨rfl, trivial⟩ (Run.cons ⟨rfl, fun i => ?_⟩ (Run.cons ⟨rfl, trivial⟩ (Run.nil _))))))
    by_cases hi : i = 0
    · subst hi
      rfl
    · simp [Core.syscallHandler, Core.init, Function.update_of_ne hi]
  exact ⟨_, hrun, rfl, syscall_returns_own 0 _ hrun⟩

/- Thread 0 has trapped for the uptime and is preempted before its load. -/
def stolenEvents : List Event :=
  let regs : Registers := ⟨0, 0, 0, 0⟩
  [.timer 0, .int80 (.syscall0 Syscall.uptime.asU64) regs, .timer 1,
    .int80 (.syscall2 Syscall.exit.asU64 0 0) regs, .timer 0, .load]

/-- The preempted thread returns the other thread's zero in place of its uptime. -/
theorem preempted_call_returns_other : ∃ s, Reachable Step (Core.init 0) s ∧
    s.returned = [⟨0, 1, 0⟩] ∧ ∃ c ∈ s.returned, c.value ≠ c.own := by
  have hrun : ((exec Core.step (Core.init 0) stolenEvents).any fun s =>
      decide (s.returned = [⟨0, 1, 0⟩])) = true := by decide +kernel
  obtain ⟨s, hreach, hp⟩ := reachable_of_exec hrun
  have hret : s.returned = [⟨0, 1, 0⟩] := of_decide_eq_true hp
  exact ⟨s, hreach, hret, ⟨0, 1, 0⟩, by simp [hret], by decide⟩

end MoltOS.Syscalls
