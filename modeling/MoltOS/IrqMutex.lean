import Mathlib.Logic.Function.Basic
import MoltOS.Transition

/-! One thread that takes and gives back `IrqMutex` guards in any order. Interrupts that
are served return to the thread with its flag as it was, so they do not appear. -/
namespace MoltOS.IrqMutex
open MoltOS.Transition

variable {μ : Type} [DecidableEq μ]

structure Guard (μ : Type) where
  mutex : μ
  wasEnabled : Bool
deriving DecidableEq

/- Where the thread stands: in `lock` before `disable` and before `self.0.lock()`, in `drop`
   before it restores the flag, or in neither. -/
inductive Pc (μ : Type) where
  | idle
  | disable (mutex : μ) (wasEnabled : Bool)
  | acquire (mutex : μ) (wasEnabled : Bool)
  | restore (wasEnabled : Bool)
deriving DecidableEq

structure State (μ : Type) where
  enabled : Bool
  locked : μ → Bool
  guards : List (Guard μ)
  pc : Pc μ

def State.init (enabled : Bool) : State μ := ⟨enabled, fun _ => false, [], .idle⟩

inductive Event (μ : Type) where
  | lock (mutex : μ)
  | drop (guard : Guard μ)
  | releaseWithoutIrqRestore (guard : Guard μ)
  | advance
deriving DecidableEq

namespace State

/- `ManuallyDrop::drop(&mut self.inner)`. -/
def unlock (s : State μ) (g : Guard μ) : State μ :=
  { s with locked := Function.update s.locked g.mutex false, guards := s.guards.erase g }

def step (s : State μ) : Event μ → Option (State μ)
  | .lock m => match s.pc with
    | .idle => some { s with pc := .disable m s.enabled }
    | _ => none
  | .drop g => match s.pc with
    | .idle => if g ∈ s.guards then some { s.unlock g with pc := .restore g.wasEnabled } else none
    | _ => none
  | .releaseWithoutIrqRestore g => match s.pc with
    | .idle => if g ∈ s.guards then some (s.unlock g) else none
    | _ => none
  | .advance => match s.pc with
    | .idle => none
    | .disable m w => some { s with enabled := false, pc := .acquire m w }
    -- on a lock that is held the thread spins
    | .acquire m w =>
      if s.locked m then none
      else some { s with
        locked := Function.update s.locked m true
        guards := ⟨m, w⟩ :: s.guards
        pc := .idle }
    | .restore w => some { s with enabled := if w then true else s.enabled, pc := .idle }

end State

def Step (s : State μ) (e : Event μ) (t : State μ) : Prop := s.step e = some t

/-- Every change a step can make. -/
theorem step_cases {s t : State μ} {e : Event μ} (h : Step s e t) :
    (∃ m, e = .lock m ∧ s.pc = .idle ∧ t = { s with pc := .disable m s.enabled }) ∨
    (∃ g, e = .drop g ∧ s.pc = .idle ∧ g ∈ s.guards ∧
      t = { s.unlock g with pc := .restore g.wasEnabled }) ∨
    (∃ g, e = .releaseWithoutIrqRestore g ∧ s.pc = .idle ∧ g ∈ s.guards ∧ t = s.unlock g) ∨
    (∃ m w, e = .advance ∧ s.pc = .disable m w ∧
      t = { s with enabled := false, pc := .acquire m w }) ∨
    (∃ m w, e = .advance ∧ s.pc = .acquire m w ∧ s.locked m = false ∧
      t = { s with
        locked := Function.update s.locked m true
        guards := ⟨m, w⟩ :: s.guards
        pc := .idle }) ∨
    (∃ w, e = .advance ∧ s.pc = .restore w ∧
      t = { s with enabled := if w then true else s.enabled, pc := .idle }) := by
  unfold Step State.step at h
  split at h
  · split at h
    · exact .inl ⟨_, rfl, by assumption, (Option.some.inj h).symm⟩
    · cases h
  · split at h
    · split at h
      · exact .inr (.inl ⟨_, rfl, by assumption, by assumption, (Option.some.inj h).symm⟩)
      · cases h
    · cases h
  · split at h
    · split at h
      · exact .inr (.inr (.inl ⟨_, rfl, by assumption, by assumption, (Option.some.inj h).symm⟩))
      · cases h
    · cases h
  · split at h
    · cases h
    · exact .inr (.inr (.inr (.inl ⟨_, _, rfl, by assumption, (Option.some.inj h).symm⟩)))
    · split at h
      · cases h
      · exact .inr (.inr (.inr (.inr (.inl
          ⟨_, _, rfl, by assumption, Bool.eq_false_iff.mpr (by assumption), (Option.some.inj h).symm⟩))))
    · exact .inr (.inr (.inr (.inr (.inr ⟨_, rfl, by assumption, (Option.some.inj h).symm⟩))))

/- The guard that found interrupts enabled is dropped last of all guards alive. -/
def OutermostLast (s : State μ) : Event μ → Prop
  | .drop g => g.wasEnabled = true → s.guards.length = 1
  | _ => True

def Restoring (_ : State μ) : Event μ → Prop
  | .releaseWithoutIrqRestore _ => False
  | _ => True

instance (s : State μ) (e : Event μ) : Decidable (OutermostLast s e) :=
  match e with
  | .drop g => inferInstanceAs (Decidable (g.wasEnabled = true → s.guards.length = 1))
  | .lock _ | .releaseWithoutIrqRestore _ | .advance => isTrue trivial

instance (s : State μ) (e : Event μ) : Decidable (Restoring s e) :=
  match e with
  | .releaseWithoutIrqRestore _ => isFalse id
  | .lock _ | .drop _ | .advance => isTrue trivial

structure Masked (s : State μ) : Prop where
  alive : s.guards ≠ [] → s.enabled = false
  acquire : ∀ m w, s.pc = .acquire m w → s.enabled = false
  restore : s.pc = .restore true → s.guards = []

theorem masked_step (s : State μ) (e : Event μ) (t : State μ) (hs : Masked s)
    (h : Restrict Step OutermostLast s e t) : Masked t := by
  obtain ⟨hstep, hlast⟩ := h
  obtain ⟨m, rfl, hpc, rfl⟩ | ⟨g, rfl, hpc, hg, rfl⟩ | ⟨g, rfl, hpc, hg, rfl⟩ | ⟨m, w, rfl, hpc, rfl⟩ |
    ⟨m, w, rfl, hpc, hm, rfl⟩ | ⟨w, rfl, hpc, rfl⟩ := step_cases hstep
  · exact ⟨hs.alive, fun m w h => by simp at h, fun h => by simp at h⟩
  · have hoff : s.enabled = false := hs.alive (List.ne_nil_of_mem hg)
    refine ⟨fun _ => hoff, fun m w h => by simp at h, fun h => ?_⟩
    have hw : g.wasEnabled = true := Pc.restore.inj h
    have hlen : s.guards.length = 1 := hlast hw
    have herase : (s.guards.erase g).length = 0 := by rw [List.length_erase_of_mem hg, hlen]
    exact List.length_eq_zero_iff.mp herase
  · have hoff : s.enabled = false := hs.alive (List.ne_nil_of_mem hg)
    exact ⟨fun _ => hoff, fun m w _ => hoff, fun h => by simp [State.unlock, hpc] at h⟩
  · exact ⟨fun _ => rfl, fun _ _ _ => rfl, fun h => by simp at h⟩
  · have hoff : s.enabled = false := hs.acquire m w hpc
    exact ⟨fun _ => hoff, fun _ _ _ => hoff, fun h => by simp at h⟩
  · refine ⟨fun hne => ?_, fun m w h => by simp at h, fun h => by simp at h⟩
    cases w with
    | false => simpa using hs.alive hne
    | true => exact absurd (hs.restore hpc) hne

/- The permission to turn interrupts on is in the flag, in the call under way or in one of
   the guards; a `lock` that has not yet disabled interrupts only carries a copy of it. -/
def Pc.carried : Pc μ → Nat
  | .idle | .disable _ _ => 0
  | .acquire _ w | .restore w => w.toNat

def permits (s : State μ) : Nat :=
  s.enabled.toNat + s.pc.carried + s.guards.countP (·.wasEnabled)

structure Conserved (enabled : Bool) (s : State μ) : Prop where
  permits : permits s = enabled.toNat
  copy : ∀ m w, s.pc = .disable m w → w = s.enabled

theorem countP_erase_guard {gs : List (Guard μ)} {g : Guard μ} (hg : g ∈ gs) :
    (gs.erase g).countP (·.wasEnabled) + g.wasEnabled.toNat = gs.countP (·.wasEnabled) := by
  rw [List.Perm.countP_eq _ (List.perm_cons_erase hg), List.countP_cons]
  cases g.wasEnabled <;> simp

theorem conserved_step (b : Bool) (s : State μ) (e : Event μ) (t : State μ) (hs : Conserved b s)
    (h : Restrict Step Restoring s e t) : Conserved b t := by
  obtain ⟨hstep, hrestoring⟩ := h
  have hsum := hs.permits
  unfold permits at hsum
  obtain ⟨m, rfl, hpc, rfl⟩ | ⟨g, rfl, hpc, hg, rfl⟩ | ⟨g, rfl, -⟩ | ⟨m, w, rfl, hpc, rfl⟩ |
    ⟨m, w, rfl, hpc, hm, rfl⟩ | ⟨w, rfl, hpc, rfl⟩ := step_cases hstep
  · rw [hpc] at hsum
    exact ⟨hsum, fun m w h => (Pc.disable.inj h).2.symm⟩
  · refine ⟨?_, fun m w h => by simp at h⟩
    have herase := countP_erase_guard hg
    simp only [hpc, Pc.carried] at hsum
    simp only [permits, State.unlock, Pc.carried]
    omega
  · exact hrestoring.elim
  · refine ⟨?_, fun m w h => by simp at h⟩
    have hcopy : w = s.enabled := hs.copy m w hpc
    simp only [hpc, Pc.carried] at hsum
    simp only [permits, Pc.carried, hcopy, Bool.toNat_false]
    omega
  · refine ⟨?_, fun m w h => by simp at h⟩
    simp only [hpc, Pc.carried] at hsum
    simp only [permits, Pc.carried, List.countP_cons]
    cases w <;> simp at hsum ⊢ <;> omega
  · refine ⟨?_, fun m w h => by simp at h⟩
    simp only [hpc, Pc.carried] at hsum
    simp only [permits, Pc.carried]
    cases w with
    | false => simpa using hsum
    | true =>
      -- the permit is with the dropped guard, so the flag cannot hold it too
      have hle := Bool.toNat_le b
      simp only [Bool.toNat_true, if_true] at hsum ⊢
      omega

/-- Interrupts are off while a guard is alive, as long as the guard that turned them off is
the last one dropped; and whatever the order of the drops, once no guard is left the flag is
again what it was before the first `lock`. -/
theorem guards_keep_interrupts_off (enabled : Bool) :
    (∀ s : State μ, Reachable (Restrict Step OutermostLast) (State.init enabled) s →
      s.guards ≠ [] → s.enabled = false) ∧
    (∀ s : State μ, Reachable (Restrict Step Restoring) (State.init enabled) s →
      s.guards = [] → s.pc = .idle → s.enabled = enabled) := by
  refine ⟨fun s hs => ?_, fun s hs hnil hpc => ?_⟩
  · have hinit : Masked (State.init enabled : State μ) :=
      ⟨fun h => absurd rfl h, fun _ _ h => by simp [State.init] at h, fun _ => rfl⟩
    exact (hs.invariant masked_step hinit).alive
  · have hinit : Conserved enabled (State.init enabled : State μ) :=
      ⟨by simp [permits, State.init, Pc.carried], fun _ _ h => by simp [State.init] at h⟩
    have hsum := (hs.invariant (conserved_step enabled) hinit).permits
    simp only [permits, hnil, hpc, Pc.carried, List.countP_nil, Nat.add_zero] at hsum
    revert hsum
    cases s.enabled <;> cases enabled <;> simp

/- The first guard finds interrupts enabled, the second finds them disabled. -/
private def twoLocks : List (Event Bool) :=
  [.lock false, .advance, .advance, .lock true, .advance, .advance]

theorem guards_keep_interrupts_off_nested :
    (∃ s : State Bool, Reachable (Restrict Step OutermostLast) (State.init true) s ∧
      s.guards.length = 2 ∧ s.enabled = false) ∧
    (∃ s : State Bool, Reachable (Restrict Step Restoring) (State.init true) s ∧
      s.locked false = false ∧ s.enabled = true) := by
  obtain ⟨hoff, hagain⟩ := @guards_keep_interrupts_off Bool _ true
  constructor
  · have hrun : (exec (checked State.step OutermostLast) (State.init true) twoLocks).any
        (fun s => s.guards.length = 2) = true := by decide
    obtain ⟨s, hreach, hlen⟩ := reachable_of_checked hrun
    have hlen : s.guards.length = 2 := by simpa using hlen
    exact ⟨s, hreach, hlen, hoff s hreach (List.ne_nil_of_length_pos (by omega))⟩
  · have hrun : (exec (checked State.step Restoring) (State.init true) (List.flatten
          [twoLocks, [.drop ⟨false, true⟩, .advance, .drop ⟨true, false⟩, .advance]])).any
        (fun s => s.guards = [] ∧ s.pc = .idle ∧ s.locked false = false) = true := by decide
    obtain ⟨s, hreach, hend⟩ := reachable_of_checked hrun
    obtain ⟨hnil, hpc, hfree⟩ : s.guards = [] ∧ s.pc = .idle ∧ s.locked false = false := by
      simpa using hend
    exact ⟨s, hreach, hfree, hagain s hreach hnil hpc⟩

/-- Two guards dropped in the order they were taken: the first drop turns interrupts on
while the second guard is alive and its spin lock held. -/
theorem early_drop_unmasks :
    ∃ s : State Bool, Reachable (Restrict Step Restoring) (State.init true) s ∧
      s.guards = [⟨true, false⟩] ∧ s.locked true = true ∧ s.enabled = true := by
  have hrun : (exec (checked State.step Restoring) (State.init true) (List.flatten
        [twoLocks, [.drop ⟨false, true⟩, .advance]])).any
      (fun s => s.guards = [⟨true, false⟩] ∧ s.locked true = true ∧ s.enabled = true) = true := by
    decide
  obtain ⟨s, hreach, hend⟩ := reachable_of_checked hrun
  exact ⟨s, hreach, by simpa using hend⟩

end MoltOS.IrqMutex
