import MoltOS.ExecutorBurst

/-! What an undisturbed executor does: from every reachable state it polls what is queued, reads
every key that was accepted and halts with its waker armed, within a fixed number of steps. -/
namespace MoltOS.Task
open MoltOS.Rust MoltOS.Transition

/- What is left of `run_ready_tasks` and the halt after it, if nothing more is queued: at most
   six steps for every queued id and three more for every key. -/
def Core.sweep (s : Core) : Nat :=
  6 * s.taskQueue.items.length + 3 * s.scancodeQueue.items.length + 3

def Core.sleepDue (s : Core) : Bool :=
  match s.sleep with
  | none => true
  | some x => x.targetTick ≤ s.uptimeTicks

def Core.work (s : Core) : Nat :=
  match s.pc with
  | .loop => s.sweep + 8 * s.sleepers.length + 2
  | .sleepers _ i => s.sweep + 8 * (s.sleepers.length - i) + 1
  | .wake _ i _ => s.sweep + 8 * (s.sleepers.length - i) + 8
  | .ready => s.sweep
  | .dispatch _ => s.sweep + 5
  | .register => s.sweep + 2
  | .pop => s.sweep + 1
  | .key _ => s.sweep + 3
  | .sleepNew => s.sweep + 3
  | .sleepPoll => s.sweep + if s.sleepDue then 4 else 2
  | .sleepPush => s.sweep + if s.sleep.isSome then 1 else 4
  | .test => if s.taskQueue.isEmpty then 2 else s.sweep + 8 * s.sleepers.length + 3
  | .halt => 1
  | .halted => 0

variable {s t : Core}

theorem sleepDue_new {now : Nat} (h : now < u64Max) : ¬ (Sleep.new now 200).targetTick ≤ now := by
  simp only [Sleep.new, saturatingAdd]
  omega

/-- A new sleep is not due as long as the clock stands below its last value; there the heartbeat
would begin one sleep after the other. -/
theorem advance_lowers_work (hclock : s.uptimeTicks < u64Max) (h : s.advance = .ok t) :
    t.work < s.work := by
  unfold Core.advance at h
  cases hpc : s.pc with
  | loop =>
    simp only [hpc, Except.ok.injEq] at h
    subst h
    simp [Core.work, Core.sweep, hpc]
  | sleepers now i =>
    simp only [hpc] at h
    cases hx : s.sleepers[i]? with
    | none =>
      simp only [hx, Except.ok.injEq] at h
      subst h
      simp only [Core.work, Core.sweep, hpc]
      omega
    | some x =>
      have hlt := (List.getElem?_eq_some_iff.mp hx).1
      simp only [hx] at h
      split at h
      · obtain rfl := Except.ok.inj h
        simp only [Core.work, Core.sweep, hpc, List.length_eraseIdx, hlt, if_true]
        omega
      · obtain rfl := Except.ok.inj h
        simp only [Core.work, Core.sweep, hpc]
        omega
  | wake now i id =>
    simp only [hpc, Core.wakeTask] at h
    cases hq : s.taskQueue.push id with
    | none => simp [hq, bind, Except.bind] at h
    | some q =>
      simp only [hq, bind, Except.bind, pure, Except.pure, Except.ok.injEq] at h
      subst h
      simp only [Core.work, Core.sweep, hpc, (ArrayQueue.push_eq_some.mp hq).2, List.length_append,
        List.length_singleton]
      omega
  | ready =>
    simp only [hpc] at h
    cases hq : s.taskQueue.pop with
    | none =>
      simp only [hq, Except.ok.injEq] at h
      subst h
      have hempty := ArrayQueue.pop_eq_none.mp hq
      simp only [Core.work, Core.sweep, hpc, ArrayQueue.isEmpty, hempty, List.isEmpty_nil, if_true]
      omega
    | some x =>
      simp only [hq, Except.ok.injEq] at h
      subst h
      simp only [Core.work, Core.sweep, hpc, ArrayQueue.pop_eq_some.mp hq, List.length_cons]
      omega
  | dispatch id =>
    simp only [hpc] at h
    repeat' split at h
    all_goals
      obtain rfl := Except.ok.inj h
      simp only [Core.work, Core.sweep, hpc]
      repeat' split
      all_goals omega
  | register =>
    simp only [hpc, Except.ok.injEq] at h
    subst h
    simp [Core.work, Core.sweep, hpc]
  | pop =>
    simp only [hpc] at h
    cases hq : s.scancodeQueue.pop with
    | none =>
      simp only [hq, Except.ok.injEq] at h
      subst h
      simp [Core.work, Core.sweep, hpc]
    | some x =>
      simp only [hq, Except.ok.injEq] at h
      subst h
      simp only [Core.work, Core.sweep, hpc, ArrayQueue.pop_eq_some.mp hq, List.length_cons]
      omega
  | key scancode =>
    simp only [hpc, Except.ok.injEq] at h
    subst h
    simp [Core.work, Core.sweep, hpc]
  | sleepNew =>
    simp only [hpc, Except.ok.injEq] at h
    subst h
    simp [Core.work, Core.sweep, Core.sleepDue, hpc, sleepDue_new hclock]
  | sleepPoll =>
    simp only [hpc] at h
    cases hx : s.sleep with
    | none =>
      simp only [hx, Except.ok.injEq] at h
      subst h
      simp [Core.work, Core.sweep, Core.sleepDue, hpc, hx]
    | some x =>
      simp only [hx] at h
      split at h
      next hdue =>
        obtain rfl := Except.ok.inj h
        simp [Core.work, Core.sweep, Core.sleepDue, hpc, hx, hdue]
      next hdue =>
        split at h
        all_goals
          obtain rfl := Except.ok.inj h
          simp [Core.work, Core.sweep, Core.sleepDue, hpc, hx, hdue]
  | sleepPush =>
    simp only [hpc] at h
    cases hx : s.sleep with
    | none =>
      simp only [hx, Except.ok.injEq] at h
      subst h
      simp [Core.work, Core.sweep, hpc, hx]
    | some x =>
      simp only [hx, Except.ok.injEq] at h
      subst h
      simp [Core.work, Core.sweep, hpc, hx]
  | test =>
    simp only [hpc, Except.ok.injEq] at h
    subst h
    cases hq : s.taskQueue.isEmpty <;> simp [Core.work, Core.sweep, hpc, hq]
  | halt =>
    simp only [hpc, Except.ok.injEq] at h
    subst h
    simp [Core.work, hpc]
  | halted => simp [hpc] at h

/- Outside `run_ready_tasks` the queue holds one wake of each task at most. -/
theorem exists_advance (hb : Beats s) (hp : Paid s) (hpc : s.pc ≠ .halted) :
    ∃ t, s.advance = .ok t := by
  cases h : s.advance with
  | ok t => exact ⟨t, rfl⟩
  | error x =>
    exfalso
    cases x with
    | halted =>
      unfold Core.advance Core.wakeTask at h
      repeat' split at h
      all_goals simp_all [bind, Except.bind, pure, Except.pure]
    | taskQueueFull =>
      obtain ⟨id, hnone, hcase⟩ := full_cases (e := .advance) h
      obtain ⟨now, i, hwake⟩ | ⟨⟨b, hb⟩, _⟩ := hcase
      · have hlen := ArrayQueue.push_eq_none.mp hnone
        rw [length_eq_wakes] at hlen
        have hout := hp.outside (by rw [hwake]; rfl)
        have honce := hb.once
        have hsize : queueSize = 100 := rfl
        omega
      · cases hb

theorem work_le (hb : Beats s) : s.work ≤ 914 := by
  have htasks : s.taskQueue.items.length ≤ 100 := s.taskQueue.bounded
  have hkeys : s.scancodeQueue.items.length ≤ 100 := s.scancodeQueue.bounded
  have honce := hb.once
  unfold Core.work Core.sweep
  cases hpc : s.pc with
  | wake now i id =>
    simp only [hpc, Pc.beats] at honce ⊢
    omega
  | _ =>
    simp only
    repeat' split
    all_goals omega

structure Quiet (bytes : List UInt8) (s : Core) : Prop where
  waker : Armed s
  beats : Beats s
  paid : Paid s
  clock : s.uptimeTicks < u64Max
  accepted : s.accepted = bytes
  idle : s.pc = .halt ∨ s.pc = .halted → s.taskQueue.items = []

theorem Quiet.advance {bytes : List UInt8} (h : Quiet bytes s) (hs : Step s .advance t) :
    Quiet bytes t := by
  have hidle : t.pc = .halt ∨ t.pc = .halted → t.taskQueue.items = [] := by
    rintro (hpc | hpc)
    · exact halt_step (fun hk => h.idle (.inl hk)) ⟨hs, id⟩ hpc
    · cases hs.move with
      | jump k hj =>
        obtain rfl : k = .halted := hpc
        generalize hk : s.pc = k₀ at hj
        cases hj with
        | halt => exact h.idle (.inl hk)
      | remove | wake | take | drained | register | yield | pending | sleepNew | sleepPush =>
        cases hpc
  have hsame : t.uptimeTicks = s.uptimeTicks ∧ t.accepted = s.accepted := by
    cases hs.move <;> exact ⟨rfl, rfl⟩
  exact ⟨h.waker.step hs, h.beats.step h.waker.owner hs, h.paid.step h.beats h.waker.owner hs,
    hsame.1 ▸ h.clock, hsame.2.trans h.accepted, hidle⟩

/-- Left alone, the executor settles. From every reachable state before its halt instruction, and
with the clock below its last value, at most 914 steps without an interrupt bring it to the halt:
it does not panic, nothing is queued, the shell has read exactly the keys that were accepted, in
their order, and its waker is armed for the next one. -/
theorem undisturbed_executor_settles (now : Nat) (s : Core)
    (h : Reachable Step (Core.init now) s) (hhalt : s.pc ≠ .halt) (hhalted : s.pc ≠ .halted)
    (hclock : s.uptimeTicks < u64Max) :
    ∃ n t, n ≤ 914 ∧ Run Step s (List.replicate n .advance) t ∧ t.pc = .halted ∧
      t.taskQueue.items = [] ∧ t.scancodeQueue.items = [] ∧ t.yielded = s.accepted ∧
      t.waker = some shell := by
  have hall : Armed s ∧ Beats s ∧ Paid s := by
    have hstep (u : Core) (e : Event) (v : Core) (hu : Armed u ∧ Beats u ∧ Paid u)
        (hs : Step u e v) : Armed v ∧ Beats v ∧ Paid v :=
      ⟨hu.1.step hs, hu.2.1.step hu.1.owner hs, hu.2.2.step hu.2.1 hu.1.owner hs⟩
    exact h.invariant hstep ⟨Armed.init now, Beats.init now, Paid.init now⟩
  obtain ⟨ha, hb, hp⟩ := hall
  have hquiet : Quiet s.accepted s :=
    ⟨ha, hb, hp, hclock, rfl, fun hk => absurd hk (not_or.mpr ⟨hhalt, hhalted⟩)⟩
  have hlower (u : Core) (hu : Quiet s.accepted u) (hpc : ¬ u.pc = .halted) :
      ∃ v, Step u .advance v ∧ Quiet s.accepted v ∧ v.work < u.work := by
    obtain ⟨v, hv⟩ := exists_advance hu.beats hu.paid hpc
    exact ⟨v, hv, hu.advance hv, advance_lowers_work hu.clock hv⟩
  obtain ⟨n, t, hn, hrun, ht, hend⟩ := Run.settles hlower hquiet
  have hnone : t.taskQueue.items = [] := ht.idle (.inr hend)
  obtain hm | ⟨hwaker, hread⟩ := ht.waker.asleep (by rw [hend]; rfl)
  · rw [hnone] at hm
    cases hm
  · have hbytes := ht.waker.bytes
    rw [hread, List.append_nil, ht.accepted] at hbytes
    exact ⟨n, t, hn.trans (work_le hb), hrun, hend, hnone, hread, hbytes, hwaker⟩

def typedEvents : List Event := List.replicate 6 .advance ++ [.keyboard 30, .keyboard 31]

theorem typed_keys_are_read : ∃ s n t, Reachable Step (Core.init 0) s ∧ s.ShellSuspended ∧
    s.accepted = [30, 31] ∧ s.yielded = [] ∧ Run Step s (List.replicate n .advance) t ∧
    t.pc = .halted ∧ t.yielded = [30, 31] := by
  have hrun : ((exec stepOption (Core.init 0) typedEvents).any fun s =>
      s.pending && !s.pc.onShell && decide (s.accepted = [30, 31] ∧ s.yielded = [] ∧
        s.pc = .ready ∧ s.uptimeTicks = 0)) = true := by decide +kernel
  obtain ⟨s, hreach, hp⟩ := reachable_of_events hrun
  simp only [Bool.and_eq_true, Bool.not_eq_true', decide_eq_true_eq] at hp
  obtain ⟨⟨hpending, hshell⟩, haccepted, hyielded, hpc, hzero⟩ := hp
  obtain ⟨n, t, -, hsettle, hend, -, -, hread, -⟩ := undisturbed_executor_settles 0 s hreach
    (by simp [hpc]) (by simp [hpc]) (by rw [hzero]; decide)
  exact ⟨s, n, t, hreach, ⟨hpending, hshell⟩, haccepted, hyielded, hsettle, hend,
    hread.trans haccepted⟩

end MoltOS.Task
