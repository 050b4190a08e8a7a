import MoltOS.Executor

/-! What the waker and the two queues say about the shell: a suspended shell with a key
waiting is in the task queue, keys are neither lost nor repeated, and the processor halts
with work queued only if a wake lands between the emptiness test and the halt. -/
namespace MoltOS.Task
open MoltOS.Transition

def Pc.onShell : Pc → Bool
  | .dispatch id => id == shell
  | .register => true
  | .pop => true
  | .key _ => true
  | _ => false

def Core.ShellSuspended (s : Core) : Prop := s.pending = true ∧ s.pc.onShell = false

/-- Either the shell's id is queued, or its waker is armed; and while it is not being
polled, an armed waker has seen an empty queue. -/
structure Armed (s : Core) : Prop where
  owner : ∀ id, s.waker = some id → id = shell
  asleep : s.pc.onShell = false →
    shell ∈ s.taskQueue.items ∨ (s.waker = some shell ∧ s.scancodeQueue.items = [])
  polling : s.pc = .pop → s.waker = some shell ∨ shell ∈ s.taskQueue.items
  bytes : s.yielded ++ s.scancodeQueue.items = s.accepted

variable {s t : Core} {e : Event}

theorem Armed.init (now : Nat) : Armed (Core.init now) :=
  ⟨fun _ h => (by cases h), fun _ => Or.inl (by simp [Core.init]), fun h => (by cases h), rfl⟩

theorem resumed_onShell (k : Pc) : k.resumed.onShell = k.onShell := by
  cases k <;> rfl

theorem resumed_eq_pop {k : Pc} (h : k.resumed = .pop) : k = .pop := by
  cases k <;> first | rfl | cases h

/- A jump neither enters nor leaves the poll of the shell, but for the way into it. -/
theorem Jump.onShell_eq {k k' : Pc} (h : Jump s k k') : k'.onShell = k.onShell := by
  cases h with
  | unknown id hid => exact (beq_eq_false_iff_ne.mpr hid).symm
  | shell | first | again | key | loop | asleep | woken | expired | waiting | enlist | empty
  | idle | busy | halt => rfl

theorem Jump.ne_pop {k k' : Pc} (h : Jump s k k') : k' ≠ .pop := by
  intro he
  subst he
  cases h

theorem Armed.step (ha : Armed s) (h : Step s e t) : Armed t := by
  cases h.move with
  | jump k hj =>
    exact ⟨ha.owner, fun hk => ha.asleep (hj.onShell_eq.symm.trans hk),
      fun hk => absurd hk hj.ne_pop, ha.bytes⟩
  | remove now i x hpc hx =>
    exact ⟨ha.owner, fun _ => ha.asleep (by rw [hpc]; rfl), fun hk => (by cases hk), ha.bytes⟩
  | wake now i id q hpc hq =>
    obtain ⟨_, hitems⟩ := ArrayQueue.push_eq_some.mp hq
    refine ⟨ha.owner, fun _ => ?_, fun hk => (by cases hk), ha.bytes⟩
    have hold := ha.asleep (by rw [hpc]; rfl)
    exact hold.imp_left fun hm => by simp [hitems, hm]
  | take id q hpc hq =>
    refine ⟨ha.owner, fun hk => ?_, fun hk => (by cases hk), ha.bytes⟩
    have hold := ha.asleep (by rw [hpc]; rfl)
    refine hold.imp_left fun hm => ?_
    rw [hq] at hm
    exact (List.mem_cons.mp hm).resolve_left fun he => beq_eq_false_iff_ne.mp hk he.symm
  | drained hpc hq =>
    exact ⟨ha.owner, fun _ => ha.asleep (by rw [hpc]; rfl), fun hk => (by cases hk),
      ha.bytes⟩
  | register hpc =>
    exact ⟨fun id h => (Option.some.inj h).symm, fun hk => (by cases hk),
      fun _ => Or.inl rfl, ha.bytes⟩
  | yield scancode q hpc hq =>
    refine ⟨ha.owner, fun hk => (by cases hk), fun hk => (by cases hk), ?_⟩
    rw [← ha.bytes, hq]
    simp
  | pending hpc hq =>
    exact ⟨ha.owner, fun _ => (ha.polling hpc).symm.imp_right fun hw => ⟨hw, hq⟩,
      fun hk => (by cases hk), ha.bytes⟩
  | sleepNew x hpc | sleepPush target x hpc =>
    exact ⟨ha.owner, fun _ => ha.asleep (by rw [hpc]; rfl), fun hk => (by cases hk),
      ha.bytes⟩
  | timer | keyFull scancode hfull =>
    exact ⟨ha.owner, fun hk => ha.asleep ((resumed_onShell s.pc).symm.trans hk),
      fun hk => ha.polling (resumed_eq_pop hk), ha.bytes⟩
  | keyQuiet scancode q hq hw =>
    obtain ⟨_, hitems⟩ := ArrayQueue.push_eq_some.mp hq
    refine ⟨ha.owner, fun hk => ?_, fun hk => ha.polling (resumed_eq_pop hk), ?_⟩
    · obtain hm | ⟨hs, _⟩ := ha.asleep ((resumed_onShell s.pc).symm.trans hk)
      · exact Or.inl hm
      · rw [hw] at hs
        cases hs
    · rw [hitems, ← ha.bytes, List.append_assoc]
  | keyWake scancode q id r hq hw hr =>
    obtain ⟨_, hitems⟩ := ArrayQueue.push_eq_some.mp hq
    obtain ⟨_, hr⟩ := ArrayQueue.push_eq_some.mp hr
    have hmem : shell ∈ r.items := by simp [hr, ha.owner id hw]
    refine ⟨fun id h => (by cases h), fun _ => Or.inl hmem, fun _ => Or.inr hmem, ?_⟩
    rw [hitems, ← ha.bytes, List.append_assoc]

/-- No keystroke leaves the shell asleep, and the stream yields the accepted bytes in
order. -/
theorem suspended_shell_is_queued (now : Nat) (s : Core) (h : Reachable Step (Core.init now) s) :
    (s.scancodeQueue.items ≠ [] → s.ShellSuspended → shell ∈ s.taskQueue.items) ∧
      s.yielded ++ s.scancodeQueue.items = s.accepted := by
  have ha : Armed s := h.invariant (fun _ _ _ ha hs => ha.step hs) (Armed.init now)
  refine ⟨fun hne hsus => ?_, ha.bytes⟩
  obtain hm | ⟨_, hq⟩ := ha.asleep hsus.2
  · exact hm
  · exact absurd hq hne

def keyEvents : List Event := List.replicate 6 .advance ++ [.keyboard 30]

theorem key_queues_shell : ∃ s, Reachable Step (Core.init 0) s ∧ s.ShellSuspended ∧
    s.scancodeQueue.items = [30] ∧ shell ∈ s.taskQueue.items := by
  have hrun : ((exec stepOption (Core.init 0) keyEvents).any fun s =>
      s.pending && !s.pc.onShell && decide (s.scancodeQueue.items = [30])) = true := by
    decide +kernel
  obtain ⟨s, hreach, hp⟩ := reachable_of_events hrun
  simp only [Bool.and_eq_true, Bool.not_eq_true', decide_eq_true_eq] at hp
  obtain ⟨⟨hpend, hpc⟩, hq⟩ := hp
  exact ⟨s, hreach, ⟨hpend, hpc⟩, hq,
    (suspended_shell_is_queued 0 s hreach).1 (by simp [hq]) ⟨hpend, hpc⟩⟩

def Slips (s : Core) : Event → Prop
  | .keyboard _ => s.pc = .halt ∧ s.waker ≠ none ∧ s.scancodeQueue.items.length < queueSize
  | _ => False

instance (s : Core) : (e : Event) → Decidable (Slips s e)
  | .keyboard _ => inferInstanceAs (Decidable (_ ∧ _ ∧ _))
  | .advance => inferInstanceAs (Decidable False)
  | .timer => inferInstanceAs (Decidable False)

theorem resumed_eq_halt {k : Pc} (h : k.resumed = .halt) : k = .halt := by
  cases k <;> first | rfl | cases h

/-- Only a wake that slips in fills the queue of an executor about to halt. -/
theorem halt_step (hi : s.pc = .halt → s.taskQueue.items = [])
    (h : Restrict Step (fun s e => ¬ Slips s e) s e t) (hpc : t.pc = .halt) :
    t.taskQueue.items = [] := by
  obtain ⟨hs, hno⟩ := h
  cases hs.move with
  | jump k hj =>
    obtain rfl : k = .halt := hpc
    generalize hk : s.pc = k₀ at hj
    cases hj with
    | idle hq => exact hq
  | timer | keyFull | keyQuiet => exact hi (resumed_eq_halt hpc)
  | keyWake scancode q id r hq hw hr =>
    have hlt := (ArrayQueue.push_eq_some.mp hq).1
    exact absurd ⟨resumed_eq_halt hpc, by simp [hw], hlt⟩ hno
  | remove | wake | take | drained | register | yield | pending | sleepNew | sleepPush => cases hpc

/-- In every run in which no wake lands between the emptiness test and the halt, the
executor reaches its halt instruction with an empty task queue only. -/
theorem halts_only_when_idle (now : Nat) (s : Core)
    (h : Reachable (Restrict Step fun s e => ¬ Slips s e) (Core.init now) s) (hpc : s.pc = .halt) :
    s.taskQueue.items = [] := by
  have hinv : s.pc = .halt → s.taskQueue.items = [] :=
    h.invariant (fun _ _ _ hi hs => halt_step hi hs) fun hk => (by cases hk)
  exact hinv hpc

def idleEvents : List Event := List.replicate 13 .advance

theorem idle_executor_halts : ∃ s,
    Reachable (Restrict Step fun s e => ¬ Slips s e) (Core.init 0) s ∧ s.pc = .halt ∧
      s.taskQueue.items = [] := by
  have hrun : ((exec (checked stepOption fun s e => ¬ Slips s e) (Core.init 0) idleEvents).any
      fun s => decide (s.pc = .halt)) = true := by decide +kernel
  obtain ⟨s, hreach, hp⟩ := reachable_of_checkedEvents hrun
  have hpc := of_decide_eq_true hp
  exact ⟨s, hreach, hpc, halts_only_when_idle 0 s hreach hpc⟩

/-- A key pressed between the test and the halt: the processor halts with the shell's id
in the task queue. -/
theorem slipped_wake_halts : ∃ s t, Reachable Step (Core.init 0) s ∧ s.pc = .halt ∧
    Step s .advance t ∧ t.pc = .halted ∧ t.taskQueue.items = [shell] := by
  have hrun : ((exec stepOption (Core.init 0) (idleEvents ++ [.keyboard 30])).any fun s =>
      decide (s.pc = .halt) && decide (s.taskQueue.items = [shell])) = true := by decide +kernel
  obtain ⟨s, hreach, hp⟩ := reachable_of_events hrun
  simp only [Bool.and_eq_true, decide_eq_true_eq] at hp
  refine ⟨s, { s with pc := .halted }, hreach, hp.1, ?_, rfl, hp.2⟩
  simp only [Step, Core.step, Core.advance, hp.1]

end MoltOS.Task
