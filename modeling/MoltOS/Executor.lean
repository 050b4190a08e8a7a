import MoltOS.ArrayQueue
import MoltOS.Rust
import MoltOS.Transition

/-! The executor thread with its two tasks, the shell and the heartbeat, and the
interrupts that land between any two of its steps. The handlers run with interrupts off,
so each is one step; the queues and the waker cell are atomic. -/
namespace MoltOS.Task
open MoltOS.Rust MoltOS.Transition

abbrev TaskId := Nat

/- In the order in which `kernel_main` spawns them. -/
def shell : TaskId := 0
def heartbeat : TaskId := 1

def queueSize : Nat := 100

structure Sleep where
  targetTick : Nat
  registered : Bool
deriving DecidableEq, Repr

def Sleep.new (uptimeTicks ticks : Nat) : Sleep := ⟨saturatingAdd uptimeTicks ticks, false⟩

/- Where the executor thread stands: `Executor::run`, the loop of `wake_sleepers`,
   `run_ready_tasks`, the poll of one task, `sleep_if_idle`. A task counts as being
   polled from the moment its id has been taken from the queue. -/
inductive Pc where
  | loop
  | sleepers (now i : Nat)
  | wake (now i : Nat) (id : TaskId)
  | ready
  | dispatch (id : TaskId)
  | register
  | pop
  | key (scancode : UInt8)
  | sleepNew
  | sleepPoll
  | sleepPush
  | test
  | halt
  | halted
deriving DecidableEq, Repr

/- The last four fields are history: whether the last poll of the shell returned
   `Pending`, the bytes the keyboard queue accepted, the bytes the stream yielded, and
   how many bytes were accepted since `run_ready_tasks` last found its queue empty. -/
structure Core where
  uptimeTicks : Nat
  scancodeQueue : ArrayQueue UInt8 queueSize
  waker : Option TaskId
  taskQueue : ArrayQueue TaskId queueSize
  sleepers : List (Nat × TaskId)
  sleep : Option Sleep
  pc : Pc
  pending : Bool
  accepted : List UInt8
  yielded : List UInt8
  burst : Nat

def Core.init (uptimeTicks : Nat) : Core where
  uptimeTicks := uptimeTicks
  scancodeQueue := ArrayQueue.empty _ _
  waker := none
  taskQueue := ⟨[shell, heartbeat], by decide⟩
  sleepers := []
  sleep := none
  pc := .loop
  pending := false
  accepted := []
  yielded := []
  burst := 0

inductive Stop where
  | halted
  | taskQueueFull
deriving DecidableEq, Repr

inductive Event where
  | advance
  | keyboard (scancode : UInt8)
  | timer
deriving DecidableEq, Repr

namespace Core

def wakeTask (s : Core) (id : TaskId) : Except Stop Core :=
  match s.taskQueue.push id with
  | some q => .ok { s with taskQueue := q }
  | none => .error .taskQueueFull

/- `AtomicWaker::wake` takes the registered waker out of its cell. -/
def wakeWaker (s : Core) : Except Stop Core :=
  match s.waker with
  | some id => { s with waker := none }.wakeTask id
  | none => .ok s

def addScancode (s : Core) (scancode : UInt8) : Except Stop Core :=
  match s.scancodeQueue.push scancode with
  | some q => { s with
      scancodeQueue := q
      accepted := s.accepted ++ [scancode]
      burst := s.burst + 1 }.wakeWaker
  | none => .ok s

def resume (s : Core) : Core :=
  match s.pc with
  | .halted => { s with pc := .loop }
  | _ => s

def advance (s : Core) : Except Stop Core :=
  match s.pc with
  | .loop => .ok { s with pc := .sleepers s.uptimeTicks 0 }
  | .sleepers now i => match s.sleepers[i]? with
    | none => .ok { s with pc := .ready }
    | some (target, id) =>
      if target ≤ now then .ok { s with sleepers := s.sleepers.eraseIdx i, pc := .wake now i id }
      else .ok { s with pc := .sleepers now (i + 1) }
  | .wake now i id => do
    let t ← s.wakeTask id
    pure { t with pc := .sleepers now i }
  | .ready => match s.taskQueue.pop with
    | some (id, q) => .ok { s with taskQueue := q, pc := .dispatch id }
    | none => .ok { s with pc := .test, burst := 0 }
  | .dispatch id =>
    if id = shell then .ok { s with pc := .register }
    else if id = heartbeat then
      .ok { s with pc := if s.sleep.isSome then .sleepPoll else .sleepNew }
    else .ok { s with pc := .ready }
  | .register => .ok { s with waker := some shell, pc := .pop }
  | .pop => match s.scancodeQueue.pop with
    | some (scancode, q) => .ok { s with
        scancodeQueue := q
        yielded := s.yielded ++ [scancode]
        pc := .key scancode }
    | none => .ok { s with pending := true, pc := .ready }
  | .key _ => .ok { s with pc := .register }
  | .sleepNew => .ok { s with sleep := some (Sleep.new s.uptimeTicks 200), pc := .sleepPoll }
  | .sleepPoll => match s.sleep with
    | none => .ok { s with pc := .sleepNew }
    | some x =>
      if x.targetTick ≤ s.uptimeTicks then .ok { s with pc := .sleepNew }
      else if x.registered then .ok { s with pc := .ready }
      else .ok { s with pc := .sleepPush }
  | .sleepPush => match s.sleep with
    | none => .ok { s with pc := .sleepNew }
    | some x => .ok { s with
        sleepers := s.sleepers ++ [(x.targetTick, heartbeat)]
        sleep := some { x with registered := true }
        pc := .ready }
  | .test => .ok { s with pc := if s.taskQueue.isEmpty then .halt else .loop }
  | .halt => .ok { s with pc := .halted }
  | .halted => .error .halted

def step (s : Core) : Event → Except Stop Core
  | .advance => s.advance
  | .keyboard scancode => do
    let t ← s.addScancode scancode
    pure t.resume
  | .timer => .ok { s with uptimeTicks := s.uptimeTicks + 1 }.resume

end Core

def Step (s : Core) (e : Event) (t : Core) : Prop := s.step e = .ok t

inductive Jump (s : Core) : Pc → Pc → Prop where
  | loop : Jump s .loop (.sleepers s.uptimeTicks 0)
  | asleep (now i : Nat) : Jump s (.sleepers now i) (.sleepers now (i + 1))
  | woken (now i : Nat) : Jump s (.sleepers now i) .ready
  | shell : Jump s (.dispatch shell) .register
  | first : Jump s (.dispatch heartbeat) .sleepNew
  | again : Jump s (.dispatch heartbeat) .sleepPoll
  | unknown (id : TaskId) (hid : id ≠ MoltOS.Task.shell) : Jump s (.dispatch id) .ready
  | key (scancode : UInt8) : Jump s (.key scancode) .register
  | expired : Jump s .sleepPoll .sleepNew
  | waiting : Jump s .sleepPoll .ready
  | enlist : Jump s .sleepPoll .sleepPush
  | empty : Jump s .sleepPush .sleepNew
  | idle (hq : s.taskQueue.items = []) : Jump s .test .halt
  | busy (hq : s.taskQueue.items ≠ []) : Jump s .test .loop
  | halt : Jump s .halt .halted

def Pc.resumed : Pc → Pc
  | .halted => .loop
  | k => k

theorem Core.resume_eq (s : Core) : s.resume = { s with pc := s.pc.resumed } := by
  obtain ⟨_, _, _, _, _, _, pc, _, _, _, _⟩ := s
  cases pc <;> rfl

inductive Move (s : Core) : Event → Core → Prop where
  | jump (k : Pc) (hj : Jump s s.pc k) : Move s .advance { s with pc := k }
  | remove (now i : Nat) (x : Nat × TaskId) (hpc : s.pc = .sleepers now i)
      (hx : s.sleepers[i]? = some x) :
      Move s .advance { s with sleepers := s.sleepers.eraseIdx i, pc := .wake now i x.2 }
  | wake (now i : Nat) (id : TaskId) (q : ArrayQueue TaskId queueSize)
      (hpc : s.pc = .wake now i id) (hq : s.taskQueue.push id = some q) :
      Move s .advance { s with taskQueue := q, pc := .sleepers now i }
  | take (id : TaskId) (q : ArrayQueue TaskId queueSize) (hpc : s.pc = .ready)
      (hq : s.taskQueue.items = id :: q.items) :
      Move s .advance { s with taskQueue := q, pc := .dispatch id }
  | drained (hpc : s.pc = .ready) (hq : s.taskQueue.items = []) :
      Move s .advance { s with pc := .test, burst := 0 }
  | register (hpc : s.pc = .register) :
      Move s .advance { s with waker := some shell, pc := .pop }
  | yield (scancode : UInt8) (q : ArrayQueue UInt8 queueSize) (hpc : s.pc = .pop)
      (hq : s.scancodeQueue.items = scancode :: q.items) :
      Move s .advance { s with
        scancodeQueue := q, yielded := s.yielded ++ [scancode], pc := .key scancode }
  | pending (hpc : s.pc = .pop) (hq : s.scancodeQueue.items = []) :
      Move s .advance { s with pending := true, pc := .ready }
  | sleepNew (x : Sleep) (hpc : s.pc = .sleepNew) :
      Move s .advance { s with sleep := some x, pc := .sleepPoll }
  | sleepPush (target : Nat) (x : Sleep) (hpc : s.pc = .sleepPush) :
      Move s .advance { s with
        sleepers := s.sleepers ++ [(target, heartbeat)], sleep := some x, pc := .ready }
  | timer : Move s .timer { s with uptimeTicks := s.uptimeTicks + 1, pc := s.pc.resumed }
  | keyFull (scancode : UInt8) (hfull : s.scancodeQueue.push scancode = none) :
      Move s (.keyboard scancode) { s with pc := s.pc.resumed }
  | keyQuiet (scancode : UInt8) (q : ArrayQueue UInt8 queueSize)
      (hq : s.scancodeQueue.push scancode = some q) (hw : s.waker = none) :
      Move s (.keyboard scancode) { s with
        scancodeQueue := q, accepted := s.accepted ++ [scancode], burst := s.burst + 1
        pc := s.pc.resumed }
  | keyWake (scancode : UInt8) (q : ArrayQueue UInt8 queueSize) (id : TaskId)
      (r : ArrayQueue TaskId queueSize) (hq : s.scancodeQueue.push scancode = some q)
      (hw : s.waker = some id) (hr : s.taskQueue.push id = some r) :
      Move s (.keyboard scancode) { s with
        scancodeQueue := q, accepted := s.accepted ++ [scancode], burst := s.burst + 1
        waker := none, taskQueue := r, pc := s.pc.resumed }

variable {s t : Core} {e : Event}

theorem advance_move (h : s.advance = .ok t) : Move s .advance t := by
  unfold Core.advance at h
  cases hpc : s.pc with
  | loop =>
    simp only [hpc, Except.ok.injEq] at h
    exact h ▸ .jump _ (hpc ▸ .loop)
  | sleepers now i =>
    simp only [hpc] at h
    cases hx : s.sleepers[i]? with
    | none =>
      simp only [hx, Except.ok.injEq] at h
      exact h ▸ .jump _ (hpc ▸ .woken now i)
    | some x =>
      simp only [hx] at h
      split at h
      · exact Except.ok.inj h ▸ .remove now i x hpc hx
      · exact Except.ok.inj h ▸ .jump _ (hpc ▸ .asleep now i)
  | wake now i id =>
    simp only [hpc, Core.wakeTask] at h
    cases hq : s.taskQueue.push id with
    | none => simp [hq, bind, Except.bind] at h
    | some q =>
      simp only [hq, bind, Except.bind, pure, Except.pure, Except.ok.injEq] at h
      exact h ▸ .wake now i id q hpc hq
  | ready =>
    simp only [hpc] at h
    cases hq : s.taskQueue.pop with
    | none =>
      simp only [hq, Except.ok.injEq] at h
      exact h ▸ .drained hpc (ArrayQueue.pop_eq_none.mp hq)
    | some x =>
      simp only [hq, Except.ok.injEq] at h
      exact h ▸ .take x.1 x.2 hpc (ArrayQueue.pop_eq_some.mp hq)
  | dispatch id =>
    simp only [hpc] at h
    split at h
    next hid => exact Except.ok.inj h ▸ .jump _ (by rw [hpc, hid]; exact .shell)
    next hid =>
      split at h
      next hb =>
        subst hb
        simp only [Except.ok.injEq] at h
        refine h ▸ .jump _ ?_
        rw [hpc]
        split
        · exact .again
        · exact .first
      next => exact Except.ok.inj h ▸ .jump _ (hpc ▸ .unknown id hid)
  | register =>
    simp only [hpc, Except.ok.injEq] at h
    exact h ▸ .register hpc
  | pop =>
    simp only [hpc] at h
    cases hq : s.scancodeQueue.pop with
    | none =>
      simp only [hq, Except.ok.injEq] at h
      exact h ▸ .pending hpc (ArrayQueue.pop_eq_none.mp hq)
    | some x =>
      simp only [hq, Except.ok.injEq] at h
      exact h ▸ .yield x.1 x.2 hpc (ArrayQueue.pop_eq_some.mp hq)
  | key scancode =>
    simp only [hpc, Except.ok.injEq] at h
    exact h ▸ .jump _ (hpc ▸ .key scancode)
  | sleepNew =>
    simp only [hpc, Except.ok.injEq] at h
    exact h ▸ .sleepNew _ hpc
  | sleepPoll =>
    simp only [hpc] at h
    split at h
    · exact Except.ok.inj h ▸ .jump _ (hpc ▸ .expired)
    · split at h
      · exact Except.ok.inj h ▸ .jump _ (hpc ▸ .expired)
      · split at h
        · exact Except.ok.inj h ▸ .jump _ (hpc ▸ .waiting)
        · exact Except.ok.inj h ▸ .jump _ (hpc ▸ .enlist)
  | sleepPush =>
    simp only [hpc] at h
    split at h
    · exact Except.ok.inj h ▸ .jump _ (hpc ▸ .empty)
    · exact Except.ok.inj h ▸ .sleepPush _ _ hpc
  | test =>
    simp only [hpc, Except.ok.injEq] at h
    refine h ▸ .jump _ ?_
    rw [hpc]
    split
    next hq => exact .idle (List.isEmpty_iff.mp hq)
    next hq => exact .busy fun he => hq (List.isEmpty_iff.mpr he)
  | halt =>
    simp only [hpc, Except.ok.injEq] at h
    exact h ▸ .jump _ (hpc ▸ .halt)
  | halted => simp [hpc] at h

/-- A keyboard interrupt is dropped, or accepted without a wake, or accepted with one. -/
theorem keyboard_move {scancode : UInt8} (h : s.step (.keyboard scancode) = .ok t) :
    Move s (.keyboard scancode) t := by
  simp only [Core.step, Core.addScancode] at h
  cases hq : s.scancodeQueue.push scancode with
  | none =>
    simp only [hq, bind, Except.bind, pure, Except.pure, Except.ok.injEq, Core.resume_eq] at h
    exact h ▸ .keyFull scancode hq
  | some q =>
    simp only [hq, Core.wakeWaker] at h
    cases hw : s.waker with
    | none =>
      simp only [hw, bind, Except.bind, pure, Except.pure, Except.ok.injEq, Core.resume_eq] at h
      exact h ▸ hw ▸ .keyQuiet scancode q hq hw
    | some id =>
      simp only [hw, Core.wakeTask] at h
      cases hr : s.taskQueue.push id with
      | none => simp [hr, bind, Except.bind] at h
      | some r =>
        simp only [hr, bind, Except.bind, pure, Except.pure, Except.ok.injEq,
          Core.resume_eq] at h
        exact h ▸ .keyWake scancode q id r hq hw hr

theorem Step.move (h : Step s e t) : Move s e t := by
  cases e with
  | advance => exact advance_move h
  | keyboard scancode => exact keyboard_move h
  | timer =>
    simp only [Step, Core.step, Except.ok.injEq, Core.resume_eq] at h
    exact h ▸ .timer

def stepOption (s : Core) (e : Event) : Option Core := (s.step e).toOption

theorem step_of_stepOption (h : stepOption s e = some t) : Step s e t := by
  unfold stepOption at h
  unfold Step
  cases hs : s.step e with
  | error => simp [hs, Except.toOption] at h
  | ok u =>
    simp only [hs, Except.toOption, Option.some.injEq] at h
    rw [h]

/-- An evaluated run whose last state passes a test. -/
theorem reachable_of_events {es : List Event} {q : Core → Bool}
    (h : (exec stepOption s es).any q = true) : ∃ t, Reachable Step s t ∧ q t = true := by
  obtain ⟨t, hreach, hq⟩ := reachable_of_exec h
  exact ⟨t, hreach.mono fun _ _ _ => step_of_stepOption, hq⟩

theorem reachable_of_checkedEvents {Allowed : Core → Event → Prop}
    [∀ s e, Decidable (Allowed s e)] {es : List Event} {q : Core → Bool}
    (h : (exec (checked stepOption Allowed) s es).any q = true) :
    ∃ t, Reachable (Restrict Step Allowed) s t ∧ q t = true := by
  obtain ⟨t, hreach, hq⟩ := reachable_of_checked h
  exact ⟨t, hreach.mono fun _ _ _ hs => ⟨step_of_stepOption hs.1, hs.2⟩, hq⟩

end MoltOS.Task
