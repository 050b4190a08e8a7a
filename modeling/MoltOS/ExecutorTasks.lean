import Mathlib.Data.Finset.Erase
import Mathlib.Data.Finset.Insert
import MoltOS.ArrayQueue
import MoltOS.Executor

/-! The executor with any number of tasks whose polls do what they like, the sleep futures
they await, and `wake_sleepers`, called from anywhere. -/
namespace MoltOS.Tasks
open MoltOS.Rust MoltOS.Transition
open MoltOS.Task (TaskId Sleep queueSize)

inductive Record where
  | spawned (id : TaskId)
  | woken (id : TaskId)
  | polled (id : TaskId)
  | finished (id : TaskId)
  | drained
  | slept (targetTick uptimeTicks : Nat)
  | swept (now : Nat) (before after woken : List (Nat × TaskId))
deriving DecidableEq, Repr

/- Where `run_ready_tasks` stands. A task is `poll`ed from the lookup of its id on: in
   `register` its `Sleep` is about to lock `SLEEPERS`, in `pended` it has returned `Pending`.
   After `Ready` it leaves `tasks` first and `waker_cache` second. -/
inductive Pc where
  | idle
  | pop
  | dispatch (id : TaskId)
  | poll (id : TaskId)
  | register (id : TaskId)
  | pended (id : TaskId)
  | retire (id : TaskId)
  | forget (id : TaskId)
deriving DecidableEq, Repr

/- A call of `wake_sleepers` that holds `SLEEPERS`. The last two fields are history: the list
   it found and the entries it has woken. -/
structure Sweep where
  now : Nat
  i : Nat
  before : List (Nat × TaskId)
  woken : List (Nat × TaskId)

/- `held` are the tasks that were created and not spawned yet; `sleep` is the `Sleep` a task
   awaits; `log` stands newest first. -/
structure Core where
  uptimeTicks : Nat
  nextId : Nat
  held : Finset TaskId
  tasks : Finset TaskId
  sleep : TaskId → Option Sleep
  taskQueue : ArrayQueue TaskId queueSize
  wakerCache : Finset TaskId
  sleepers : List (Nat × TaskId)
  sweep : Option Sweep
  pc : Pc
  log : List Record

def Core.init (uptimeTicks : Nat) : Core where
  uptimeTicks := uptimeTicks
  nextId := 0
  held := ∅
  tasks := ∅
  sleep := fun _ => none
  taskQueue := ArrayQueue.empty _ _
  wakerCache := ∅
  sleepers := []
  sweep := none
  pc := .idle
  log := []

inductive Event where
  | newTask
  | spawn (id : TaskId)
  | wake (id : TaskId)
  | tick (uptimeTicks : Nat)
  | sweep (now : Nat)
  | sweepNext
  | run
  | advance
  | sleepNew (created ticks : Nat)
  | sleepPoll
  | resume
  | pending
  | ready
deriving DecidableEq, Repr

namespace Core

def enqueue (s : Core) (r : Record) (id : TaskId) : Option Core :=
  match s.taskQueue.push id with
  | some q => some { s with taskQueue := q, log := r :: s.log }
  | none => none

def spawn (s : Core) (id : TaskId) : Option Core :=
  if s.pc = .idle ∧ id ∈ s.held ∧ id ∉ s.tasks then
    { s with
      held := s.held.erase id
      tasks := insert id s.tasks
      sleep := Function.update s.sleep id none }.enqueue (.spawned id) id
  else none

/- One round of the loop in `wake_sleepers`. Nobody else sees `SLEEPERS` before the lock is
   released, so an entry leaves the list together with its wake. -/
def sweepNext (s : Core) : Option Core :=
  match s.sweep with
  | none => none
  | some w =>
    match s.sleepers[w.i]? with
    | none => some { s with
        sweep := none
        log := .swept w.now w.before s.sleepers w.woken :: s.log }
    | some (target, id) =>
      if target ≤ w.now then
        { s with
          sleepers := s.sleepers.eraseIdx w.i
          sweep := some { w with woken := w.woken ++ [(target, id)] } }.enqueue (.woken id) id
      else some { s with sweep := some { w with i := w.i + 1 } }

def advance (s : Core) : Option Core :=
  match s.pc with
  | .pop => match s.taskQueue.pop with
    | some (id, q) => some { s with taskQueue := q, pc := .dispatch id }
    | none => some { s with pc := .idle, log := .drained :: s.log }
  | .dispatch id =>
    if id ∈ s.tasks then
      some { s with wakerCache := insert id s.wakerCache, pc := .poll id, log := .polled id :: s.log }
    else some { s with pc := .pop }
  | .register id => match s.sweep, s.sleep id with
    | none, some x => some { s with
        sleepers := s.sleepers ++ [(x.targetTick, id)]
        sleep := Function.update s.sleep id (some { x with registered := true })
        pc := .pended id }
    | _, _ => none
  | .retire id => some { s with tasks := s.tasks.erase id, pc := .forget id }
  | .forget id => some { s with wakerCache := s.wakerCache.erase id, pc := .pop }
  | _ => none

/- `Sleep::poll` up to the lock; an awaited `Sleep` is gone once it is `Ready`. -/
def sleepPoll (s : Core) : Option Core :=
  match s.pc with
  | .poll id => match s.sleep id with
    | none => none
    | some x =>
      if x.targetTick ≤ s.uptimeTicks then
        some { s with
          sleep := Function.update s.sleep id none
          log := .slept x.targetTick s.uptimeTicks :: s.log }
      else if x.registered then some { s with pc := .pended id }
      else some { s with pc := .register id }
  | _ => none

def polled (s : Core) : Option TaskId :=
  match s.pc with
  | .poll id | .pended id => some id
  | _ => none

/- A waker of any task, finished or not, may be called at any time and by anyone. A `Sleep`
   may have been created before the task came to await it. `wake_sleepers` reads the clock
   before it has the lock. -/
def step (s : Core) : Event → Option Core
  | .newTask => some { s with nextId := s.nextId + 1, held := insert s.nextId s.held }
  | .spawn id => s.spawn id
  | .wake id => s.enqueue (.woken id) id
  | .tick uptimeTicks =>
    if s.uptimeTicks ≤ uptimeTicks then some { s with uptimeTicks := uptimeTicks } else none
  | .sweep now =>
    if s.sweep.isNone ∧ now ≤ s.uptimeTicks then
      some { s with sweep := some ⟨now, 0, s.sleepers, []⟩ }
    else none
  | .sweepNext => s.sweepNext
  | .run => if s.pc = .idle then some { s with pc := .pop } else none
  | .advance => s.advance
  | .sleepNew created ticks => match s.pc with
    | .poll id =>
      if created ≤ s.uptimeTicks then
        some { s with sleep := Function.update s.sleep id (some (Sleep.new created ticks)) }
      else none
    | _ => none
  | .sleepPoll => s.sleepPoll
  | .resume => match s.pc with
    | .pended id => some { s with pc := .poll id }
    | _ => none
  | .pending => match s.polled with
    | some _ => some { s with pc := .pop }
    | none => none
  | .ready => match s.polled with
    | some id => some { s with pc := .retire id, log := .finished id :: s.log }
    | none => none

end Core

def Step (s : Core) (e : Event) (t : Core) : Prop := s.step e = some t

def Pushed (s t : Core) (r : Record) (id : TaskId) : Prop :=
  ∃ q : ArrayQueue TaskId queueSize, q.items = s.taskQueue.items ++ [id] ∧
    t = { s with taskQueue := q, log := r :: s.log }

theorem pushed_of_enqueue {s t : Core} {r : Record} {id : TaskId} (h : s.enqueue r id = some t) :
    Pushed s t r id := by
  unfold Core.enqueue at h
  split at h
  next q hq =>
    cases h
    exact ⟨q, (ArrayQueue.push_eq_some.mp hq).2, rfl⟩
  · cases h

inductive Move (s : Core) : Event → Core → Prop where
  | newTask : Move s .newTask { s with nextId := s.nextId + 1, held := insert s.nextId s.held }
  | spawn {id : TaskId} {t : Core} (idle : s.pc = .idle) (held : id ∈ s.held) (new : id ∉ s.tasks)
      (push : Pushed { s with
        held := s.held.erase id
        tasks := insert id s.tasks
        sleep := Function.update s.sleep id none } t (.spawned id) id) : Move s (.spawn id) t
  | wake {id : TaskId} {t : Core} (push : Pushed s t (.woken id) id) : Move s (.wake id) t
  | tick {uptimeTicks : Nat} (le : s.uptimeTicks ≤ uptimeTicks) :
      Move s (.tick uptimeTicks) { s with uptimeTicks := uptimeTicks }
  | sweep {now : Nat} (free : s.sweep = none) (le : now ≤ s.uptimeTicks) :
      Move s (.sweep now) { s with sweep := some ⟨now, 0, s.sleepers, []⟩ }
  | swept {w : Sweep} (lock : s.sweep = some w) (last : s.sleepers[w.i]? = none) :
      Move s .sweepNext
        { s with sweep := none, log := .swept w.now w.before s.sleepers w.woken :: s.log }
  | sweepWake {w : Sweep} {target : Nat} {id : TaskId} {t : Core} (lock : s.sweep = some w)
      (entry : s.sleepers[w.i]? = some (target, id)) (due : target ≤ w.now)
      (push : Pushed { s with
        sleepers := s.sleepers.eraseIdx w.i
        sweep := some { w with woken := w.woken ++ [(target, id)] } } t (.woken id) id) :
      Move s .sweepNext t
  | sweepSkip {w : Sweep} {target : Nat} {id : TaskId} (lock : s.sweep = some w)
      (entry : s.sleepers[w.i]? = some (target, id)) (early : w.now < target) :
      Move s .sweepNext { s with sweep := some { w with i := w.i + 1 } }
  | run (idle : s.pc = .idle) : Move s .run { s with pc := .pop }
  | popped {id : TaskId} {q : ArrayQueue TaskId queueSize} (pc : s.pc = .pop)
      (head : s.taskQueue.items = id :: q.items) :
      Move s .advance { s with taskQueue := q, pc := .dispatch id }
  | drained (pc : s.pc = .pop) (empty : s.taskQueue.items = []) :
      Move s .advance { s with pc := .idle, log := .drained :: s.log }
  | polled {id : TaskId} (pc : s.pc = .dispatch id) (live : id ∈ s.tasks) :
      Move s .advance
        { s with wakerCache := insert id s.wakerCache, pc := .poll id, log := .polled id :: s.log }
  | stale {id : TaskId} (pc : s.pc = .dispatch id) (dead : id ∉ s.tasks) :
      Move s .advance { s with pc := .pop }
  | registered {id : TaskId} {x : Sleep} (pc : s.pc = .register id) (free : s.sweep = none)
      (sleep : s.sleep id = some x) :
      Move s .advance { s with
        sleepers := s.sleepers ++ [(x.targetTick, id)]
        sleep := Function.update s.sleep id (some { x with registered := true })
        pc := .pended id }
  | sleepNew {created ticks : Nat} {id : TaskId} (pc : s.pc = .poll id)
      (le : created ≤ s.uptimeTicks) :
      Move s (.sleepNew created ticks)
        { s with sleep := Function.update s.sleep id (some (Sleep.new created ticks)) }
  | sleepReady {id : TaskId} {x : Sleep} (pc : s.pc = .poll id) (sleep : s.sleep id = some x)
      (due : x.targetTick ≤ s.uptimeTicks) :
      Move s .sleepPoll { s with
        sleep := Function.update s.sleep id none
        log := .slept x.targetTick s.uptimeTicks :: s.log }
  | sleepAgain {id : TaskId} {x : Sleep} (pc : s.pc = .poll id) (sleep : s.sleep id = some x)
      (early : s.uptimeTicks < x.targetTick) (known : x.registered = true) :
      Move s .sleepPoll { s with pc := .pended id }
  | sleepFirst {id : TaskId} {x : Sleep} (pc : s.pc = .poll id) (sleep : s.sleep id = some x)
      (early : s.uptimeTicks < x.targetTick) (unknown : x.registered = false) :
      Move s .sleepPoll { s with pc := .register id }
  | resume {id : TaskId} (pc : s.pc = .pended id) : Move s .resume { s with pc := .poll id }
  | pending {id : TaskId} (pc : s.polled = some id) : Move s .pending { s with pc := .pop }
  | ready {id : TaskId} (pc : s.polled = some id) :
      Move s .ready { s with pc := .retire id, log := .finished id :: s.log }
  | retired {id : TaskId} (pc : s.pc = .retire id) :
      Move s .advance { s with tasks := s.tasks.erase id, pc := .forget id }
  | forgot {id : TaskId} (pc : s.pc = .forget id) :
      Move s .advance { s with wakerCache := s.wakerCache.erase id, pc := .pop }

section Moves
variable {s t : Core} {e : Event}

theorem move_of_sweepNext (h : s.sweepNext = some t) : Move s .sweepNext t := by
  unfold Core.sweepNext at h
  split at h
  · cases h
  next w hw =>
    split at h
    next hlast =>
      cases h
      exact .swept hw hlast
    next target id hentry =>
      split at h
      next hdue => exact .sweepWake hw hentry hdue (pushed_of_enqueue h)
      next hearly =>
        cases h
        exact .sweepSkip hw hentry (by omega)

theorem move_of_advance (h : s.advance = some t) : Move s .advance t := by
  unfold Core.advance at h
  split at h
  next hpc =>
    split at h
    next id q hq =>
      cases h
      exact .popped hpc (ArrayQueue.pop_eq_some.mp hq)
    next hq =>
      cases h
      exact .drained hpc (ArrayQueue.pop_eq_none.mp hq)
  next id hpc =>
    split at h
    next hlive =>
      cases h
      exact .polled hpc hlive
    next hdead =>
      cases h
      exact .stale hpc hdead
  next id hpc =>
    split at h
    next x hfree hsleep =>
      cases h
      exact .registered hpc hfree hsleep
    · cases h
  next id hpc =>
    cases h
    exact .retired hpc
  next id hpc =>
    cases h
    exact .forgot hpc
  · cases h

theorem move_of_sleepPoll (h : s.sleepPoll = some t) : Move s .sleepPoll t := by
  unfold Core.sleepPoll at h
  split at h
  next id hpc =>
    split at h
    · cases h
    next x hsleep =>
      split at h
      next hdue =>
        cases h
        exact .sleepReady hpc hsleep hdue
      next hearly =>
        split at h
        next hknown =>
          cases h
          exact .sleepAgain hpc hsleep (by omega) hknown
        next hunknown =>
          cases h
          exact .sleepFirst hpc hsleep (by omega) (by simpa using hunknown)
  · cases h

theorem move_of_step (h : Step s e t) : Move s e t := by
  unfold Step at h
  cases e with
  | newTask =>
    cases h
    exact .newTask
  | spawn id =>
    simp only [Core.step, Core.spawn] at h
    split at h
    next hguard => exact .spawn hguard.1 hguard.2.1 hguard.2.2 (pushed_of_enqueue h)
    · cases h
  | wake id => exact .wake (pushed_of_enqueue h)
  | tick n =>
    simp only [Core.step] at h
    split at h
    next hle =>
      cases h
      exact .tick hle
    · cases h
  | sweep now =>
    simp only [Core.step] at h
    split at h
    next hguard =>
      cases h
      exact .sweep (Option.isNone_iff_eq_none.mp hguard.1) hguard.2
    · cases h
  | sweepNext => exact move_of_sweepNext h
  | run =>
    simp only [Core.step] at h
    split at h
    next hpc =>
      cases h
      exact .run hpc
    · cases h
  | advance => exact move_of_advance h
  | sleepNew created ticks =>
    simp only [Core.step] at h
    split at h
    next id hpc =>
      split at h
      next hle =>
        cases h
        exact .sleepNew hpc hle
      · cases h
    · cases h
  | sleepPoll => exact move_of_sleepPoll h
  | resume =>
    simp only [Core.step] at h
    split at h
    next id hpc =>
      cases h
      exact .resume hpc
    · cases h
  | pending =>
    simp only [Core.step] at h
    split at h
    next id hpc =>
      cases h
      exact .pending hpc
    · cases h
  | ready =>
    simp only [Core.step] at h
    split at h
    next id hpc =>
      cases h
      exact .ready hpc
    · cases h

end Moves
end MoltOS.Tasks
