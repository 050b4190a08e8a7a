import Mathlib.Logic.Function.Basic
import MoltOS.Eevdf

/-! One core that runs kernel threads: the interrupt flag, the SCHEDULER lock, the
saved contexts and any family of sleeping mutexes. Every step is one event; only the
interrupt flag keeps an IRQ out. A panic halts the core with interrupts off, so a step
that panics has no successor. -/
namespace MoltOS.Kernel
open MoltOS.Rust MoltOS.Eevdf

/- Who executes. A saved context carries the flow that was saved into it. -/
inductive Flow where
  | bootstrap
  | thread (i : Nat)
deriving DecidableEq, Repr

def Flow.ctx : Flow → CtxPtr
  | .bootstrap => .bootstrap
  | .thread i => .thread i

def flowOf : Option Nat → Flow
  | none => .bootstrap
  | some i => .thread i

inductive Irq where
  | timer
  | keyboard
deriving DecidableEq, Repr

/- What `SCHEDULER.lock()` was called for. `unblockThread id (some m)` is the call in
   the guard drop of `m`, made with the spin lock of `m.waiters` still held. -/
inductive Call (μ R : Type) where
  | enterScheduler
  | blockAndYield
  | kmutexLock (m : μ)
  | unblockThread (id : ThreadId) (waiters : Option μ)
  | spawn (thread : Thread) (weight : Option Nat) (entry : R)

inductive Cont (μ : Type) where
  | code
  | lockTry (m : μ)
  | dropUnlock (m : μ)

/- Where a flow stands. `code` is everything outside the modelled functions. -/
inductive Pc (μ α R : Type) where
  | code
  | update (m : μ) (v : α)
  | lockTry (m : μ)
  | acquire (c : Call μ R)
  | disable (c : Call μ R) (wasEnabled : Bool)
  | spin (c : Call μ R) (wasEnabled : Bool)
  | locked (c : Call μ R) (wasEnabled : Bool)
  | enqueue (m : μ) (id : ThreadId)
  | prepared (c : Call μ R) (sw : Option Switch)
  | released (c : Call μ R) (sw : Option Switch)
  | resumed (c : Call μ R)
  | unlock (wasEnabled : Bool) (k : Cont μ)
  | restore (wasEnabled : Bool) (k : Cont μ)
  | halted
  | deadlock (c : Call μ R)
  | dropLock (m : μ)
  | dropPop (m : μ)
  | dropUnlock (m : μ)

def Cont.pc {μ α R : Type} : Cont μ → Pc μ α R
  | .code => .code
  | .lockTry m => .lockTry m
  | .dropUnlock m => .dropUnlock m

/- What the core does on top of the running flow: nothing, an interrupt handler
   holding the frame its stub built, or the second half of a context switch. -/
inductive Mode (R : Type) where
  | normal
  | irqSpin (frame : R)
  | irqSwitch (frame : R) (sw : Option Switch)
  | loading (toCtx : CtxPtr)

/- `waiters` is a `spin::Mutex`; its flag is kept as the flow that holds it. -/
structure KMutex (α : Type) where
  locked : Bool
  waiters : List ThreadId
  waitersHeld : Option Flow
  data : α

def KMutex.new {α : Type} (data : α) : KMutex α := ⟨false, [], none, data⟩

/- History only: one tenure of a mutex with the updates made in it. -/
structure Tenure (α : Type) where
  owner : Flow
  updates : List (α → α)

structure Core (μ α R : Type) where
  interrupts : Bool
  ticks : Nat
  nextId : ThreadId
  sched : EevdfScheduler
  schedHeld : Bool
  contexts : CtxPtr → Option (Flow × R)
  running : Flow
  regs : R
  mode : Mode R
  pc : Flow → Pc μ α R
  guards : Flow → List μ
  mutexes : μ → KMutex α
  history : μ → List (Tenure α)

inductive Event (μ α R : Type) where
  | irq (k : Irq)
  | advance
  | compute (r : R)
  | setInterrupts (b : Bool)
  | lock (m : μ)
  | drop (m : μ)
  | read (m : μ)
  | write (f : α → α)
  | enterScheduler
  | blockAndYield
  | unblockThread (id : ThreadId)
  | spawn (weight : Option Nat) (entry : R)

namespace Core
variable {μ α R : Type} [DecidableEq μ]

/- Boot: interrupts off, no thread, every context zeroed, every mutex free. -/
def init (data : μ → α) (r : R) : Core μ α R where
  interrupts := false
  ticks := 0
  nextId := 0
  sched := EevdfScheduler.new
  schedHeld := false
  contexts := fun _ => none
  running := .bootstrap
  regs := r
  mode := .normal
  pc := fun _ => .code
  guards := fun _ => []
  mutexes := fun m => KMutex.new (data m)
  history := fun _ => []

def goto (s : Core μ α R) (k : Pc μ α R) : Core μ α R :=
  { s with pc := Function.update s.pc s.running k }

def setMutex (s : Core μ α R) (m : μ) (x : KMutex α) : Core μ α R :=
  { s with mutexes := Function.update s.mutexes m x }

def setWaiters (s : Core μ α R) (m : μ) (l : List ThreadId) : Core μ α R :=
  s.setMutex m { s.mutexes m with waiters := l }

def setWaitersHeld (s : Core μ α R) (m : μ) (holder : Option Flow) : Core μ α R :=
  s.setMutex m { s.mutexes m with waitersHeld := holder }

def own (s : Core μ α R) (m : μ) : Core μ α R :=
  { s.setMutex m { s.mutexes m with locked := true } with
    guards := Function.update s.guards s.running (m :: s.guards s.running)
    history := Function.update s.history m (s.history m ++ [⟨s.running, []⟩]) }

def compareExchange (s : Core μ α R) (m : μ) : Option (Core μ α R) :=
  if (s.mutexes m).locked then none else some (s.own m)

def store (s : Core μ α R) (m : μ) (f : α → α) (v : α) : Core μ α R :=
  { s.setMutex m { s.mutexes m with data := f v } with
    history := Function.update s.history m
      ((s.history m).modifyLast fun t => { t with updates := t.updates ++ [f] }) }

def disown (s : Core μ α R) (m : μ) : Core μ α R :=
  { s.setMutex m { s.mutexes m with locked := false } with
    guards := Function.update s.guards s.running ((s.guards s.running).erase m) }

def prepare (s : Core μ α R) (c : Call μ R) :
    Except Panic (EevdfScheduler × Option Switch) → Option (Core μ α R)
  | .ok (sched, sw) => some ({ s with sched := sched }.goto (.prepared c sw))
  | .error _ => none

def afterUnblock : Option μ → Cont μ
  | none => .code
  | some m => .dropUnlock m

def spawnThread (s : Core μ α R) (thread : Thread) (weight : Option Nat) (entry : R) :
    Core μ α R :=
  { s with
    sched := match weight with
      | none => s.sched.spawn thread
      | some w => s.sched.spawnWithWeight thread w
    contexts := Function.update s.contexts (.thread s.sched.len)
      (some (.thread s.sched.len, entry)) }

def underLock (p : Profile) (s : Core μ α R) (wasEnabled : Bool) : Call μ R → Option (Core μ α R)
  | .enterScheduler => s.prepare .enterScheduler (s.sched.tickPrepare p .bootstrap s.ticks)
  | .blockAndYield =>
    s.prepare .blockAndYield (s.sched.blockCurrentAndPrepareSwitch p .bootstrap s.ticks)
  | .kmutexLock m =>
    match s.compareExchange m with
    | some t => some (t.goto (.unlock wasEnabled .code))
    | none =>
      match s.sched.currentThreadId with
      | .ok (some id) => some (s.goto (.enqueue m id))
      | .ok none => some (s.goto (.unlock wasEnabled (.lockTry m)))
      | .error _ => none
  | .unblockThread id k =>
    match s.sched.unblockThread id with
    | .ok sched => some ({ s with sched := sched }.goto (.unlock wasEnabled (afterUnblock k)))
    | .error _ => none
  | .spawn thread weight entry =>
    some ((s.spawnThread thread weight entry).goto (.unlock wasEnabled .code))

def enqueue (p : Profile) (s : Core μ α R) (m : μ) (id : ThreadId) : Option (Core μ α R) :=
  match (s.mutexes m).waitersHeld with
  | some _ => none
  | none =>
    (s.setWaiters m ((s.mutexes m).waiters ++ [id])).prepare (.kmutexLock m)
      (s.sched.blockCurrentAndPrepareSwitch p .bootstrap s.ticks)

/- What each caller does with the pair once SCHEDULER is released: the saving half of
   `context_switch`, or a halt with interrupts on. -/
def switchOrHalt (s : Core μ α R) (c : Call μ R) : Option Switch → Option (Core μ α R)
  | none => match c with
    | .enterScheduler => some ({ s with interrupts := true }.goto .halted)
    | _ => some ({ s with interrupts := true }.goto (.deadlock c))
  | some (fromCtx, toCtx) =>
    match c, s.contexts toCtx with
    | .enterScheduler, none => none
    | _, _ => some ({ s with
        contexts := Function.update s.contexts fromCtx (some (s.running, s.regs))
        mode := .loading toCtx }.goto (.resumed c))

/- Where the code after `context_switch` goes on: the loop of `enter_scheduler`, the
   caller of `block_and_yield`, the loop of `KMutex::lock`. -/
def afterSwitch : Call μ R → Option (Pc μ α R)
  | .enterScheduler => some (.acquire .enterScheduler)
  | .blockAndYield => some .code
  | .kmutexLock m => some (.lockTry m)
  | _ => none

def run (p : Profile) (s : Core μ α R) : Option (Core μ α R) :=
  match s.pc s.running with
  | .code => none
  | .update _ _ => none
  | .lockTry m =>
    match s.compareExchange m with
    | some t => some (t.goto .code)
    | none => some (s.goto (.acquire (.kmutexLock m)))
  | .acquire c => some (s.goto (.disable c s.interrupts))
  | .disable c w => some ({ s with interrupts := false }.goto (.spin c w))
  | .spin c w =>
    if s.schedHeld then none else some ({ s with schedHeld := true }.goto (.locked c w))
  | .locked c w => s.underLock p w c
  | .enqueue m id => s.enqueue p m id
  | .prepared c sw => some ({ s with schedHeld := false }.goto (.released c sw))
  | .released c sw => s.switchOrHalt c sw
  | .resumed c => (afterSwitch c).map s.goto
  | .unlock w k => some ({ s with schedHeld := false }.goto (.restore w k))
  | .restore w k => some ({ s with interrupts := w || s.interrupts }.goto k.pc)
  | .halted => some (s.goto (.acquire .enterScheduler))
  | .deadlock _ => none
  | .dropLock m =>
    match (s.mutexes m).waitersHeld with
    | some _ => none
    | none => some ((s.setWaitersHeld m (some s.running)).goto (.dropPop m))
  | .dropPop m =>
    match (s.mutexes m).waiters with
    | [] => some (s.goto (.dropUnlock m))
    | id :: rest =>
      some ((s.setWaiters m rest).goto (.acquire (.unblockThread id (some m))))
  | .dropUnlock m => some ((s.setWaitersHeld m none).goto .code)

/- The loading half of `context_switch` and all of `context_switch_to`. The `sti`
   takes effect with the `ret` after it. -/
def load (s : Core μ α R) (toCtx : CtxPtr) : Option (Core μ α R) :=
  match s.contexts toCtx with
  | none => none
  | some (f, r) => some { s with running := f, regs := r, interrupts := true, mode := .normal }

def irqFinish (s : Core μ α R) (frame : R) : Option Switch → Core μ α R
  | none => { s with regs := frame, interrupts := true, mode := .normal }
  | some (fromCtx, toCtx) =>
    if fromCtx = toCtx then { s with regs := frame, interrupts := true, mode := .normal }
    else { s with
      contexts := Function.update s.contexts fromCtx (some (s.running, frame))
      mode := .loading toCtx }

def advance (p : Profile) (s : Core μ α R) : Option (Core μ α R) :=
  match s.mode with
  | .normal => s.run p
  | .irqSpin frame =>
    if s.schedHeld then none else
      match s.sched.tickPrepare p .bootstrap s.ticks with
      | .ok (sched, sw) => some { s with sched := sched, mode := .irqSwitch frame sw }
      | .error _ => none
  | .irqSwitch frame sw => some (s.irqFinish frame sw)
  | .loading toCtx => s.load toCtx

/- Interrupt entry. Only the timer handler counts a tick; both use the current count. -/
def irq (s : Core μ α R) (k : Irq) : Core μ α R :=
  { s with
    interrupts := false
    ticks := match k with
      | .timer => (s.ticks + 1) % 2 ^ 64
      | .keyboard => s.ticks
    mode := .irqSpin s.regs }

/- What the running flow may start while it is outside the modelled functions. A guard
   is needed to read, write or drop; `enter_scheduler` is for bootstrap only. -/
def user (s : Core μ α R) : Event μ α R → Option (Core μ α R)
  | .compute r => some { s with regs := r }
  | .setInterrupts b => some { s with interrupts := b }
  | .lock m => some (s.goto (.lockTry m))
  | .drop m => if m ∈ s.guards s.running then some ((s.disown m).goto (.dropLock m)) else none
  | .read m =>
    if m ∈ s.guards s.running then some (s.goto (.update m (s.mutexes m).data)) else none
  | .enterScheduler =>
    if s.running = .bootstrap then some (s.goto (.acquire .enterScheduler)) else none
  | .blockAndYield => some (s.goto (.acquire .blockAndYield))
  | .unblockThread id => some (s.goto (.acquire (.unblockThread id none)))
  | .spawn weight entry =>
    some ({ s with nextId := s.nextId + 1 }.goto (.acquire (.spawn ⟨s.nextId⟩ weight entry)))
  | _ => none

def step (p : Profile) (s : Core μ α R) (e : Event μ α R) : Option (Core μ α R) :=
  match e, s.mode, s.pc s.running with
  | .irq k, .normal, _ => if s.interrupts then some (s.irq k) else none
  | .advance, _, _ => s.advance p
  | .write f, .normal, .update m v => some ((s.store m f v).goto .code)
  | e, .normal, .code => s.user e
  | _, _, _ => none

end Core

def bootEvents {μ α : Type} (n : Nat) : List (Event μ α Unit) :=
  (List.replicate n (.spawn none () :: List.replicate 6 .advance)).flatten ++
    .enterScheduler :: List.replicate 7 .advance

def contendEvents : List (Event Unit Nat Unit) :=
  let steps (n : Nat) : List (Event Unit Nat Unit) := List.replicate n .advance
  bootEvents 2 ++ [.lock ()] ++ steps 1 ++ [.irq .timer] ++ steps 3 ++ [.lock ()] ++ steps 5

def Step {μ α R : Type} [DecidableEq μ] (p : Profile) (s : Core μ α R) (e : Event μ α R)
    (t : Core μ α R) : Prop := s.step p e = some t

end MoltOS.Kernel
