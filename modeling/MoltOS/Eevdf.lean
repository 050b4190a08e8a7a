import MoltOS.Rust

/-! The EEVDF scheduler as `tick_prepare` computes it, one definition per stage,
with overflow and indexing panics explicit. No bound on ticks, weights or the
number of threads is assumed. -/
namespace MoltOS.Eevdf
open MoltOS.Rust

abbrev ThreadId := Nat

/- `threads[i].context_ptr()` is `thread i`: `spawn` only pushes, so a position
   names one context box for good, whatever the vector does. -/
inductive CtxPtr where
  | bootstrap
  | thread (i : Nat)
deriving DecidableEq, Repr

abbrev Switch := CtxPtr × CtxPtr

structure Thread where
  id : ThreadId
deriving DecidableEq, Repr

structure ThreadMeta where
  vruntime : Nat
  weight : Nat
  blocked : Bool
deriving DecidableEq, Repr

def defaultWeight : Nat := 1024
def minTimeSlice : Nat := 1

def ThreadMeta.new (_index : Nat) : ThreadMeta := ⟨0, defaultWeight, false⟩

def ThreadMeta.virtualDeadline (p : Profile) (m : ThreadMeta) (timeSlice sumWeights : Nat) :
    Except Panic Nat :=
  if m.weight = 0 then .ok u64Max else do
    let a ← mul p timeSlice sumWeights
    let b ← mul p a 1024
    add p m.vruntime (b / m.weight)

structure EevdfScheduler where
  threads : List Thread
  metadata : List ThreadMeta
  current : Option Nat
  minVruntime : Nat
  lastSwitchTick : Nat
deriving DecidableEq, Repr

def EevdfScheduler.new : EevdfScheduler := ⟨[], [], none, 0, 0⟩

namespace EevdfScheduler

def spawn (s : EevdfScheduler) (thread : Thread) : EevdfScheduler :=
  { s with threads := s.threads ++ [thread]
           metadata := s.metadata ++ [ThreadMeta.new s.threads.length] }

def spawnWithWeight (s : EevdfScheduler) (thread : Thread) (weight : Nat) : EevdfScheduler :=
  { s with threads := s.threads ++ [thread]
           metadata := s.metadata ++
             [{ ThreadMeta.new s.threads.length with weight := max weight 1 }] }

def len (s : EevdfScheduler) : Nat := s.threads.length

def currentThreadId (s : EevdfScheduler) : Except Panic (Option ThreadId) :=
  match s.current with
  | none => .ok none
  | some i => do
    let t ← index s.threads i
    pure (some t.id)

def setBlocked (s : EevdfScheduler) (i : Nat) (b : Bool) : Except Panic EevdfScheduler := do
  let m ← index s.metadata i
  pure { s with metadata := s.metadata.set i { m with blocked := b } }

def unblockThread (s : EevdfScheduler) (id : ThreadId) : Except Panic EevdfScheduler :=
  match s.threads.findIdx? (fun t => t.id == id) with
  | none => .ok s
  | some i => s.setBlocked i false

def contextPtr (s : EevdfScheduler) (i : Nat) : Except Panic CtxPtr := do
  let _ ← index s.threads i
  pure (.thread i)

def timeSlice (s : EevdfScheduler) (currentTick : Nat) : Nat :=
  if s.current.isSome then max (saturatingSub currentTick s.lastSwitchTick) minTimeSlice
  else minTimeSlice

end EevdfScheduler

def runnable (ms : List ThreadMeta) : List ThreadMeta := ms.filter fun m => !m.blocked

def sumWeights (p : Profile) (ms : List ThreadMeta) : Except Panic Nat :=
  sum p ((runnable ms).map (·.weight))

namespace EevdfScheduler

def charge (s : EevdfScheduler) (p : Profile) (timeSlice : Nat) : Except Panic EevdfScheduler :=
  match s.current with
  | none => .ok s
  | some prev => do
    let total ← sumWeights p s.metadata
    if total = 0 then pure s else do
      let m ← index s.metadata prev
      let a ← mul p timeSlice m.weight
      let b ← mul p a 1024
      let v ← add p m.vruntime (b / total)
      pure { s with metadata := s.metadata.set prev { m with vruntime := v } }

def updateMin (s : EevdfScheduler) : EevdfScheduler :=
  { s with minVruntime := ((runnable s.metadata).map (·.vruntime)).min?.getD s.minVruntime }

def eligible (s : EevdfScheduler) (lagTolerance : Nat) : List (ThreadMeta × Nat) :=
  s.metadata.zipIdx.filter fun e =>
    !e.1.blocked && decide (e.1.vruntime ≤ saturatingAdd s.minVruntime lagTolerance)

def earliestDeadline (s : EevdfScheduler) (p : Profile) (timeSlice : Nat) :
    Except Panic (Option Nat) := do
  let total ← sumWeights p s.metadata
  let best ← minBy (fun e => e.1.virtualDeadline p timeSlice total) (s.eligible (max total 1))
  pure (best.map (·.2))

def firstRunnable (s : EevdfScheduler) : Option Nat :=
  (s.metadata.zipIdx.find? fun e => !e.1.blocked).map (·.2)

def nextIdx (s : EevdfScheduler) (p : Profile) (timeSlice : Nat) : Except Panic (Option Nat) := do
  let best ← s.earliestDeadline p timeSlice
  pure (best.or s.firstRunnable)

def fromCtx (s : EevdfScheduler) (bootstrapCtx : CtxPtr) : Except Panic CtxPtr :=
  match s.current with
  | none => .ok bootstrapCtx
  | some prev => s.contextPtr prev

def switchTo (s : EevdfScheduler) (bootstrapCtx : CtxPtr) (currentTick next : Nat) :
    Except Panic (EevdfScheduler × Option Switch) :=
  if s.current = some next ∧ currentTick ≠ 0 ∧
      saturatingSub currentTick s.lastSwitchTick < minTimeSlice then .ok (s, none)
  else do
    let fromCtx ← s.fromCtx bootstrapCtx
    let toCtx ← s.contextPtr next
    pure ({ s with current := some next, lastSwitchTick := currentTick }, some (fromCtx, toCtx))

def tickPrepare (s : EevdfScheduler) (p : Profile) (bootstrapCtx : CtxPtr) (currentTick : Nat) :
    Except Panic (EevdfScheduler × Option Switch) :=
  if s.threads = [] then .ok (s, none) else do
    let charged ← s.charge p (s.timeSlice currentTick)
    let next ← charged.updateMin.nextIdx p (s.timeSlice currentTick)
    match next with
    | none => pure (charged.updateMin, none)
    | some next => charged.updateMin.switchTo bootstrapCtx currentTick next

def markCurrentBlocked (s : EevdfScheduler) : Except Panic EevdfScheduler :=
  match s.current with
  | none => .ok s
  | some i => s.setBlocked i true

def blockCurrentAndPrepareSwitch (s : EevdfScheduler) (p : Profile) (bootstrapCtx : CtxPtr)
    (currentTick : Nat) : Except Panic (EevdfScheduler × Option Switch) := do
  let marked ← s.markCurrentBlocked
  marked.tickPrepare p bootstrapCtx currentTick

end EevdfScheduler
end MoltOS.Eevdf
