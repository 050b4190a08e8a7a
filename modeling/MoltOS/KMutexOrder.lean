import MoltOS.KMutexLost

/-! The order in which a sleeping mutex wakes its waiters. Every step reports the id that it
puts into a wait queue or takes from one, and the log of a run is compared with the queues. -/
namespace MoltOS.Kernel
open MoltOS.Rust MoltOS.Eevdf MoltOS.Transition

variable {μ α R : Type} {s t : Core μ α R} {e : Event μ α R} {p : Profile}

inductive QueueOp (μ : Type) where
  | pushBack (m : μ) (id : ThreadId)
  | popFront (m : μ) (id : ThreadId)

def Core.queueOps (s : Core μ α R) (e : Event μ α R) : List (QueueOp μ) :=
  match s.mode, e, s.pc s.running with
  | .normal, .advance, .enqueue m id => [.pushBack m id]
  | .normal, .advance, .dropPop m => ((s.mutexes m).waiters.head?.map (.popFront m)).toList
  | _, _, _ => []

variable [DecidableEq μ]

def QueueOp.pushed (m : μ) : QueueOp μ → Option ThreadId
  | .pushBack n id => if n = m then some id else none
  | .popFront _ _ => none

def QueueOp.woken (m : μ) : QueueOp μ → Option ThreadId
  | .pushBack _ _ => none
  | .popFront n id => if n = m then some id else none

def enqueued (m : μ) (log : List (QueueOp μ)) : List ThreadId := log.filterMap (QueueOp.pushed m)

def woken (m : μ) (log : List (QueueOp μ)) : List ThreadId := log.filterMap (QueueOp.woken m)

omit [DecidableEq μ] in
theorem Jump.queueOps {k k' : Pc μ α R} (h : Jump s e k k') (hk : s.pc s.running = k) :
    s.queueOps e = [] := by
  cases h with
  | popNone m hw =>
    unfold Core.queueOps
    split <;> simp_all
  | _ =>
    unfold Core.queueOps
    split <;> simp_all

/-- One step: what was waiting and what comes is what goes and what is left. -/
theorem queue_step (hs : Step p s e t) (m : μ) :
    (s.mutexes m).waiters ++ enqueued m (s.queueOps e) =
      woken m (s.queueOps e) ++ (t.mutexes m).waiters := by
  have quiet {u : Core μ α R} (hops : s.queueOps e = [])
      (hw : ∀ n, (u.mutexes n).waiters = (s.mutexes n).waiters) :
      (s.mutexes m).waiters ++ enqueued m (s.queueOps e) =
        woken m (s.queueOps e) ++ (u.mutexes m).waiters := by
    simp [hops, enqueued, woken, hw]
  cases hs.move with
  | jump hm hj => exact quiet (hj.queueOps rfl) fun _ => rfl
  | enqueue n id sched sw hm hpc hw hs =>
    by_cases hn : m = n
    · subst hn
      simp [Core.queueOps, hm, hpc, enqueued, woken, QueueOp.pushed, QueueOp.woken, Core.goto,
        setWaiters_same]
    · simp [Core.queueOps, hm, hpc, enqueued, woken, QueueOp.pushed, QueueOp.woken, Core.goto,
        setWaiters_other s n _ hn, Ne.symm hn]
  | pop n id rest hm hpc hw =>
    by_cases hn : m = n
    · subst hn
      simp [Core.queueOps, hm, hpc, hw, enqueued, woken, QueueOp.pushed, QueueOp.woken, Core.goto,
        setWaiters_same]
    · simp [Core.queueOps, hm, hpc, hw, enqueued, woken, QueueOp.pushed, QueueOp.woken, Core.goto,
        setWaiters_other s n _ hn, Ne.symm hn]
  | own n k hm hl hk =>
    refine quiet ?_ (setMutex_keeps KMutex.waiters s n _ rfl)
    generalize hk₀ : s.pc s.running = k₀ at hk
    cases hk <;> simp [Core.queueOps, hm, hk₀]
  | drop n hm hpc _ | write n _ _ hm hpc | dropLock n hm hpc _ | dropUnlock n hm hpc =>
    exact quiet (by simp [Core.queueOps, hm, hpc]) (setMutex_keeps KMutex.waiters s n _ rfl)
  | irqTick _ _ _ hm | irqReturn _ _ hm | irqSave _ _ _ _ hm | load _ _ _ hm =>
    exact quiet (by simp [Core.queueOps, hm]) fun _ => rfl
  | irq => exact quiet (by simp [Core.queueOps]) fun _ => rfl
  | compute _ hm hpc | setInterrupts _ hm hpc | newThread _ _ hm hpc | disable _ _ hm hpc
  | take _ _ hm hpc | tick _ _ _ hm hpc | block _ _ _ hm hpc | unblock _ _ _ _ hm hpc
  | spawn _ _ _ _ hm hpc | unlock _ _ hm hpc | restore _ _ hm hpc | release _ _ hm hpc
  | save _ _ _ hm hpc | halt _ hm hpc =>
    exact quiet (by simp [Core.queueOps, hm, hpc]) fun _ => rfl

def InOrder (m : μ) (first : List ThreadId) (x : Core μ α R × List (QueueOp μ)) : Prop :=
  first ++ enqueued m x.2 = woken m x.2 ++ (x.1.mutexes m).waiters

theorem InOrder.step {m : μ} {first : List ThreadId} {x y : Core μ α R × List (QueueOp μ)}
    (h : InOrder m first x) (hs : Logged (Step p) Core.queueOps x e y) : InOrder m first y := by
  obtain ⟨hstep, hlog⟩ := hs
  have hqueue := queue_step hstep m
  simp only [InOrder, enqueued, woken, hlog, List.filterMap_append] at h hqueue ⊢
  rw [← List.append_assoc, h, List.append_assoc, hqueue, List.append_assoc]

end MoltOS.Kernel
