import MoltOS.Kernel
import MoltOS.Transition

/-! The steps of the core, listed once by what they change. Every invariant of the core
is proved over this list. -/
namespace MoltOS.Kernel
open MoltOS.Rust MoltOS.Eevdf

variable {μ α R : Type}

@[simp] theorem goto_pc_self (s : Core μ α R) (k : Pc μ α R) : (s.goto k).pc s.running = k := by
  simp [Core.goto]

theorem goto_pc_other (s : Core μ α R) (k : Pc μ α R) {f : Flow} (h : f ≠ s.running) :
    (s.goto k).pc f = s.pc f := by
  simp [Core.goto, h]

inductive Jump (s : Core μ α R) : Event μ α R → Pc μ α R → Pc μ α R → Prop where
  | lock (m : μ) : Jump s (.lock m) .code (.lockTry m)
  | read (m : μ) (hm : m ∈ s.guards s.running) :
      Jump s (.read m) .code (.update m (s.mutexes m).data)
  | enter (hr : s.running = .bootstrap) : Jump s .enterScheduler .code (.acquire .enterScheduler)
  | yield : Jump s .blockAndYield .code (.acquire .blockAndYield)
  | unblock (id : ThreadId) :
      Jump s (.unblockThread id) .code (.acquire (.unblockThread id none))
  | contend (m : μ) (hl : (s.mutexes m).locked = true) :
      Jump s .advance (.lockTry m) (.acquire (.kmutexLock m))
  | flag (c : Call μ R) : Jump s .advance (.acquire c) (.disable c s.interrupts)
  | wait (m : μ) (w : Bool) (id : ThreadId) (hl : (s.mutexes m).locked = true)
      (hid : s.sched.currentThreadId = .ok (some id)) :
      Jump s .advance (.locked (.kmutexLock m) w) (.enqueue m id)
  | retry (m : μ) (w : Bool) (hl : (s.mutexes m).locked = true)
      (hid : s.sched.currentThreadId = .ok none) :
      Jump s .advance (.locked (.kmutexLock m) w) (.unlock w (.lockTry m))
  | resume (c : Call μ R) (k : Pc μ α R) (hk : Core.afterSwitch c = some k) :
      Jump s .advance (.resumed c) k
  | wake : Jump s .advance .halted (.acquire .enterScheduler)
  | popNone (m : μ) (hw : (s.mutexes m).waiters = []) :
      Jump s .advance (.dropPop m) (.dropUnlock m)

inductive Acquires (m : μ) : Pc μ α R → Pc μ α R → Prop where
  | fast : Acquires m (.lockTry m) .code
  | slow (w : Bool) : Acquires m (.locked (.kmutexLock m) w) (.unlock w .code)

def haltPc : Call μ R → Pc μ α R
  | .enterScheduler => .halted
  | c => .deadlock c

variable [DecidableEq μ]

/-- What the new mutex has in common with the old one has not changed for any mutex. -/
theorem setMutex_keeps {β : Type} (g : KMutex α → β) (s : Core μ α R) (m : μ) (x : KMutex α)
    (hx : g x = g (s.mutexes m)) (n : μ) : g ((s.setMutex m x).mutexes n) = g (s.mutexes n) := by
  by_cases hn : n = m
  · subst hn
    simpa [Core.setMutex] using hx
  · simp [Core.setMutex, hn]

theorem setWaiters_locked (s : Core μ α R) (m : μ) (l : List ThreadId) (n : μ) :
    ((s.setWaiters m l).mutexes n).locked = (s.mutexes n).locked :=
  setMutex_keeps KMutex.locked s m { s.mutexes m with waiters := l } rfl n

theorem setWaiters_data (s : Core μ α R) (m : μ) (l : List ThreadId) (n : μ) :
    ((s.setWaiters m l).mutexes n).data = (s.mutexes n).data :=
  setMutex_keeps KMutex.data s m { s.mutexes m with waiters := l } rfl n

theorem setWaitersHeld_locked (s : Core μ α R) (m : μ) (o : Option Flow) (n : μ) :
    ((s.setWaitersHeld m o).mutexes n).locked = (s.mutexes n).locked :=
  setMutex_keeps KMutex.locked s m { s.mutexes m with waitersHeld := o } rfl n

theorem setWaitersHeld_data (s : Core μ α R) (m : μ) (o : Option Flow) (n : μ) :
    ((s.setWaitersHeld m o).mutexes n).data = (s.mutexes n).data :=
  setMutex_keeps KMutex.data s m { s.mutexes m with waitersHeld := o } rfl n

inductive Move (p : Profile) (s : Core μ α R) : Event μ α R → Core μ α R → Prop where
  | jump {e : Event μ α R} {k : Pc μ α R} (hm : s.mode = .normal)
      (hj : Jump s e (s.pc s.running) k) : Move p s e (s.goto k)
  | compute (r : R) (hm : s.mode = .normal) (hpc : s.pc s.running = .code) :
      Move p s (.compute r) { s with regs := r }
  | setInterrupts (b : Bool) (hm : s.mode = .normal) (hpc : s.pc s.running = .code) :
      Move p s (.setInterrupts b) { s with interrupts := b }
  | newThread (weight : Option Nat) (entry : R) (hm : s.mode = .normal)
      (hpc : s.pc s.running = .code) :
      Move p s (.spawn weight entry)
        ({ s with nextId := s.nextId + 1 }.goto (.acquire (.spawn ⟨s.nextId⟩ weight entry)))
  | drop (m : μ) (hm : s.mode = .normal) (hpc : s.pc s.running = .code)
      (hg : m ∈ s.guards s.running) : Move p s (.drop m) ((s.disown m).goto (.dropLock m))
  | write (m : μ) (v : α) (f : α → α) (hm : s.mode = .normal)
      (hpc : s.pc s.running = .update m v) : Move p s (.write f) ((s.store m f v).goto .code)
  | own (m : μ) (k : Pc μ α R) (hm : s.mode = .normal) (hl : (s.mutexes m).locked = false)
      (hk : Acquires m (s.pc s.running) k) : Move p s .advance ((s.own m).goto k)
  | disable (c : Call μ R) (w : Bool) (hm : s.mode = .normal)
      (hpc : s.pc s.running = .disable c w) :
      Move p s .advance ({ s with interrupts := false }.goto (.spin c w))
  | take (c : Call μ R) (w : Bool) (hm : s.mode = .normal) (hpc : s.pc s.running = .spin c w)
      (hh : s.schedHeld = false) :
      Move p s .advance ({ s with schedHeld := true }.goto (.locked c w))
  | tick (w : Bool) (sched : EevdfScheduler) (sw : Option Switch) (hm : s.mode = .normal)
      (hpc : s.pc s.running = .locked .enterScheduler w)
      (hs : s.sched.tickPrepare p .bootstrap s.ticks = .ok (sched, sw)) :
      Move p s .advance ({ s with sched := sched }.goto (.prepared .enterScheduler sw))
  | block (w : Bool) (sched : EevdfScheduler) (sw : Option Switch) (hm : s.mode = .normal)
      (hpc : s.pc s.running = .locked .blockAndYield w)
      (hs : s.sched.blockCurrentAndPrepareSwitch p .bootstrap s.ticks = .ok (sched, sw)) :
      Move p s .advance ({ s with sched := sched }.goto (.prepared .blockAndYield sw))
  | enqueue (m : μ) (id : ThreadId) (sched : EevdfScheduler) (sw : Option Switch)
      (hm : s.mode = .normal) (hpc : s.pc s.running = .enqueue m id)
      (hw : (s.mutexes m).waitersHeld = none)
      (hs : s.sched.blockCurrentAndPrepareSwitch p .bootstrap s.ticks = .ok (sched, sw)) :
      Move p s .advance ({ s.setWaiters m ((s.mutexes m).waiters ++ [id]) with
        sched := sched }.goto (.prepared (.kmutexLock m) sw))
  | unblock (id : ThreadId) (k : Option μ) (w : Bool) (sched : EevdfScheduler)
      (hm : s.mode = .normal) (hpc : s.pc s.running = .locked (.unblockThread id k) w)
      (hs : s.sched.unblockThread id = .ok sched) :
      Move p s .advance ({ s with sched := sched }.goto (.unlock w (Core.afterUnblock k)))
  | spawn (thread : Thread) (weight : Option Nat) (entry : R) (w : Bool) (hm : s.mode = .normal)
      (hpc : s.pc s.running = .locked (.spawn thread weight entry) w) :
      Move p s .advance ((s.spawnThread thread weight entry).goto (.unlock w .code))
  | unlock (w : Bool) (k : Cont μ) (hm : s.mode = .normal) (hpc : s.pc s.running = .unlock w k) :
      Move p s .advance ({ s with schedHeld := false }.goto (.restore w k))
  | restore (w : Bool) (k : Cont μ) (hm : s.mode = .normal) (hpc : s.pc s.running = .restore w k) :
      Move p s .advance ({ s with interrupts := w || s.interrupts }.goto k.pc)
  | release (c : Call μ R) (sw : Option Switch) (hm : s.mode = .normal)
      (hpc : s.pc s.running = .prepared c sw) :
      Move p s .advance ({ s with schedHeld := false }.goto (.released c sw))
  | save (c : Call μ R) (fromCtx toCtx : CtxPtr) (hm : s.mode = .normal)
      (hpc : s.pc s.running = .released c (some (fromCtx, toCtx))) :
      Move p s .advance ({ s with
        contexts := Function.update s.contexts fromCtx (some (s.running, s.regs))
        mode := .loading toCtx }.goto (.resumed c))
  | halt (c : Call μ R) (hm : s.mode = .normal) (hpc : s.pc s.running = .released c none) :
      Move p s .advance ({ s with interrupts := true }.goto (haltPc c))
  | dropLock (m : μ) (hm : s.mode = .normal) (hpc : s.pc s.running = .dropLock m)
      (hw : (s.mutexes m).waitersHeld = none) :
      Move p s .advance
        ((s.setWaitersHeld m (some s.running)).goto (.dropPop m))
  | pop (m : μ) (id : ThreadId) (rest : List ThreadId) (hm : s.mode = .normal)
      (hpc : s.pc s.running = .dropPop m) (hw : (s.mutexes m).waiters = id :: rest) :
      Move p s .advance
        ((s.setWaiters m rest).goto (.acquire (.unblockThread id (some m))))
  | dropUnlock (m : μ) (hm : s.mode = .normal) (hpc : s.pc s.running = .dropUnlock m) :
      Move p s .advance
        ((s.setWaitersHeld m none).goto .code)
  | irq (k : Irq) (hm : s.mode = .normal) (hi : s.interrupts = true) : Move p s (.irq k) (s.irq k)
  | irqTick (frame : R) (sched : EevdfScheduler) (sw : Option Switch)
      (hm : s.mode = .irqSpin frame) (hh : s.schedHeld = false)
      (hs : s.sched.tickPrepare p .bootstrap s.ticks = .ok (sched, sw)) :
      Move p s .advance { s with sched := sched, mode := .irqSwitch frame sw }
  | irqReturn (frame : R) (sw : Option Switch) (hm : s.mode = .irqSwitch frame sw)
      (hsw : ∀ x ∈ sw, x.1 = x.2) :
      Move p s .advance { s with regs := frame, interrupts := true, mode := .normal }
  | irqSave (frame : R) (fromCtx toCtx : CtxPtr) (hne : fromCtx ≠ toCtx)
      (hm : s.mode = .irqSwitch frame (some (fromCtx, toCtx))) :
      Move p s .advance { s with
        contexts := Function.update s.contexts fromCtx (some (s.running, frame))
        mode := .loading toCtx }
  | load (toCtx : CtxPtr) (f : Flow) (r : R) (hm : s.mode = .loading toCtx)
      (hc : s.contexts toCtx = some (f, r)) :
      Move p s .advance { s with running := f, regs := r, interrupts := true, mode := .normal }

variable {p : Profile} {s t : Core μ α R} {e : Event μ α R}

omit [DecidableEq μ] in
theorem prepare_eq_some {c : Call μ R} {r : Except Panic (EevdfScheduler × Option Switch)}
    (h : s.prepare c r = some t) :
    ∃ sched sw, r = .ok (sched, sw) ∧ t = { s with sched := sched }.goto (.prepared c sw) := by
  cases r with
  | error e => cases h
  | ok x =>
    cases h
    exact ⟨x.1, x.2, rfl, rfl⟩

theorem user_move (hm : s.mode = .normal) (hpc : s.pc s.running = .code) (h : s.user e = some t) :
    Move p s e t := by
  have jump {k : Pc μ α R} (hj : Jump s e .code k) : Move p s e (s.goto k) :=
    Move.jump hm (hpc ▸ hj)
  cases e with
  | compute r =>
    cases h
    exact Move.compute r hm hpc
  | setInterrupts b =>
    cases h
    exact Move.setInterrupts b hm hpc
  | lock m =>
    cases h
    exact jump (Jump.lock m)
  | drop m =>
    by_cases hg : m ∈ s.guards s.running
    · simp only [Core.user, if_pos hg, Option.some.injEq] at h
      exact h ▸ Move.drop m hm hpc hg
    · simp [Core.user, hg] at h
  | read m =>
    by_cases hg : m ∈ s.guards s.running
    · simp only [Core.user, if_pos hg, Option.some.injEq] at h
      exact h ▸ jump (Jump.read m hg)
    · simp [Core.user, hg] at h
  | enterScheduler =>
    by_cases hr : s.running = .bootstrap
    · simp only [Core.user, if_pos hr, Option.some.injEq] at h
      exact h ▸ jump (Jump.enter hr)
    · simp [Core.user, hr] at h
  | blockAndYield =>
    cases h
    exact jump Jump.yield
  | unblockThread id =>
    cases h
    exact jump (Jump.unblock id)
  | spawn weight entry =>
    cases h
    exact Move.newThread weight entry hm hpc
  | irq k => cases h
  | advance => cases h
  | write f => cases h

theorem compareExchange_some {m : μ} (h : s.compareExchange m = some t) :
    (s.mutexes m).locked = false ∧ t = s.own m := by
  unfold Core.compareExchange at h
  cases hl : (s.mutexes m).locked with
  | true => simp [hl] at h
  | false =>
    simp only [hl, Bool.false_eq_true, if_false, Option.some.injEq] at h
    exact ⟨rfl, h.symm⟩

theorem compareExchange_none {m : μ} (h : s.compareExchange m = none) :
    (s.mutexes m).locked = true := by
  unfold Core.compareExchange at h
  cases hl : (s.mutexes m).locked with
  | true => rfl
  | false => simp [hl] at h

theorem underLock_move {c : Call μ R} {w : Bool} (hm : s.mode = .normal)
    (hpc : s.pc s.running = .locked c w) (h : s.underLock p w c = some t) :
    Move p s .advance t := by
  cases c with
  | enterScheduler =>
    obtain ⟨sched, sw, hs, rfl⟩ := prepare_eq_some h
    exact Move.tick w sched sw hm hpc hs
  | blockAndYield =>
    obtain ⟨sched, sw, hs, rfl⟩ := prepare_eq_some h
    exact Move.block w sched sw hm hpc hs
  | kmutexLock m =>
    cases hx : s.compareExchange m with
    | some u =>
      obtain ⟨hl, rfl⟩ := compareExchange_some hx
      simp only [Core.underLock, hx, Option.some.injEq] at h
      exact h ▸ Move.own m _ hm hl (hpc ▸ Acquires.slow w)
    | none =>
      have hl := compareExchange_none hx
      simp only [Core.underLock, hx] at h
      cases hid : s.sched.currentThreadId with
      | error e => simp [hid] at h
      | ok o =>
        cases o with
        | none =>
          simp only [hid, Option.some.injEq] at h
          exact h ▸ Move.jump hm (hpc ▸ Jump.retry m w hl hid)
        | some id =>
          simp only [hid, Option.some.injEq] at h
          exact h ▸ Move.jump hm (hpc ▸ Jump.wait m w id hl hid)
  | unblockThread id k =>
    cases hs : s.sched.unblockThread id with
    | error e => simp [Core.underLock, hs] at h
    | ok sched =>
      simp only [Core.underLock, hs, Option.some.injEq] at h
      exact h ▸ Move.unblock id k w sched hm hpc hs
  | spawn thread weight entry =>
    cases h
    exact Move.spawn thread weight entry w hm hpc

theorem switchOrHalt_move {c : Call μ R} {sw : Option Switch} (hm : s.mode = .normal)
    (hpc : s.pc s.running = .released c sw) (h : s.switchOrHalt c sw = some t) :
    Move p s .advance t := by
  cases sw with
  | none =>
    cases c <;> cases h <;> exact Move.halt _ hm hpc
  | some x =>
    obtain ⟨fromCtx, toCtx⟩ := x
    have hsave := Move.save (p := p) c fromCtx toCtx hm hpc
    unfold Core.switchOrHalt at h
    cases hc : s.contexts toCtx <;> cases c <;> simp only [hc, Option.some.injEq] at h <;>
      first | exact h ▸ hsave | cases h

theorem run_move (hm : s.mode = .normal) (h : s.run p = some t) : Move p s .advance t := by
  unfold Core.run at h
  cases hpc : s.pc s.running with
  | code => simp [hpc] at h
  | update m v => simp [hpc] at h
  | lockTry m =>
    simp only [hpc] at h
    cases hx : s.compareExchange m with
    | some u =>
      obtain ⟨hl, rfl⟩ := compareExchange_some hx
      simp only [hx, Option.some.injEq] at h
      exact h ▸ Move.own m _ hm hl (hpc ▸ Acquires.fast)
    | none =>
      simp only [hx, Option.some.injEq] at h
      exact h ▸ Move.jump hm (hpc ▸ Jump.contend m (compareExchange_none hx))
  | acquire c =>
    simp only [hpc, Option.some.injEq] at h
    exact h ▸ Move.jump hm (hpc ▸ Jump.flag c)
  | disable c w =>
    simp only [hpc, Option.some.injEq] at h
    exact h ▸ Move.disable c w hm hpc
  | spin c w =>
    simp only [hpc] at h
    cases hh : s.schedHeld with
    | true => simp [hh] at h
    | false =>
      simp only [hh, Bool.false_eq_true, if_false, Option.some.injEq] at h
      exact h ▸ Move.take c w hm hpc hh
  | locked c w =>
    simp only [hpc] at h
    exact underLock_move hm hpc h
  | enqueue m id =>
    simp only [hpc, Core.enqueue] at h
    cases hw : (s.mutexes m).waitersHeld with
    | some f => simp [hw] at h
    | none =>
      simp only [hw] at h
      obtain ⟨sched, sw, hs, rfl⟩ := prepare_eq_some h
      exact Move.enqueue m id sched sw hm hpc hw hs
  | prepared c sw =>
    simp only [hpc, Option.some.injEq] at h
    exact h ▸ Move.release c sw hm hpc
  | released c sw =>
    simp only [hpc] at h
    exact switchOrHalt_move hm hpc h
  | resumed c =>
    simp only [hpc, Option.map_eq_some_iff] at h
    obtain ⟨k, hk, rfl⟩ := h
    exact Move.jump hm (hpc ▸ Jump.resume c k hk)
  | unlock w k =>
    simp only [hpc, Option.some.injEq] at h
    exact h ▸ Move.unlock w k hm hpc
  | restore w k =>
    simp only [hpc, Option.some.injEq] at h
    exact h ▸ Move.restore w k hm hpc
  | halted =>
    simp only [hpc, Option.some.injEq] at h
    exact h ▸ Move.jump hm (hpc ▸ Jump.wake)
  | deadlock c => simp [hpc] at h
  | dropLock m =>
    simp only [hpc] at h
    cases hw : (s.mutexes m).waitersHeld with
    | some f => simp [hw] at h
    | none =>
      simp only [hw, Option.some.injEq] at h
      exact h ▸ Move.dropLock m hm hpc hw
  | dropPop m =>
    simp only [hpc] at h
    cases hw : (s.mutexes m).waiters with
    | nil =>
      simp only [hw, Option.some.injEq] at h
      exact h ▸ Move.jump hm (hpc ▸ Jump.popNone m hw)
    | cons id rest =>
      simp only [hw, Option.some.injEq] at h
      exact h ▸ Move.pop m id rest hm hpc hw
  | dropUnlock m =>
    simp only [hpc, Option.some.injEq] at h
    exact h ▸ Move.dropUnlock m hm hpc

theorem irqFinish_move {frame : R} {sw : Option Switch} (hm : s.mode = .irqSwitch frame sw) :
    Move p s .advance (s.irqFinish frame sw) := by
  cases sw with
  | none => exact Move.irqReturn frame none hm (by simp)
  | some x =>
    obtain ⟨fromCtx, toCtx⟩ := x
    unfold Core.irqFinish
    by_cases he : fromCtx = toCtx
    · simp only [if_pos he]
      exact Move.irqReturn frame _ hm (by simpa using he)
    · simp only [if_neg he]
      exact Move.irqSave frame fromCtx toCtx he hm

theorem advance_move (h : s.advance p = some t) : Move p s .advance t := by
  unfold Core.advance at h
  cases hm : s.mode with
  | normal =>
    simp only [hm] at h
    exact run_move hm h
  | irqSpin frame =>
    simp only [hm] at h
    by_cases hh : s.schedHeld = true
    · simp [hh] at h
    · rw [if_neg hh] at h
      cases hs : s.sched.tickPrepare p .bootstrap s.ticks with
      | error e => simp [hs] at h
      | ok x =>
        simp only [hs, Option.some.injEq] at h
        exact h ▸ Move.irqTick frame x.1 x.2 hm (by simpa using hh) hs
  | irqSwitch frame sw =>
    simp only [hm, Option.some.injEq] at h
    exact h ▸ irqFinish_move hm
  | loading toCtx =>
    simp only [hm, Core.load] at h
    cases hc : s.contexts toCtx with
    | none => simp [hc] at h
    | some x =>
      simp only [hc, Option.some.injEq] at h
      exact h ▸ Move.load toCtx x.1 x.2 hm hc

/-- Every step of the core is one of the listed moves. -/
theorem Step.move (h : Step p s e t) : Move p s e t := by
  unfold Step Core.step at h
  split at h
  next k hm =>
    by_cases hi : s.interrupts = true
    · simp only [if_pos hi, Option.some.injEq] at h
      exact h ▸ Move.irq k hm hi
    · simp [hi] at h
  next => exact advance_move h
  next f m v hm hpc =>
    cases h
    exact Move.write m v f hm hpc
  next hm hpc => exact user_move hm hpc h
  next => cases h

end MoltOS.Kernel
