import MoltOS.KernelMove

/-! The interrupt controller and the handlers of the core that runs kernel threads: a device
raises its line, the controller hands the interrupt to the processor, and the handler writes the
end of interrupt before it returns or switches to another thread. The masks leave the timer and
the keyboard. -/
namespace MoltOS.Pic
open MoltOS.Rust MoltOS.Kernel MoltOS.Transition

variable {μ α R : Type}

structure Controller where
  irr : Irq → Bool
  isr : Irq → Bool

namespace Controller

def raise (c : Controller) (k : Irq) : Controller := { c with irr := Function.update c.irr k true }

/- The interrupt that is passed on: the timer has priority, and one that is in service holds up
   itself and those below it. -/
def request (c : Controller) : Option Irq :=
  if c.isr .timer then none
  else if c.irr .timer then some .timer
  else if c.isr .keyboard then none
  else if c.irr .keyboard then some .keyboard
  else none

def accept (c : Controller) (k : Irq) : Controller :=
  ⟨Function.update c.irr k false, Function.update c.isr k true⟩

/- The end of interrupt names no line: it ends the one of highest priority in service. -/
def endOfInterrupt (c : Controller) : Controller :=
  { c with isr := Function.update c.isr (if c.isr .timer then .timer else .keyboard) false }

end Controller

inductive Stmt where
  | tickPrepare (irq : Irq)
  | saveContext
  | notifyEndOfInterrupt (irq : Irq)
  | contextSwitchTo
  | iretq
deriving DecidableEq

def irqPreempt (irq : Irq) : List Stmt :=
  [.saveContext, .notifyEndOfInterrupt irq, .contextSwitchTo]

def handle (irq : Irq) : Option Eevdf.Switch → List Stmt
  | some (fromCtx, toCtx) =>
    if fromCtx = toCtx then [.notifyEndOfInterrupt irq, .iretq] else irqPreempt irq
  | none => [.notifyEndOfInterrupt irq, .iretq]

def timerInterruptInner : Option Eevdf.Switch → List Stmt := handle .timer

def keyboardInterruptInner : Option Eevdf.Switch → List Stmt := handle .keyboard

def handlerCode (irq : Irq) : Mode R → List Stmt
  | .irqSwitch _ sw =>
    match irq with
    | .timer => timerInterruptInner sw
    | .keyboard => keyboardInterruptInner sw
  | _ => []

def Stmt.irq? : Stmt → Option Irq
  | .tickPrepare irq | .notifyEndOfInterrupt irq => some irq
  | .saveContext | .contextSwitchTo | .iretq => none

/- `code` is what is left of the running handler. The counts are history: the edges of each line,
   those that found it raised, the interrupts taken and those ended. -/
structure State (μ α R : Type) where
  core : Core μ α R
  pic : Controller
  code : List Stmt
  raised : Irq → Nat
  merged : Irq → Nat
  taken : Irq → Nat
  ended : Irq → Nat

inductive Event (μ α R : Type) where
  | raise (k : Irq)
  | take (k : Irq)
  | handler
  | core (e : Kernel.Event μ α R)

def count (f : Irq → Nat) (k : Irq) : Irq → Nat := Function.update f k (f k + 1)

def isIrq : Kernel.Event μ α R → Bool
  | .irq _ => true
  | _ => false

namespace State

def init (data : μ → α) (r : R) : State μ α R :=
  ⟨Core.init data r, ⟨fun _ => false, fun _ => false⟩, [], fun _ => 0, fun _ => 0, fun _ => 0,
    fun _ => 0⟩

/- The interrupt whose handler has not written its end yet. -/
def handler (s : State μ α R) : Option Irq := s.code.findSome? Stmt.irq?

def raise (s : State μ α R) (k : Irq) : State μ α R :=
  { s with
    pic := s.pic.raise k
    raised := count s.raised k
    merged := if s.pic.irr k then count s.merged k else s.merged }

def take [DecidableEq μ] (p : Profile) (s : State μ α R) (k : Irq) : Option (State μ α R) :=
  if s.pic.request = some k then
    (s.core.step p (.irq k)).map fun core => { s with
      core := core
      pic := s.pic.accept k
      code := [.tickPrepare k]
      taken := count s.taken k }
  else none

def handlerStep [DecidableEq μ] (p : Profile) (s : State μ α R) : Option (State μ α R) :=
  match s.code with
  | [] => none
  | .notifyEndOfInterrupt irq :: code =>
    some { s with pic := s.pic.endOfInterrupt, code := code, ended := count s.ended irq }
  | .tickPrepare irq :: _ =>
    (s.core.step p .advance).map fun core =>
      { s with core := core, code := handlerCode irq core.mode }
  | .saveContext :: code | .contextSwitchTo :: code | .iretq :: code =>
    (s.core.step p .advance).map fun core => { s with core := core, code := code }

def step [DecidableEq μ] (p : Profile) (s : State μ α R) : Event μ α R → Option (State μ α R)
  | .raise k => some (s.raise k)
  | .take k => s.take p k
  | .handler => s.handlerStep p
  | .core e =>
    if s.code = [] ∧ isIrq e = false then
      (s.core.step p e).map fun core => { s with core := core }
    else none

end State

variable [DecidableEq μ] {p : Profile} {s t : State μ α R} {e : Event μ α R}

def Step (p : Profile) (s : State μ α R) (e : Event μ α R) (t : State μ α R) : Prop :=
  s.step p e = some t

inductive Move (p : Profile) (s : State μ α R) : Event μ α R → State μ α R → Prop where
  | raise (k : Irq) : Move p s (.raise k) (s.raise k)
  | take (k : Irq) (hk : s.pic.request = some k) (hm : s.core.mode = .normal)
      (hi : s.core.interrupts = true) :
      Move p s (.take k) { s with
        core := s.core.irq k
        pic := s.pic.accept k
        code := [.tickPrepare k]
        taken := count s.taken k }
  | notify (irq : Irq) (code : List Stmt) (hc : s.code = .notifyEndOfInterrupt irq :: code) :
      Move p s .handler { s with
        pic := s.pic.endOfInterrupt
        code := code
        ended := count s.ended irq }
  | tick (irq : Irq) (code : List Stmt) (core : Core μ α R) (hc : s.code = .tickPrepare irq :: code)
      (hs : Kernel.Step p s.core .advance core) :
      Move p s .handler { s with core := core, code := handlerCode irq core.mode }
  | leave (x : Stmt) (code : List Stmt) (core : Core μ α R) (hx : x.irq? = none)
      (hc : s.code = x :: code) (hs : Kernel.Step p s.core .advance core) :
      Move p s .handler { s with core := core, code := code }
  | core (e : Kernel.Event μ α R) (core : Core μ α R) (hc : s.code = []) (he : isIrq e = false)
      (hs : Kernel.Step p s.core e core) : Move p s (.core e) { s with core := core }

theorem handlerStep_move (h : s.handlerStep p = some t) : Move p s .handler t := by
  unfold State.handlerStep at h
  split at h
  · cases h
  next irq code hc =>
    cases h
    exact .notify irq code hc
  next irq code hc =>
    obtain ⟨core, hs, rfl⟩ := Option.map_eq_some_iff.mp h
    exact .tick irq code core hc hs
  all_goals
    obtain ⟨core, hs, rfl⟩ := Option.map_eq_some_iff.mp h
    exact .leave _ _ core rfl (by assumption) hs

theorem Step.move (h : Step p s e t) : Move p s e t := by
  unfold Step State.step at h
  cases e with
  | raise k =>
    cases h
    exact .raise k
  | take k =>
    simp only [State.take] at h
    split at h
    next hk =>
      obtain ⟨core, hs, rfl⟩ := Option.map_eq_some_iff.mp h
      have hs : Kernel.Step p s.core (.irq k) core := hs
      cases hs.move with
      | jump hm hj => cases hj
      | irq k hm hi => exact .take k hk hm hi
    · cases h
  | handler => exact handlerStep_move h
  | core e =>
    simp only at h
    split at h
    next hmay =>
      obtain ⟨core, hs, rfl⟩ := Option.map_eq_some_iff.mp h
      exact .core e core hmay.1 hmay.2 hs
    · cases h

inductive ModeStep : Mode R → Mode R → Prop where
  | run : ModeStep .normal .normal
  | save (toCtx : Eevdf.CtxPtr) : ModeStep .normal (.loading toCtx)
  | tick (frame : R) (sw : Option Eevdf.Switch) : ModeStep (.irqSpin frame) (.irqSwitch frame sw)
  | back (frame : R) (sw : Option Eevdf.Switch) (hsw : ∀ x ∈ sw, x.1 = x.2) :
      ModeStep (.irqSwitch frame sw) .normal
  | away (frame : R) (fromCtx toCtx : Eevdf.CtxPtr) (hne : fromCtx ≠ toCtx) :
      ModeStep (.irqSwitch frame (some (fromCtx, toCtx))) (.loading toCtx)
  | load (toCtx : Eevdf.CtxPtr) : ModeStep (.loading toCtx) .normal

theorem core_mode {c d : Core μ α R} {e : Kernel.Event μ α R} (hs : Kernel.Step p c e d)
    (he : isIrq e = false) : d.ticks = c.ticks ∧ ModeStep c.mode d.mode := by
  cases hs.move with
  | irq k hm hi => cases he
  | irqTick frame sched sw hm hh hsched => exact ⟨rfl, hm ▸ .tick frame sw⟩
  | irqReturn frame sw hm hsw => exact ⟨rfl, hm ▸ .back frame sw hsw⟩
  | irqSave frame fromCtx toCtx hne hm => exact ⟨rfl, hm ▸ .away frame fromCtx toCtx hne⟩
  | load toCtx f r hm hc => exact ⟨rfl, hm ▸ .load toCtx⟩
  | save c' fromCtx toCtx hm hpc => exact ⟨rfl, hm ▸ .save toCtx⟩
  | _ =>
    have hm : c.mode = .normal := by assumption
    refine ⟨rfl, ?_⟩
    change ModeStep c.mode c.mode
    rw [hm]
    exact .run

inductive Placed : Mode R → List Stmt → Prop where
  | normal : Placed .normal []
  | loading (toCtx : Eevdf.CtxPtr) : Placed (.loading toCtx) []
  | tick (frame : R) (irq : Irq) : Placed (.irqSpin frame) [.tickPrepare irq]
  | back (frame : R) (sw : Option Eevdf.Switch) (irq : Irq) (hsw : ∀ x ∈ sw, x.1 = x.2) :
      Placed (.irqSwitch frame sw) [.notifyEndOfInterrupt irq, .iretq]
  | backEnded (frame : R) (sw : Option Eevdf.Switch) (hsw : ∀ x ∈ sw, x.1 = x.2) :
      Placed (.irqSwitch frame sw) [.iretq]
  | away (frame : R) (fromCtx toCtx : Eevdf.CtxPtr) (irq : Irq) (hne : fromCtx ≠ toCtx) :
      Placed (.irqSwitch frame (some (fromCtx, toCtx))) (irqPreempt irq)
  | awaySaved (toCtx : Eevdf.CtxPtr) (irq : Irq) :
      Placed (.loading toCtx) [.notifyEndOfInterrupt irq, .contextSwitchTo]
  | awayEnded (toCtx : Eevdf.CtxPtr) : Placed (.loading toCtx) [.contextSwitchTo]

section Placed
variable {m m' : Mode R} {irq : Irq} {code : List Stmt} {x : Stmt}

theorem Placed.idle (h : Placed m []) (hs : ModeStep m m') : Placed m' [] := by
  cases h with
  | normal =>
    cases hs with
    | run => exact .normal
    | save toCtx => exact .loading toCtx
  | loading toCtx =>
    cases hs
    exact .normal

theorem handle_placed (frame : R) (sw : Option Eevdf.Switch) (irq : Irq) :
    Placed (.irqSwitch frame sw) (handle irq sw) ∧
      (handle irq sw).findSome? Stmt.irq? = some irq := by
  unfold handle
  split
  next fromCtx toCtx =>
    split
    next heq => exact ⟨.back frame _ irq (by simpa using heq), rfl⟩
    next hne => exact ⟨.away frame fromCtx toCtx irq hne, rfl⟩
  · exact ⟨.back frame none irq (by simp), rfl⟩

/-- Behind `tick_prepare` each branch has the end of this interrupt in its code. -/
theorem Placed.ask (h : Placed m (.tickPrepare irq :: code)) (hs : ModeStep m m') :
    Placed m' (handlerCode irq m') ∧ (handlerCode irq m').findSome? Stmt.irq? = some irq := by
  cases h
  cases hs with
  | tick _ sw => cases irq <;> exact handle_placed _ sw _

/-- And has it once. -/
theorem Placed.notify (h : Placed m (.notifyEndOfInterrupt irq :: code)) :
    Placed m code ∧ code.findSome? Stmt.irq? = none := by
  cases h with
  | back frame sw irq hsw => exact ⟨.backEnded frame sw hsw, rfl⟩
  | awaySaved toCtx irq => exact ⟨.awayEnded toCtx, rfl⟩

theorem Placed.leave (h : Placed m (x :: code)) (hx : x.irq? = none) (hs : ModeStep m m') :
    Placed m' code := by
  cases h with
  | tick frame irq => cases hx
  | back frame sw irq hsw => cases hx
  | awaySaved toCtx irq => cases hx
  | backEnded frame sw hsw =>
    cases hs with
    | back => exact .normal
    | away frame fromCtx toCtx hne => exact absurd (hsw _ rfl) hne
  | away frame fromCtx toCtx irq hne =>
    cases hs with
    | back frame sw hsw => exact absurd (hsw _ rfl) hne
    | away => exact .awaySaved toCtx irq
  | awayEnded toCtx =>
    cases hs
    exact .normal

theorem Placed.ended (h : Placed m code) (hq : m = .normal ∨ code.head? = some .iretq ∨
    code.head? = some .contextSwitchTo) : code.findSome? Stmt.irq? = none := by
  cases h with
  | normal | loading | backEnded | awayEnded => rfl
  | tick | back | away | awaySaved => simp [irqPreempt] at hq

end Placed

/-- The in-service register names the handler that has not written its end, and nothing else; the
counts agree with both registers. -/
structure Tracked (s : State μ α R) : Prop where
  placed : Placed s.core.mode s.code
  isr : ∀ k, s.pic.isr k = true ↔ s.handler = some k
  ended : ∀ k, s.taken k = s.ended k + if s.handler = some k then 1 else 0
  irr : ∀ k, s.raised k = s.taken k + s.merged k + if s.pic.irr k then 1 else 0
  ticks : s.core.ticks = s.taken .timer % 2 ^ 64

theorem count_apply (f : Irq → Nat) (k j : Irq) :
    count f k j = f j + if k = j then 1 else 0 := by
  by_cases h : k = j
  · subst h
    simp [count]
  · simp [count, Function.update_of_ne (Ne.symm h), h]

omit [DecidableEq μ] in
theorem Tracked.raise (h : Tracked s) (k : Irq) : Tracked (s.raise k) := by
  refine ⟨h.placed, h.isr, h.ended, fun j => ?_, h.ticks⟩
  have hj := h.irr j
  simp only [State.raise, Controller.raise, count_apply, Function.update_apply]
  have hmerged : (if s.pic.irr k then count s.merged k else s.merged) j =
      s.merged j + if k = j ∧ s.pic.irr k = true then 1 else 0 := by
    cases s.pic.irr k <;> simp [count_apply]
  rw [hmerged]
  by_cases hkj : k = j
  · subst hkj
    simp only [if_true, true_and]
    omega
  · simp only [hkj, false_and, if_false, if_neg (Ne.symm hkj), Nat.add_zero]
    exact hj

omit [DecidableEq μ] in
theorem Tracked.quiet (h : Tracked s) (hq : s.core.mode = .normal ∨ s.code.head? = some .iretq ∨
    s.code.head? = some .contextSwitchTo) : s.handler = none ∧ ∀ k, s.pic.isr k = false := by
  have hnone : s.handler = none := h.placed.ended hq
  refine ⟨hnone, fun k => ?_⟩
  have hk := h.isr k
  rw [hnone] at hk
  simpa using hk

theorem request_irr {c : Controller} {k : Irq} (h : c.request = some k) : c.irr k = true := by
  unfold Controller.request at h
  split at h
  · cases h
  split at h
  · cases h
    assumption
  split at h
  · cases h
  split at h
  · cases h
    assumption
  · cases h

omit [DecidableEq μ] in
theorem Tracked.take (h : Tracked s) {k : Irq} (hk : s.pic.request = some k)
    (hm : s.core.mode = .normal) : Tracked { s with
      core := s.core.irq k
      pic := s.pic.accept k
      code := [.tickPrepare k]
      taken := count s.taken k } := by
  obtain ⟨hnone, hisr⟩ := h.quiet (.inl hm)
  refine ⟨.tick _ k, fun j => ?_, fun j => ?_, fun j => ?_, ?_⟩
  · change (s.pic.accept k).isr j = true ↔ some k = some j
    by_cases hj : j = k
    · subst hj
      simp [Controller.accept]
    · simp [Controller.accept, Function.update_of_ne hj, hisr, Ne.symm hj]
  · have hj := h.ended j
    rw [hnone, if_neg (by simp), Nat.add_zero] at hj
    change count s.taken k j = s.ended j + if some k = some j then 1 else 0
    simp only [count_apply, Option.some.injEq, hj]
  · have hj := h.irr j
    have hreq := request_irr hk
    simp only [count_apply, Controller.accept, Function.update_apply]
    by_cases hjk : j = k
    · subst hjk
      simp_all
      omega
    · simp_all [Ne.symm hjk]
  · have ht := h.ticks
    cases k with
    | timer => simp [Core.irq, count_apply, ht]
    | keyboard => simpa [Core.irq, count_apply] using ht

omit [DecidableEq μ] in
/-- The end of interrupt names no line; it ends the interrupt of the handler that writes it. -/
theorem Tracked.notify (h : Tracked s) {k : Irq} {code : List Stmt}
    (hc : s.code = .notifyEndOfInterrupt k :: code) : Tracked { s with
      pic := s.pic.endOfInterrupt
      code := code
      ended := count s.ended k } := by
  have hhandler : s.handler = some k := by
    unfold State.handler
    rw [hc]
    rfl
  obtain ⟨hplaced, hnone⟩ := (hc ▸ h.placed).notify
  have hone (j : Irq) : s.pic.isr j = true ↔ k = j := by
    rw [h.isr j, hhandler, Option.some.injEq]
  have hline : (if s.pic.isr .timer then Irq.timer else Irq.keyboard) = k := by
    cases k with
    | timer => rw [if_pos ((hone .timer).mpr rfl)]
    | keyboard => rw [if_neg fun ht => by cases (hone .timer).mp ht]
  refine ⟨hplaced, fun j => ?_, fun j => ?_, h.irr, h.ticks⟩
  · simp only [Controller.endOfInterrupt, hline, State.handler, hnone]
    by_cases hj : j = k
    · subst hj
      simp
    · have hnot : ¬ s.pic.isr j = true := fun ht => hj ((hone j).mp ht).symm
      simp [Function.update_of_ne hj, hnot]
  · have hj := h.ended j
    rw [hhandler] at hj
    simp only [count_apply, State.handler, hnone, Option.some.injEq, reduceCtorEq, if_false] at hj ⊢
    exact hj

omit [DecidableEq μ] in
/-- A step of the core that leaves the same interrupt to be ended. -/
theorem Tracked.core (h : Tracked s) {core : Core μ α R} {code : List Stmt}
    (hplaced : Placed core.mode code) (hsame : code.findSome? Stmt.irq? = s.handler)
    (hticks : core.ticks = s.core.ticks) : Tracked { s with core := core, code := code } := by
  refine ⟨hplaced, fun k => ?_, fun k => ?_, h.irr, hticks.trans h.ticks⟩
  · simp only [State.handler, hsame]
    exact h.isr k
  · simp only [State.handler, hsame]
    exact h.ended k

theorem Tracked.step (h : Tracked s) (hs : Step p s e t) : Tracked t := by
  cases hs.move with
  | raise k => exact h.raise k
  | take k hk hm hi => exact h.take hk hm
  | notify irq code hc => exact h.notify hc
  | tick irq code core hc hstep =>
    obtain ⟨hticks, hmode⟩ := core_mode hstep rfl
    obtain ⟨hplaced, hend⟩ := (hc ▸ h.placed).ask hmode
    refine h.core hplaced (hend.trans ?_) hticks
    rw [State.handler, hc]
    rfl
  | leave x code core hx hc hstep =>
    obtain ⟨hticks, hmode⟩ := core_mode hstep rfl
    refine h.core ((hc ▸ h.placed).leave hx hmode) ?_ hticks
    rw [State.handler, hc, List.findSome?_cons, hx]
  | core e core hc he hstep =>
    obtain ⟨hticks, hmode⟩ := core_mode hstep he
    refine h.core (hc ▸ (hc ▸ h.placed).idle hmode) rfl hticks

omit [DecidableEq μ] in
theorem Tracked.init (data : μ → α) (r : R) : Tracked (State.init data r) := by
  refine ⟨.normal, fun k => ?_, fun _ => rfl, fun _ => rfl, rfl⟩
  simp [State.init, State.handler]

/-- Every interrupt is ended once. In every reachable state, whatever the handlers switch to: an
interrupt that has been taken has been ended once, but for the one whose handler is running; an
edge of a line has been taken, has found the line raised, or is pending; the clock counts the timer
interrupts taken; no interrupt is in service outside a handler, nor in one that returns or switches
with its next step; and with interrupts on a pending one is taken, the timer before the keyboard. -/
theorem interrupts_are_ended (data : μ → α) (r : R) (s : State μ α R)
    (h : Reachable (Step p) (State.init data r) s) (k : Irq) :
    s.taken k = s.ended k + (if s.handler = some k then 1 else 0) ∧
    s.raised k = s.taken k + s.merged k + (if s.pic.irr k then 1 else 0) ∧
    s.core.ticks = s.taken .timer % 2 ^ 64 ∧
    (s.core.mode = .normal ∨ s.code.head? = some .iretq ∨ s.code.head? = some .contextSwitchTo →
      s.handler = none ∧ ∀ j, s.pic.isr j = false) ∧
    (s.core.mode = .normal → s.core.interrupts = true → s.pic.irr k = true →
      ∃ t, Step p s (.take (if s.pic.irr .timer then .timer else .keyboard)) t) := by
  have hs : Tracked s := h.invariant (fun _ _ _ hu hs => hu.step hs) (Tracked.init data r)
  refine ⟨hs.ended k, hs.irr k, hs.ticks, hs.quiet, fun hm hi hk => ?_⟩
  obtain ⟨-, hisr⟩ := hs.quiet (.inl hm)
  have hreq : s.pic.request = some (if s.pic.irr .timer then .timer else .keyboard) := by
    unfold Controller.request
    cases ht : s.pic.irr .timer with
    | true => simp [hisr]
    | false =>
      have hkey : k = .keyboard := by
        cases k with
        | timer =>
          rw [ht] at hk
          cases hk
        | keyboard => rfl
      rw [hkey] at hk
      simp [hisr, hk]
  simp [Step, State.step, State.take, if_pos hreq, Core.step, hm, hi]

/- Two threads. The timer interrupts the first one; the keyboard and the timer raise their lines
   twice while its handler runs, which ends the interrupt and switches to the second thread. -/
def switchEvents : List (Event Unit Nat Unit) :=
  (bootEvents 2).map .core ++ [.raise .timer, .take .timer, .handler, .raise .keyboard,
    .raise .timer, .raise .timer, .handler, .handler, .handler]

def switched (s : State Unit Nat Unit) : Bool :=
  decide (s.core.running = .thread 1) && decide (s.merged .timer = 1) && s.core.interrupts &&
    s.pic.irr .keyboard && (match s.core.mode with | .normal => true | _ => false)

theorem keyboard_waits_for_timer : ∃ s t : State Unit Nat Unit, s.merged .timer = 1 ∧
    s.taken .keyboard = s.ended .keyboard + (if s.handler = some .keyboard then 1 else 0) ∧
    Step .dev s (.take (if s.pic.irr .timer then .timer else .keyboard)) t := by
  have hrun : ((exec (State.step .dev) (State.init (fun _ => 0) ()) switchEvents).any
      switched) = true := by decide +kernel
  obtain ⟨s, hreach, hp⟩ := reachable_of_exec hrun
  simp only [switched, Bool.and_eq_true, decide_eq_true_eq] at hp
  obtain ⟨⟨⟨⟨-, hmerged⟩, hi⟩, hk⟩, hmode⟩ := hp
  have hm : s.core.mode = .normal := by
    cases hmode' : s.core.mode <;> simp_all
  obtain ⟨hended, -, -, -, htake⟩ := interrupts_are_ended (fun _ => 0) () s hreach .keyboard
  obtain ⟨t, ht⟩ := htake hm hi hk
  exact ⟨s, t, hmerged, hended, ht⟩

end MoltOS.Pic
