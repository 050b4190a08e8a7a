import MoltOS.DeviceLock
import MoltOS.VgaTerminal

/-! Calls to the devices are atomic: under any interrupts and any preemption, the screen, the
serial port and the key ring are what the completed calls leave one after the other. -/
namespace MoltOS.DeviceLock
open MoltOS.Rust MoltOS.Kernel MoltOS.Transition
open MoltOS.DoomKeys (Keys KeyEvent Report scancodeToDoom feedScancode dgGetKey)

variable {μ α R : Type} [DecidableEq μ] {p : Profile} {s t : State μ α R} {e : Event μ α R}

/-- The core moves a flow only in its own code. -/
theorem core_pc {c d : Core μ α R} {e : Kernel.Event μ α R} (hs : Kernel.Step p c e d) :
    d.pc = c.pc ∨
      c.mode = .normal ∧ (∀ k, e ≠ .irq k) ∧ ∀ f, f ≠ c.running → d.pc f = c.pc f := by
  cases hs.move with
  | jump hm hj =>
    refine .inr ⟨hm, ?_, fun f hf => goto_pc_other c _ hf⟩
    rintro k rfl
    cases hj
  | compute r hm hpc => exact .inl rfl
  | setInterrupts b hm hpc => exact .inl rfl
  | irq k hm hi => exact .inl rfl
  | irqTick frame sched sw hm hh hsched => exact .inl rfl
  | irqReturn frame sw hm hsw => exact .inl rfl
  | irqSave frame fromCtx toCtx hne hm => exact .inl rfl
  | load toCtx f r hm hc => exact .inl rfl
  | save c' fromCtx toCtx hm hpc =>
    exact .inr ⟨hm, by simp, fun f hf => by simp [Core.goto, hf]⟩
  | _ => exact .inr ⟨by assumption, by simp, fun f hf => goto_pc_other _ _ hf⟩

def Pc.wasEnabled : Pc → Bool
  | .disable _ _ w | .lock _ _ w | .body _ _ _ w | .restore w => w
  | _ => false

/-- A flow that is inside a call stands in its own code, and the handler has saved the flag
off. -/
structure InCode (s : State μ α R) : Prop where
  flow : ∀ f, s.pc (.flow f) ≠ .outside → s.core.pc f = .code
  handler : (s.pc .handler).wasEnabled = false

omit [DecidableEq μ] in
theorem InCode.goto (h : InCode s) {a : Agent} {k : Pc} (hpc : t.pc = Function.update s.pc a k)
    (hcore : t.core.pc = s.core.pc) (hk : ∀ f, a = .flow f → k ≠ .outside → s.core.pc f = .code)
    (hw : a = .handler → k.wasEnabled = false) : InCode t := by
  refine ⟨fun f hf => ?_, ?_⟩
  · rw [hpc] at hf
    rw [hcore]
    by_cases hfa : a = .flow f
    · subst hfa
      rw [Function.update_self] at hf
      exact hk f rfl hf
    · rw [Function.update_of_ne (Ne.symm hfa)] at hf
      exact h.flow f hf
  · rw [hpc]
    by_cases hah : a = .handler
    · subst hah
      rw [Function.update_self]
      exact hw rfl
    · rw [Function.update_of_ne (Ne.symm hah)]
      exact h.handler

omit [DecidableEq μ] in
/-- A call in progress moves its agent neither out of its code nor to another saved flag. -/
theorem InCode.advance (h : InCode s) (hex : Exclusive s) {a : Agent} (hs : Advance s a t) :
    InCode t := by
  have hcode (hne : s.pc a ≠ .outside) (f : Flow) (ha : a = .flow f) : s.core.pc f = .code := by
    subst ha
    exact h.flow f hne
  have hsaved {w : Bool} (hw : (s.pc a).wasEnabled = w) (ha : a = .handler) : w = false := by
    subst ha
    exact hw.symm.trans h.handler
  cases hs with
  | enter hpc =>
    refine h.goto rfl rfl (fun f ha _ => hcode (by simp [hpc]) f ha) fun ha => ?_
    exact hex.off (.inr ⟨ha, by simp [hpc]⟩)
  | @disable op l w hpc =>
    exact h.goto rfl (setFlag_keeps s.core w false).2.2 (fun f ha _ => hcode (by simp [hpc]) f ha)
      (hsaved (by rw [hpc]; rfl))
  | take hpc hfree =>
    exact h.goto rfl rfl (fun f ha _ => hcode (by simp [hpc]) f ha) (hsaved (by rw [hpc]; rfl))
  | access hpc hx =>
    exact h.goto rfl rfl (fun f ha _ => hcode (by simp [hpc]) f ha) (hsaved (by rw [hpc]; rfl))
  | release hpc =>
    exact h.goto rfl rfl (fun f ha _ => hcode (by simp [hpc]) f ha) (hsaved (by rw [hpc]; rfl))
  | @restore w hpc =>
    exact h.goto rfl (setFlag_keeps s.core w true).2.2 (fun f _ hk => absurd rfl hk) fun _ => rfl

theorem InCode.core (h : InCode s) {e : Kernel.Event μ α R} {core : Core μ α R}
    (hmay : s.mayStep e = true) (hs : Kernel.Step p s.core e core) :
    InCode ({ s with core := core }.arrive e) := by
  obtain ⟨hpc, hcore, -, -, -, -, hport⟩ := arrive_keeps { s with core := core } e
  refine ⟨fun f hf => ?_, ?_⟩
  · rw [hpc] at hf
    rw [hcore]
    obtain hsame | ⟨hm, hirq, hother⟩ := core_pc hs
    · exact (congrFun hsame f).trans (h.flow f hf)
    · -- the running flow waits for its call
      refine (hother f fun hrun => ?_).trans (h.flow f hf)
      subst hrun
      have hout : (s.pc (.flow s.core.running)).isOutside = true := by
        cases e with
        | irq k => exact absurd rfl (hirq k)
        | _ => simpa [State.mayStep, active_normal hm] using hmay
      refine hf ?_
      change s.pc (.flow s.core.running) = .outside
      cases hk : s.pc (.flow s.core.running) <;> simp_all [Pc.isOutside]
  · obtain hsame | ⟨-, hport⟩ := hport
    · rw [hsame]
      exact h.handler
    · rw [hport]
      rfl

theorem InCode.step (h : InCode s) (hex : Exclusive s) (hs : Step p s e t) : InCode t := by
  cases hs.move with
  | core e core hmay hstep => exact h.core hmay hstep
  | call hm hcode hout hl =>
    refine h.goto rfl rfl (fun f hf _ => ?_) fun ha => by cases ha
    cases hf
    exact hcode
  | dropped ha hport hl => exact h.goto rfl rfl (fun f hf => by cases hf) fun _ => rfl
  | decoded ha hport hl => exact h.goto rfl rfl (fun f hf => by cases hf) fun _ => rfl
  | advance ha hs => exact h.advance hex hs

/-- `cli` and `sti` of a section are steps of the core; for the handler they change nothing. -/
theorem setFlag_reachable (h : InCode s) {a : Agent} (ha : s.active = some a) {w : Bool}
    (hw : (s.pc a).wasEnabled = w) (on : Bool) {c : Core μ α R}
    (hc : Reachable (Kernel.Step p) c s.core) :
    Reachable (Kernel.Step p) c (setFlag s.core w on) := by
  cases w with
  | false => exact hc
  | true =>
    cases a with
    | handler =>
      rw [h.handler] at hw
      cases hw
    | flow f =>
      obtain ⟨hm, rfl⟩ := active_flow ha
      have hcode := h.flow s.core.running fun hout => by
        rw [hout] at hw
        cases hw
      refine hc.step (e := .setInterrupts on) ?_
      simp [Kernel.Step, Core.step, hm, hcode, Core.user, setFlag]

/-- On the core alone, a step is a step of the core or changes nothing. -/
theorem core_step_reachable (h : InCode s) {c : Core μ α R}
    (hc : Reachable (Kernel.Step p) c s.core) (hs : Step p s e t) :
    Reachable (Kernel.Step p) c t.core := by
  cases hs.move with
  | core e core hmay hstep =>
    obtain ⟨-, hcore, -⟩ := arrive_keeps { s with core := core } e
    rw [hcore]
    exact hc.step hstep
  | call hm hcode hout hl => exact hc
  | dropped ha hport hl => exact hc
  | decoded ha hport hl => exact hc
  | advance ha hs =>
    cases hs with
    | disable hpc => exact setFlag_reachable h ha (by rw [hpc]; rfl) false hc
    | restore hpc => exact setFlag_reachable h ha (by rw [hpc]; rfl) true hc
    | _ => exact hc

def Op.apply (d : Devices) : Op → Except Panic (Devices × Result)
  | .print text => do
    let w ← d.writer.writeString text
    pure ({ d with writer := w }, none)
  | .clearScreen => do
    let w ← d.writer.clearScreen
    pure ({ d with writer := w }, none)
  | .serialPrint text => .ok ({ d with serial := d.serial ++ text }, none)
  | .getKey => .ok ({ d with keys := (dgGetKey d.keys).2 }, (dgGetKey d.keys).1)
  | .feed sc => .ok ({ d with keys := feedScancode d.keys sc }, none)

def Performs (d : Devices) (x : Agent × Op × Result) (d' : Devices) : Prop :=
  x.2.1.apply d = .ok (d', x.2.2)

/-- Accesses that each change the writer, one after the other. -/
theorem finish_writer {β : Type} {f : β → Access} {g : Vga.Writer → β → Except Panic Vga.Writer}
    (hf : ∀ b x, (f b).apply x =
      (do let w ← g x.1.writer b; pure ({ x.1 with writer := w }, x.2)))
    (l : List β) (x : Devices × Result) :
    finish (l.map f) x =
      (do let w ← l.foldlM g x.1.writer; pure ({ x.1 with writer := w }, x.2)) := by
  induction l generalizing x with
  | nil => rfl
  | cons b l ih =>
    rw [List.map_cons, finish, List.foldlM_cons, hf, List.foldlM_cons]
    cases g x.1.writer b with
    | error e => rfl
    | ok w => exact ih _

theorem finish_send (text : List UInt8) (x : Devices × Result) :
    finish (text.map .send) x = .ok ({ x.1 with serial := x.1.serial ++ text }, x.2) := by
  induction text generalizing x with
  | nil => simp [finish, pure, Except.pure]
  | cons b text ih =>
    rw [List.map_cons, finish, List.foldlM_cons]
    refine (ih _).trans ?_
    simp

/-- The accesses of a thread's call make up the call. -/
theorem accesses_apply {op : Op} {l : List Access} (h : op.accesses = some l) (d : Devices) :
    finish l (d, none) = op.apply d := by
  cases op with
  | print text =>
    cases h
    exact finish_writer (fun b x => rfl) text (d, none)
  | clearScreen =>
    cases h
    rw [finish, List.foldlM_append]
    have hrows := finish_writer (f := .clearRow) (g := Vga.Writer.clearRow) (fun b x => rfl)
      (List.range' 0 Vga.bufferHeight) (d, none)
    rw [finish] at hrows
    rw [hrows, Op.apply, Vga.Writer.clearScreen]
    cases (List.range' 0 Vga.bufferHeight).foldlM Vga.Writer.clearRow d.writer <;> rfl
  | serialPrint text =>
    cases h
    exact finish_send text (d, none)
  | getKey =>
    cases h
    rfl
  | feed sc => cases h

/-- What `feed_scancode` does before its section and in it. -/
theorem decode_apply (d : Devices) (sc : UInt8) :
    finish (decode d.keys sc).2 ({ d with keys := (decode d.keys sc).1 }, none) =
      Op.apply d (.feed sc) := by
  rw [Op.apply, decode, feedScancode]
  split
  · rfl
  · dsimp only
    split <;> rfl

/- The call that is under way at an agent: a thread's from the lock on, the handler's from its
   access to EXTENDED on. -/
def Pc.pending (a : Agent) : Pc → Option (Op × List Access × Result)
  | .enter op l | .disable op l _ => if a = .handler then some (op, l, none) else none
  | .lock op l _ => some (op, l, none)
  | .body op l r _ => some (op, l, r)
  | _ => none

def State.current (s : State μ α R) : Option (Op × List Access × Result) :=
  s.active.bind fun a => (s.pc a).pending a

/- The devices `x` are those of the atomic machine, but for the rest of the call under way. -/
def Resumes (d x : Devices) : Option (Op × List Access × Result) → Prop
  | none => x = d
  | some (op, l, r) => finish l (x, r) = op.apply d

def Pc.Begun : Pc → Prop
  | .enter op l | .disable op l _ => op.accesses = some l
  | _ => True

structure Atomic (init : Devices) (s : State μ α R) : Prop where
  begun : ∀ f, (s.pc (.flow f)).Begun
  resumes : ∃ d, Run Performs init s.completed d ∧ Resumes d s.devices s.current

omit [DecidableEq μ] in
theorem current_of_active {a : Agent} (ha : s.active = some a) :
    s.current = (s.pc a).pending a := by
  rw [State.current, ha, Option.bind_some]

omit [DecidableEq μ] in
theorem active_congr (hrun : t.core.running = s.core.running) (hmode : t.core.mode = s.core.mode) :
    t.active = s.active := by
  rw [State.active, State.active, hrun, hmode]

theorem Pc.pending_of_unmasked {k : Pc} {f : Flow} (h : k.masked = false) :
    k.pending (.flow f) = none := by
  cases k <;> first | rfl | cases h

omit [DecidableEq μ] in
theorem current_eq_none (hflow : ∀ f, (s.pc (.flow f)).masked = false)
    (hhandler : s.pc .handler = .outside ∨ s.pc .handler = .port) : s.current = none := by
  cases ha : s.active with
  | none => rw [State.current, ha, Option.bind_none]
  | some a =>
    rw [current_of_active ha]
    cases a with
    | flow f => exact Pc.pending_of_unmasked (hflow f)
    | handler => obtain hk | hk := hhandler <;> rw [hk] <;> rfl

namespace Atomic
variable {init : Devices}

omit [DecidableEq μ] in
/-- A step of the active agent to `k`, with what it means for the atomic machine. -/
theorem goto (h : Atomic init s) {a : Agent} (ha : s.active = some a) {k : Pc}
    (hpc : t.pc = Function.update s.pc a k) (hrun : t.core.running = s.core.running)
    (hmode : t.core.mode = s.core.mode) (hbegun : ∀ f, a = .flow f → k.Begun)
    (hmove : ∀ d, Run Performs init s.completed d → Resumes d s.devices ((s.pc a).pending a) →
      ∃ d', Run Performs init t.completed d' ∧ Resumes d' t.devices (k.pending a)) :
    Atomic init t := by
  refine ⟨fun f => ?_, ?_⟩
  · rw [hpc]
    by_cases hfa : a = .flow f
    · subst hfa
      rw [Function.update_self]
      exact hbegun f rfl
    · rw [Function.update_of_ne (Ne.symm hfa)]
      exact h.begun f
  · obtain ⟨d, hrun', hres⟩ := h.resumes
    rw [current_of_active ha] at hres
    have hactive : t.active = some a := (active_congr hrun hmode).trans ha
    rw [current_of_active hactive, hpc, Function.update_self]
    exact hmove d hrun' hres

omit [DecidableEq μ] in
theorem advance (h : Atomic init s) {a : Agent} (ha : s.active = some a) (hs : Advance s a t) :
    Atomic init t := by
  cases hs with
  | enter hpc =>
    refine h.goto ha rfl rfl rfl (fun f hf => ?_) fun d hd hres => ⟨d, hd, ?_⟩
    · subst hf
      have hb := h.begun f
      rwa [hpc] at hb
    · rwa [hpc] at hres
  | @disable op l w hpc =>
    obtain ⟨hrun, hmode, -⟩ := setFlag_keeps s.core w false
    refine h.goto ha rfl hrun hmode (fun f _ => trivial) fun d hd hres => ⟨d, hd, ?_⟩
    rw [hpc] at hres
    cases a with
    | flow f =>
      -- here the call begins for the atomic machine
      have hb := h.begun f
      rw [hpc] at hb
      have hsame : s.devices = d := hres
      exact hsame ▸ accesses_apply hb s.devices
    | handler => exact hres
  | take hpc hfree =>
    refine h.goto ha rfl rfl rfl (fun f _ => trivial) fun d hd hres => ⟨d, hd, ?_⟩
    rwa [hpc] at hres
  | access hpc hx =>
    refine h.goto ha rfl rfl rfl (fun f _ => trivial) fun d hd hres => ⟨d, hd, ?_⟩
    rw [hpc] at hres
    simp only [Pc.pending, Resumes, finish, List.foldlM_cons, hx] at hres
    exact hres
  | @release op r w hpc =>
    refine h.goto ha rfl rfl rfl (fun f _ => trivial) fun d hd hres => ⟨s.devices, ?_, rfl⟩
    rw [hpc] at hres
    exact hd.snoc hres.symm
  | @restore w hpc =>
    obtain ⟨hrun, hmode, -⟩ := setFlag_keeps s.core w true
    refine h.goto ha rfl hrun hmode (fun f _ => trivial) fun d hd hres => ⟨d, hd, ?_⟩
    rwa [hpc] at hres

theorem core (h : Atomic init s) (hex : Exclusive s) {e : Kernel.Event μ α R} {core : Core μ α R}
    (hmay : s.mayStep e = true) (hs : Kernel.Step p s.core e core) :
    Atomic init ({ s with core := core }.arrive e) := by
  obtain ⟨hflows, hhandler⟩ := hex.core_quiet hmay hs
  obtain ⟨hpc, -, hdevices, -, -, hcompleted, hport⟩ := arrive_keeps { s with core := core } e
  obtain ⟨d, hd, hres⟩ := h.resumes
  rw [current_eq_none hflows (.inl hhandler)] at hres
  refine ⟨fun f => ?_, d, ?_, ?_⟩
  · rw [hpc]
    exact h.begun f
  · rwa [hcompleted]
  · have hunmasked (f : Flow) :
        (({ s with core := core }.arrive e).pc (.flow f)).masked = false := by
      rw [hpc]
      exact hflows f
    have hstart := hport.imp (fun hsame => hsame.trans hhandler) And.right
    rw [current_eq_none hunmasked hstart, hdevices]
    exact hres

theorem step (h : Atomic init s) (hex : Exclusive s) (hs : Step p s e t) : Atomic init t := by
  cases hs.move with
  | core e core hmay hstep => exact h.core hex hmay hstep
  | call hm hcode hout hl =>
    refine h.goto (active_normal hm) rfl rfl rfl (fun f _ => hl) fun d hd hres => ⟨d, hd, ?_⟩
    rwa [hout] at hres
  | @dropped sc ha hport hl =>
    refine h.goto ha rfl rfl rfl (fun f _ => trivial) fun d hd hres => ⟨_, hd.snoc ?_, rfl⟩
    rw [hport] at hres
    have hsame : s.devices = d := hres
    have hfeed := decode_apply s.devices sc
    rw [hl] at hfeed
    exact hsame ▸ hfeed.symm
  | @decoded sc ha hport hl =>
    refine h.goto ha rfl rfl rfl (fun f hf => by cases hf) fun d hd hres => ⟨d, hd, ?_⟩
    rw [hport] at hres
    have hsame : s.devices = d := hres
    exact hsame ▸ decode_apply s.devices sc
  | advance ha hs => exact h.advance ha hs

end Atomic

end MoltOS.DeviceLock
