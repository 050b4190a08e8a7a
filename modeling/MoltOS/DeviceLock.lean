import MoltOS.DoomKeys
import MoltOS.KernelInv
import MoltOS.Vga

/-! The spin locks that are only taken inside `without_interrupts`, on the core that runs kernel
threads: WRITER of the screen, SERIAL1 of the serial port and KEY_RING of the Doom port. Threads
print and take keys, the keyboard handler feeds the ring. -/
namespace MoltOS.DeviceLock
open MoltOS.Rust MoltOS.Kernel MoltOS.Transition
open MoltOS.DoomKeys (Keys KeyEvent Report scancodeToDoom feedScancode dgGetKey)

variable {μ α R : Type}

inductive Device where
  | writer
  | serial
  | keyRing
deriving DecidableEq

/- `serial` is what the port has been sent; EXTENDED stands beside the ring. -/
structure Devices where
  writer : Vga.Writer
  serial : List UInt8
  keys : Keys

/- The two `_print` with the text their arguments format to, `clear_screen` and `DG_GetKey`, as
   threads call them, and the `feed_scancode` of the keyboard handler. -/
inductive Op where
  | print (text : List UInt8)
  | clearScreen
  | serialPrint (text : List UInt8)
  | getKey
  | feed (sc : UInt8)

def Op.device : Op → Device
  | .print _ | .clearScreen => .writer
  | .serialPrint _ => .serial
  | .getKey | .feed _ => .keyRing

/- What `DG_GetKey` reports; nothing for the other calls. -/
abbrev Result := Option Report

inductive Access where
  | byte (b : UInt8)
  | clearRow (row : Nat)
  | home
  | send (b : UInt8)
  | push (ev : KeyEvent)
  | pop

def Access.apply (x : Devices × Result) : Access → Except Panic (Devices × Result)
  | .byte b => do
    let w ← x.1.writer.writeByte (if Vga.Writer.Accepted b then b else 0xfe)
    pure ({ x.1 with writer := w }, x.2)
  | .clearRow row => do
    let w ← x.1.writer.clearRow row
    pure ({ x.1 with writer := w }, x.2)
  | .home => .ok ({ x.1 with writer := { x.1.writer with columnPosition := 0 } }, x.2)
  | .send b => .ok ({ x.1 with serial := x.1.serial ++ [b] }, x.2)
  | .push ev => .ok ({ x.1 with keys := { x.1.keys with ring := x.1.keys.ring.push ev } }, x.2)
  | .pop => .ok ({ x.1 with keys := (dgGetKey x.1.keys).2 }, (dgGetKey x.1.keys).1)

def finish (l : List Access) (x : Devices × Result) : Except Panic (Devices × Result) :=
  l.foldlM Access.apply x

def Op.accesses : Op → Option (List Access)
  | .print text => some (text.map .byte)
  | .clearScreen => some ((List.range' 0 Vga.bufferHeight).map .clearRow ++ [.home])
  | .serialPrint text => some (text.map .send)
  | .getKey => some [.pop]
  | .feed _ => none

/- `feed_scancode` up to its section: the access to EXTENDED, and what is left to do. -/
def decode (keys : Keys) (sc : UInt8) : Keys × List Access :=
  if sc = 0xE0 then ({ keys with extended := true }, [])
  else
    let pressed : UInt8 := if sc &&& 0x80 = 0 then 1 else 0
    let dk := scancodeToDoom (sc &&& 0x7F) keys.extended
    ({ keys with extended := false }, if dk ≠ 0 then [.push ⟨pressed, dk⟩] else [])

/- Where an agent stands in a call: in none; for the handler, before it reads the port; at
   `are_enabled`, at the `cli` after it, at the lock, between lock and unlock with what is left
   to do, and at the `sti`. -/
inductive Pc where
  | outside
  | port
  | enter (op : Op) (l : List Access)
  | disable (op : Op) (l : List Access) (wasEnabled : Bool)
  | lock (op : Op) (l : List Access) (wasEnabled : Bool)
  | body (op : Op) (l : List Access) (r : Result) (wasEnabled : Bool)
  | restore (wasEnabled : Bool)

inductive Agent where
  | flow (f : Flow)
  | handler
deriving DecidableEq

/- `called` and `completed` are history: every call when it begins, and with its result when it
   releases its lock. -/
structure State (μ α R : Type) where
  core : Core μ α R
  devices : Devices
  locks : Device → Option Agent
  pc : Agent → Pc
  called : List (Agent × Op)
  completed : List (Agent × Op × Result)

inductive Event (μ α R : Type) where
  | core (e : Kernel.Event μ α R)
  | call (op : Op)
  | scancode (sc : UInt8)
  | advance

def Pc.isOutside : Pc → Bool
  | .outside => true
  | _ => false

def setFlag (core : Core μ α R) (wasEnabled on : Bool) : Core μ α R :=
  if wasEnabled then { core with interrupts := on } else core

namespace State

def init (data : μ → α) (r : R) (devices : Devices) : State μ α R :=
  ⟨Core.init data r, devices, fun _ => none, fun _ => .outside, [], []⟩

/- Who executes: the running flow or the handler on top of it, before it locks SCHEDULER. -/
def active (s : State μ α R) : Option Agent :=
  match s.core.mode with
  | .normal => some (.flow s.core.running)
  | .irqSpin _ => some .handler
  | _ => none

def goto (s : State μ α R) (a : Agent) (k : Pc) : State μ α R :=
  { s with pc := Function.update s.pc a k }

def setLock (s : State μ α R) (d : Device) (o : Option Agent) : State μ α R :=
  { s with locks := Function.update s.locks d o }

def setKeys (s : State μ α R) (keys : Keys) : State μ α R :=
  { s with devices := { s.devices with keys := keys } }

def begin (s : State μ α R) (a : Agent) (op : Op) : State μ α R :=
  { s with called := s.called ++ [(a, op)] }

def complete (s : State μ α R) (a : Agent) (op : Op) (r : Result) : State μ α R :=
  { s with completed := s.completed ++ [(a, op, r)] }

def mayStep (s : State μ α R) (e : Kernel.Event μ α R) : Bool :=
  match e with
  | .irq _ => true
  | _ => s.active.all fun a => (s.pc a).isOutside

def arrive (s : State μ α R) : Kernel.Event μ α R → State μ α R
  | .irq .keyboard => s.goto .handler .port
  | _ => s

def advanceAt (s : State μ α R) (a : Agent) : Option (State μ α R) :=
  match s.pc a with
  | .outside => none
  | .port => none
  | .enter op l => some (s.goto a (.disable op l s.core.interrupts))
  | .disable op l w => some ({ s with core := setFlag s.core w false }.goto a (.lock op l w))
  | .lock op l w =>
    match s.locks op.device with
    | some _ => none
    | none => some ((s.setLock op.device (some a)).goto a (.body op l none w))
  | .body op (x :: l) r w =>
    match x.apply (s.devices, r) with
    | .ok (d, r) => some ({ s with devices := d }.goto a (.body op l r w))
    | .error _ => none
  | .body op [] r w =>
    some (((s.setLock op.device none).complete a op r).goto a (.restore w))
  | .restore w => some ({ s with core := setFlag s.core w true }.goto a .outside)

def call (s : State μ α R) (op : Op) : Option (State μ α R) :=
  match s.core.mode, s.core.pc s.core.running, s.pc (.flow s.core.running), op.accesses with
  | .normal, .code, .outside, some l =>
    some ((s.begin (.flow s.core.running) op).goto (.flow s.core.running) (.enter op l))
  | _, _, _, _ => none

/- The handler has read the port. Without a key to push `feed_scancode` is over here. -/
def scancode (s : State μ α R) (sc : UInt8) : Option (State μ α R) :=
  match s.active, s.pc .handler with
  | some .handler, .port =>
    let t := (s.setKeys (decode s.devices.keys sc).1).begin .handler (.feed sc)
    match (decode s.devices.keys sc).2 with
    | [] => some ((t.complete .handler (.feed sc) none).goto .handler .outside)
    | l => some (t.goto .handler (.enter (.feed sc) l))
  | _, _ => none

def step [DecidableEq μ] (p : Profile) (s : State μ α R) : Event μ α R → Option (State μ α R)
  | .core e =>
    if s.mayStep e then (s.core.step p e).map fun core => { s with core := core }.arrive e
    else none
  | .call op => s.call op
  | .scancode sc => s.scancode sc
  | .advance => s.active.bind s.advanceAt

end State

variable [DecidableEq μ] {p : Profile} {s t : State μ α R} {e : Event μ α R}

def Step (p : Profile) (s : State μ α R) (e : Event μ α R) (t : State μ α R) : Prop :=
  s.step p e = some t

inductive Advance (s : State μ α R) (a : Agent) : State μ α R → Prop where
  | enter {op : Op} {l : List Access} (hpc : s.pc a = .enter op l) :
      Advance s a (s.goto a (.disable op l s.core.interrupts))
  | disable {op : Op} {l : List Access} {w : Bool} (hpc : s.pc a = .disable op l w) :
      Advance s a ({ s with core := setFlag s.core w false }.goto a (.lock op l w))
  | take {op : Op} {l : List Access} {w : Bool} (hpc : s.pc a = .lock op l w)
      (hfree : s.locks op.device = none) :
      Advance s a ((s.setLock op.device (some a)).goto a (.body op l none w))
  | access {op : Op} {x : Access} {l : List Access} {r r' : Result} {w : Bool} {d : Devices}
      (hpc : s.pc a = .body op (x :: l) r w) (hx : x.apply (s.devices, r) = .ok (d, r')) :
      Advance s a ({ s with devices := d }.goto a (.body op l r' w))
  | release {op : Op} {r : Result} {w : Bool} (hpc : s.pc a = .body op [] r w) :
      Advance s a (((s.setLock op.device none).complete a op r).goto a (.restore w))
  | restore {w : Bool} (hpc : s.pc a = .restore w) :
      Advance s a ({ s with core := setFlag s.core w true }.goto a .outside)

inductive Move (p : Profile) (s : State μ α R) : Event μ α R → State μ α R → Prop where
  | core (e : Kernel.Event μ α R) (core : Core μ α R) (hmay : s.mayStep e = true)
      (hs : Kernel.Step p s.core e core) : Move p s (.core e) ({ s with core := core }.arrive e)
  | call {op : Op} {l : List Access} (hm : s.core.mode = .normal)
      (hcode : s.core.pc s.core.running = .code) (hout : s.pc (.flow s.core.running) = .outside)
      (hl : op.accesses = some l) :
      Move p s (.call op)
        ((s.begin (.flow s.core.running) op).goto (.flow s.core.running) (.enter op l))
  | dropped {sc : UInt8} (ha : s.active = some .handler) (hport : s.pc .handler = .port)
      (hl : (decode s.devices.keys sc).2 = []) :
      Move p s (.scancode sc)
        ((((s.setKeys (decode s.devices.keys sc).1).begin .handler (.feed sc)).complete
          .handler (.feed sc) none).goto .handler .outside)
  | decoded {sc : UInt8} (ha : s.active = some .handler) (hport : s.pc .handler = .port)
      (hl : (decode s.devices.keys sc).2 ≠ []) :
      Move p s (.scancode sc)
        (((s.setKeys (decode s.devices.keys sc).1).begin .handler (.feed sc)).goto .handler
          (.enter (.feed sc) (decode s.devices.keys sc).2))
  | advance {a : Agent} {t : State μ α R} (ha : s.active = some a) (hs : Advance s a t) :
      Move p s .advance t

omit [DecidableEq μ] in
theorem advanceAt_advance {a : Agent} (h : s.advanceAt a = some t) : Advance s a t := by
  unfold State.advanceAt at h
  split at h
  · cases h
  · cases h
  next hpc =>
    cases h
    exact .enter hpc
  next hpc =>
    cases h
    exact .disable hpc
  next hpc =>
    split at h
    · cases h
    next hfree =>
      cases h
      exact .take hpc hfree
  next hpc =>
    split at h
    next hx =>
      cases h
      exact .access hpc hx
    · cases h
  next hpc =>
    cases h
    exact .release hpc
  next hpc =>
    cases h
    exact .restore hpc

theorem Step.move (h : Step p s e t) : Move p s e t := by
  unfold Step State.step at h
  cases e with
  | core e =>
    simp only at h
    split at h
    next hmay =>
      obtain ⟨core, hs, rfl⟩ := Option.map_eq_some_iff.mp h
      exact .core e core hmay hs
    · cases h
  | call op =>
    simp only [State.call] at h
    split at h
    next hm hcode hout hl =>
      cases h
      exact .call hm hcode hout hl
    · cases h
  | scancode sc =>
    simp only [State.scancode] at h
    split at h
    next ha hport =>
      split at h
      next hl =>
        cases h
        exact .dropped ha hport hl
      next hl =>
        cases h
        exact .decoded ha hport hl
    · cases h
  | advance =>
    obtain ⟨a, ha, hs⟩ := Option.bind_eq_some_iff.mp h
    exact .advance ha (advanceAt_advance hs)

/- The windows in which interrupts are off. A flag found off stays off until the lock. -/
def Pc.masked : Pc → Bool
  | .disable _ _ w => !w
  | .lock _ _ _ | .body _ _ _ _ | .restore _ => true
  | _ => false

def Pc.holds : Pc → Option Device
  | .body op _ _ _ => some op.device
  | _ => none

/-- Interrupts are off in every section and in every handler; only the running flow is in a
section, and the handler only before SCHEDULER. -/
structure Exclusive (s : State μ α R) : Prop where
  flow : ∀ f, (s.pc (.flow f)).masked = true →
    s.core.running = f ∧ s.core.mode = .normal ∧ s.core.interrupts = false
  handler : s.pc .handler ≠ .outside →
    s.core.interrupts = false ∧ ∃ frame, s.core.mode = .irqSpin frame
  held : ∀ d a, s.locks d = some a → (s.pc a).holds = some d

omit [DecidableEq μ] in
theorem active_normal (hm : s.core.mode = .normal) :
    s.active = some (.flow s.core.running) := by
  simp [State.active, hm]

omit [DecidableEq μ] in
theorem active_flow {f : Flow} (h : s.active = some (.flow f)) :
    s.core.mode = .normal ∧ s.core.running = f := by
  unfold State.active at h
  split at h <;> simp_all

omit [DecidableEq μ] in
theorem active_handler (h : s.active = some .handler) : ∃ frame, s.core.mode = .irqSpin frame := by
  unfold State.active at h
  split at h <;> simp_all

theorem Pc.holds_masked {k : Pc} {d : Device} (h : k.holds = some d) : k.masked = true := by
  cases k <;> first | rfl | cases h

def Quiet (s : State μ α R) : Prop :=
  (∀ f, (s.pc (.flow f)).masked = false) ∧ s.pc .handler = .outside

omit [DecidableEq μ] in
/-- A flow that is outside, in normal mode, leaves nobody in a section. -/
theorem Exclusive.quiet (h : Exclusive s)
    (hflow : s.core.mode = .normal → s.core.interrupts = false →
      (s.pc (.flow s.core.running)).masked = false)
    (hhandler : (∃ frame, s.core.mode = .irqSpin frame) → s.pc .handler = .outside) : Quiet s := by
  refine ⟨fun f => ?_, ?_⟩
  · by_contra hf
    have hf : (s.pc (.flow f)).masked = true := by simpa using hf
    obtain ⟨rfl, hm, hi⟩ := h.flow f hf
    rw [hflow hm hi] at hf
    cases hf
  · by_contra hh
    exact hh (hhandler (h.handler hh).2)

theorem irq_core {c d : Core μ α R} {k : Irq} (hs : Kernel.Step p c (.irq k) d) :
    c.mode = .normal ∧ c.interrupts = true ∧ d = c.irq k := by
  cases hs.move with
  | jump hm hj => cases hj
  | irq k hm hi => exact ⟨hm, hi, rfl⟩

/-- The core moves only while nobody is in a section. -/
theorem Exclusive.core_quiet {e : Kernel.Event μ α R} {core : Core μ α R} (h : Exclusive s)
    (hmay : s.mayStep e = true) (hs : Kernel.Step p s.core e core) : Quiet s := by
  by_cases hirq : ∃ k, e = .irq k
  · obtain ⟨k, rfl⟩ := hirq
    obtain ⟨hmode, hopen, -⟩ := irq_core hs
    refine h.quiet (fun _ hi => ?_) fun ⟨frame, hm⟩ => ?_
    · rw [hopen] at hi
      cases hi
    · rw [hmode] at hm
      cases hm
  · have hout : s.active.all (fun a => (s.pc a).isOutside) = true := by
      cases e with
      | irq k => exact absurd ⟨k, rfl⟩ hirq
      | _ => exact hmay
    refine h.quiet (fun hm _ => ?_) fun ⟨frame, hm⟩ => ?_
    · rw [active_normal hm] at hout
      cases hk : s.pc (.flow s.core.running) <;> simp_all [Pc.isOutside, Pc.masked]
    · have ha : s.active = some .handler := by simp [State.active, hm]
      rw [ha] at hout
      cases hk : s.pc .handler <;> simp_all [Pc.isOutside]

omit [DecidableEq μ] in
/-- A step of the active agent: it may enter a masked window or stay in the handler only with
interrupts off. -/
theorem Exclusive.goto (h : Exclusive s) {a : Agent} (ha : s.active = some a) {k : Pc}
    (hpc : t.pc = Function.update s.pc a k) (hrun : t.core.running = s.core.running)
    (hmode : t.core.mode = s.core.mode)
    (hoff : k.masked = true ∨ a = .handler ∧ k ≠ .outside → t.core.interrupts = false)
    (hheld : ∀ d b, t.locks d = some b → (t.pc b).holds = some d) : Exclusive t := by
  refine ⟨fun f hf => ?_, fun hne => ?_, hheld⟩
  · rw [hpc] at hf
    by_cases hfa : a = .flow f
    · subst hfa
      obtain ⟨hm, hr⟩ := active_flow ha
      rw [Function.update_self] at hf
      exact ⟨hrun.trans hr, hmode.trans hm, hoff (.inl hf)⟩
    · rw [Function.update_of_ne (Ne.symm hfa)] at hf
      obtain ⟨hr, hm, -⟩ := h.flow f hf
      rw [active_normal hm, hr] at ha
      exact absurd (Option.some.inj ha).symm hfa
  · rw [hpc] at hne
    by_cases hah : a = .handler
    · subst hah
      rw [Function.update_self] at hne
      rw [hmode]
      exact ⟨hoff (.inr ⟨rfl, hne⟩), active_handler ha⟩
    · rw [Function.update_of_ne (Ne.symm hah)] at hne
      obtain ⟨frame, hm⟩ := (h.handler hne).2
      simp only [State.active, hm, Option.some.injEq] at ha
      exact absurd ha.symm hah

omit [DecidableEq μ] in
/-- Only the active agent can hold a lock. -/
theorem Exclusive.holder (h : Exclusive s) {d : Device} {b : Agent} (hd : s.locks d = some b) :
    s.active = some b := by
  have hb := h.held d b hd
  cases b with
  | flow f =>
    obtain ⟨rfl, hm, -⟩ := h.flow f (Pc.holds_masked hb)
    exact active_normal hm
  | handler =>
    have hne : s.pc .handler ≠ .outside := by
      intro hout
      rw [hout] at hb
      cases hb
    obtain ⟨frame, hm⟩ := (h.handler hne).2
    simp [State.active, hm]

omit [DecidableEq μ] in
/-- At the lock of a device the active agent finds it free. -/
theorem Exclusive.free (h : Exclusive s) {a : Agent} (ha : s.active = some a)
    (hk : (s.pc a).holds = none) (d : Device) : s.locks d = none := by
  by_contra hne
  obtain ⟨b, hb⟩ := Option.ne_none_iff_exists'.mp hne
  have hab : a = b := Option.some.inj (ha.symm.trans (h.holder hb))
  have hd := h.held d b hb
  rw [← hab, hk] at hd
  cases hd

omit [DecidableEq μ] in
/-- A step that changes no lock keeps them with their holder. -/
theorem Exclusive.held_goto (h : Exclusive s) {a : Agent} {k : Pc}
    (hk : k.holds = (s.pc a).holds) {d : Device} {b : Agent} (hd : s.locks d = some b) :
    (Function.update s.pc a k b).holds = some d := by
  by_cases hb : b = a
  · subst hb
    rw [Function.update_self, hk]
    exact h.held d b hd
  · rw [Function.update_of_ne hb]
    exact h.held d b hd

omit [DecidableEq μ] in
/-- What a section leaves alone in the core. -/
theorem setFlag_keeps (core : Core μ α R) (w on : Bool) :
    (setFlag core w on).running = core.running ∧ (setFlag core w on).mode = core.mode ∧
      (setFlag core w on).pc = core.pc := by
  cases w <;> exact ⟨rfl, rfl, rfl⟩

omit [DecidableEq μ] in
/-- Interrupts are off for an agent in a masked window, and throughout the handler. -/
theorem Exclusive.off (h : Exclusive s) {a : Agent}
    (hk : (s.pc a).masked = true ∨ a = .handler ∧ s.pc a ≠ .outside) :
    s.core.interrupts = false := by
  obtain hk | ⟨rfl, hk⟩ := hk
  · cases a with
    | flow f => exact (h.flow f hk).2.2
    | handler =>
      refine (h.handler fun hout => ?_).1
      rw [hout] at hk
      cases hk
  · exact (h.handler hk).1

omit [DecidableEq μ] in
theorem Exclusive.advance (h : Exclusive s) {a : Agent} (ha : s.active = some a)
    (hs : Advance s a t) : Exclusive t := by
  cases hs with
  | enter hpc =>
    refine h.goto ha rfl rfl rfl (fun hk => ?_) fun d b => h.held_goto (by rw [hpc]; rfl)
    change s.core.interrupts = false
    obtain hk | ⟨rfl, -⟩ := hk
    · simpa [Pc.masked] using hk
    · exact h.off (.inr ⟨rfl, by simp [hpc]⟩)
  | @disable op l w hpc =>
    obtain ⟨hrun, hmode, -⟩ := setFlag_keeps s.core w false
    refine h.goto ha rfl hrun hmode (fun _ => ?_) fun d b => h.held_goto (by rw [hpc]; rfl)
    cases w with
    | true => rfl
    | false => exact h.off (.inl (by rw [hpc]; rfl))
  | @take op l w hpc hfree =>
    refine h.goto ha rfl rfl rfl (fun _ => h.off (.inl (by rw [hpc]; rfl))) fun d b hd => ?_
    by_cases hop : d = op.device
    · subst hop
      simp only [State.goto, State.setLock, Function.update_self, Option.some.injEq] at hd
      subst hd
      simp [State.goto, Pc.holds]
    · simp only [State.goto, State.setLock, Function.update_of_ne hop] at hd
      rw [h.free ha (by rw [hpc]; rfl) d] at hd
      cases hd
  | access hpc hx =>
    exact h.goto ha rfl rfl rfl (fun _ => h.off (.inl (by rw [hpc]; rfl)))
      fun d b => h.held_goto (by rw [hpc]; rfl)
  | @release op r w hpc =>
    refine h.goto ha rfl rfl rfl (fun _ => h.off (.inl (by rw [hpc]; rfl))) fun d b hd => ?_
    by_cases hop : d = op.device
    · subst hop
      simp [State.goto, State.complete, State.setLock] at hd
    · simp only [State.goto, State.complete, State.setLock, Function.update_of_ne hop] at hd
      have hab : a = b := Option.some.inj (ha.symm.trans (h.holder hd))
      have hdev := h.held d b hd
      rw [← hab, hpc] at hdev
      exact absurd (Option.some.inj hdev).symm hop
  | @restore w hpc =>
    obtain ⟨hrun, hmode, -⟩ := setFlag_keeps s.core w true
    refine h.goto ha rfl hrun hmode (fun hk => ?_) fun d b => h.held_goto (by rw [hpc]; rfl)
    obtain hk | ⟨-, hk⟩ := hk
    · cases hk
    · exact absurd rfl hk

omit [DecidableEq μ] in
/-- An event of the core moves no flow inside a call, and the handler only at its start. -/
theorem arrive_keeps (s : State μ α R) (e : Kernel.Event μ α R) :
    (∀ f, (s.arrive e).pc (.flow f) = s.pc (.flow f)) ∧ (s.arrive e).core = s.core ∧
      (s.arrive e).devices = s.devices ∧ (s.arrive e).locks = s.locks ∧
      (s.arrive e).called = s.called ∧ (s.arrive e).completed = s.completed ∧
      ((s.arrive e).pc .handler = s.pc .handler ∨
        e = .irq .keyboard ∧ (s.arrive e).pc .handler = .port) := by
  unfold State.arrive
  split
  · exact ⟨fun f => by simp [State.goto], rfl, rfl, rfl, rfl, rfl, .inr ⟨rfl, by simp [State.goto]⟩⟩
  · exact ⟨fun f => rfl, rfl, rfl, rfl, rfl, rfl, .inl rfl⟩

theorem Exclusive.core (h : Exclusive s) {e : Kernel.Event μ α R} {core : Core μ α R}
    (hmay : s.mayStep e = true) (hs : Kernel.Step p s.core e core) :
    Exclusive ({ s with core := core }.arrive e) := by
  obtain ⟨hflows, hhandler⟩ := h.core_quiet hmay hs
  obtain ⟨hpc, hcore, -, hlocks, -, -, hport⟩ := arrive_keeps { s with core := core } e
  refine ⟨fun f hf => ?_, fun hne => ?_, fun d b hd => ?_⟩
  · rw [hpc, hflows] at hf
    cases hf
  · obtain hsame | ⟨rfl, -⟩ := hport
    · exact absurd (hsame.trans hhandler) hne
    · obtain ⟨-, -, rfl⟩ := irq_core hs
      exact ⟨rfl, _, rfl⟩
  · -- nobody holds a lock
    rw [hlocks] at hd
    have hb := h.held d b hd
    cases b with
    | flow f =>
      have hmask := Pc.holds_masked hb
      rw [hflows] at hmask
      cases hmask
    | handler =>
      rw [hhandler] at hb
      cases hb

theorem Exclusive.step (h : Exclusive s) (hs : Step p s e t) : Exclusive t := by
  cases hs.move with
  | core e core hmay hstep => exact h.core hmay hstep
  | call hm hcode hout hl =>
    refine h.goto (active_normal hm) rfl rfl rfl (fun hk => ?_) fun d b =>
      h.held_goto (by rw [hout]; rfl)
    obtain hk | ⟨hk, -⟩ := hk <;> cases hk
  | dropped ha hport hl =>
    refine h.goto ha rfl rfl rfl (fun hk => ?_) fun d b => h.held_goto (by rw [hport]; rfl)
    obtain hk | ⟨-, hk⟩ := hk
    · cases hk
    · exact absurd rfl hk
  | decoded ha hport hl =>
    exact h.goto ha rfl rfl rfl (fun _ => (h.handler (by simp [hport])).1)
      fun d b => h.held_goto (by rw [hport]; rfl)
  | advance ha hs => exact h.advance ha hs

omit [DecidableEq μ] in
theorem Exclusive.init (data : μ → α) (r : R) (devices : Devices) :
    Exclusive (State.init data r devices) := by
  refine ⟨fun f hf => ?_, fun hne => absurd rfl hne, fun d a hd => ?_⟩
  · cases hf
  · cases hd

end MoltOS.DeviceLock
