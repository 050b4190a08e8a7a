import MoltOS.DeviceAtomic

/-! What the calls of threads and of the keyboard handler amount to on the screen, on the serial
port and in the key ring, and that none of them waits. -/
namespace MoltOS.DeviceLock
open MoltOS.Rust MoltOS.Kernel MoltOS.Transition
open MoltOS.DoomKeys (Keys)
open MoltOS.Vga (Shows Terminal)

variable {μ α R : Type} [DecidableEq μ] {p : Profile} {s t : State μ α R} {e : Event μ α R}

def callsOf (a : Agent) (l : List (Agent × Op)) : List Op :=
  (l.filter fun x => x.1 = a).map (·.2)

def State.finished (s : State μ α R) : List (Agent × Op) := s.completed.map fun x => (x.1, x.2.1)

def Pc.inCall : Pc → List Op
  | .enter op _ | .disable op _ _ | .lock op _ _ | .body op _ _ _ => [op]
  | _ => []

def InOrder (s : State μ α R) : Prop :=
  ∀ a, callsOf a s.called = callsOf a s.finished ++ (s.pc a).inCall

theorem callsOf_snoc (a b : Agent) (l : List (Agent × Op)) (op : Op) :
    callsOf a (l ++ [(b, op)]) = callsOf a l ++ if b = a then [op] else [] := by
  by_cases h : b = a <;> simp [callsOf, List.filter_append, h]

theorem callsOf_same (a b : Agent) (l : List (Agent × Op)) :
    callsOf b l = callsOf b l ++ if a = b then [] else [] := by
  simp

omit [DecidableEq μ] in
/- What a step of `a` adds to the two histories. -/
theorem InOrder.goto (h : InOrder s) {a : Agent} {k : Pc} {new old : List Op}
    (hpc : t.pc = Function.update s.pc a k)
    (hcalled : ∀ b, callsOf b t.called = callsOf b s.called ++ if a = b then new else [])
    (hfinished : ∀ b, callsOf b t.finished = callsOf b s.finished ++ if a = b then old else [])
    (hk : (s.pc a).inCall ++ new = old ++ k.inCall) : InOrder t := by
  intro b
  rw [hcalled, hfinished, h b, hpc]
  by_cases hb : a = b
  · subst hb
    simp only [if_true, Function.update_self, List.append_assoc, hk]
  · simp only [if_neg hb, Function.update_of_ne (Ne.symm hb), List.append_nil]

omit [DecidableEq μ] in
theorem finished_complete (s : State μ α R) (a b : Agent) (op : Op) (r : Result) :
    callsOf b (s.complete a op r).finished = callsOf b s.finished ++ if a = b then [op] else [] := by
  rw [State.finished, State.complete, List.map_append]
  exact callsOf_snoc b a _ op

omit [DecidableEq μ] in
theorem InOrder.advance (h : InOrder s) {a : Agent} (hs : Advance s a t) : InOrder t := by
  have hnone (l : List (Agent × Op)) (b : Agent) := callsOf_same a b l
  cases hs with
  | @release op r w hpc =>
    exact h.goto rfl (hnone _) (fun b => finished_complete (s.setLock op.device none) a b op r)
      (by rw [hpc]; rfl)
  | enter hpc => exact h.goto rfl (hnone _) (hnone _) (by rw [hpc]; rfl)
  | disable hpc => exact h.goto rfl (hnone _) (hnone _) (by rw [hpc]; rfl)
  | take hpc hfree => exact h.goto rfl (hnone _) (hnone _) (by rw [hpc]; rfl)
  | access hpc hx => exact h.goto rfl (hnone _) (hnone _) (by rw [hpc]; rfl)
  | restore hpc => exact h.goto rfl (hnone _) (hnone _) (by rw [hpc]; rfl)

theorem InOrder.step (h : InOrder s) (hex : Exclusive s) (hs : Step p s e t) : InOrder t := by
  cases hs.move with
  | core e core hmay hstep =>
    obtain ⟨-, hhandler⟩ := hex.core_quiet hmay hstep
    obtain ⟨hpc, -, -, -, hcalled, hcompleted, hport⟩ := arrive_keeps { s with core := core } e
    intro b
    rw [State.finished, hcalled, hcompleted]
    have hsame : (({ s with core := core }.arrive e).pc b).inCall = (s.pc b).inCall := by
      cases b with
      | flow f => rw [hpc]
      | handler =>
        obtain hsame | ⟨-, hport⟩ := hport
        · rw [hsame]
        · rw [hport, hhandler]
          rfl
    rw [hsame]
    exact h b
  | @call op l hm hcode hout hl =>
    exact h.goto rfl (fun b => callsOf_snoc b _ _ op) (fun b => callsOf_same _ b s.finished)
      (by rw [hout]; rfl)
  | @dropped sc ha hport hl =>
    exact h.goto rfl (fun b => callsOf_snoc b _ _ (.feed sc))
      (fun b => finished_complete s .handler b (.feed sc) none) (by rw [hport]; rfl)
  | @decoded sc ha hport hl =>
    exact h.goto rfl (fun b => callsOf_snoc b _ _ (.feed sc))
      (fun b => callsOf_same _ b s.finished) (by rw [hport]; rfl)
  | advance ha hs => exact h.advance hs

def Op.onScreen : Op → Option Vga.Call
  | .print text => some (.writeString text)
  | .clearScreen => some .clearScreen
  | _ => none

def Op.onSerial : Op → List UInt8
  | .serialPrint text => text
  | _ => []

def Op.onKeys : Op → Option DoomKeys.Event
  | .getKey => some .getKey
  | .feed sc => some (.feed sc)
  | _ => none

/-- No call panics while the writer shows a terminal. -/
theorem apply_ok {Pad : Vga.ScreenChar → Prop} {d : Devices} {term : Terminal}
    (h : Shows Pad d.writer term) (hpad : Pad d.writer.blank) (op : Op) :
    ∃ x, op.apply d = .ok x := by
  cases op with
  | print text =>
    obtain ⟨w, hw, -⟩ := h.writeString hpad text
    exact ⟨_, by rw [Op.apply, hw]; rfl⟩
  | clearScreen => exact ⟨_, by rw [Op.apply, Vga.Writer.clearScreen_eq]; rfl⟩
  | _ => exact ⟨_, rfl⟩

/-- Before anything is printed the screen shows an empty terminal, over whatever is there. -/
theorem shows_empty {w : Vga.Writer} (h : w.columnPosition = 0) :
    Shows (fun _ => True) w (LineTerminal.empty Vga.ScreenChar Vga.bufferWidth) := by
  refine ⟨h, fun r c => ?_⟩
  cases hi : Vga.bufferHeight - 1 - r.val <;> exact trivial

structure Served (Pad : Vga.ScreenChar → Prop) (d : Devices) (term : Terminal)
    (l : List (Agent × Op × Result)) (d' : Devices) : Prop where
  color : d'.writer.colorCode = d.writer.colorCode
  screen : Shows Pad d'.writer
    (Terminal.calls d.writer.colorCode term (l.filterMap (·.2.1.onScreen)))
  serial : d'.serial = d.serial ++ l.flatMap (·.2.1.onSerial)
  keys : (l.filterMap (·.2.2), d'.keys) = DoomKeys.run d.keys (l.filterMap (·.2.1.onKeys))

theorem served_one {Pad : Vga.ScreenChar → Prop} {d d' : Devices} {term : Terminal}
    {x : Agent × Op × Result} (h : Shows Pad d.writer term) (hpad : Pad d.writer.blank)
    (hx : Performs d x d') : Served Pad d term [x] d' := by
  obtain ⟨a, op, r⟩ := x
  cases op with
  | print text =>
    obtain ⟨w, hw, hcolor, hshows⟩ := h.writeString hpad text
    simp only [Performs, Op.apply, hw] at hx
    cases hx
    exact ⟨hcolor, hshows, by simp [Op.onSerial], rfl⟩
  | clearScreen =>
    simp only [Performs, Op.apply, Vga.Writer.clearScreen_eq] at hx
    cases hx
    exact ⟨rfl, Shows.clearScreen hpad, by simp [Op.onSerial], rfl⟩
  | serialPrint text =>
    cases hx
    exact ⟨rfl, h, by simp [Op.onSerial], rfl⟩
  | getKey =>
    have hreport (o : Result) : [(a, Op.getKey, o)].filterMap (·.2.2) = o.toList ++ [] := by
      cases o <;> rfl
    cases hx
    exact ⟨rfl, h, by simp [Op.onSerial], Prod.ext (hreport _) rfl⟩
  | feed sc =>
    cases hx
    exact ⟨rfl, h, by simp [Op.onSerial], rfl⟩

theorem keys_run_append (k : Keys) (l m : List DoomKeys.Event) :
    DoomKeys.run k (l ++ m) = ((DoomKeys.run k l).1 ++ (DoomKeys.run (DoomKeys.run k l).2 m).1,
      (DoomKeys.run (DoomKeys.run k l).2 m).2) := by
  induction l generalizing k with
  | nil => rfl
  | cons x l ih =>
    cases x with
    | feed sc => exact ih _
    | getKey => simp [DoomKeys.run, ih]

theorem Served.trans {Pad : Vga.ScreenChar → Prop} {d d₁ d₂ : Devices} {term : Terminal}
    {l m : List (Agent × Op × Result)} (h : Served Pad d term l d₁)
    (hm : Served Pad d₁ (Terminal.calls d.writer.colorCode term (l.filterMap (·.2.1.onScreen))) m d₂) :
    Served Pad d term (l ++ m) d₂ := by
  refine ⟨hm.color.trans h.color, ?_, ?_, ?_⟩
  · have hscreen := hm.screen
    rw [h.color] at hscreen
    simpa [Terminal.calls] using hscreen
  · rw [hm.serial, h.serial, List.flatMap_append, List.append_assoc]
  · have hone := h.keys
    have htwo := hm.keys
    rw [List.filterMap_append, List.filterMap_append, keys_run_append, ← hone, ← htwo]

/-- Completed calls leave each device as its own calls, in their order, leave it. -/
theorem served {Pad : Vga.ScreenChar → Prop} {d d' : Devices} {term : Terminal}
    {l : List (Agent × Op × Result)} (hl : Run Performs d l d')
    (h : Shows Pad d.writer term) (hpad : Pad d.writer.blank) : Served Pad d term l d' := by
  induction hl generalizing term with
  | nil d => exact ⟨rfl, h, (List.append_nil _).symm, rfl⟩
  | cons hx _ ih =>
    have hone := served_one h hpad hx
    have hpad' := hpad
    rw [Vga.Writer.blank, ← hone.color] at hpad'
    exact hone.trans (ih hone.screen hpad')

def Pc.work : Pc → Nat
  | .enter _ l => l.length + 5
  | .disable _ l _ => l.length + 4
  | .lock _ l _ => l.length + 3
  | .body _ l _ _ => l.length + 2
  | .restore _ => 1
  | .outside | .port => 0

structure Sound (init : Devices) (s : State μ α R) : Prop where
  exclusive : Exclusive s
  code : InCode s
  atomic : Atomic init s
  order : InOrder s

theorem Sound.step {init : Devices} (h : Sound init s) (hs : Step p s e t) : Sound init t :=
  ⟨h.exclusive.step hs, h.code.step h.exclusive hs, h.atomic.step h.exclusive hs,
    h.order.step h.exclusive hs⟩

omit [DecidableEq μ] in
theorem Sound.init (data : μ → α) (r : R) (devices : Devices) :
    Sound devices (State.init data r devices) :=
  ⟨Exclusive.init data r devices, ⟨fun _ hf => absurd rfl hf, rfl⟩,
    ⟨fun _ => trivial, devices, .nil _, rfl⟩, fun _ => rfl⟩

/-- A call under way goes on: its lock is free and its next access does not panic. -/
theorem Sound.exists_advance {init : Devices} (h : Sound init s) {term : Terminal}
    (hshows : Shows (fun _ => True) init.writer term) {a : Agent} (ha : s.active = some a)
    (hout : s.pc a ≠ .outside) (hport : s.pc a ≠ .port) : ∃ t, Step p s .advance t := by
  simp only [Step, State.step, ha, Option.bind_some, State.advanceAt]
  cases hk : s.pc a with
  | outside => exact absurd hk hout
  | port => exact absurd hk hport
  | enter op l => exact ⟨_, rfl⟩
  | disable op l w => exact ⟨_, rfl⟩
  | restore w => exact ⟨_, rfl⟩
  | lock op l w =>
    have hfree := h.exclusive.free ha (by rw [hk]; rfl) op.device
    simp only [hfree]
    exact ⟨_, rfl⟩
  | body op l r w =>
    cases l with
    | nil => exact ⟨_, rfl⟩
    | cons x l =>
      obtain ⟨d, hd, hres⟩ := h.atomic.resumes
      rw [current_of_active ha, hk] at hres
      obtain ⟨y, hy⟩ := apply_ok (served hd hshows trivial).screen trivial op
      simp only [Pc.pending, Resumes, finish, List.foldlM_cons, hy] at hres
      cases hx : x.apply (s.devices, r) with
      | ok z =>
        simp only [hx]
        exact ⟨_, rfl⟩
      | error e =>
        rw [hx] at hres
        cases hres

omit [DecidableEq μ] in
/-- A step inside a call brings it one step nearer to its end, and begins no other. -/
theorem Advance.lowers {a : Agent} (hs : Advance s a t) :
    (t.pc a).work < (s.pc a).work ∧ t.pc a ≠ .port ∧ t.active = s.active ∧ t.called = s.called := by
  cases hs with
  | enter hpc => simp [State.goto, hpc, Pc.work, State.active]
  | @disable op l w hpc =>
    obtain ⟨hrun, hmode, -⟩ := setFlag_keeps s.core w false
    refine ⟨?_, by simp [State.goto], active_congr hrun hmode, rfl⟩
    simp [State.goto, hpc, Pc.work]
  | take hpc hfree => simp [State.goto, State.setLock, hpc, Pc.work, State.active]
  | access hpc hx => simp [State.goto, hpc, Pc.work, State.active]
  | release hpc => simp [State.goto, State.setLock, State.complete, hpc, Pc.work, State.active]
  | @restore w hpc =>
    obtain ⟨hrun, hmode, -⟩ := setFlag_keeps s.core w true
    refine ⟨?_, by simp [State.goto], active_congr hrun hmode, rfl⟩
    simp [State.goto, hpc, Pc.work]

def blankDevices : Devices := ⟨⟨0, 0x0e, ⟨fun _ _ => ⟨0, 0⟩⟩⟩, [], Keys.new⟩

/- Two threads. The first begins to print and is interrupted by a key before its `cli`. The
   handler feeds the ring and switches to the second one, which takes the key and comes to the
   lock of the serial port. -/
def keyEvents : List (Event Unit Nat Unit) :=
  (bootEvents 2).map .core ++ [.call (.print [72, 105]), .advance, .core (.irq .keyboard),
    .scancode 0x1E] ++ List.replicate 6 .advance ++ List.replicate 3 (.core .advance) ++
    [.call .getKey] ++ List.replicate 6 .advance ++ [.call (.serialPrint [33])] ++
    List.replicate 2 .advance

def keyTaken (s : State Unit Nat Unit) : Bool :=
  decide (s.active = some (.flow (.thread 1))) &&
    decide (s.completed.map (fun x => (x.1, x.2.2)) =
      [(.handler, none), (.flow (.thread 1), some (1, 97))]) &&
    (match s.pc (.flow (.thread 0)), s.pc (.flow (.thread 1)) with
    | .disable _ _ true, .lock _ _ true => true
    | _, _ => false)

theorem keyTaken_reached : ∃ s : State Unit Nat Unit,
    Reachable (Step .dev) (State.init (fun _ => 0) () blankDevices) s ∧ keyTaken s = true := by
  have hrun : ((exec (State.step .dev) (State.init (fun _ => 0) () blankDevices)
      keyEvents).any keyTaken) = true := by decide +kernel
  exact reachable_of_exec hrun

theorem keyTaken_iff {s : State Unit Nat Unit} (h : keyTaken s = true) :
    s.active = some (.flow (.thread 1)) ∧ s.completed.length = 2 ∧
      s.pc (.flow (.thread 1)) ≠ .port := by
  simp only [keyTaken, Bool.and_eq_true, decide_eq_true_eq] at h
  obtain ⟨⟨hactive, hcompleted⟩, hpc⟩ := h
  refine ⟨hactive, ?_, fun hport => ?_⟩
  · simpa using congrArg List.length hcompleted
  · rw [hport] at hpc
    split at hpc <;> simp_all

/-- A device call never waits. In every reachable state, under any interrupts and preemption, the
agent that executes finds the lock of its device free; and the call it is in is over after at most
five steps more than it has accesses left, without a panic and with all its agent's calls
completed. Seen from the kernel's core nothing but `cli` and `sti` happens. -/
theorem device_call_returns (data : μ → α) (r : R) (devices : Devices)
    (hcolumn : devices.writer.columnPosition = 0) (s : State μ α R)
    (h : Reachable (Step p) (State.init data r devices) s) :
    Reachable (Kernel.Step p) (Core.init data r) s.core ∧
    ∀ a, s.active = some a →
      (∀ op l w, s.pc a = .lock op l w → s.locks op.device = none) ∧
      (s.pc a ≠ .port → ∃ n t, n ≤ (s.pc a).work ∧
        Run (Step p) s (List.replicate n .advance) t ∧ t.pc a = .outside ∧
        callsOf a t.finished = callsOf a s.called) := by
  have hboth : Sound devices s ∧ Reachable (Kernel.Step p) (Core.init data r) s.core := by
    have hstep (u : State μ α R) (e : Event μ α R) (v : State μ α R)
        (hu : Sound devices u ∧ Reachable (Kernel.Step p) (Core.init data r) u.core)
        (hs : Step p u e v) :
        Sound devices v ∧ Reachable (Kernel.Step p) (Core.init data r) v.core :=
      ⟨hu.1.step hs, core_step_reachable hu.1.code hu.2 hs⟩
    exact h.invariant hstep ⟨Sound.init data r devices, [], .nil _⟩
  obtain ⟨hsound, hcore⟩ := hboth
  refine ⟨hcore, fun a ha => ⟨fun op l w hk => ?_, fun hport => ?_⟩⟩
  · exact hsound.exclusive.free ha (by rw [hk]; rfl) op.device
  · have hshows := shows_empty hcolumn
    have hlower (u : State μ α R) (hu : Sound devices u ∧ u.active = some a ∧ u.pc a ≠ .port ∧
        u.called = s.called) (hout : ¬ u.pc a = .outside) :
        ∃ v, Step p u .advance v ∧ (Sound devices v ∧ v.active = some a ∧ v.pc a ≠ .port ∧
          v.called = s.called) ∧ (v.pc a).work < (u.pc a).work := by
      obtain ⟨hs, ha, hport, hcalled⟩ := hu
      obtain ⟨v, hv⟩ := hs.exists_advance hshows ha hout hport
      cases hv.move with
      | advance hb hadv =>
        cases Option.some.inj (ha.symm.trans hb)
        obtain ⟨hwork, hport', hactive, hcalled'⟩ := hadv.lowers
        exact ⟨v, hv, ⟨hs.step hv, hactive.trans ha, hport', hcalled'.trans hcalled⟩, hwork⟩
    obtain ⟨n, t, hn, hrun, ⟨ht, -, -, hcalled⟩, hend⟩ :=
      Run.settles hlower ⟨hsound, ha, hport, rfl⟩
    refine ⟨n, t, hn, hrun, hend, ?_⟩
    have horder := ht.order a
    rw [hend, hcalled] at horder
    exact (horder.trans (List.append_nil _)).symm

theorem serial_call_returns : ∃ s : State Unit Nat Unit,
    s.active = some (.flow (.thread 1)) ∧ s.pc (.flow (.thread 1)) ≠ .port ∧
    Reachable (Kernel.Step .dev) (Core.init (fun _ => 0) ()) s.core ∧
    ∃ n t, n ≤ (s.pc (.flow (.thread 1))).work ∧
      Run (Step .dev) s (List.replicate n .advance) t ∧ t.pc (.flow (.thread 1)) = .outside := by
  obtain ⟨s, hreach, hp⟩ := keyTaken_reached
  obtain ⟨hactive, -, hport⟩ := keyTaken_iff hp
  obtain ⟨hcore, hcalls⟩ := device_call_returns (fun _ => 0) () blankDevices rfl s hreach
  obtain ⟨n, t, hn, hrun, hend, -⟩ := (hcalls _ hactive).2 hport
  exact ⟨s, hactive, hport, hcore, n, t, hn, hrun, hend⟩

/-- Device calls are atomic. In every reachable state, under any interrupts and preemption, the
completed calls with their results are a run of the machine that takes each call as one step, and
outside a call under way the devices are those of that machine: the screen shows the terminal of
the texts printed, one whole text after the other, the serial port has been sent whole texts, and
Doom has got the reports of its calls and the scancodes in that order. Every agent's calls
complete in the order it makes them, none is lost and none is repeated. -/
theorem device_calls_linearize (data : μ → α) (r : R) (devices : Devices)
    (hcolumn : devices.writer.columnPosition = 0) (s : State μ α R)
    (h : Reachable (Step p) (State.init data r devices) s) :
    ∃ d, Run Performs devices s.completed d ∧ (s.current = none → s.devices = d) ∧
      Served (fun _ => True) devices (.empty _ _) s.completed d ∧
      ∀ a, callsOf a s.called = callsOf a s.finished ++ (s.pc a).inCall := by
  have hsound : Sound devices s :=
    h.invariant (fun _ _ _ hu hs => hu.step hs) (Sound.init data r devices)
  obtain ⟨d, hd, hres⟩ := hsound.atomic.resumes
  refine ⟨d, hd, fun hnone => ?_, served hd (shows_empty hcolumn) trivial, hsound.order⟩
  rw [hnone] at hres
  exact hres

theorem key_reported : ∃ s : State Unit Nat Unit, s.completed.length = 2 ∧
    ∃ d, Run Performs blankDevices s.completed d ∧
      Served (fun _ => True) blankDevices (.empty _ _) s.completed d := by
  obtain ⟨s, hreach, hp⟩ := keyTaken_reached
  obtain ⟨-, hlength, -⟩ := keyTaken_iff hp
  obtain ⟨d, hrun, -, hserved, -⟩ :=
    device_calls_linearize (fun _ => 0) () blankDevices rfl s hreach
  exact ⟨s, hlength, d, hrun, hserved⟩

end MoltOS.DeviceLock
