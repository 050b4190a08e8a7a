import MoltOS.RingBuffer

/-! The key ring of the Doom port, and the path of a scancode byte from the keyboard interrupt to
Doom: `feed_scancode` decodes it into the ring and `DG_GetKey` takes one event out. Interrupts
are off while the ring is locked, so each call is one step. -/
namespace MoltOS.DoomKeys

def keyBufSize : Nat := 32

structure KeyEvent where
  pressed : UInt8
  key : UInt8
deriving DecidableEq

abbrev KeyRing := RingBuffer KeyEvent keyBufSize

def KeyRing.new : KeyRing := RingBuffer.empty ⟨0, 0⟩ (by decide)

/-- Over any pushes and pops the key ring is a queue of 31 events that ignores a push when full:
its pops return what the queue's do, the accepted events come out in their order with none
lost, repeated or altered, and `pop` returns `None` only from an empty ring. -/
theorem keyRing_bounded_fifo (ops : List (ArrayQueue.Op KeyEvent)) :
    (KeyRing.new.run ops).1 = ((ArrayQueue.empty KeyEvent 31).run ops).1 ∧
    (KeyRing.new.run ops).2.items = ((ArrayQueue.empty KeyEvent 31).run ops).2.items ∧
    (ArrayQueue.empty KeyEvent 31).accepted ops =
      (KeyRing.new.run ops).1.reduceOption ++ (KeyRing.new.run ops).2.items ∧
    ((KeyRing.new.run ops).2.pop.1 = none ↔ ((ArrayQueue.empty KeyEvent 31).run ops).2.items = []) ∧
    (KeyRing.new.run ops).2.head < 32 ∧ (KeyRing.new.run ops).2.tail < 32 := by
  have hempty : KeyRing.new.items = [] := RingBuffer.items_empty _ _
  have hnew : KeyRing.new.queue = ArrayQueue.empty KeyEvent 31 := ArrayQueue.eq_of_items hempty
  have hrun := KeyRing.new.run_queue ops
  rw [hnew] at hrun
  have hpops : (KeyRing.new.run ops).1 = ((ArrayQueue.empty KeyEvent 31).run ops).1 :=
    congrArg Prod.fst hrun
  have hitems : (KeyRing.new.run ops).2.items = ((ArrayQueue.empty KeyEvent 31).run ops).2.items :=
    congrArg (fun r => r.2.items) hrun
  refine ⟨hpops, hitems, ?_, ?_, RingBuffer.head_lt _, RingBuffer.tail_lt _⟩
  · rw [hpops, hitems]
    exact (ArrayQueue.empty KeyEvent 31).items_append_accepted ops
  · rw [← hitems]
    exact RingBuffer.pop_eq_none_iff _

/- Characters stand for their ASCII codes; 0 is unmapped. -/
def scancodeToDoom (sc : UInt8) (extended : Bool) : UInt8 :=
  if extended then
    match sc with
    | 0x48 => 0xad
    | 0x50 => 0xaf
    | 0x4B => 0xac
    | 0x4D => 0xae
    | 0x1D => 0x9d
    | 0x38 => 0xb8
    | _ => 0
  else
    match sc with
    | 0x01 => 27
    | 0x0E => 0x7f
    | 0x0F => 9
    | 0x1C => 13
    | 0x39 => 32
    | 0x1D => 0x9d
    | 0x2A | 0x36 => 0xb6
    | 0x38 => 0xb8
    | 0x3B => 0xbb | 0x3C => 0xbc | 0x3D => 0xbd | 0x3E => 0xbe | 0x3F => 0xbf | 0x40 => 0xc0
    | 0x41 => 0xc1 | 0x42 => 0xc2 | 0x43 => 0xc3 | 0x44 => 0xc4 | 0x57 => 0xd7 | 0x58 => 0xd8
    -- digits, `-` and `=`
    | 0x02 => 49 | 0x03 => 50 | 0x04 => 51 | 0x05 => 52 | 0x06 => 53 | 0x07 => 54 | 0x08 => 55
    | 0x09 => 56 | 0x0A => 57 | 0x0B => 48 | 0x0C => 45 | 0x0D => 61
    -- `qwertyuiop`
    | 0x10 => 113 | 0x11 => 119 | 0x12 => 101 | 0x13 => 114 | 0x14 => 116 | 0x15 => 121
    | 0x16 => 117 | 0x17 => 105 | 0x18 => 111 | 0x19 => 112
    -- `asdfghjkl`
    | 0x1E => 97 | 0x1F => 115 | 0x20 => 100 | 0x21 => 102 | 0x22 => 103 | 0x23 => 104
    | 0x24 => 106 | 0x25 => 107 | 0x26 => 108
    -- `zxcvbnm,./`
    | 0x2C => 122 | 0x2D => 120 | 0x2E => 99 | 0x2F => 118 | 0x30 => 98 | 0x31 => 110
    | 0x32 => 109 | 0x33 => 44 | 0x34 => 46 | 0x35 => 47
    | _ => 0

structure Keys where
  ring : KeyRing
  extended : Bool

def Keys.new : Keys := ⟨KeyRing.new, false⟩

def feedScancode (s : Keys) (sc : UInt8) : Keys :=
  if sc = 0xE0 then { s with extended := true }
  else
    let pressed : UInt8 := if sc &&& 0x80 = 0 then 1 else 0
    let dk := scancodeToDoom (sc &&& 0x7F) s.extended
    if dk ≠ 0 then ⟨s.ring.push ⟨pressed, dk⟩, false⟩ else ⟨s.ring, false⟩

/- What is stored in `*pressed` and `*key`; `None` is the return value 0. -/
abbrev Report := Int × UInt8

def KeyEvent.report (ev : KeyEvent) : Report := (ev.pressed.toNat, ev.key)

def dgGetKey (s : Keys) : Option Report × Keys :=
  (s.ring.pop.1.map KeyEvent.report, { s with ring := s.ring.pop.2 })

inductive Event where
  | feed (sc : UInt8)
  | getKey

def run : Keys → List Event → List Report × Keys
  | s, [] => ([], s)
  | s, .feed sc :: es => run (feedScancode s sc) es
  | s, .getKey :: es =>
    ((dgGetKey s).1.toList ++ (run (dgGetKey s).2 es).1, (run (dgGetKey s).2 es).2)

def bytes : List Event → List UInt8
  | [] => []
  | .feed sc :: es => sc :: bytes es
  | .getKey :: es => bytes es

def code (extended : Bool) (sc : UInt8) : List Report :=
  let dk := scancodeToDoom (sc &&& 0x7F) extended
  if sc = 0xE0 ∨ dk = 0 then [] else [(if sc &&& 0x80 = 0 then 1 else 0, dk)]

/- The make and break codes of Doom keys in a stream; `0xE0` belongs to the byte after it. -/
def codes : Bool → List UInt8 → List Report
  | _, [] => []
  | extended, sc :: rest => code extended sc ++ codes (sc = 0xE0) rest

/- The same codes in the order they arrive, each with whether fewer than 31 events were
   waiting in the ring. -/
def arrivals : Keys → List Event → List (Report × Bool)
  | _, [] => []
  | s, .feed sc :: es =>
    (code s.extended sc).map (fun c => (c, decide (s.ring.items.length < 31))) ++
      arrivals (feedScancode s sc) es
  | s, .getKey :: es => arrivals (dgGetKey s).2 es

def accepted (s : Keys) (es : List Event) : List Report :=
  ((arrivals s es).filter Prod.snd).map Prod.fst

def lastState (k : UInt8) (l : List Report) : Option Int :=
  ((l.filter fun r => r.2 = k).getLast?).map Prod.fst

def LastFoundRoom (k : UInt8) (l : List (Report × Bool)) : Prop :=
  ((l.filter fun a => a.1.2 = k).getLast?).map Prod.snd = some true

section Runs
variable {s : Keys}

theorem feedScancode_extended (s : Keys) (sc : UInt8) :
    (feedScancode s sc).extended = decide (sc = 0xE0) := by
  unfold feedScancode
  by_cases h : sc = 0xE0
  · simp [h]
  · simp only [if_neg h, decide_eq_false h]
    split <;> rfl

/-- A byte that ends the code of a Doom key is pushed, every other one leaves the ring
alone. -/
theorem feedScancode_ring (s : Keys) (sc : UInt8) :
    (code s.extended sc = [] ∧ (feedScancode s sc).ring = s.ring) ∨
    ∃ ev : KeyEvent, code s.extended sc = [ev.report] ∧
      (feedScancode s sc).ring = s.ring.push ev := by
  by_cases he : sc = 0xE0
  · exact .inl ⟨if_pos (.inl he), by rw [feedScancode, if_pos he]⟩
  by_cases hk : scancodeToDoom (sc &&& 0x7F) s.extended = 0
  · exact .inl ⟨if_pos (.inr hk), by rw [feedScancode, if_neg he, if_neg (not_not.mpr hk)]⟩
  · refine .inr ⟨⟨if sc &&& 0x80 = 0 then 1 else 0, scancodeToDoom (sc &&& 0x7F) s.extended⟩,
      ?_, by rw [feedScancode, if_neg he, if_pos hk]⟩
    rw [code, if_neg (not_or.mpr ⟨he, hk⟩), KeyEvent.report]
    split <;> rfl

theorem push_items (r : KeyRing) (ev : KeyEvent) :
    (r.push ev).items = r.items ++ if r.items.length < 31 then [ev] else [] := by
  rw [RingBuffer.items_length]
  split
  next hroom => exact RingBuffer.items_push ev (Nat.succ_lt_succ hroom)
  next hroom =>
    have hlt : r.count < 32 := r.count_lt
    rw [RingBuffer.push_of_full ev (show r.count + 1 = 32 by omega), List.append_nil]

theorem feedScancode_items (s : Keys) (sc : UInt8) :
    (feedScancode s sc).ring.items.map KeyEvent.report = s.ring.items.map KeyEvent.report ++
      if s.ring.items.length < 31 then code s.extended sc else [] := by
  obtain ⟨hcode, hring⟩ | ⟨ev, hcode, hring⟩ := feedScancode_ring s sc
  · rw [hcode, hring, ite_self, List.append_nil]
  · rw [hcode, hring, push_items, List.map_append]
    split <;> rfl

theorem dgGetKey_items (s : Keys) : s.ring.items.map KeyEvent.report =
    (dgGetKey s).1.toList ++ (dgGetKey s).2.ring.items.map KeyEvent.report := by
  unfold dgGetKey
  by_cases h : s.ring.items = []
  · simp [RingBuffer.pop_of_empty h]
  · obtain ⟨ev, hpop, hitems⟩ := RingBuffer.pop_items h
    rw [hpop, hitems]
    rfl

theorem dgGetKey_eq_none (h : (dgGetKey s).1 = none) : s.ring.items = [] := by
  rw [← RingBuffer.pop_eq_none_iff]
  exact Option.map_eq_none_iff.mp h

theorem arrivals_fst (s : Keys) (es : List Event) :
    (arrivals s es).map Prod.fst = codes s.extended (bytes es) := by
  induction es generalizing s with
  | nil => rfl
  | cons e es ih =>
    cases e with
    | feed sc =>
      rw [arrivals, List.map_append, ih, feedScancode_extended, bytes, codes, List.map_map]
      exact congrArg (· ++ _) (List.map_id _)
    | getKey => exact ih (dgGetKey s).2

theorem accepted_feed (sc : UInt8) (es : List Event) : accepted s (.feed sc :: es) =
    (if s.ring.items.length < 31 then code s.extended sc else []) ++
      accepted (feedScancode s sc) es := by
  unfold accepted
  rw [arrivals, List.filter_append, List.map_append]
  congr 1
  by_cases h : s.ring.items.length < 31
  · rw [decide_eq_true h, if_pos h]
    simp [List.filter_map, Function.comp_def]
  · rw [decide_eq_false h, if_neg h]
    simp [List.filter_map, Function.comp_def]

/-- What waited in the ring and what was accepted is what has been reported and what still
waits, in this order. -/
theorem waiting_append_accepted (s : Keys) (es : List Event) :
    s.ring.items.map KeyEvent.report ++ accepted s es =
      (run s es).1 ++ (run s es).2.ring.items.map KeyEvent.report := by
  induction es generalizing s with
  | nil => simp [accepted, arrivals, run]
  | cons e es ih =>
    cases e with
    | feed sc =>
      rw [accepted_feed, ← List.append_assoc, ← feedScancode_items, ih]
      rfl
    | getKey =>
      rw [dgGetKey_items, List.append_assoc, run, List.append_assoc]
      exact congrArg _ (ih (dgGetKey s).2)

theorem reports_eq_accepted (es : List Event)
    (hdrained : (dgGetKey (run Keys.new es).2).1 = none) :
    (run Keys.new es).1 = accepted Keys.new es := by
  have h := waiting_append_accepted Keys.new es
  rw [dgGetKey_eq_none hdrained, List.map_nil, List.append_nil] at h
  exact h.symm

theorem getLast?_filter {α : Type} {l : List α} {p : α → Bool} {a : α} (h : l.getLast? = some a)
    (ha : p a = true) : (l.filter p).getLast? = some a := by
  obtain ⟨init, rfl⟩ := List.getLast?_eq_some_iff.mp h
  simp [List.filter_append, ha]

/-- Where the last code of a key found room, nothing accepted after it says otherwise. -/
theorem lastState_accepted {k : UInt8} (l : List (Report × Bool)) (h : LastFoundRoom k l) :
    lastState k ((l.filter Prod.snd).map Prod.fst) = lastState k (l.map Prod.fst) := by
  obtain ⟨⟨c, room⟩, hlast, hroom⟩ := Option.map_eq_some_iff.mp h
  have hall : ((l.map Prod.fst).filter fun r => r.2 = k).getLast? = some c := by
    rw [List.filter_map, List.getLast?_map]
    exact Option.map_eq_some_iff.mpr ⟨_, hlast, rfl⟩
  have hsome : (((l.filter Prod.snd).map Prod.fst).filter fun r => r.2 = k).getLast? = some c := by
    rw [List.filter_map, List.getLast?_map, List.filter_filter]
    refine Option.map_eq_some_iff.mpr ⟨(c, room), ?_, rfl⟩
    have hboth := getLast?_filter (p := Prod.snd) hlast hroom
    rw [List.filter_filter] at hboth
    rw [← hboth]
    congr 1
    exact List.filter_congr fun a _ => Bool.and_comm _ _
  unfold lastState
  rw [hall, hsome]

/-- Once the ring is drained, the last report of a key is its last code that found fewer than
31 events waiting; with room for the last code of all, that is the last code. -/
theorem last_report_eq_last_accepted (es : List Event)
    (hdrained : (dgGetKey (run Keys.new es).2).1 = none) (k : UInt8) :
    lastState k (run Keys.new es).1 = lastState k (accepted Keys.new es) ∧
    (LastFoundRoom k (arrivals Keys.new es) →
      lastState k (run Keys.new es).1 = lastState k (codes false (bytes es))) := by
  rw [reports_eq_accepted es hdrained]
  refine ⟨rfl, fun hroom => ?_⟩
  unfold accepted
  rw [lastState_accepted _ hroom, arrivals_fst]
  rfl

theorem escape_reported_released :
    (dgGetKey (run Keys.new [.feed 1, .getKey, .feed 0x81, .getKey]).2).1 = none ∧
    lastState 27 (run Keys.new [.feed 1, .getKey, .feed 0x81, .getKey]).1 =
      lastState 27 (codes false [1, 0x81]) :=
  ⟨by decide +kernel, (last_report_eq_last_accepted _ (by decide +kernel) 27).2
    (by unfold LastFoundRoom; decide +kernel)⟩

def heldA : List Event :=
  List.replicate 31 (.feed 0x1E) ++ .feed 0x9E :: List.replicate 32 .getKey

/-- The break code finds the ring full and is dropped: the key stays down. -/
theorem heldA_sticks :
    (dgGetKey (run Keys.new heldA).2).1 = none ∧ 97 ∈ (run Keys.new heldA).1.map Prod.snd ∧
    lastState 97 (run Keys.new heldA).1 = some 1 ∧
    lastState 97 (codes false (bytes heldA)) = some 0 := by
  decide +kernel

end Runs
end MoltOS.DoomKeys
