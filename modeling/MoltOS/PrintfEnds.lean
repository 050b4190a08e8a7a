import MoltOS.PrintfRun

/-! How a call of the formatter ends: it returns with the format pointer on the terminator, it
reads past the terminator, or it never gets that far. -/
namespace MoltOS.Printf
open MoltOS.CInt MoltOS.CString MoltOS.Machine
open StateTransition (Reaches)

variable {maxlen : Nat} {fmt : CStr} {ap : List Arg}

/- With a buffer of this size every conversion finds an argument of its type and every
   character of literal text or of a `%s` string finds a free byte. -/
def GetsThrough (maxlen : Nat) (fmt : CStr) (ap : List Arg) : Prop :=
  ∃ cells, limited maxlen fmt ap = some cells ∧ Fits maxlen 0 cells

def NeverOverreads (maxlen : Nat) (fmt : CStr) (ap : List Arg) : Prop :=
  ∀ t, Reaches (step maxlen) (State.start fmt ap) t → t.ctl ≠ .fault .overread

def Returns (maxlen : Nat) (fmt : CStr) (ap : List Arg) : Prop :=
  ∃ t r, t ∈ fmtVsnprintf maxlen fmt ap ∧ t.ctl = .ret r ∧ t.fmt = [0]

theorem halts_ended (txt : List UInt8) (ap : List Arg) (cut : Bool) :
    step maxlen (ended maxlen txt ap cut) = none := by
  cases cut <;> rfl

theorem through_reaches {cells : List Cell} (hl : limited maxlen fmt ap = some cells)
    (hf : Fits maxlen 0 cells) : ∃ ap', Reaches (step maxlen) (State.start fmt ap)
      (ended maxlen (cells.map Cell.byte) ap' (pieces 0 fmt.mem).2) := by
  rw [start_eq_after maxlen]
  exact (outcome fmt.mem (terminated_mem fmt) [] ap).through cells hl hf

theorem dead_reaches (h : ¬ GetsThrough maxlen fmt ap) :
    ∃ u, Reaches (step maxlen) (State.start fmt ap) u ∧ Dead maxlen u := by
  rw [start_eq_after maxlen]
  refine (outcome fmt.mem (terminated_mem fmt) [] ap).dead fun cells hl hf => ?_
  exact h ⟨cells, hl, hf⟩

/-- A run that is over in the middle of the format neither returns nor reads past it. -/
theorem Dead.halts {u t : State} (hu : Reaches (step maxlen) (State.start fmt ap) u)
    (hd : Dead maxlen u) (ht : Reaches (step maxlen) (State.start fmt ap) t)
    (hh : step maxlen t = none) : t.ctl = .fault .vaArg := by
  obtain hloop | hfault := hd
  · exact absurd (dom_of_halt ht hh) (not_dom_of_loop hloop hu)
  · have hhalt : step maxlen u = none := by simp only [step, hfault]
    rw [halt_unique hu hhalt ht hh, hfault]

theorem returns_iff : Returns maxlen fmt ap ↔ Complete fmt ∧ GetsThrough maxlen fmt ap := by
  constructor
  · rintro ⟨t, r, ht, hret, -⟩
    obtain ⟨hreach, hhalt⟩ := StateTransition.mem_eval.mp ht
    by_cases hthrough : GetsThrough maxlen fmt ap
    · refine ⟨?_, hthrough⟩
      obtain ⟨cells, hl, hf⟩ := hthrough
      obtain ⟨ap', hend⟩ := through_reaches hl hf
      rw [halt_unique hend (halts_ended _ _ _) hreach hhalt] at hret
      cases hcut : (pieces 0 fmt.mem).2 with
      | false => exact hcut
      | true =>
        rw [hcut] at hret
        cases hret
    · obtain ⟨u, hu, hdead⟩ := dead_reaches hthrough
      rw [hdead.halts hu hreach hhalt] at hret
      cases hret
  · rintro ⟨hcomplete, cells, hl, hf⟩
    obtain ⟨ap', hend⟩ := through_reaches hl hf
    rw [show (pieces 0 fmt.mem).2 = false from hcomplete] at hend
    exact ⟨_, _, StateTransition.mem_eval.mpr ⟨hend, halts_ended _ _ _⟩, rfl, rfl⟩

theorem neverOverreads_iff :
    NeverOverreads maxlen fmt ap ↔ Complete fmt ∨ ¬ GetsThrough maxlen fmt ap := by
  constructor
  · intro h
    by_contra hno
    obtain ⟨hcut, hthrough⟩ := not_or.mp hno
    obtain ⟨cells, hl, hf⟩ := not_not.mp hthrough
    obtain ⟨ap', hend⟩ := through_reaches hl hf
    rw [show (pieces 0 fmt.mem).2 = true by simpa [Complete] using hcut] at hend
    exact h _ hend rfl
  · intro h t ht hfault
    have hhalt : step maxlen t = none := by simp only [step, hfault]
    by_cases hthrough : GetsThrough maxlen fmt ap
    · have hcomplete : Complete fmt := h.resolve_right (not_not.mpr hthrough)
      obtain ⟨cells, hl, hf⟩ := hthrough
      obtain ⟨ap', hend⟩ := through_reaches hl hf
      rw [show (pieces 0 fmt.mem).2 = false from hcomplete] at hend
      rw [halt_unique hend (halts_ended _ _ _) ht hhalt] at hfault
      cases hfault
    · obtain ⟨u, hu, hdead⟩ := dead_reaches hthrough
      rw [hdead.halts hu ht hhalt] at hfault
      cases hfault

/-- The formatter stays within its format exactly if no conversion is cut off by the
terminator, or it never gets to the end; it also stops there exactly if it gets through. -/
theorem stops_at_terminator_iff (maxlen : Nat) (fmt : CStr) (ap : List Arg) :
    (NeverOverreads maxlen fmt ap ↔ Complete fmt ∨ ¬ GetsThrough maxlen fmt ap) ∧
    (Returns maxlen fmt ap ∧ NeverOverreads maxlen fmt ap ↔
      Complete fmt ∧ GetsThrough maxlen fmt ap) := by
  refine ⟨neverOverreads_iff, fun h => returns_iff.mp h.1, fun h => ?_⟩
  exact ⟨returns_iff.mpr h, neverOverreads_iff.mpr (.inl h.1)⟩

/- A conversion cut off after each of its parts: `-`, `0`, `5`, `.`, `.3`, `l` and `ll`. -/
def cutOff : List CStr :=
  [.lit [37, 45] rfl, .lit [37, 48] rfl, .lit [37, 53] rfl, .lit [37, 46] rfl,
    .lit [37, 46, 51] rfl, .lit [37, 108] rfl, .lit [37, 108, 108] rfl]

theorem cutOff_overreads : cutOff.Forall fun fmt => ¬ NeverOverreads 16 fmt [] := by
  have hcut : ∀ fmt ∈ cutOff, (pieces 0 fmt.mem).2 = true ∧ (pieces 0 fmt.mem).1.isEmpty := by
    decide
  rw [List.forall_iff_forall_mem]
  intro fmt hfmt hnever
  obtain ⟨hcut, hnil⟩ := hcut fmt hfmt
  obtain hcomplete | hstuck := neverOverreads_iff.mp hnever
  · exact absurd (hcut.symm.trans hcomplete) (by decide)
  · exact hstuck ⟨[], by rw [limited, List.isEmpty_iff.mp hnil]; rfl, fits_nil⟩

/-- A call with a complete format returns exactly if its text gets through: `OUT` moves the
pointer into a literal text or a string only while there is room. -/
theorem fmtVsnprintf_returns_iff (maxlen : Nat) (fmt : CStr) (ap : List Arg)
    (hc : Complete fmt) : Returns maxlen fmt ap ↔ GetsThrough maxlen fmt ap := by
  rw [returns_iff]
  exact and_iff_right hc

/- `"%s"`, `"%c%s"`, `"a"` and `"%d"` -/
def fmtS : CStr := .lit [37, 115] rfl
def fmtCS : CStr := .lit [37, 99, 37, 115] rfl
def fmtA : CStr := .lit [97] rfl
def fmtD : CStr := .lit [37, 100] rfl

/-- A number is cut off at the end of the buffer and the call returns, also without any
buffer. -/
theorem fmtD_returns : Complete fmtD ∧ Returns 0 fmtD [.int 7] :=
  ⟨rfl, (fmtVsnprintf_returns_iff 0 fmtD [.int 7] rfl).mpr
    ⟨[⟨55, false⟩], by decide, fits_free (l := [55])⟩⟩

theorem long_string_hangs (s : CStr) (hpos : 0 < maxlen) (hlen : maxlen ≤ s.bytes.length) :
    ¬ (fmtVsnprintf maxlen fmtS [.str (some s)]).Dom := by
  have hstep : step maxlen (State.start fmtS [.str (some s)]) =
      some (.after maxlen [] [0] [] (.str s.bytes)) := by
    rw [start_eq_after maxlen]
    rfl
  have hno : ¬ Fits maxlen ([] : List UInt8).length (s.bytes.map fun c => ⟨c, true⟩) := by
    intro hfits
    have hlt : maxlen - 1 < s.bytes.length := by omega
    have := hfits (maxlen - 1) ⟨s.bytes[maxlen - 1], true⟩ (by simp [hlt]) rfl
    simp only [List.length_nil] at this
    omega
  obtain ⟨u, hu, hloop⟩ := str_stuck hno
  exact not_dom_of_loop hloop (reaches_step hstep hu)

def aaa : CStr := ⟨List.replicate 512 65, fun b hb => by rw [List.eq_of_mem_replicate hb]; decide⟩

/-- One character too many for the buffer is tried for ever, in `printf` too. And since `%c`
leaves its argument when the buffer is full, a `%s` after it takes that for its string. -/
theorem truncation_never_returns :
    (Complete fmtA ∧ (unlimited fmtA []).isSome ∧ ¬ (fmtVsnprintf 1 fmtA []).Dom) ∧
    (Complete fmtS ∧ (unlimited fmtS [.str (some aaa)]).isSome ∧
      ¬ (vprintfImpl fmtS [.str (some aaa)]).Dom) ∧
    (Complete fmtCS ∧ (unlimited fmtCS [.int 65, .str (some (.lit [] rfl))]).isSome ∧
      ¬ Returns 1 fmtCS [.int 65, .str (some (.lit [] rfl))]) := by
  refine ⟨⟨rfl, rfl, ?_⟩, ⟨rfl, rfl, ?_⟩, ⟨rfl, rfl, ?_⟩⟩
  · exact not_dom_of_loop rfl .refl
  · have hlen : 512 ≤ aaa.bytes.length := by
      unfold aaa
      rw [List.length_replicate]
    exact fun hdom => long_string_hangs aaa (by decide) hlen hdom
  · rw [returns_iff]
    rintro ⟨-, cells, hl, -⟩
    cases hl

end MoltOS.Printf
