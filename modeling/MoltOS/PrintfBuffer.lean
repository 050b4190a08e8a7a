import MoltOS.PrintfEnds

/-! The formatter and its buffers: what has been written in any state of a run, and what the
caller finds when the call returns. -/
namespace MoltOS.Printf
open MoltOS.CInt MoltOS.CString MoltOS.Machine
open StateTransition (Reaches)

variable {maxlen : Nat} {s t : State}

def Buffered (maxlen : Nat) (s : State) : Prop :=
  s.pos ≤ maxlen - 1 ∧ ∀ i, s.buf i ≠ none → i < s.pos

def Ctl.Ok : Ctl → Prop
  | .digits n val tmp => 1 < n.base ∧ (Nat.digits n.base val).length + tmp.length ≤ 32
  | .ret _ => False
  | .fault e => e ≠ .tmpOverrun
  | _ => True

def Sound (maxlen : Nat) (s : State) : Prop :=
  (Buffered maxlen s ∧ s.ctl.Ok) ∨ ∃ u, Buffered maxlen u ∧ s = u.finish maxlen

theorem Buffered.put (h : Buffered maxlen s) (hroom : s.pos + 1 < maxlen) (c : UInt8) :
    Buffered maxlen (s.put c) := by
  refine ⟨show s.pos + 1 ≤ maxlen - 1 by omega, fun i hi => ?_⟩
  show i < s.pos + 1
  by_cases hip : i = s.pos
  · omega
  · have := h.2 i (by simpa [State.put, Function.update_of_ne hip] using hi)
    omega

theorem Buffered.out (h : Buffered maxlen s) (c : UInt8) : Buffered maxlen (s.out maxlen c) := by
  unfold State.out
  split
  next hroom => exact h.put hroom c
  next => exact h

theorem out_ctl (c : UInt8) : (s.out maxlen c).ctl = s.ctl := by
  unfold State.out
  split <;> rfl

theorem Buffered.outNext (h : Buffered maxlen s) (c : UInt8) {moved : State → State}
    (hm : ∀ u, Buffered maxlen u → u.ctl = s.ctl → Buffered maxlen (moved u) ∧ (moved u).ctl.Ok)
    (hok : s.ctl.Ok) : Sound maxlen (s.outNext maxlen c moved) := by
  unfold State.outNext
  split
  next hroom => exact .inl (hm _ (h.put hroom c) rfl)
  next => exact .inl ⟨h, hok⟩

theorem Buffered.convert (h : Buffered maxlen s) (hok : s.ctl = .loop) (d : Directive)
    (rest : List UInt8) : Sound maxlen (s.convert maxlen d rest) := by
  have hfault : Sound maxlen (s.goto (.fault .vaArg)) := .inl ⟨h, by simp [State.goto, Ctl.Ok]⟩
  unfold State.convert
  split
  · split
    next hroom =>
      split
      · exact hfault
      · exact .inl ⟨Buffered.put (s := ⟨rest, _, s.pos, s.buf, s.ctl⟩) h hroom _, by
          simp [State.put, hok, Ctl.Ok]⟩
    next => exact .inl ⟨h, by simp [hok, Ctl.Ok]⟩
  · split
    · split
      · exact hfault
      · exact .inl ⟨h, trivial⟩
    · split
      · split
        · exact hfault
        next n val ap hnum =>
          obtain ⟨hb, hv⟩ := number_bounds hnum
          have hlen := digits_length hb hv
          refine .inl ⟨h, ?_⟩
          show Ctl.Ok (if val = 0 then _ else _)
          split
          · trivial
          · exact ⟨by omega, by simpa using hlen.trans (by decide)⟩
      · exact .inl ⟨h, by simp [hok, Ctl.Ok]⟩

theorem Buffered.round (h : Buffered maxlen s) (hok : s.ctl = .loop) :
    Sound maxlen (s.round maxlen) := by
  have hfault : Sound maxlen (s.goto (.fault .overread)) := .inl ⟨h, by simp [State.goto, Ctl.Ok]⟩
  have hloop : s.ctl.Ok := by simp [hok, Ctl.Ok]
  unfold State.round
  split
  · exact hfault
  next c fmt _ =>
    split
    · exact .inr ⟨s, h, rfl⟩
    · split
      · refine h.outNext c (fun u hu hctl => ⟨hu, ?_⟩) hloop
        rw [show ({ u with fmt := fmt } : State).ctl = s.ctl from hctl]
        exact hloop
      · split
        · exact hfault
        next c' fmt' _ =>
          split
          · exact .inr ⟨⟨c' :: fmt', s.ap, s.pos, s.buf, s.ctl⟩, h, rfl⟩
          · split
            · refine .inl ⟨Buffered.out (s := ⟨fmt', s.ap, s.pos, s.buf, s.ctl⟩) h _, ?_⟩
              rw [out_ctl]
              exact hloop
            · split
              · exact hfault
              · exact h.convert hok _ _

/-- Another digit finds its place in `tmp`. -/
theorem Sound.pushDigit (hb : Buffered maxlen s) {n : Number} {val : Nat} {tmp : List UInt8}
    (hok : (Ctl.digits n val tmp).Ok) (hv : val ≠ 0) : Sound maxlen (s.pushDigit n val tmp) := by
  obtain ⟨hbase, hlen⟩ := hok
  rw [Nat.digits_def' hbase (Nat.pos_of_ne_zero hv), List.length_cons] at hlen
  rw [State.pushDigit, if_pos (by omega)]
  refine .inl ⟨hb, hbase, ?_⟩
  rw [List.length_cons]
  omega

theorem Sound.step (h : Sound maxlen s) (hs : step maxlen s = some t) : Sound maxlen t := by
  obtain ⟨hb, hok⟩ | ⟨u, hu, rfl⟩ := h
  · unfold Printf.step at hs
    cases hctl : s.ctl with
    | loop =>
      simp only [hctl, Option.some.injEq] at hs
      exact hs ▸ hb.round hctl
    | str str =>
      cases str with
      | nil =>
        simp only [hctl, Option.some.injEq] at hs
        exact hs ▸ .inl ⟨hb, trivial⟩
      | cons c str =>
        simp only [hctl, Option.some.injEq] at hs
        exact hs ▸ hb.outNext c (fun u hu _ => ⟨hu, trivial⟩) hok
    | digits n val tmp =>
      rw [hctl] at hok
      simp only [hctl] at hs
      split at hs <;> cases hs
      · exact .inl ⟨hb, trivial⟩
      next hv => exact .pushDigit hb hok hv
    | blanks n tmp total =>
      simp only [hctl] at hs
      split at hs <;> cases hs
      · exact .inl ⟨hb.out _, trivial⟩
      · refine .inl ⟨?_, trivial⟩
        cases n.neg with
        | true => exact hb.out _
        | false => exact hb
    | zeros n tmp width =>
      simp only [hctl] at hs
      split at hs <;> cases hs
      · exact .inl ⟨hb.out _, trivial⟩
      · exact .inl ⟨hb, trivial⟩
    | flush tmp =>
      cases tmp with
      | nil =>
        simp only [hctl, Option.some.injEq] at hs
        exact hs ▸ .inl ⟨hb, trivial⟩
      | cons c tmp =>
        simp only [hctl, Option.some.injEq] at hs
        exact hs ▸ .inl ⟨hb.out c, trivial⟩
    | ret r => simp [hctl] at hs
    | fault e => simp [hctl] at hs
  · cases hs

theorem start_sound (fmt : CStr) (ap : List Arg) : Sound maxlen (State.start fmt ap) :=
  .inl ⟨⟨Nat.zero_le _, fun _ hi => absurd rfl hi⟩, trivial⟩

theorem reaches_sound {fmt : CStr} {ap : List Arg}
    (h : Reaches (step maxlen) (State.start fmt ap) t) : Sound maxlen t :=
  reaches_invariant (fun _ _ hs hsound => hsound.step hs) h (start_sound fmt ap)

theorem finish_buf (hpos : 0 < maxlen) (h : Buffered maxlen s) :
    (s.finish maxlen).buf = Function.update s.buf s.pos (some 0) := if_pos (by have := h.1; omega)

/-- In no state is anything written outside the buffer or past the digits' own buffer; the
last byte of all is written only by the closing NUL. -/
theorem Sound.inside (hpos : 0 < maxlen) (h : Sound maxlen t) :
    t.ctl ≠ .fault .tmpOverrun ∧ t.pos ≤ maxlen - 1 ∧
      ∀ i, t.buf i ≠ none → i < maxlen - 1 ∨ (∃ r, t.ctl = .ret r) ∧ i = t.pos := by
  obtain ⟨hb, hok⟩ | ⟨u, hu, rfl⟩ := h
  · refine ⟨fun hf => ?_, hb.1, fun i hi => .inl ((hb.2 i hi).trans_le hb.1)⟩
    rw [hf] at hok
    exact hok rfl
  · refine ⟨nofun, hu.1, fun i hi => ?_⟩
    by_cases hip : i = u.pos
    · exact .inr ⟨⟨_, rfl⟩, hip⟩
    · rw [finish_buf hpos hu, Function.update_of_ne hip] at hi
      exact .inl ((hu.2 i hi).trans_le hu.1)

theorem wrap32_of_lt {n : Nat} (h : n < 2 ^ 31) : wrap 32 n = n :=
  wrap_of_fits (w := 31) (by omega) (by omega)

theorem Sound.returned (hpos : 0 < maxlen) (h : Sound maxlen t) {r : Int} (hr : t.ctl = .ret r) :
    r = wrap 32 t.pos ∧ t.pos < maxlen ∧ t.buf t.pos = some 0 := by
  obtain ⟨-, hok⟩ | ⟨u, hu, rfl⟩ := h
  · rw [hr] at hok
    exact absurd hok id
  · have hwrap : wrap 32 u.pos = r := Ctl.ret.inj hr
    refine ⟨hwrap.symm, show u.pos < maxlen by have := hu.1; omega, ?_⟩
    rw [finish_buf hpos hu]
    exact Function.update_self u.pos (some 0) u.buf

def Holds (buf : Nat → Option UInt8) (txt : List UInt8) : Prop :=
  (∀ i c, txt[i]? = some c → buf i = some c) ∧ buf txt.length = some 0

/-- Text that leaves a byte for the NUL arrives whole. -/
theorem writes_text {fmt : CStr} {ap : List Arg} {cells : List Cell} (hc : Complete fmt)
    (hm : unlimited fmt ap = some cells) (hlen : cells.length < maxlen) :
    ∃ t, Reaches (step maxlen) (State.start fmt ap) t ∧ t.ctl = .ret (wrap 32 cells.length) ∧
      t.pos = cells.length ∧ Holds t.buf (cells.map Cell.byte) := by
  have hl : limited maxlen fmt ap = some cells := render_room hm (by omega)
  obtain ⟨ap', hend⟩ := through_reaches hl (fits_of_length (by omega))
  rw [show (pieces 0 fmt.mem).2 = false from hc] at hend
  have htake : (cells.map Cell.byte).take (maxlen - 1) = cells.map Cell.byte :=
    List.take_of_length_le (by rw [List.length_map]; omega)
  have hpos : ((cells.map Cell.byte).take (maxlen - 1)).length = cells.length := by
    rw [htake, List.length_map]
  have hbuf : (ended maxlen (cells.map Cell.byte) ap' false).buf =
      Function.update (fun i => (cells.map Cell.byte)[i]?) cells.length (some 0) := by
    refine (if_pos ?_).trans ?_
    · exact hpos.trans_lt hlen
    · simp only [State.after, htake, List.length_map]
  refine ⟨_, hend, congrArg (fun n : Nat => Ctl.ret (wrap 32 n)) hpos, hpos, fun i c hi => ?_, ?_⟩
  · obtain ⟨hlt, -⟩ := List.getElem?_eq_some_iff.mp hi
    rw [hbuf, Function.update_of_ne (by rw [List.length_map] at hlt; omega), hi]
  · rw [hbuf, List.length_map, Function.update_self]

/-- The formatter writes into its buffers only, ends its text with a NUL inside the buffer, and
writes the whole text if that fits. It returns the count as an `int`, which is the count itself
up to `INT_MAX`. -/
theorem fmtVsnprintf_in_buffer (maxlen : Nat) (hpos : 1 ≤ maxlen) (fmt : CStr)
    (hc : Complete fmt) (ap : List Arg) (cells : List Cell)
    (hm : unlimited fmt ap = some cells) :
    (∀ t, Reaches (step maxlen) (State.start fmt ap) t →
      t.ctl ≠ .fault .tmpOverrun ∧ t.pos ≤ maxlen - 1 ∧
      (∀ i, t.buf i ≠ none → i < maxlen - 1 ∨ (∃ r, t.ctl = .ret r) ∧ i = t.pos) ∧
      ∀ r, t.ctl = .ret r → t.pos < maxlen ∧ t.buf t.pos = some 0 ∧ r = wrap 32 t.pos ∧
        (t.pos < 2 ^ 31 → r = t.pos ∧ r < maxlen)) ∧
    (cells.length ≤ maxlen - 1 →
      ∃ t, Reaches (step maxlen) (State.start fmt ap) t ∧ t.pos = cells.length ∧
        Holds t.buf (cells.map Cell.byte) ∧ t.ctl = .ret (wrap 32 cells.length) ∧
        (cells.length < 2 ^ 31 → t.ctl = .ret cells.length)) := by
  refine ⟨fun t ht => ?_, fun hlen => ?_⟩
  · have hsound := reaches_sound ht
    obtain ⟨htmp, hle, hbuf⟩ := hsound.inside hpos
    refine ⟨htmp, hle, hbuf, fun r hr => ?_⟩
    obtain ⟨hwrap, hlt, hnul⟩ := hsound.returned hpos hr
    refine ⟨hlt, hnul, hwrap, fun hint => ?_⟩
    rw [wrap32_of_lt hint] at hwrap
    exact ⟨hwrap, by omega⟩
  · obtain ⟨t, ht, hret, hend, hholds⟩ := writes_text hc hm (show cells.length < maxlen by omega)
    refine ⟨t, ht, hend, hholds, hret, fun hint => ?_⟩
    rw [hret, wrap32_of_lt hint]

theorem fmtD_in_buffer : Complete fmtD ∧ unlimited fmtD [.int 7] = some [⟨55, false⟩] ∧
    ∃ t, Reaches (step 2) (State.start fmtD [.int 7]) t ∧ t.ctl = .ret 1 ∧ Holds t.buf [55] := by
  have hm : unlimited fmtD [.int 7] = some [⟨55, false⟩] := by decide
  obtain ⟨t, ht, -, hholds, -, hret⟩ :=
    (fmtVsnprintf_in_buffer 2 (by decide) fmtD rfl [.int 7] [⟨55, false⟩] hm).2 (by decide)
  exact ⟨rfl, hm, t, ht, hret (by decide), hholds⟩

theorem padded_length (n : Number) (ds : List UInt8) :
    (n.padded ds).length = n.padding ds + n.sign.length + ds.length := by
  unfold Number.padded
  split <;> simp only [List.length_append, List.length_replicate] <;> omega

/- `"%2147483647d%2147483647d"` -/
def fmtWide : CStr :=
  .lit [37, 50, 49, 52, 55, 52, 56, 51, 54, 52, 55, 100,
    37, 50, 49, 52, 55, 52, 56, 51, 54, 52, 55, 100] rfl

def wideD : Directive := ⟨false, 2147483647, false, ch 'd'⟩

theorem pieces_fmtWide : pieces 0 fmtWide.mem = ([.conv wideD, .conv wideD], false) := rfl

def wideCells : List Cell := ((wideD.number false).text 0).map fun c => ⟨c, false⟩

theorem wideCells_length : wideCells.length = 2147483647 := by
  rw [wideCells, List.length_map, Number.text, padded_length]
  rfl

theorem unlimited_fmtWide :
    unlimited fmtWide [.int 0, .int 0] = some (wideCells ++ (wideCells ++ [])) := by
  rw [unlimited, pieces_fmtWide]
  rfl

/-- More than `INT_MAX` characters: the count comes back as a negative `int`. -/
theorem fmtWide_count_wraps : Complete fmtWide ∧
    ∃ cells, unlimited fmtWide [.int 0, .int 0] = some cells ∧ cells.length = 2 ^ 32 - 2 ∧
      cells.length ≤ 2 ^ 33 - 1 ∧
      ∃ t, Reaches (step (2 ^ 33)) (State.start fmtWide [.int 0, .int 0]) t ∧
        t.ctl = .ret (-2) ∧ t.pos = cells.length := by
  have hcomplete : Complete fmtWide := congrArg Prod.snd pieces_fmtWide
  have hlen : (wideCells ++ (wideCells ++ [])).length = 2 ^ 32 - 2 := by
    rw [List.append_nil, List.length_append, wideCells_length]
    rfl
  obtain ⟨t, ht, hret, hpos, -⟩ := writes_text hcomplete unlimited_fmtWide
    (show (wideCells ++ (wideCells ++ [])).length < 2 ^ 33 by rw [hlen]; decide)
  refine ⟨hcomplete, _, unlimited_fmtWide, hlen, by rw [hlen]; decide, t, ht, ?_, hpos⟩
  rw [hret, hlen]
  rfl

end MoltOS.Printf
