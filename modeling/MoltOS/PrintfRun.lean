import MoltOS.PrintfText

/-! Whole runs of the formatter: each piece of the format puts out its characters and goes on,
or the run ends there for good. -/
namespace MoltOS.Printf
open MoltOS.CInt MoltOS.CString MoltOS.Numeral MoltOS.Machine
open StateTransition (Reaches)

def State.after (maxlen : Nat) (txt fmt : List UInt8) (ap : List Arg) (ctl : Ctl) : State :=
  ⟨fmt, ap, (txt.take (maxlen - 1)).length, fun i => (txt.take (maxlen - 1))[i]?, ctl⟩

def Dead (maxlen : Nat) (s : State) : Prop := step maxlen s = some s ∨ s.ctl = .fault .vaArg

variable {maxlen : Nat} {txt fmt : List UInt8} {ap : List Arg} {ctl : Ctl}

theorem start_eq_after (maxlen : Nat) (f : CStr) (ap : List Arg) :
    State.start f ap = .after maxlen [] f.mem ap .loop := by
  simp [State.start, State.after]

theorem after_room :
    (State.after maxlen txt fmt ap ctl).pos + 1 < maxlen ↔ txt.length + 1 < maxlen := by
  simp only [State.after, List.length_take]
  omega

theorem put_after (h : txt.length + 1 < maxlen) (c : UInt8) :
    (State.after maxlen txt fmt ap ctl).put c = .after maxlen (txt ++ [c]) fmt ap ctl := by
  have htxt : txt.take (maxlen - 1) = txt := List.take_of_length_le (by omega)
  have hall : (txt ++ [c]).take (maxlen - 1) = txt ++ [c] :=
    List.take_of_length_le (by simp; omega)
  unfold State.put State.after
  simp only [htxt, hall, List.length_append, List.length_singleton]
  congr 1
  funext i
  by_cases hi : i = txt.length
  · simp [hi]
  · rw [Function.update_of_ne hi, List.getElem?_append]
    split
    · rfl
    · rw [List.getElem?_eq_none (by omega), List.getElem?_eq_none (by simp; omega)]

/-- `OUT` puts out its character, or loses it when the buffer is full. -/
theorem out_after (c : UInt8) : (State.after maxlen txt fmt ap ctl).out maxlen c =
    .after maxlen (txt ++ [c]) fmt ap ctl := by
  unfold State.out
  split
  next h => exact put_after (after_room.mp h) c
  next h =>
    have hfull : maxlen - 1 ≤ txt.length := by
      rw [after_room] at h
      omega
    unfold State.after
    rw [List.take_append_of_le_length hfull]

theorem goto_after (c : Ctl) : (State.after maxlen txt fmt ap ctl).goto c =
    .after maxlen txt fmt ap c := rfl

theorem outNext_room (h : txt.length + 1 < maxlen) (c : UInt8) (moved : State → State) :
    (State.after maxlen txt fmt ap ctl).outNext maxlen c moved =
      moved (.after maxlen (txt ++ [c]) fmt ap ctl) := by
  rw [State.outNext, if_pos (after_room.mpr h), put_after h]

theorem outNext_full (h : ¬ txt.length + 1 < maxlen) (c : UInt8) (moved : State → State) :
    (State.after maxlen txt fmt ap ctl).outNext maxlen c moved = .after maxlen txt fmt ap ctl :=
  if_neg (mt after_room.mp h)

section Strings

theorem str_reaches {str : List UInt8}
    (h : Fits maxlen txt.length (str.map fun c => ⟨c, true⟩)) :
    Reaches (step maxlen) (.after maxlen txt fmt ap (.str str))
      (.after maxlen (txt ++ str) fmt ap .loop) := by
  induction str generalizing txt with
  | nil =>
    rw [List.append_nil]
    exact reaches_single rfl
  | cons c str ih =>
    rw [List.map_cons, fits_cons] at h
    have hstep : step maxlen (.after maxlen txt fmt ap (.str (c :: str))) =
        some (.after maxlen (txt ++ [c]) fmt ap (.str str)) :=
      congrArg some (outNext_room (h.1 rfl) c _)
    have hfits : Fits maxlen (txt ++ [c]).length (str.map fun c => ⟨c, true⟩) := by simpa using h.2
    rw [List.append_cons txt c str]
    exact reaches_step hstep (ih hfits)

/-- A string that meets a full buffer is never finished. -/
theorem str_stuck {str : List UInt8}
    (h : ¬ Fits maxlen txt.length (str.map fun c => ⟨c, true⟩)) :
    ∃ u, Reaches (step maxlen) (.after maxlen txt fmt ap (.str str)) u ∧ step maxlen u = some u := by
  induction str generalizing txt with
  | nil => exact absurd fits_nil h
  | cons c str ih =>
    by_cases hroom : txt.length + 1 < maxlen
    · have hstep : step maxlen (.after maxlen txt fmt ap (.str (c :: str))) =
          some (.after maxlen (txt ++ [c]) fmt ap (.str str)) :=
        congrArg some (outNext_room hroom c _)
      have hrest : ¬ Fits maxlen (txt ++ [c]).length (str.map fun c => ⟨c, true⟩) := by
        rw [List.length_append]
        exact fun hfits => h (fits_cons.mpr ⟨fun _ => hroom, hfits⟩)
      obtain ⟨u, hu, hloop⟩ := ih hrest
      exact ⟨u, reaches_step hstep hu, hloop⟩
    · exact ⟨_, .refl, congrArg some (outNext_full hroom c _)⟩

end Strings

section Numbers
variable {n : Number} {tmp : List UInt8}

theorem flush_reaches : Reaches (step maxlen) (.after maxlen txt fmt ap (.flush tmp))
    (.after maxlen (txt ++ tmp) fmt ap .loop) := by
  induction tmp generalizing txt with
  | nil =>
    rw [List.append_nil]
    exact reaches_single rfl
  | cons c tmp ih =>
    have hstep : step maxlen (.after maxlen txt fmt ap (.flush (c :: tmp))) =
        some (.after maxlen (txt ++ [c]) fmt ap (.flush tmp)) :=
      congrArg (fun s => some (State.goto s (.flush tmp))) (out_after c)
    rw [List.append_cons]
    exact reaches_step hstep ih

theorem zeros_reaches (hz : n.zeroPad = true) {k : Nat} {width : Int}
    (hk : (width - n.tlen tmp).toNat = k) :
    Reaches (step maxlen) (.after maxlen txt fmt ap (.zeros n tmp width))
      (.after maxlen (txt ++ (List.replicate k (ch '0') ++ tmp)) fmt ap .loop) := by
  induction k generalizing txt width with
  | zero =>
    have hdone : step maxlen (.after maxlen txt fmt ap (.zeros n tmp width)) =
        some (.after maxlen txt fmt ap (.flush tmp)) := if_neg (by omega)
    exact reaches_step hdone flush_reaches
  | succ k ih =>
    have hstep : step maxlen (.after maxlen txt fmt ap (.zeros n tmp width)) =
        some (.after maxlen (txt ++ [ch '0']) fmt ap (.zeros n tmp (width - 1))) := by
      refine (if_pos ⟨hz, by omega⟩).trans ?_
      rw [out_after, goto_after]
    rw [List.replicate_succ, List.cons_append, List.append_cons]
    exact reaches_step hstep (ih (by omega))

theorem zeros_skip (hz : n.zeroPad = false) {width : Int} :
    Reaches (step maxlen) (.after maxlen txt fmt ap (.zeros n tmp width))
      (.after maxlen (txt ++ tmp) fmt ap .loop) := by
  have hstep : step maxlen (.after maxlen txt fmt ap (.zeros n tmp width)) =
      some (.after maxlen txt fmt ap (.flush tmp)) := if_neg (by simp [hz])
  exact reaches_step hstep flush_reaches

/-- The padding is over: the sign, and on to the zeros. -/
theorem sign_step {total : Int} (h : ¬ (n.zeroPad = false ∧ total < n.width)) :
    step maxlen (.after maxlen txt fmt ap (.blanks n tmp total)) =
      some (.after maxlen (txt ++ n.sign) fmt ap (.zeros n tmp n.width)) := by
  refine (if_neg h).trans ?_
  unfold Number.sign
  cases n.neg with
  | true => exact congrArg (fun s => some (State.goto s _)) (out_after (ch '-'))
  | false => simp [goto_after]

theorem blanks_reaches (hz : n.zeroPad = false) {k : Nat} {total : Int}
    (hk : (n.width - total).toNat = k) :
    Reaches (step maxlen) (.after maxlen txt fmt ap (.blanks n tmp total))
      (.after maxlen (txt ++ (List.replicate k (ch ' ') ++ (n.sign ++ tmp))) fmt ap .loop) := by
  induction k generalizing txt total with
  | zero =>
    refine reaches_step (sign_step (by omega)) ?_
    rw [List.replicate_zero, List.nil_append, ← List.append_assoc]
    exact zeros_skip hz
  | succ k ih =>
    have hstep : step maxlen (.after maxlen txt fmt ap (.blanks n tmp total)) =
        some (.after maxlen (txt ++ [ch ' ']) fmt ap (.blanks n tmp (total + 1))) := by
      refine (if_pos ⟨hz, by omega⟩).trans ?_
      rw [out_after, goto_after]
    rw [List.replicate_succ, List.cons_append, List.append_cons]
    exact reaches_step hstep (ih (by omega))

/-- Padding, sign and digits, in the order the two padding schemes have. -/
theorem padded_reaches : Reaches (step maxlen)
    (.after maxlen txt fmt ap (.blanks n tmp (n.tlen tmp)))
    (.after maxlen (txt ++ n.padded tmp) fmt ap .loop) := by
  unfold Number.padded
  cases hz : n.zeroPad with
  | true =>
    refine reaches_step (sign_step (by simp [hz])) ?_
    rw [if_pos rfl, ← List.append_assoc]
    exact zeros_reaches hz rfl
  | false => exact blanks_reaches hz rfl

theorem digits_reaches {val : Nat} (hb : 1 < n.base)
    (hlen : (Nat.digits n.base val).length + tmp.length ≤ 32) :
    Reaches (step maxlen) (.after maxlen txt fmt ap (.digits n val tmp))
      (.after maxlen (txt ++ n.padded (((Nat.digits n.base val).map (digitChar n.upper)).reverse
        ++ tmp)) fmt ap .loop) := by
  induction val using Nat.strong_induction_on generalizing tmp with
  | _ val ih =>
    by_cases h0 : val = 0
    · subst h0
      have hstep : step maxlen (.after maxlen txt fmt ap (.digits n 0 tmp)) =
          some (.after maxlen txt fmt ap (.blanks n tmp (n.tlen tmp))) := rfl
      rw [Nat.digits_zero]
      exact reaches_step hstep padded_reaches
    · have hdig := Nat.digits_def' hb (Nat.pos_of_ne_zero h0)
      rw [hdig, List.length_cons] at hlen
      have hstep : step maxlen (.after maxlen txt fmt ap (.digits n val tmp)) =
          some (.after maxlen txt fmt ap (.digits n (val / n.base)
            (digitChar n.upper (val % n.base) :: tmp))) := by
        refine (if_neg h0).trans (congrArg some ?_)
        exact if_pos (by omega)
      refine reaches_step hstep ?_
      rw [hdig, List.map_cons, List.reverse_cons, List.append_assoc, List.singleton_append]
      exact ih _ (Nat.div_lt_self (Nat.pos_of_ne_zero h0) hb)
        (by simpa [Nat.add_assoc, Nat.add_comm 1] using hlen)

theorem vaSigned_bounds {isLong : Bool} {ap' : List Arg} {sv : Int}
    (h : vaSigned isLong ap = some (sv, ap')) : -2 ^ 63 ≤ sv ∧ sv < 2 ^ 63 := by
  unfold vaSigned at h
  split at h <;> obtain ⟨⟨v, ap''⟩, -, heq⟩ := Option.map_eq_some_iff.mp h <;> cases heq
  · exact ⟨BitVec.le_toInt v, BitVec.toInt_lt⟩
  · exact ⟨(by decide : (-2 ^ 63 : Int) ≤ -2 ^ 31).trans (BitVec.le_toInt v),
      (BitVec.toInt_lt (x := v)).trans (by decide)⟩

theorem vaUnsigned_bounds {isLong : Bool} {ap' : List Arg} {val : Nat}
    (h : vaUnsigned isLong ap = some (val, ap')) : val < 2 ^ 64 := by
  unfold vaUnsigned at h
  split at h <;> obtain ⟨⟨v, ap''⟩, -, heq⟩ := Option.map_eq_some_iff.mp h <;> cases heq
  · exact v.isLt
  · exact v.isLt.trans (by decide)

/-- Also for the least value of the type, whose negative wraps to itself. -/
theorem magnitude_eq {sv : Int} (h : -2 ^ 63 ≤ sv) (h' : sv < 2 ^ 63) :
    magnitude sv = sv.natAbs := by
  unfold magnitude
  split
  · rw [Int.emod_eq_of_lt (by omega) (by omega)]
    omega
  · omega

theorem number_base (d : Directive) (neg : Bool) :
    (d.number neg).base = 10 ∨ (d.number neg).base = 16 := by
  unfold Directive.number
  split
  · exact .inr rfl
  · exact .inl rfl

theorem number_bounds {d : Directive} {val : Nat} {ap' : List Arg}
    (h : number d ap = some (n, val, ap')) : (n.base = 10 ∨ n.base = 16) ∧ val < 2 ^ 64 := by
  unfold number at h
  split at h <;> obtain ⟨⟨v, ap''⟩, hv, heq⟩ := Option.map_eq_some_iff.mp h <;> cases heq
  · obtain ⟨hlow, hhigh⟩ := vaSigned_bounds hv
    refine ⟨number_base d _, ?_⟩
    rw [magnitude_eq hlow hhigh]
    omega
  · exact ⟨number_base d _, vaUnsigned_bounds hv⟩

/-- A 64-bit number has far fewer than 32 digits. -/
theorem digits_length {val : Nat} (hb : n.base = 10 ∨ n.base = 16) (hv : val < 2 ^ 64) :
    (Nat.digits n.base val).length ≤ 20 := by
  have hbase : 1 < n.base := by omega
  rw [Nat.digits_length_le_iff hbase]
  refine hv.trans (lt_of_lt_of_le (by decide : 2 ^ 64 < 10 ^ 20) ?_)
  exact Nat.pow_le_pow_left (by omega) 20

theorem number_reaches {d : Directive} {val : Nat} {ap' : List Arg}
    (h : number d ap = some (n, val, ap')) :
    Reaches (step maxlen) (.after maxlen txt fmt ap'
      (if val = 0 then .blanks n [ch '0'] (n.tlen [ch '0']) else .digits n val []))
      (.after maxlen (txt ++ n.text val) fmt ap' .loop) := by
  obtain ⟨hb, hv⟩ := number_bounds h
  unfold Number.text numeral
  split
  · exact padded_reaches
  · have hlen : (Nat.digits n.base val).length + ([] : List UInt8).length ≤ 32 :=
      (digits_length hb hv).trans (by decide)
    rw [← List.append_nil (List.reverse _)]
    exact digits_reaches (by omega) hlen

end Numbers

section Conversions
variable {d : Directive} {rest : List UInt8}

theorem map_byte (b : Bool) (l : List UInt8) :
    (l.map fun c => (⟨c, b⟩ : Cell)).map Cell.byte = l := by
  rw [List.map_map]
  exact List.map_id l

def Converts (maxlen : Nat) (txt fmt : List UInt8) (ap : List Arg) (d : Directive)
    (rest : List UInt8) (cells : Option (List Cell × List Arg)) : Prop :=
  (∃ cs ap', cells = some (cs, ap') ∧ Fits maxlen txt.length cs ∧ Reaches (step maxlen)
    ((State.after maxlen txt fmt ap .loop).convert maxlen d rest)
      (.after maxlen (txt ++ cs.map Cell.byte) rest ap' .loop)) ∨
  (∀ cs ap', cells = some (cs, ap') → ¬ Fits maxlen txt.length cs) ∧
    ∃ u, Reaches (step maxlen) ((State.after maxlen txt fmt ap .loop).convert maxlen d rest) u ∧
      Dead maxlen u

theorem Converts.fault {cells : Option (List Cell × List Arg)} (h : cells = none)
    (hf : (State.after maxlen txt fmt ap .loop).convert maxlen d rest =
      .after maxlen txt fmt ap (.fault .vaArg)) : Converts maxlen txt fmt ap d rest cells := by
  refine .inr ⟨fun cs ap' hcs => ?_, _, .refl, .inr ?_⟩
  · rw [h] at hcs
    cases hcs
  · rw [hf]
    rfl

theorem converts_char (hc : d.spec = ch 'c') : Converts maxlen txt fmt ap d rest
    ((Piece.conv d).cells (txt.length + 1 < maxlen) ap) := by
  have hcells : (Piece.conv d).cells (txt.length + 1 < maxlen) ap =
      if txt.length + 1 < maxlen then
        (vaInt ap).map fun r => ([⟨r.1.toNat.toUInt8, false⟩], r.2)
      else some ([], ap) := by
    simp only [Piece.cells, if_pos hc, decide_eq_true_eq]
  have hrun : (State.after maxlen txt fmt ap .loop).convert maxlen d rest =
      if (State.after maxlen txt fmt ap .loop).pos + 1 < maxlen then
        (vaInt ap).elim (State.after maxlen txt fmt ap (.fault .vaArg)) fun r =>
          (State.after maxlen txt rest r.2 .loop).put r.1.toNat.toUInt8
      else .after maxlen txt rest ap .loop := State.convert_char maxlen _ _ hc
  by_cases hroom : txt.length + 1 < maxlen
  · rw [if_pos hroom] at hcells
    rw [if_pos (after_room.mpr hroom)] at hrun
    cases hv : vaInt ap with
    | none => exact .fault (by rw [hcells, hv]; rfl) (by rw [hrun, hv]; rfl)
    | some r =>
      refine .inl ⟨_, r.2, by rw [hcells, hv]; rfl, fits_free (l := [r.1.toNat.toUInt8]), ?_⟩
      rw [hrun, hv, Option.elim_some, put_after hroom]
      exact .refl
  · rw [if_neg hroom] at hcells
    rw [if_neg (mt after_room.mp hroom)] at hrun
    refine .inl ⟨[], ap, hcells, fits_nil, ?_⟩
    rw [hrun, List.map_nil, List.append_nil]
    exact .refl

theorem converts_str (hc : d.spec ≠ ch 'c') (hs : d.spec = ch 's') :
    Converts maxlen txt fmt ap d rest ((Piece.conv d).cells (txt.length + 1 < maxlen) ap) := by
  have hcells : (Piece.conv d).cells (txt.length + 1 < maxlen) ap =
      (vaStr ap).map fun r => (r.1.map fun c => ⟨c, true⟩, r.2) := by
    simp only [Piece.cells, if_neg hc, if_pos hs]
  have hrun : (State.after maxlen txt fmt ap .loop).convert maxlen d rest =
      (vaStr ap).elim (State.after maxlen txt fmt ap (.fault .vaArg)) fun r =>
        .after maxlen txt rest r.2 (.str r.1) := State.convert_str maxlen _ _ hc hs
  cases hv : vaStr ap with
  | none => exact .fault (by rw [hcells, hv]; rfl) (by rw [hrun, hv]; rfl)
  | some r =>
    rw [hv] at hcells hrun
    rw [Option.elim_some] at hrun
    unfold Converts
    rw [hcells, hrun]
    by_cases hfits : Fits maxlen txt.length (r.1.map fun c => ⟨c, true⟩)
    · refine .inl ⟨_, r.2, rfl, hfits, ?_⟩
      rw [map_byte]
      exact str_reaches hfits
    · obtain ⟨u, hu, hloop⟩ := str_stuck hfits
      refine .inr ⟨fun cs ap' hcs => ?_, u, hu, .inl hloop⟩
      cases hcs
      exact hfits

theorem converts_number (hc : d.spec ≠ ch 'c') (hs : d.spec ≠ ch 's') (hn : isNumber d.spec) :
    Converts maxlen txt fmt ap d rest ((Piece.conv d).cells (txt.length + 1 < maxlen) ap) := by
  have hcells : (Piece.conv d).cells (txt.length + 1 < maxlen) ap =
      (number d ap).map fun r => ((r.1.text r.2.1).map fun c => ⟨c, false⟩, r.2.2) := by
    simp only [Piece.cells, if_neg hc, if_neg hs, if_pos hn]
  have hrun : (State.after maxlen txt fmt ap .loop).convert maxlen d rest =
      (number d ap).elim (State.after maxlen txt fmt ap (.fault .vaArg)) fun r =>
        .after maxlen txt rest r.2.2 (if r.2.1 = 0 then .blanks r.1 [ch '0'] (r.1.tlen [ch '0'])
          else .digits r.1 r.2.1 []) := State.convert_number maxlen _ _ hc hs hn
  cases hv : number d ap with
  | none => exact .fault (by rw [hcells, hv]; rfl) (by rw [hrun, hv]; rfl)
  | some r =>
    rw [hv] at hcells hrun
    refine .inl ⟨_, r.2.2, hcells, fits_free, ?_⟩
    rw [hrun, Option.elim_some, map_byte]
    exact number_reaches hv

theorem converts (d : Directive) (rest : List UInt8) : Converts maxlen txt fmt ap d rest
    ((Piece.conv d).cells (txt.length + 1 < maxlen) ap) := by
  by_cases hc : d.spec = ch 'c'
  · exact converts_char hc
  by_cases hs : d.spec = ch 's'
  · exact converts_str hc hs
  by_cases hn : isNumber d.spec
  · exact converts_number hc hs hn
  · have hrun : (State.after maxlen txt fmt ap .loop).convert maxlen d rest =
        .after maxlen txt rest ap .loop := (if_neg hc).trans ((if_neg hs).trans (if_neg hn))
    refine .inl ⟨[], ap, by simp only [Piece.cells, if_neg hc, if_neg hs, if_neg hn], fits_nil, ?_⟩
    rw [hrun, List.map_nil, List.append_nil]
    exact .refl

end Conversions

section Formats

def ended (maxlen : Nat) (txt : List UInt8) (ap : List Arg) (cut : Bool) : State :=
  if cut then .after maxlen txt [] ap (.fault .overread)
  else (State.after maxlen txt [0] ap .loop).finish maxlen

structure Outcome (maxlen : Nat) (txt fmt : List UInt8) (ap : List Arg) : Prop where
  through : ∀ cells, render (fun o => o + 1 < maxlen) txt.length (pieces 0 fmt).1 ap = some cells →
    Fits maxlen txt.length cells → ∃ ap', Reaches (step maxlen) (.after maxlen txt fmt ap .loop)
      (ended maxlen (txt ++ cells.map Cell.byte) ap' (pieces 0 fmt).2)
  dead : (∀ cells, render (fun o => o + 1 < maxlen) txt.length (pieces 0 fmt).1 ap = some cells →
    ¬ Fits maxlen txt.length cells) →
      ∃ u, Reaches (step maxlen) (.after maxlen txt fmt ap .loop) u ∧ Dead maxlen u

theorem Outcome.ended {cut : Bool} (hps : pieces 0 fmt = ([], cut))
    (h : Reaches (step maxlen) (.after maxlen txt fmt ap .loop) (ended maxlen txt ap cut)) :
    Outcome maxlen txt fmt ap where
  through cells hr _ := by
    rw [hps] at hr ⊢
    cases hr
    rw [List.map_nil, List.append_nil]
    exact ⟨ap, h⟩
  dead hno := by
    rw [hps] at hno
    exact absurd fits_nil (hno [] rfl)

/-- One piece and then the rest of the format. -/
theorem Outcome.cons {p : Piece} {rest : List UInt8}
    (hps : pieces 0 fmt = (pieces 0 rest).map (List.cons p) id)
    (hgo : ∀ cs ap', p.cells (txt.length + 1 < maxlen) ap = some (cs, ap') →
      Fits maxlen txt.length cs → Reaches (step maxlen) (.after maxlen txt fmt ap .loop)
        (.after maxlen (txt ++ cs.map Cell.byte) rest ap' .loop))
    (hstop : (∀ cs ap', p.cells (txt.length + 1 < maxlen) ap = some (cs, ap') →
      ¬ Fits maxlen txt.length cs) →
        ∃ u, Reaches (step maxlen) (.after maxlen txt fmt ap .loop) u ∧ Dead maxlen u)
    (ih : ∀ txt' ap', Outcome maxlen txt' rest ap') : Outcome maxlen txt fmt ap where
  through cells hr hfits := by
    rw [hps] at hr ⊢
    simp only [Prod.map_fst, render, Option.bind_eq_bind, Option.bind_eq_some_iff] at hr
    obtain ⟨⟨cs, ap'⟩, hp, later, hlater, heq⟩ := hr
    cases heq
    obtain ⟨hcs, hrest⟩ := fits_append.mp hfits
    obtain ⟨ap'', hrun⟩ := (ih (txt ++ cs.map Cell.byte) ap').through later
      (by simpa using hlater) (by simpa using hrest)
    refine ⟨ap'', (hgo cs ap' hp hcs).trans ?_⟩
    rwa [List.map_append, ← List.append_assoc]
  dead hno := by
    by_cases hp : ∃ cs ap', p.cells (txt.length + 1 < maxlen) ap = some (cs, ap') ∧
        Fits maxlen txt.length cs
    · obtain ⟨cs, ap', hcs, hfits⟩ := hp
      obtain ⟨u, hu, hdead⟩ := (ih (txt ++ cs.map Cell.byte) ap').dead fun later hlater hf => by
        refine hno (cs ++ later) ?_ (fits_append.mpr ⟨hfits, by simpa using hf⟩)
        rw [hps]
        simp only [Prod.map_fst, render, Option.bind_eq_bind, Option.bind_eq_some_iff]
        exact ⟨_, hcs, later, by simpa using hlater, rfl⟩
      exact ⟨u, (hgo cs ap' hcs hfits).trans hu, hdead⟩
    · exact hstop fun cs ap' hcs hfits => hp ⟨cs, ap', hcs, hfits⟩

theorem outcome_lit {c : UInt8} (h0 : c ≠ 0) (hp : c ≠ ch '%')
    (ih : ∀ txt' ap', Outcome maxlen txt' fmt ap') : Outcome maxlen txt (c :: fmt) ap := by
  have hstep : step maxlen (.after maxlen txt (c :: fmt) ap .loop) =
      some ((State.after maxlen txt (c :: fmt) ap .loop).outNext maxlen c
        fun t => { t with fmt := fmt }) := by
    simp only [step, State.round, State.after, if_neg h0, if_pos hp]
  refine .cons (pieces_lit h0 hp) (fun cs ap' hcs hfits => ?_) (fun hno => ?_) ih
  · cases hcs
    rw [outNext_room ((fits_cons.mp hfits).1 rfl)] at hstep
    exact reaches_single hstep
  · rw [outNext_full fun hroom => hno _ ap rfl (fits_cons.mpr ⟨fun _ => hroom, fits_nil⟩)] at hstep
    exact ⟨_, .refl, .inl hstep⟩

theorem outcome_percent (ih : ∀ txt' ap', Outcome maxlen txt' fmt ap') :
    Outcome maxlen txt (ch '%' :: ch '%' :: fmt) ap := by
  have hstep : step maxlen (.after maxlen txt (ch '%' :: ch '%' :: fmt) ap .loop) =
      some (.after maxlen (txt ++ [ch '%']) fmt ap .loop) := congrArg some (out_after (ch '%'))
  refine .cons (pieces_percent fmt) (fun cs ap' hcs _ => ?_) (fun hno => ?_) ih
  · cases hcs
    exact reaches_single hstep
  · exact absurd (fits_free (l := [ch '%'])) (hno _ ap rfl)

theorem outcome_conv {c : UInt8} {d : Directive} {rest : List UInt8} (h0 : c ≠ 0)
    (hp : c ≠ ch '%') (hd : directive (c :: fmt) = some (d, rest)) (hsuf : rest <:+ c :: fmt)
    (hs : d.spec ≠ 0) (ih : ∀ txt' ap', Outcome maxlen txt' rest ap') :
    Outcome maxlen txt (ch '%' :: c :: fmt) ap := by
  have hstep : step maxlen (.after maxlen txt (ch '%' :: c :: fmt) ap .loop) =
      some ((State.after maxlen txt (ch '%' :: c :: fmt) ap .loop).convert maxlen d rest) := by
    simp only [step, State.round, State.after, if_neg h0, if_neg hp, hd]
    rfl
  have hconv : Converts maxlen txt (ch '%' :: c :: fmt) ap d rest _ := converts d rest
  refine .cons (pieces_conv h0 hp hd hsuf hs) (fun cs ap' hcs hfits => ?_) (fun hno => ?_) ih
  · obtain ⟨cs', ap'', hcs', -, hrun⟩ | ⟨hno, -⟩ := hconv
    · cases hcs.symm.trans hcs'
      exact reaches_step hstep hrun
    · exact absurd hfits (hno cs ap' hcs)
  · obtain ⟨cs, ap', hcs, hfits, -⟩ | ⟨-, u, hu, hdead⟩ := hconv
    · exact absurd hfits (hno cs ap' hcs)
    · exact ⟨u, reaches_step hstep hu, hdead⟩

/-- The terminator read as the conversion character: the next test of `*fmt` is past it. -/
theorem outcome_cut {c : UInt8} {d : Directive} (h0 : c ≠ 0) (hp : c ≠ ch '%')
    (hd : directive (c :: fmt) = some (d, [])) (hs : d.spec = 0) :
    Outcome maxlen txt (ch '%' :: c :: fmt) ap := by
  have hstep : step maxlen (.after maxlen txt (ch '%' :: c :: fmt) ap .loop) =
      some (.after maxlen txt [] ap .loop) := by
    simp only [step, State.round, State.after, if_neg h0, if_neg hp, hd, State.convert, hs]
    rfl
  exact .ended (pieces_cut h0 hp hd hs) (reaches_step hstep (reaches_single rfl))

theorem outcome (fmt : List UInt8) (h : Terminated fmt) (txt : List UInt8) (ap : List Arg) :
    Outcome maxlen txt fmt ap := by
  induction hk : fmt.length using Nat.strong_induction_on generalizing fmt txt ap with
  | _ k ih =>
    subst hk
    cases fmt with
    | nil => exact absurd h id
    | cons c fmt =>
      by_cases h0 : c = 0
      · subst h0
        cases h.nul
        exact .ended rfl (reaches_single rfl)
      have hfmt := h.next h0
      by_cases hp : c = ch '%'
      · subst hp
        cases fmt with
        | nil => exact absurd hfmt id
        | cons c' fmt =>
          by_cases h0' : c' = 0
          · subst h0'
            cases hfmt.nul
            exact .ended (pieces_lone []) (reaches_single rfl)
          by_cases hp' : c' = ch '%'
          · subst hp'
            exact outcome_percent fun txt' ap' => 
              ih _ (by simp) fmt (hfmt.next h0') txt' ap' rfl
          obtain ⟨d, rest, hd, hsuf, hlen, hcut, hrest⟩ := directive_terminated hfmt
          by_cases hs : d.spec = 0
          · cases hcut hs
            exact outcome_cut h0' hp' hd hs
          · exact outcome_conv h0' hp' hd hsuf hs fun txt' ap' =>
              ih _ (hlen.trans (Nat.lt_succ_self _)) rest (hrest hs) txt' ap' rfl
      · exact outcome_lit h0 hp fun txt' ap' => ih _ (Nat.lt_succ_self _) fmt hfmt txt' ap' rfl

end Formats
end MoltOS.Printf
