import MoltOS.VgaTerminal

/-! The line the shell edits and the cells it leaves on the screen, from one prompt to the
next Enter. -/
namespace MoltOS.Shell
open MoltOS.Rust MoltOS.Vga

inductive KeyCode where
  | backspace
  | other
deriving DecidableEq, Repr

inductive DecodedKey where
  | unicode (c : Char)
  | rawKey (key : KeyCode)
deriving DecidableEq, Repr

def DecodedKey.IsEnter (k : DecodedKey) : Prop := k = .unicode '\r' ∨ k = .unicode '\n'

/- "moltos> " -/
def prompt : List Char := ['m', 'o', 'l', 't', 'o', 's', '>', ' ']

def encode (text : List Char) : List UInt8 := text.flatMap String.utf8EncodeChar

/- `c.is_ascii() && !c.is_control()` -/
def Session.Plain (c : Char) : Prop :=
  c.toNat < 0x80 ∧ ¬ (c.toNat < 0x20 ∨ 0x7f ≤ c.toNat ∧ c.toNat ≤ 0x9f)

instance (c : Char) : Decidable (Session.Plain c) := by unfold Session.Plain; infer_instance

/- What the loop of `run_shell` works on: the line, `print!`, and `run_command(line.trim())`
   with `line.clear()`. -/
structure Output (σ : Type) where
  line : σ → List Char
  edit : List Char → σ → σ
  print : List Char → σ → Except Panic σ
  command : σ → Except Panic σ

section Loop
variable {σ τ : Type}

def erase (o : Output σ) (s : σ) : Except Panic σ :=
  if o.line s = [] then .ok s else o.print ['\x08'] (o.edit (o.line s).dropLast s)

def runKey (o : Output σ) (s : σ) : DecodedKey → Except Panic σ
  | .unicode c =>
    if c = '\r' ∨ c = '\n' then do
      let s ← o.print ['\n'] s
      let s ← o.command s
      o.print prompt s
    else if c = '\x08' ∨ c = '\x7f' then erase o s
    else if Session.Plain c then o.print [c] (o.edit (o.line s ++ [c]) s)
    else .ok s
  | .rawKey .backspace => erase o s
  | .rawKey .other => .ok s

structure Output.Simulates (o : Output σ) (o' : Output τ) (R : σ → τ → Prop) : Prop where
  line : ∀ {s t}, R s t → o'.line t = o.line s
  edit : ∀ {s t} (text : List Char), R s t → R (o.edit text s) (o'.edit text t)
  print : ∀ {s t s'} (text : List Char), R s t → o.print text s = .ok s' →
    ∃ t', o'.print text t = .ok t' ∧ R s' t'

namespace Output.Simulates
variable {o : Output σ} {o' : Output τ} {R : σ → τ → Prop} {s s' : σ} {t : τ} {k : DecodedKey}

theorem erase (h : o.Simulates o' R) (hst : R s t) (hkey : Shell.erase o s = .ok s') :
    ∃ t', Shell.erase o' t = .ok t' ∧ R s' t' := by
  unfold Shell.erase at hkey ⊢
  rw [h.line hst]
  split_ifs at hkey ⊢
  · cases hkey
    exact ⟨t, rfl, hst⟩
  · exact h.print _ (h.edit _ hst) hkey

/-- A key keeps the relation, if the command that it may run does. -/
theorem runKey (h : o.Simulates o' R) (hst : R s t)
    (hcommand : k.IsEnter → ∀ {s t s'}, R s t → o.command s = .ok s' →
      ∃ t', o'.command t = .ok t' ∧ R s' t')
    (hkey : runKey o s k = .ok s') : ∃ t', Shell.runKey o' t k = .ok t' ∧ R s' t' := by
  cases k with
  | unicode c =>
    simp only [Shell.runKey] at hkey ⊢
    rw [h.line hst]
    split_ifs at hkey ⊢ with henter
    · have hk : DecodedKey.IsEnter (.unicode c) := by simpa [DecodedKey.IsEnter] using henter
      obtain ⟨u, hu, hkey⟩ := bind_eq_ok.mp hkey
      obtain ⟨v, hv, hkey⟩ := bind_eq_ok.mp hkey
      obtain ⟨u', hu', hrel⟩ := h.print _ hst hu
      obtain ⟨v', hv', hrel⟩ := hcommand hk hrel hv
      obtain ⟨t', ht', hrel⟩ := h.print _ hrel hkey
      exact ⟨t', bind_eq_ok.mpr ⟨u', hu', bind_eq_ok.mpr ⟨v', hv', ht'⟩⟩, hrel⟩
    · exact h.erase hst hkey
    · exact h.print _ (h.edit _ hst) hkey
    · cases hkey
      exact ⟨t, rfl, hst⟩
  | rawKey code =>
    cases code with
    | backspace => exact h.erase hst hkey
    | other =>
      cases hkey
      exact ⟨t, rfl, hst⟩

end Output.Simulates
end Loop

def newLines (w : Writer) : List UInt8 → Nat
  | [] => 0
  | byte :: bytes =>
    (if byte = 0x0a ∨ byte ≠ 0x08 ∧ w.columnPosition ≥ bufferWidth then 1 else 0) +
      match w.writeByte (if Writer.Accepted byte then byte else 0xfe) with
      | .ok w => newLines w bytes
      | .error _ => 0

/- The last three fields are history: the column in which the prompt began, how many rows
   were finished since, and how many backspaces found the cursor in the first column. -/
structure Session where
  writer : Writer
  line : List Char
  column : Nat
  scrolled : Nat
  stuck : Nat

namespace Session

def print (s : Session) (text : List Char) : Except Panic Session := do
  let w ← s.writer.writeString (encode text)
  pure { s with
    writer := w
    scrolled := s.scrolled + newLines s.writer (encode text)
    stuck := s.stuck + if text = ['\x08'] ∧ s.writer.columnPosition = 0 then 1 else 0 }

def fresh (w : Writer) : Session := ⟨w, [], w.columnPosition, 0, 0⟩

def start (w : Writer) : Except Panic Session := (fresh w).print prompt

def output (runCommand : List Char → Writer → Except Panic Writer) : Output Session where
  line := line
  edit text s := { s with line := text }
  print text s := s.print text
  command s := do
    let w ← runCommand s.line s.writer
    pure (fresh w)

def key (runCommand : List Char → Writer → Except Panic Writer) (s : Session) (k : DecodedKey) :
    Except Panic Session :=
  runKey (output runCommand) s k

def keys (runCommand : List Char → Writer → Except Panic Writer) (s : Session)
    (ks : List DecodedKey) : Except Panic Session :=
  ks.foldlM (key runCommand) s

end Session

def screenRow (b : Buffer) (r : Fin bufferHeight) : List UInt8 :=
  List.ofFn fun c => (b.chars r c).asciiCharacter

/- The rows of the screen one after the other, from the cell in which the prompt began (or
   from the top, when that cell has left the screen) up to the cursor. -/
def Session.screenText (s : Session) : List UInt8 :=
  let above := min s.scrolled (bufferHeight - 1)
  let cells := (((List.finRange bufferHeight).drop (bufferHeight - 1 - above)).flatMap
    (screenRow s.writer.buffer)).take (above * bufferWidth + s.writer.columnPosition)
  if s.scrolled ≤ bufferHeight - 1 then cells.drop s.column else cells

/- Reading the screen back. -/
section Screen
variable {Pad : ScreenChar → Prop} {w : Writer} {t : Terminal}

theorem screenRow_take (h : Shows Pad w t) (r : Fin bufferHeight)
    (hfits : (t.row (bufferHeight - 1 - r)).length ≤ bufferWidth) :
    (screenRow w.buffer r).take (t.row (bufferHeight - 1 - r)).length =
      (t.row (bufferHeight - 1 - r)).map (·.asciiCharacter) := by
  refine List.ext_getElem (by simp [screenRow, hfits]) fun c hc hc' => ?_
  have hlt : c < (t.row (bufferHeight - 1 - r)).length := by simpa using hc'
  have hcell := h.cells r ⟨c, by omega⟩
  rw [List.getElem?_eq_getElem hlt] at hcell
  simp only [screenRow, List.getElem_take, List.getElem_ofFn, List.getElem_map]
  rw [show w.buffer.chars r ⟨c, _⟩ = _ from hcell]

/-- Rows that were filled to the last column stand on the screen without a gap. -/
theorem screenRows_eq (h : Shows Pad w t) {k : Nat} (hk : k ≤ bufferHeight - 1)
    (hlen : k ≤ t.finished.length) (hfull : ∀ row ∈ t.finished.take k, row.length = bufferWidth) :
    ((List.finRange bufferHeight).drop (bufferHeight - 1 - k)).flatMap (screenRow w.buffer) =
      (t.finished.take k).reverse.flatten.map (·.asciiCharacter) ++
        screenRow w.buffer Buffer.last := by
  induction k with
  | zero =>
    have hdrop : (List.finRange bufferHeight).drop (bufferHeight - 1 - 0) = [Buffer.last] := by decide
    rw [hdrop]
    simp
  | succ k ih =>
    have hlt : bufferHeight - 1 - (k + 1) < (List.finRange bufferHeight).length := by
      rw [List.length_finRange]
      omega
    have hnext : bufferHeight - 1 - (k + 1) + 1 = bufferHeight - 1 - k := by omega
    have hlast : t.finished.take (k + 1) = t.finished.take k ++ [t.finished[k]] :=
      List.take_succ_eq_append_getElem (by omega)
    have hwidth : t.finished[k].length = bufferWidth := 
      hfull _ (hlast ▸ List.mem_append_right _ (List.mem_singleton_self _))
    have hfull' : ∀ row ∈ t.finished.take k, row.length = bufferWidth :=
      fun row hrow => hfull row (by rw [hlast]; exact List.mem_append_left _ hrow)
    let r : Fin bufferHeight := ⟨bufferHeight - 1 - (k + 1), by omega⟩
    have hrow : t.row (bufferHeight - 1 - r) = t.finished[k] := by
      rw [show bufferHeight - 1 - r.val = k + 1 by simp only [r]; omega]
      simp [LineTerminal.row, List.getElem?_eq_getElem (show k < t.finished.length by omega)]
    have hscreen : screenRow w.buffer r = t.finished[k].map (·.asciiCharacter) := by
      have htake := screenRow_take h r (by rw [hrow, hwidth])
      rw [hrow, hwidth] at htake
      rwa [List.take_of_length_le (by simp [screenRow])] at htake
    rw [List.drop_eq_getElem_cons hlt, hnext, List.flatMap_cons, ih (by omega) (by omega) hfull',
      List.getElem_finRange, hlast, List.reverse_append, List.reverse_singleton,
      List.singleton_append, List.flatten_cons, List.map_append, ← hscreen, List.append_assoc]
    rfl

theorem length_flatten_of_full {rows : List (List ScreenChar)}
    (h : ∀ row ∈ rows, row.length = bufferWidth) :
    rows.flatten.length = rows.length * bufferWidth := by
  rw [List.length_flatten, List.map_congr_left h]
  simp

end Screen

/- What a session knows of the terminal: `before` stood in the row of the prompt already,
   `text` was written since, and every row finished since is full. -/
structure Tracks (s : Session) (t : Terminal) (before : List ScreenChar) (text : List UInt8) :
    Prop where
  shows : Shows (fun _ => True) s.writer t
  rows : s.scrolled ≤ t.finished.length
  full : ∀ row ∈ t.finished.take s.scrolled, row.length = bufferWidth
  cells : t.textSince s.scrolled = before ++ text.map (⟨·, s.writer.colorCode⟩)
  column : s.column = before.length
  width : s.column ≤ bufferWidth

namespace Tracks
variable {s : Session} {t : Terminal} {before : List ScreenChar} {text : List UInt8}

theorem finished_length (h : Tracks s t before text) {k : Nat} (hk : k ≤ s.scrolled) :
    (t.finished.take k).reverse.flatten.length = k * bufferWidth := by
  have hle := h.rows
  have hfull : ∀ row ∈ (t.finished.take k).reverse, row.length = bufferWidth := fun row hrow =>
    h.full row ((List.take_sublist_take_left hk).subset (List.mem_reverse.mp hrow))
  rw [length_flatten_of_full hfull, List.length_reverse, List.length_take, min_eq_left (by omega)]

/-- The cells of the rows finished last and of the current row. -/
theorem cells_eq (h : Tracks s t before text) {k : Nat} (hk : k ≤ bufferHeight - 1)
    (hks : k ≤ s.scrolled) :
    (((List.finRange bufferHeight).drop (bufferHeight - 1 - k)).flatMap
        (screenRow s.writer.buffer)).take (k * bufferWidth + s.writer.columnPosition) =
      (t.textSince k).map (·.asciiCharacter) := by
  have hlen : ((t.finished.take k).reverse.flatten.map (·.asciiCharacter)).length =
      k * bufferWidth := by rw [List.length_map, h.finished_length hks]
  have hcurrent : (screenRow s.writer.buffer Buffer.last).take s.writer.columnPosition =
      t.current.map (·.asciiCharacter) := by
    rw [h.shows.column]
    exact screenRow_take h.shows Buffer.last t.fits
  have hfull : ∀ row ∈ t.finished.take k, row.length = bufferWidth :=
    fun row hrow => h.full row ((List.take_sublist_take_left hks).subset hrow)
  rw [screenRows_eq h.shows hk (hks.trans h.rows) hfull, ← hlen, List.take_length_add_append,
    hcurrent, ← List.map_append]
  rfl

/-- While the prompt is on the screen, reading back gives what was written. -/
theorem screenText_eq (h : Tracks s t before text) (hle : s.scrolled ≤ bufferHeight - 1) :
    s.screenText = text := by
  rw [Session.screenText]
  simp only [min_eq_left hle, if_pos hle]
  rw [h.cells_eq hle le_rfl, h.cells, List.map_append, h.column, List.drop_left' (by simp)]
  simp [Function.comp_def]

/-- Once it has left the screen, reading back gives the end of what was written. -/
theorem screenText_suffix (h : Tracks s t before text) (hlt : bufferHeight - 1 < s.scrolled) :
    s.screenText <:+ text ∧
      s.screenText.length = (bufferHeight - 1) * bufferWidth + s.writer.columnPosition := by
  have hmin : min s.scrolled (bufferHeight - 1) = bufferHeight - 1 := min_eq_right hlt.le
  have hread : s.screenText = (t.textSince (bufferHeight - 1)).map (·.asciiCharacter) := by
    rw [Session.screenText]
    simp only [hmin, if_neg (Nat.not_le.mpr hlt)]
    exact h.cells_eq le_rfl hlt.le
  have hlen (k : Nat) (hk : k ≤ s.scrolled) :
      (t.textSince k).length = k * bufferWidth + s.writer.columnPosition := by
    rw [LineTerminal.textSince, List.length_append, h.finished_length hk, h.shows.column]
  have htext : (t.textSince s.scrolled).map (·.asciiCharacter) =
      before.map (·.asciiCharacter) ++ text := by
    rw [h.cells, List.map_append]
    simp [Function.comp_def]
  have hend : s.screenText <:+ before.map (·.asciiCharacter) ++ text := by
    rw [hread, ← htext]
    exact (LineTerminal.textSince_suffix hlt.le).map _
  have hshown : s.screenText.length = (bufferHeight - 1) * bufferWidth + s.writer.columnPosition := by
    rw [hread, List.length_map, hlen _ hlt.le]
  refine ⟨List.suffix_of_suffix_length_le hend (List.suffix_append _ _) ?_, hshown⟩
  -- the row in which the prompt began is above the screen
  have hall := congrArg List.length htext
  rw [List.length_map, hlen _ le_rfl, List.length_append, List.length_map, ← h.column] at hall
  have hwidth := h.width
  have hrows : (bufferHeight - 1 + 1) * bufferWidth ≤ s.scrolled * bufferWidth :=
    Nat.mul_le_mul_right _ hlt
  rw [Nat.add_mul] at hrows
  omega

theorem put_lt (h : Tracks s t before text) {byte : UInt8} {w : Writer}
    (hlt : t.current.length < bufferWidth) (hcolor : w.colorCode = s.writer.colorCode)
    (hw : Shows (fun _ => True) w (t.put ⟨byte, s.writer.colorCode⟩)) :
    Tracks { s with writer := w } (t.put ⟨byte, s.writer.colorCode⟩) before (text ++ [byte]) where
  shows := hw
  rows := by
    rw [LineTerminal.put_of_lt hlt]
    exact h.rows
  full := by
    rw [LineTerminal.put_of_lt hlt]
    exact h.full
  cells := by
    rw [LineTerminal.textSince_put_of_lt hlt, h.cells, hcolor]
    simp
  column := h.column
  width := h.width

theorem put_full (h : Tracks s t before text) {byte : UInt8} {w : Writer}
    (hfull : t.current.length = bufferWidth) (hcolor : w.colorCode = s.writer.colorCode)
    (hw : Shows (fun _ => True) w (t.put ⟨byte, s.writer.colorCode⟩)) :
    Tracks { s with writer := w, scrolled := s.scrolled + 1 } (t.put ⟨byte, s.writer.colorCode⟩)
      before (text ++ [byte]) := by
  have hfin : (t.put ⟨byte, s.writer.colorCode⟩).finished = t.current :: t.finished := by
    rw [LineTerminal.put, dif_neg (by omega)]
  refine ⟨hw, ?_, ?_, ?_, h.column, h.width⟩
  · rw [hfin]
    exact Nat.succ_le_succ h.rows
  · rw [hfin, List.take_succ_cons]
    exact List.forall_mem_cons.mpr ⟨hfull, h.full⟩
  · rw [LineTerminal.textSince_put_of_full hfull.ge, h.cells, hcolor]
    simp

end Tracks

structure Caret where
  column : Nat
  scrolled : Nat
  length : Nat
  stuck : Nat
deriving DecidableEq, Repr

namespace Caret

def put (c : Caret) : Caret :=
  if c.column < bufferWidth then { c with column := c.column + 1 }
  else { c with column := 1, scrolled := c.scrolled + 1 }

def backspace (c : Caret) : Caret :=
  if c.length = 0 then c
  else { c with
    column := c.column - 1
    length := c.length - 1
    stuck := c.stuck + if c.column = 0 then 1 else 0 }

def key (c : Caret) : DecodedKey → Caret
  | .unicode ch =>
    if ch = '\x08' ∨ ch = '\x7f' then c.backspace
    else if Session.Plain ch then { c with length := c.length + 1 }.put
    else c
  | .rawKey .backspace => c.backspace
  | .rawKey .other => c

def start (column : Nat) : Caret := put^[prompt.length] ⟨column, 0, 0, 0⟩

end Caret

def Session.caret (s : Session) : Caret :=
  ⟨s.writer.columnPosition, s.scrolled, s.line.length, s.stuck⟩

namespace Tracks
variable {s : Session} {t : Terminal} {before : List ScreenChar} {text : List UInt8}

theorem putByte (h : Tracks s t before text) {byte : UInt8} (hp : Terminal.Printable byte) :
    ∃ w t', s.writer.writeByte byte = .ok w ∧
      Tracks { s with writer := w, scrolled := s.scrolled + newLines s.writer [byte] } t' before
        (text ++ [byte]) ∧
      { s with writer := w, scrolled := s.scrolled + newLines s.writer [byte] }.caret =
        s.caret.put := by
  have hn : byte ≠ 0x0a := fun he => absurd hp (by rw [he]; decide)
  have hb : byte ≠ 0x08 := fun he => absurd hp (by rw [he]; decide)
  obtain ⟨w, hw, hcolor, hshows⟩ := h.shows.put trivial hn hb
  have hcount : newLines s.writer [byte] = if s.writer.columnPosition ≥ bufferWidth then 1 else 0 := by
    have hacc : Writer.Accepted byte := Or.inl hp
    simp [newLines, hn, hb, hacc, hw]
  have hlen := h.shows.column
  refine ⟨w, t.put ⟨byte, s.writer.colorCode⟩, hw, ?_⟩
  by_cases hlt : t.current.length < bufferWidth
  · rw [hcount, if_neg (by omega)]
    refine ⟨h.put_lt hlt hcolor hshows, ?_⟩
    have hcol : w.columnPosition = s.writer.columnPosition + 1 := by
      rw [hshows.column, LineTerminal.put_of_lt hlt, hlen, List.length_append, List.length_singleton]
    simp [Session.caret, Caret.put, hcol, hlen, hlt]
  · have hfull : t.current.length = bufferWidth := le_antisymm t.fits (by omega)
    rw [hcount, if_pos (by omega)]
    refine ⟨h.put_full hfull hcolor hshows, ?_⟩
    have hcol : w.columnPosition = 1 := by
      rw [hshows.column, LineTerminal.put, dif_neg hlt, List.length_singleton]
    simp [Session.caret, Caret.put, hcol, hlen, hfull]

theorem putBytes (h : Tracks s t before text) (bytes : List UInt8)
    (hp : ∀ byte ∈ bytes, Terminal.Printable byte) :
    ∃ w t', s.writer.writeString bytes = .ok w ∧
      Tracks { s with writer := w, scrolled := s.scrolled + newLines s.writer bytes } t' before
        (text ++ bytes) ∧
      { s with writer := w, scrolled := s.scrolled + newLines s.writer bytes }.caret =
        Caret.put^[bytes.length] s.caret := by
  induction bytes generalizing s t text with
  | nil => exact ⟨s.writer, t, rfl, by simpa [newLines] using h, rfl⟩
  | cons byte bytes ih =>
    obtain ⟨hbyte, hrest⟩ := List.forall_mem_cons.mp hp
    have hacc : (if Writer.Accepted byte then byte else 0xfe) = byte := if_pos (Or.inl hbyte)
    obtain ⟨w, t', hw, htracks, hcaret⟩ := h.putByte hbyte
    obtain ⟨v, t'', hv, htracks', hcaret'⟩ := ih htracks hrest
    have hcount : newLines s.writer (byte :: bytes) =
        newLines s.writer [byte] + newLines w bytes := by
      simp only [newLines, hacc, hw, Nat.add_zero]
    refine ⟨v, t'', ?_, ?_, ?_⟩
    · rw [Writer.writeString, List.foldlM_cons, hacc, hw]
      exact hv
    · rw [hcount, ← Nat.add_assoc]
      simpa using htracks'
    · rw [hcount, ← Nat.add_assoc, List.length_cons, Function.iterate_succ_apply, ← hcaret]
      exact hcaret'

theorem print (h : Tracks s t before text) (chars : List Char)
    (hp : ∀ byte ∈ encode chars, Terminal.Printable byte) :
    ∃ s' t', s.print chars = .ok s' ∧ Tracks s' t' before (text ++ encode chars) ∧
      s'.line = s.line ∧ s'.stuck = s.stuck ∧
      s'.caret = Caret.put^[(encode chars).length] s.caret := by
  obtain ⟨w, t', hw, htracks, hcaret⟩ := h.putBytes (encode chars) hp
  have hne : chars ≠ ['\x08'] := by
    rintro rfl
    exact absurd (hp 0x08 List.mem_cons_self) (by decide)
  refine ⟨_, t', ?_, htracks, rfl, rfl, hcaret⟩
  simp only [Session.print, hw, hne, false_and, if_false]
  rfl

theorem newLines_backspace (w : Writer) : newLines w [0x08] = 0 := by
  have hstay : ¬ ((0x08 : UInt8) = 0x0a ∨ (0x08 : UInt8) ≠ 0x08 ∧ w.columnPosition ≥ bufferWidth) := by
    simp
  simp only [newLines, if_neg hstay, Nat.zero_add]
  split <;> rfl

/-- A backspace takes the last cell away, unless the cursor is in the first column. -/
theorem erase (h : Tracks s t before text) (htext : text ≠ []) :
    ∃ w t', s.writer.writeString [0x08] = .ok w ∧
      w.columnPosition = s.writer.columnPosition - 1 ∧
      Tracks { s with writer := w } t' before
        (if s.writer.columnPosition = 0 then text else text.dropLast) := by
  obtain ⟨w, hw, hcolor, hshows⟩ := h.shows.backspace trivial
  have hlen := h.shows.column
  have hcol : w.columnPosition = s.writer.columnPosition - 1 := by
    rw [hshows.column, hlen, LineTerminal.backspace, List.length_dropLast]
  refine ⟨w, t.backspace, ?_, hcol, hshows, h.rows, h.full, ?_, h.column, h.width⟩
  · have hstep : s.writer.writeByte (if Writer.Accepted 0x08 then 0x08 else 0xfe) = .ok w := hw
    rw [Writer.writeString, List.foldlM_cons, hstep]
    rfl
  · by_cases hzero : s.writer.columnPosition = 0
    · have hnil : t.current = [] := List.length_eq_zero_iff.mp (by omega)
      have hsame : t.backspace.textSince s.scrolled = t.textSince s.scrolled := by
        simp [LineTerminal.textSince, LineTerminal.backspace, hnil]
      rw [if_pos hzero, hsame, h.cells, hcolor]
    · have hne : t.current ≠ [] := fun he => hzero (by rw [hlen, he]; rfl)
      rw [if_neg hzero, LineTerminal.textSince_backspace hne, h.cells, hcolor,
        List.dropLast_append_of_ne_nil (by simpa using htext), List.map_dropLast]

end Tracks

theorem encode_append (a b : List Char) : encode (a ++ b) = encode a ++ encode b :=
  List.flatMap_append

theorem encode_plain {c : Char} (h : Session.Plain c) : encode [c] = [UInt8.ofNat c.toNat] := by
  have hle : c.val.toNat ≤ 127 := Nat.lt_succ_iff.mp h.1
  simp only [encode, List.flatMap_cons, List.flatMap_nil, List.append_nil, String.utf8EncodeChar,
    if_pos hle]
  rfl

theorem printable_of_plain {c : Char} (h : Session.Plain c) :
    Terminal.Printable (UInt8.ofNat c.toNat) := by
  obtain ⟨hlt, hctl⟩ := h
  have hmod : c.toNat % 2 ^ 8 = c.toNat := Nat.mod_eq_of_lt (by omega)
  constructor
  · rw [UInt8.le_iff_toNat_le, UInt8.toNat_ofNat', hmod]
    simp
    omega
  · rw [UInt8.le_iff_toNat_le, UInt8.toNat_ofNat', hmod]
    simp
    omega

/- The text since the prompt is the prompt and the line, with one cell too many for every
   backspace that found the cursor in the first column. -/
structure Spells (s : Session) (text : List UInt8) : Prop where
  plain : ∀ c ∈ s.line, Session.Plain c
  length : text.length = (encode (prompt ++ s.line)).length + s.stuck
  spelt : s.stuck = 0 → text = encode (prompt ++ s.line)

/- What can be read off the screen: the prompt and the line, if no backspace was stuck, or the
   end of them once the prompt has left the screen. -/
structure Legible (s : Session) : Prop where
  whole : s.scrolled ≤ bufferHeight - 1 →
    (s.screenText = encode (prompt ++ s.line) ↔ s.stuck = 0)
  tail : bufferHeight - 1 < s.scrolled → s.stuck = 0 →
    s.screenText <:+ encode (prompt ++ s.line) ∧
      s.screenText.length = (bufferHeight - 1) * bufferWidth + s.writer.columnPosition

theorem Spells.iff {s : Session} {text : List UInt8} (h : Spells s text) :
    text = encode (prompt ++ s.line) ↔ s.stuck = 0 := by
  refine ⟨fun he => ?_, h.spelt⟩
  have hlen := h.length
  rw [he] at hlen
  omega

theorem legible {s : Session} {t : Terminal} {before : List ScreenChar} {text : List UInt8}
    (h : Tracks s t before text) (hs : Spells s text) : Legible s where
  whole hle := by
    rw [h.screenText_eq hle]
    exact hs.iff
  tail hlt hstuck := hs.spelt hstuck ▸ h.screenText_suffix hlt

section Keys
variable {s : Session} {t : Terminal} {before : List ScreenChar} {text : List UInt8}

theorem backspace_step (runCommand : List Char → Writer → Except Panic Writer)
    (h : Tracks s t before text) (hs : Spells s text) :
    ∃ s' t' text', erase (Session.output runCommand) s = .ok s' ∧ Tracks s' t' before text' ∧ Spells s' text' ∧
      s'.caret = s.caret.backspace := by
  rcases List.eq_nil_or_concat s.line with hnil | ⟨line, c, hline⟩
  · refine ⟨s, t, text, if_pos hnil, h, hs, ?_⟩
    simp [Session.caret, Caret.backspace, hnil]
  · have hc : Session.Plain c := hs.plain c (by simp [hline])
    have hlen := hs.length
    have henc : encode (prompt ++ s.line) = encode (prompt ++ line) ++ [UInt8.ofNat c.toNat] := by
      rw [hline, List.concat_eq_append, ← List.append_assoc, encode_append _ [c], encode_plain hc]
    rw [henc, List.length_append, List.length_singleton] at hlen
    obtain ⟨w, t', hw, hcol, htracks⟩ := h.erase (List.ne_nil_of_length_pos (by omega))
    refine ⟨{ s with
      writer := w
      line := s.line.dropLast
      stuck := s.stuck + if s.writer.columnPosition = 0 then 1 else 0 }, t', _, ?_,
      ⟨htracks.shows, htracks.rows, htracks.full, htracks.cells, htracks.column, htracks.width⟩, ?_, ?_⟩
    · have hne : s.line ≠ [] := by simp [hline]
      have hcount : newLines s.writer (encode ['\x08']) = 0 := Tracks.newLines_backspace s.writer
      have hprint : s.writer.writeString (encode ['\x08']) = .ok w := hw
      simp only [erase, Session.output, if_neg hne, Session.print, hcount, hprint, true_and]
      rfl
    · have hdrop : s.line.dropLast = line := by simp [hline]
      refine ⟨fun d hd => hs.plain d (List.dropLast_subset _ hd), ?_, fun hzero => ?_⟩
      · simp only [hdrop]
        split
        · omega
        · rw [List.length_dropLast]
          omega
      · have hcol : ¬ s.writer.columnPosition = 0 := fun he => by simp [he] at hzero
        have hstuck : s.stuck = 0 := by simpa [hcol] using hzero
        simp only [hdrop, if_neg hcol, hs.spelt hstuck, henc, List.dropLast_concat]
    · have hpos : ¬ s.caret.length = 0 := by simp [Session.caret, hline]
      rw [Caret.backspace, if_neg hpos]
      simp only [Session.caret, hcol, List.length_dropLast]
      rfl

theorem key_step (runCommand : List Char → Writer → Except Panic Writer) (h : Tracks s t before text)
    (hs : Spells s text) {k : DecodedKey} (hk : ¬ k.IsEnter) :
    ∃ s' t' text', s.key runCommand k = .ok s' ∧ Tracks s' t' before text' ∧ Spells s' text' ∧
      s'.caret = s.caret.key k := by
  cases k with
  | unicode c =>
    have hc : ¬ (c = '\r' ∨ c = '\n') := by simpa [DecodedKey.IsEnter] using hk
    simp only [Session.key, runKey, if_neg hc, Caret.key]
    split
    · exact backspace_step runCommand h hs
    split
    · rename_i hplain
      have henc : encode [c] = [UInt8.ofNat c.toNat] := encode_plain hplain
      have hline : Tracks { s with line := s.line ++ [c] } t before text :=
        ⟨h.shows, h.rows, h.full, h.cells, h.column, h.width⟩
      have hprintable : ∀ byte ∈ encode [c], Terminal.Printable byte := by
        rw [henc]
        exact List.forall_mem_singleton.mpr (printable_of_plain hplain)
      obtain ⟨s', t', hprint, htracks, hsame, hstuck, hcaret⟩ := hline.print [c] hprintable
      have hstuck : s'.stuck = s.stuck := hstuck
      have hwhole : encode (prompt ++ s'.line) = encode (prompt ++ s.line) ++ encode [c] := by
        rw [hsame, ← encode_append, List.append_assoc]
      refine ⟨s', t', _, hprint, htracks, ⟨fun d hd => ?_, ?_, fun hzero => ?_⟩, ?_⟩
      · rw [hsame] at hd
        rcases List.mem_append.mp hd with hold | hnew
        · exact hs.plain d hold
        · rwa [List.mem_singleton.mp hnew]
      · have hlen := hs.length
        rw [hwhole, List.length_append, List.length_append, hstuck]
        omega
      · rw [hwhole, hs.spelt (hstuck ▸ hzero)]
      · rw [hcaret, henc]
        simp [Session.caret]
    · exact ⟨s, t, text, rfl, h, hs, rfl⟩
  | rawKey key =>
    cases key with
    | backspace => exact backspace_step runCommand h hs
    | other => exact ⟨s, t, text, rfl, h, hs, rfl⟩

theorem keys_step (runCommand : List Char → Writer → Except Panic Writer) (h : Tracks s t before text)
    (hs : Spells s text) (ks : List DecodedKey) (hk : ∀ k ∈ ks, ¬ k.IsEnter) :
    ∃ s' t' text', s.keys runCommand ks = .ok s' ∧ Tracks s' t' before text' ∧ Spells s' text' ∧
      s'.caret = ks.foldl Caret.key s.caret := by
  induction ks generalizing s t text with
  | nil => exact ⟨s, t, text, rfl, h, hs, rfl⟩
  | cons k ks ih =>
    obtain ⟨hk, hrest⟩ := List.forall_mem_cons.mp hk
    obtain ⟨u, t', text', hkey, htracks, hspells, hcaret⟩ := key_step runCommand h hs hk
    obtain ⟨v, t'', text'', hkeys, htracks', hspells', hcaret'⟩ := ih htracks hspells hrest
    refine ⟨v, t'', text'', ?_, htracks', hspells', ?_⟩
    · rw [Session.keys, List.foldlM_cons, hkey]
      exact hkeys
    · rw [hcaret', List.foldl_cons, hcaret]

/- Whatever is on the screen, the cells left of the cursor make a terminal it shows. -/
theorem shows_of_column {w : Writer} (hw : w.columnPosition ≤ bufferWidth) :
    ∃ t, Shows (fun _ => True) w t := by
  let cells := (List.ofFn (w.buffer.chars Buffer.last)).take w.columnPosition
  have hlen : cells.length = w.columnPosition := by simp [cells, hw]
  refine ⟨⟨[], cells, hlen.trans_le hw⟩, ⟨hlen.symm, fun r c => ?_⟩⟩
  by_cases hr : r = Buffer.last
  · subst hr
    change Displays _ _ cells[c.val]?
    by_cases hc : c.val < w.columnPosition
    · simp [cells, List.getElem?_take_of_lt hc, Displays]
    · rw [List.getElem?_eq_none (by omega)]
      trivial
  · have hne : r.val ≠ bufferHeight - 1 := fun he => hr (Fin.ext he)
    obtain ⟨i, hi⟩ : ∃ i, bufferHeight - 1 - r.val = i + 1 := ⟨bufferHeight - 1 - r.val - 1, by omega⟩
    rw [hi]
    trivial

theorem start_step {w : Writer} (hw : w.columnPosition ≤ bufferWidth) :
    ∃ s t before, Session.start w = .ok s ∧ Tracks s t before (encode prompt) ∧
      Spells s (encode prompt) ∧ s.caret = Caret.start w.columnPosition := by
  obtain ⟨t, hshows⟩ := shows_of_column hw
  have hinit : Tracks (Session.fresh w) t t.current [] :=
    ⟨hshows, Nat.zero_le _, by simp [Session.fresh], by simp [LineTerminal.textSince, Session.fresh],
      hshows.column, hw⟩
  have hprintable : ∀ byte ∈ encode prompt, Terminal.Printable byte := by decide +kernel
  obtain ⟨s, t', hprint, htracks, hline, hstuck, hcaret⟩ := hinit.print prompt hprintable
  refine ⟨s, t', t.current, hprint, htracks, ⟨?_, ?_, fun _ => ?_⟩, hcaret⟩
  · simp [hline, Session.fresh]
  · simp [hline, hstuck, Session.fresh]
  · simp [hline, Session.fresh]

theorem session_run (runCommand : List Char → Writer → Except Panic Writer) {w : Writer}
    (hw : w.columnPosition ≤ bufferWidth) (ks : List DecodedKey) (hk : ∀ k ∈ ks, ¬ k.IsEnter) :
    ∃ s, (Session.start w >>= fun s => s.keys runCommand ks) = .ok s ∧
      Legible s ∧ s.caret = ks.foldl Caret.key (Caret.start w.columnPosition) := by
  obtain ⟨s, t, before, hstart, htracks, hspells, hcaret⟩ := start_step hw
  obtain ⟨s', t', text, hkeys, htracks', hspells', hcaret'⟩ :=
    keys_step runCommand htracks hspells ks hk
  refine ⟨s', ?_, legible htracks' hspells', by rw [hcaret', hcaret]⟩
  rw [hstart]
  exact hkeys

end Keys

/-- From any prompt to the next Enter. As long as the prompt has not scrolled off, the screen
spells the prompt and the line exactly when no backspace found the cursor in the first column
of a row. Once it has, and if no backspace did, the full screen up to the cursor is the end of
the prompt and the line. -/
theorem screen_spells_line_iff (runCommand : List Char → Writer → Except Panic Writer)
    (color : UInt8) (buffer : Buffer) (cs : List Call) (ks : List DecodedKey)
    (hk : ∀ k ∈ ks, ¬ k.IsEnter) :
    ∃ w s, Writer.calls ⟨0, color, buffer⟩ cs = .ok w ∧
      (Session.start w >>= fun s => s.keys runCommand ks) = .ok s ∧
      (s.scrolled ≤ bufferHeight - 1 →
        (s.screenText = encode (prompt ++ s.line) ↔ s.stuck = 0)) ∧
      (bufferHeight - 1 < s.scrolled → s.stuck = 0 →
        s.screenText <:+ encode (prompt ++ s.line) ∧
          s.screenText.length = (bufferHeight - 1) * bufferWidth + s.writer.columnPosition) := by
  obtain ⟨t, hshows⟩ := @shows_of_column ⟨0, color, buffer⟩ (Nat.zero_le _)
  obtain ⟨w, hw, -, hshows'⟩ := hshows.calls trivial cs
  obtain ⟨s, hs, hlegible, -⟩ := session_run runCommand hshows'.fits ks hk
  exact ⟨w, s, hw, hs, hlegible.whole, hlegible.tail⟩

/- An empty screen. -/
private def emptyScreen : Writer := ⟨0, 0x0e, ⟨fun _ _ => ⟨0x20, 0x0e⟩⟩⟩

theorem screen_spells_line_short :
    ∃ s, (Session.start emptyScreen >>= fun s => s.keys (fun _ w => .ok w)
        [.unicode 'l', .unicode 's', .rawKey .backspace]) = .ok s ∧
      s.screenText = encode (prompt ++ s.line) := by
  have hk : ∀ k ∈ ([.unicode 'l', .unicode 's', .rawKey .backspace] : List DecodedKey), ¬ k.IsEnter := by
    simp [DecodedKey.IsEnter]
  obtain ⟨w, s, hw, hs, htext, -⟩ := screen_spells_line_iff (fun _ w => .ok w) 0x0e
    ⟨fun _ _ => ⟨0x20, 0x0e⟩⟩ [] _ hk
  cases hw
  obtain ⟨s', hs', -, hcaret⟩ := @session_run (fun _ w => .ok w) emptyScreen (Nat.zero_le _) _ hk
  obtain rfl : s' = s := Except.ok.inj (hs'.symm.trans hs)
  have hend : s'.caret = ⟨9, 0, 1, 0⟩ := hcaret.trans (by decide)
  have hscrolled : s'.scrolled = 0 := congrArg Caret.scrolled hend
  have hstuck : s'.stuck = 0 := congrArg Caret.stuck hend
  exact ⟨s', hs', (htext (by omega)).mpr hstuck⟩

/-- The prompt and 72 characters fill the first row and a 73rd opens the next one. Two
backspaces take two characters from the line, but the second one finds the cursor in the
first column and leaves the screen as it was. -/
theorem backspace_over_wrap_keeps_cell :
    ∃ s, (Session.start emptyScreen >>= fun s => s.keys (fun _ w => .ok w)
        (List.replicate 73 (.unicode 'a') ++ [.rawKey .backspace, .rawKey .backspace])) = .ok s ∧
      s.line.length = 71 ∧ s.scrolled = 1 ∧ s.screenText ≠ encode (prompt ++ s.line) := by
  have hk : ∀ k ∈ List.replicate 73 (.unicode 'a') ++ [.rawKey .backspace, .rawKey .backspace],
      ¬ DecodedKey.IsEnter k := by
    simp [DecodedKey.IsEnter]
  obtain ⟨s, hs, hlegible, hcaret⟩ :=
    @session_run (fun _ w => .ok w) emptyScreen (Nat.zero_le _) _ hk
  have hend : s.caret = ⟨0, 1, 71, 1⟩ := hcaret.trans (by decide +kernel)
  have hscrolled : s.scrolled = 1 := congrArg Caret.scrolled hend
  have hstuck : s.stuck = 1 := congrArg Caret.stuck hend
  refine ⟨s, hs, congrArg Caret.length hend, hscrolled, fun he => ?_⟩
  have hzero := (hlegible.whole (by rw [hscrolled]; decide)).mp he
  omega

end MoltOS.Shell
