import MoltOS.LineTerminal
import MoltOS.Vga

/-! The VGA writer shows a line terminal: the 25 rows of the buffer are the current row and
the 24 rows finished last. -/
namespace MoltOS.Vga
open MoltOS.Rust

instance : NeZero bufferWidth := ⟨by decide⟩

abbrev Terminal := LineTerminal ScreenChar bufferWidth

/- The reference terminal, byte by byte. -/
namespace Terminal

def Printable (byte : UInt8) : Prop := 0x20 ≤ byte ∧ byte ≤ 0x7e

instance (byte : UInt8) : Decidable (Printable byte) := by unfold Printable; infer_instance

def feed (color : UInt8) (t : Terminal) (byte : UInt8) : Terminal :=
  if byte = 0x0a then t.newline
  else if byte = 0x08 then t.backspace
  else t.put ⟨if Printable byte then byte else 0xfe, color⟩

def call (color : UInt8) (t : Terminal) : Call → Terminal
  | .writeString s => s.foldl (feed color) t
  | .clearScreen => .empty _ _

def calls (color : UInt8) (t : Terminal) (cs : List Call) : Terminal := cs.foldl (call color) t

end Terminal

/- A cell of the buffer against what the terminal has at its place; where the terminal has
   nothing the cell is padding. -/
def Displays (Pad : ScreenChar → Prop) (ch : ScreenChar) : Option ScreenChar → Prop
  | some x => ch = x
  | none => Pad ch

structure Shows (Pad : ScreenChar → Prop) (w : Writer) (t : Terminal) : Prop where
  column : w.columnPosition = t.current.length
  cells : ∀ (r : Fin bufferHeight) (c : Fin bufferWidth),
    Displays Pad (w.buffer.chars r c) (t.row (bufferHeight - 1 - r))[c.val]?

namespace Shows
variable {Pad : ScreenChar → Prop} {w : Writer} {t : Terminal}

theorem fits (h : Shows Pad w t) : w.columnPosition ≤ bufferWidth := by
  rw [h.column]
  exact t.fits

theorem newLine (h : Shows Pad w t) (hpad : Pad w.blank) :
    Shows Pad { w with buffer := w.scrolled, columnPosition := 0 } t.newline := by
  refine ⟨rfl, fun r c => ?_⟩
  by_cases hr : r + 1 < bufferHeight
  · have hrow : bufferHeight - 1 - r = (bufferHeight - 1 - (r + 1)) + 1 := by omega
    rw [hrow, LineTerminal.row_newline]
    simpa [Writer.scrolled, hr] using h.cells ⟨r + 1, hr⟩ c
  · have hrow : bufferHeight - 1 - r.val = 0 := by omega
    rw [hrow]
    simpa [Writer.scrolled, hr, LineTerminal.newline, LineTerminal.row, Displays] using hpad

theorem clearScreen (hpad : Pad w.blank) :
    Shows Pad { w with buffer := ⟨fun _ _ => w.blank⟩, columnPosition := 0 }
      (LineTerminal.empty ScreenChar bufferWidth) := by
  refine ⟨rfl, fun r c => ?_⟩
  have hrow : ((LineTerminal.empty ScreenChar bufferWidth).row (bufferHeight - 1 - r))[c.val]? = none := by
    cases hi : bufferHeight - 1 - r.val <;> rfl
  rw [hrow]
  exact hpad

/-- One cell of the last row changes, on the screen and in the current row. -/
theorem set (h : Shows Pad w t) {t' : Terminal} {col : Fin bufferWidth} {ch : ScreenChar} {n : Nat}
    (hfin : t'.finished = t.finished) (hcol : n = t'.current.length)
    (hsame : ∀ c, c ≠ col.val → t'.current[c]? = t.current[c]?)
    (hch : Displays Pad ch t'.current[col.val]?) :
    Shows Pad { w with columnPosition := n, buffer := w.buffer.set Buffer.last col ch } t' := by
  refine ⟨hcol, fun r c => ?_⟩
  have hcell := h.cells r c
  by_cases hr : r = Buffer.last
  · have hrow : bufferHeight - 1 - r.val = 0 := by subst hr; rfl
    rw [hrow, LineTerminal.row_zero] at hcell ⊢
    subst hr
    by_cases hc : c = col
    · subst hc
      simpa [Buffer.set] using hch
    · rw [hsame c fun he => hc (Fin.ext he)]
      simpa [Buffer.set, hc] using hcell
  · obtain ⟨i, hi⟩ : ∃ i, bufferHeight - 1 - r.val = i + 1 := by
      have hne : r.val ≠ bufferHeight - 1 := fun he => hr (Fin.ext he)
      exact ⟨bufferHeight - 1 - r.val - 1, by omega⟩
    rw [hi, LineTerminal.row, List.getElem?_cons_succ] at hcell ⊢
    rwa [Buffer.set_of_ne hr, hfin]

theorem backspace (h : Shows Pad w t) (hpad : Pad w.blank) :
    ∃ v, w.backspace = .ok v ∧ v.colorCode = w.colorCode ∧ Shows Pad v t.backspace := by
  cases hlen : t.current.length with
  | zero =>
    have hnil : t.backspace = t := by
      cases t
      simp_all [LineTerminal.backspace]
    refine ⟨w, Writer.backspace_eq_of_zero (by rw [h.column, hlen]), rfl, ?_⟩
    rwa [hnil]
  | succ n =>
    have hlt : n < bufferWidth := by
      have := t.fits
      omega
    have hdrop : t.backspace.current.length = n := by
      simp [LineTerminal.backspace, hlen]
    refine ⟨_, Writer.backspace_eq (by rw [h.column, hlen]) hlt, rfl, ?_⟩
    refine h.set rfl hdrop.symm (fun c hc => ?_) ?_
    · simp only [LineTerminal.backspace, List.getElem?_dropLast]
      have hc : c ≠ n := hc
      split
      · rfl
      · rw [List.getElem?_eq_none]
        omega
    · rw [List.getElem?_eq_none (by rw [hdrop])]
      exact hpad

theorem put_lt (h : Shows Pad w t) {byte : UInt8} (hn : byte ≠ 0x0a) (hb : byte ≠ 0x08)
    (hlt : t.current.length < bufferWidth) :
    ∃ v, w.writeByte byte = .ok v ∧ v.colorCode = w.colorCode ∧
      Shows Pad v (t.put ⟨byte, w.colorCode⟩) := by
  have hcol : w.columnPosition < bufferWidth := by rwa [h.column]
  refine ⟨_, Writer.writeByte_eq hn hb hcol, rfl, ?_⟩
  rw [LineTerminal.put_of_lt hlt]
  refine h.set rfl (by simp [h.column]) (fun c hc => ?_) ?_
  · have hc : c ≠ t.current.length := h.column ▸ hc
    rcases lt_or_gt_of_ne hc with hlt | hgt
    · rw [List.getElem?_append_left hlt]
    · rw [List.getElem?_eq_none (by simp; omega), List.getElem?_eq_none (by omega)]
  · simp [h.column, Displays]

theorem put (h : Shows Pad w t) (hpad : Pad w.blank) {byte : UInt8} (hn : byte ≠ 0x0a)
    (hb : byte ≠ 0x08) :
    ∃ v, w.writeByte byte = .ok v ∧ v.colorCode = w.colorCode ∧
      Shows Pad v (t.put ⟨byte, w.colorCode⟩) := by
  by_cases hlt : t.current.length < bufferWidth
  · exact h.put_lt hn hb hlt
  · have hfull : bufferWidth ≤ t.current.length := by omega
    rw [Writer.writeByte_wrap hn hb (by rwa [h.column]), LineTerminal.put_of_full hfull]
    exact (h.newLine hpad).put_lt hn hb (Nat.pos_of_ne_zero (NeZero.ne bufferWidth))

/-- One byte of a string, replaced or not. -/
theorem feed (h : Shows Pad w t) (hpad : Pad w.blank) (byte : UInt8) :
    ∃ v, w.writeByte (if Writer.Accepted byte then byte else 0xfe) = .ok v ∧
      v.colorCode = w.colorCode ∧ Shows Pad v (Terminal.feed w.colorCode t byte) := by
  by_cases hn : byte = 0x0a
  · subst hn
    exact ⟨_, Writer.newLine_eq, rfl, h.newLine hpad⟩
  by_cases hb : byte = 0x08
  · subst hb
    exact h.backspace hpad
  have hcell : (if Writer.Accepted byte then byte else 0xfe) =
      if Terminal.Printable byte then byte else 0xfe := by
    simp [Writer.Accepted, Terminal.Printable, hn, hb]
  rw [hcell, Terminal.feed, if_neg hn, if_neg hb]
  refine h.put hpad ?_ ?_
  · split
    · exact hn
    · decide
  · split
    · exact hb
    · decide

/-- Steps that each keep what is shown keep it one after the other. -/
theorem fold {β : Type} {f : Writer → β → Except Panic Writer} {g : UInt8 → Terminal → β → Terminal}
    (hstep : ∀ {w t}, Shows Pad w t → Pad w.blank → ∀ x, ∃ v, f w x = .ok v ∧
      v.colorCode = w.colorCode ∧ Shows Pad v (g w.colorCode t x))
    (h : Shows Pad w t) (hpad : Pad w.blank) (l : List β) :
    ∃ v, l.foldlM f w = .ok v ∧ v.colorCode = w.colorCode ∧
      Shows Pad v (l.foldl (g w.colorCode) t) := by
  induction l generalizing w t with
  | nil => exact ⟨w, rfl, rfl, h⟩
  | cons x l ih =>
    obtain ⟨v, hv, hcolor, hshows⟩ := hstep h hpad x
    obtain ⟨u, hu, hcolor', hshows'⟩ := ih hshows (by rwa [Writer.blank, hcolor])
    refine ⟨u, ?_, hcolor'.trans hcolor, ?_⟩
    · rw [List.foldlM_cons, hv]
      exact hu
    · rw [hcolor] at hshows'
      exact hshows'

theorem writeString (h : Shows Pad w t) (hpad : Pad w.blank) (s : List UInt8) :
    ∃ v, w.writeString s = .ok v ∧ v.colorCode = w.colorCode ∧
      Shows Pad v (s.foldl (Terminal.feed w.colorCode) t) :=
  fold feed h hpad s

theorem call (h : Shows Pad w t) (hpad : Pad w.blank) (c : Call) :
    ∃ v, w.call c = .ok v ∧ v.colorCode = w.colorCode ∧
      Shows Pad v (Terminal.call w.colorCode t c) := by
  cases c with
  | writeString s => exact h.writeString hpad s
  | clearScreen => exact ⟨_, Writer.clearScreen_eq, rfl, clearScreen hpad⟩

theorem calls (h : Shows Pad w t) (hpad : Pad w.blank) (cs : List Call) :
    ∃ v, w.calls cs = .ok v ∧ v.colorCode = w.colorCode ∧
      Shows Pad v (Terminal.calls w.colorCode t cs) :=
  fold call h hpad cs

/-- Padded with one character, the screen is the terminal cell by cell. -/
theorem cell {blank : ScreenChar} (h : Shows (· = blank) w t) (r : Fin bufferHeight)
    (c : Fin bufferWidth) :
    w.buffer.chars r c = ((t.row (bufferHeight - 1 - r))[c.val]?).getD blank := by
  have hcell := h.cells r c
  revert hcell
  cases (t.row (bufferHeight - 1 - r))[c.val]? with
  | none => exact id
  | some x => exact id

end Shows

/-- After a clear, whatever is written: the writer does not run out of its buffer, and the
buffer shows the current row of the terminal at the bottom and the 24 rows finished last
above it, every row padded with blanks. -/
theorem screen_shows_terminal (w : Writer) (cs : List Call) :
    ∃ v, w.calls (.clearScreen :: cs) = .ok v ∧ v.colorCode = w.colorCode ∧
      (∀ (r : Fin bufferHeight) (c : Fin bufferWidth), v.buffer.chars r c =
        (((Terminal.calls w.colorCode (.empty _ _) cs).row (bufferHeight - 1 - r))[c.val]?).getD
          ⟨0x20, w.colorCode⟩) ∧
      v.columnPosition = (Terminal.calls w.colorCode (.empty _ _) cs).current.length ∧
      v.columnPosition ≤ bufferWidth := by
  have hclear := @Shows.clearScreen (· = w.blank) w rfl
  obtain ⟨v, hv, hcolor, hshows⟩ := hclear.calls rfl cs
  refine ⟨v, ?_, hcolor, fun r c => hshows.cell r c, hshows.column, hshows.fits⟩
  rw [Writer.calls, List.foldlM_cons, Writer.call, Writer.clearScreen_eq]
  exact hv

end MoltOS.Vga
