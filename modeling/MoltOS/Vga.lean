import Mathlib.Logic.Function.Basic
import MoltOS.Rust

/-! The VGA text-mode writer, loop by loop, with the bounds checks of the buffer. -/
namespace MoltOS.Vga
open MoltOS.Rust

def bufferHeight : Nat := 25
def bufferWidth : Nat := 80

structure ScreenChar where
  asciiCharacter : UInt8
  colorCode : UInt8
deriving DecidableEq, Repr

@[ext]
structure Buffer where
  chars : Fin bufferHeight → Fin bufferWidth → ScreenChar

namespace Buffer

def set (b : Buffer) (r : Fin bufferHeight) (c : Fin bufferWidth) (ch : ScreenChar) : Buffer :=
  ⟨Function.update b.chars r (Function.update (b.chars r) c ch)⟩

def read (b : Buffer) (row col : Nat) : Except Panic ScreenChar :=
  if h : row < bufferHeight ∧ col < bufferWidth then .ok (b.chars ⟨row, h.1⟩ ⟨col, h.2⟩)
  else .error .indexOutOfBounds

def write (b : Buffer) (row col : Nat) (ch : ScreenChar) : Except Panic Buffer :=
  if h : row < bufferHeight ∧ col < bufferWidth then .ok (b.set ⟨row, h.1⟩ ⟨col, h.2⟩ ch)
  else .error .indexOutOfBounds

end Buffer

structure Writer where
  columnPosition : Nat
  colorCode : UInt8
  buffer : Buffer

namespace Writer

def blank (w : Writer) : ScreenChar := ⟨0x20, w.colorCode⟩

def clearRow (w : Writer) (row : Nat) : Except Panic Writer := do
  let b ← (List.range' 0 bufferWidth).foldlM (fun b col => b.write row col w.blank) w.buffer
  pure { w with buffer := b }

def copyUp (row : Nat) (b : Buffer) (col : Nat) : Except Panic Buffer := do
  let ch ← b.read row col
  b.write (row - 1) col ch

def newLine (w : Writer) : Except Panic Writer := do
  let b ← (List.range' 1 (bufferHeight - 1)).foldlM
    (fun b row => (List.range' 0 bufferWidth).foldlM (copyUp row) b) w.buffer
  let w ← { w with buffer := b }.clearRow (bufferHeight - 1)
  pure { w with columnPosition := 0 }

def backspace (w : Writer) : Except Panic Writer :=
  if w.columnPosition > 0 then do
    let col := w.columnPosition - 1
    let b ← w.buffer.write (bufferHeight - 1) col w.blank
    pure { w with columnPosition := col, buffer := b }
  else .ok w

def writeByte (w : Writer) (byte : UInt8) : Except Panic Writer :=
  if byte = 0x0a then w.newLine
  else if byte = 0x08 then w.backspace
  else do
    let w ← if w.columnPosition ≥ bufferWidth then w.newLine else pure w
    let b ← w.buffer.write (bufferHeight - 1) w.columnPosition ⟨byte, w.colorCode⟩
    pure { w with buffer := b, columnPosition := w.columnPosition + 1 }

def clearScreen (w : Writer) : Except Panic Writer := do
  let w ← (List.range' 0 bufferHeight).foldlM clearRow w
  pure { w with columnPosition := 0 }

def Accepted (byte : UInt8) : Prop := 0x20 ≤ byte ∧ byte ≤ 0x7e ∨ byte = 0x0a ∨ byte = 0x08

instance (byte : UInt8) : Decidable (Accepted byte) := by unfold Accepted; infer_instance

def writeString (w : Writer) (s : List UInt8) : Except Panic Writer :=
  s.foldlM (fun w byte => w.writeByte (if Accepted byte then byte else 0xfe)) w

end Writer

inductive Call where
  | writeString (s : List UInt8)
  | clearScreen

def Writer.call (w : Writer) : Call → Except Panic Writer
  | .writeString s => w.writeString s
  | .clearScreen => w.clearScreen

def Writer.calls (w : Writer) (cs : List Call) : Except Panic Writer := cs.foldlM Writer.call w

/- What each loop leaves in the buffer. -/
namespace Buffer
variable {b : Buffer} {row col : Nat} {ch : ScreenChar}

def last : Fin bufferHeight := ⟨bufferHeight - 1, by decide⟩

theorem read_of_lt (hr : row < bufferHeight) (hc : col < bufferWidth) :
    b.read row col = .ok (b.chars ⟨row, hr⟩ ⟨col, hc⟩) := dif_pos ⟨hr, hc⟩

theorem write_of_lt (hr : row < bufferHeight) (hc : col < bufferWidth) :
    b.write row col ch = .ok (b.set ⟨row, hr⟩ ⟨col, hc⟩ ch) := dif_pos ⟨hr, hc⟩

def setRow (b : Buffer) (r : Fin bufferHeight) (cells : Fin bufferWidth → ScreenChar) : Buffer :=
  ⟨Function.update b.chars r cells⟩

theorem setRow_self {r : Fin bufferHeight} {cells : Fin bufferWidth → ScreenChar} :
    (b.setRow r cells).chars r = cells := Function.update_self ..

theorem setRow_of_ne {r r' : Fin bufferHeight} {cells : Fin bufferWidth → ScreenChar} (h : r' ≠ r) :
    (b.setRow r cells).chars r' = b.chars r' := Function.update_of_ne h _ _

theorem set_of_ne {r r' : Fin bufferHeight} {c : Fin bufferWidth} (h : r' ≠ r) :
    (b.set r c ch).chars r' = b.chars r' := Function.update_of_ne h _ _

/-- A loop that writes the cells of one row from left to right, each from what stands in
the other rows, replaces the row. -/
theorem for_row {f : Buffer → Nat → Except Panic Buffer} (r : Fin bufferHeight)
    (cells : Fin bufferWidth → ScreenChar)
    (hstep : ∀ (b' : Buffer) (c : Fin bufferWidth), (∀ r', r' ≠ r → b'.chars r' = b.chars r') →
      f b' c = .ok (b'.set r c (cells c))) :
    (List.range' 0 bufferWidth).foldlM f b = .ok (b.setRow r cells) := by
  let written (i : Nat) (b' : Buffer) : Prop :=
    (∀ r', r' ≠ r → b'.chars r' = b.chars r') ∧ ∀ c : Fin bufferWidth, c < i → b'.chars r c = cells c
  have hloop : ∀ i b', 0 ≤ i → i < 0 + bufferWidth → written i b' →
      ∃ b'', f b' i = .ok b'' ∧ written (i + 1) b'' := by
    intro i b' _ hi hb'
    have hi : i < bufferWidth := by omega
    refine ⟨_, hstep b' ⟨i, hi⟩ hb'.1, fun r' hr' => ?_, fun c hc => ?_⟩
    · rw [set_of_ne hr', hb'.1 r' hr']
    · by_cases hci : c = ⟨i, hi⟩
      · simp [set, hci]
      · have hlt : c.val < i := by
          have : c.val ≠ i := fun h => hci (Fin.ext h)
          omega
        simp [set, hci, hb'.2 c hlt]
  obtain ⟨t, ht, hframe, hrow⟩ := for_range hloop (s := b) ⟨fun _ _ => rfl, fun c hc => absurd hc (by omega)⟩
  rw [ht]
  congr 1
  ext1
  funext r'
  by_cases hr' : r' = r
  · subst hr'
    funext c
    rw [setRow_self, hrow c (by omega)]
  · rw [hframe r' hr', setRow_of_ne hr']

end Buffer

namespace Writer
variable {w : Writer}
open Buffer

theorem clearRow_eq {row : Nat} (hr : row < bufferHeight) :
    w.clearRow row = .ok { w with buffer := w.buffer.setRow ⟨row, hr⟩ fun _ => w.blank } := by
  have hloop := for_row (b := w.buffer) (f := fun b col => b.write row col w.blank) ⟨row, hr⟩
    (fun _ => w.blank) fun b' c _ => write_of_lt hr c.isLt
  simp only [clearRow, hloop]
  rfl

theorem copyRow_eq {b : Buffer} {r : Nat} (hr : r + 1 < bufferHeight) :
    (List.range' 0 bufferWidth).foldlM (copyUp (r + 1)) b =
      .ok (b.setRow ⟨r, by omega⟩ (b.chars ⟨r + 1, hr⟩)) := by
  refine for_row _ _ fun b' c hframe => ?_
  have hne : (⟨r + 1, hr⟩ : Fin bufferHeight) ≠ ⟨r, by omega⟩ := by simp
  rw [copyUp, read_of_lt hr c.isLt, hframe _ hne]
  exact write_of_lt (by omega) c.isLt

def scrolled (w : Writer) : Buffer where
  chars r c := if h : r + 1 < bufferHeight then w.buffer.chars ⟨r + 1, h⟩ c else w.blank

theorem newLine_eq : w.newLine = .ok { w with buffer := w.scrolled, columnPosition := 0 } := by
  let moved (i : Nat) (b : Buffer) : Prop :=
    (∀ r : Fin bufferHeight, ∀ h : r + 1 < bufferHeight, r + 1 < i →
      b.chars r = w.buffer.chars ⟨r + 1, h⟩) ∧
    ∀ r : Fin bufferHeight, i ≤ r + 1 → b.chars r = w.buffer.chars r
  have hloop : ∀ i b, 1 ≤ i → i < 1 + (bufferHeight - 1) → moved i b →
      ∃ b', (List.range' 0 bufferWidth).foldlM (copyUp i) b = .ok b' ∧ moved (i + 1) b' := by
    intro i b hi hlt hb
    obtain ⟨r, rfl⟩ : ∃ r, i = r + 1 := ⟨i - 1, by omega⟩
    have hr : r + 1 < bufferHeight := by omega
    have hlo : r < bufferHeight := by omega
    refine ⟨_, copyRow_eq hr, fun r' h hr' => ?_, fun r' hr' => ?_⟩
    · by_cases he : r' = ⟨r, hlo⟩
      · subst he
        rw [setRow_self]
        exact hb.2 ⟨r + 1, hr⟩ (by simp)
      · have hne : r'.val ≠ r := fun h => he (Fin.ext h)
        rw [setRow_of_ne he]
        exact hb.1 r' h (by omega)
    · have he : r' ≠ ⟨r, hlo⟩ := fun h => by simp [h] at hr'
      rw [setRow_of_ne he]
      exact hb.2 r' (by omega)
  obtain ⟨b, hb, hmoved, _⟩ := for_range hloop (s := w.buffer)
    ⟨fun r h hr => absurd hr (by omega), fun _ _ => rfl⟩
  have hbuffer : (b.setRow last fun _ => w.blank) = w.scrolled := by
    ext1
    funext r
    by_cases hr : r + 1 < bufferHeight
    · have hne : r ≠ last := fun h => absurd hr (by rw [h]; decide)
      rw [setRow_of_ne hne, hmoved r hr (by omega)]
      funext c
      simp [scrolled, hr]
    · have he : r = last := Fin.ext (by have := r.isLt; simp only [last]; omega)
      rw [he, setRow_self]
      rfl
  have hclear : { w with buffer := b }.clearRow (bufferHeight - 1) =
      .ok { w with buffer := b.setRow last fun _ => w.blank } := clearRow_eq (by decide)
  rw [hbuffer] at hclear
  simp only [newLine, hb, hclear, bind, Except.bind, pure, Except.pure]

theorem clearScreen_eq :
    w.clearScreen = .ok { w with buffer := ⟨fun _ _ => w.blank⟩, columnPosition := 0 } := by
  let cleared (i : Nat) (v : Writer) : Prop :=
    v.columnPosition = w.columnPosition ∧ v.colorCode = w.colorCode ∧
      ∀ r : Fin bufferHeight, r < i → v.buffer.chars r = fun _ => w.blank
  have hloop : ∀ i v, 0 ≤ i → i < 0 + bufferHeight → cleared i v →
      ∃ v', clearRow v i = .ok v' ∧ cleared (i + 1) v' := by
    intro i v _ hi hv
    refine ⟨_, clearRow_eq (by omega), hv.1, hv.2.1, fun r hr => ?_⟩
    by_cases he : r = ⟨i, by omega⟩
    · rw [he, setRow_self, blank, hv.2.1]
      rfl
    · have hne : r.val ≠ i := fun h => he (Fin.ext h)
      rw [setRow_of_ne he]
      exact hv.2.2 r (by omega)
  obtain ⟨v, hv, -, hcolor, hrows⟩ := for_range hloop (s := w) ⟨rfl, rfl, fun r hr => absurd hr (by omega)⟩
  have hbuffer : v.buffer = ⟨fun _ _ => w.blank⟩ := by
    ext1
    funext r
    exact hrows r (by omega)
  simp only [clearScreen, hv, bind, Except.bind, pure, Except.pure, hbuffer, hcolor]

theorem backspace_eq {col : Nat} (hcol : w.columnPosition = col + 1) (hlt : col < bufferWidth) :
    w.backspace = .ok { w with
      columnPosition := col, buffer := w.buffer.set last ⟨col, hlt⟩ w.blank } := by
  have hpos : w.columnPosition > 0 := by omega
  have hsub : w.columnPosition - 1 = col := by omega
  simp only [backspace, if_pos hpos, hsub, write_of_lt (show bufferHeight - 1 < bufferHeight by decide) hlt]
  rfl

theorem backspace_eq_of_zero (h : w.columnPosition = 0) : w.backspace = .ok w := by
  simp [backspace, h]

/- A byte that is written as a cell. -/
theorem writeByte_eq {byte : UInt8} (hn : byte ≠ 0x0a) (hb : byte ≠ 0x08)
    (hlt : w.columnPosition < bufferWidth) :
    w.writeByte byte = .ok { w with
      columnPosition := w.columnPosition + 1
      buffer := w.buffer.set last ⟨w.columnPosition, hlt⟩ ⟨byte, w.colorCode⟩ } := by
  have hge : ¬ w.columnPosition ≥ bufferWidth := by omega
  simp only [writeByte, if_neg hn, if_neg hb, if_neg hge, pure, Except.pure, bind, Except.bind,
    write_of_lt (show bufferHeight - 1 < bufferHeight by decide) hlt]
  rfl

/- On a full row a byte is written as on a fresh one. -/
theorem writeByte_wrap {byte : UInt8} (hn : byte ≠ 0x0a) (hb : byte ≠ 0x08)
    (hge : bufferWidth ≤ w.columnPosition) :
    w.writeByte byte = { w with buffer := w.scrolled, columnPosition := 0 }.writeByte byte := by
  have hge' : ¬ (0 : Nat) ≥ bufferWidth := by decide
  simp only [writeByte, if_neg hn, if_neg hb, ge_iff_le, if_pos hge, newLine_eq, if_neg hge']
  rfl

end Writer
end MoltOS.Vga
