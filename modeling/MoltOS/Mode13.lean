import MoltOS.VgaAdapter

/-! Mode 13h of the Doom port: the ports that `set_mode` writes, the palette that `DG_Init` loads
from the archive, and the frames that `DG_DrawFrame` copies, up to the picture on the screen. -/
namespace MoltOS.Mode13
open MoltOS.Rust MoltOS.VgaAdapter MoltOS.Playpal

def screenWidth : Nat := 320
def screenHeight : Nat := 200

def miscWrite : Nat := 0x3C2
def seqIndex : Nat := 0x3C4
def seqData : Nat := 0x3C5
def crtcIndex : Nat := 0x3D4
def crtcData : Nat := 0x3D5
def gcIndex : Nat := 0x3CE
def gcData : Nat := 0x3CF
def acPort : Nat := 0x3C0
def inputStatus1 : Nat := 0x3DA

def writeIndexed (indexPort dataPort : Nat) (regs : List (UInt8 × UInt8)) (a : Adapter) : Adapter :=
  regs.foldl (fun a r => (a.write indexPort r.1).write dataPort r.2) a

def seqTable : List (UInt8 × UInt8) :=
  [(0x00, 0x03), (0x01, 0x01), (0x02, 0x0F), (0x03, 0x00), (0x04, 0x0E)]

def crtcTable : List (UInt8 × UInt8) :=
  [(0x00, 0x5F), (0x01, 0x4F), (0x02, 0x50), (0x03, 0x82),
   (0x04, 0x54), (0x05, 0x80), (0x06, 0xBF), (0x07, 0x1F),
   (0x08, 0x00), (0x09, 0x41), (0x0A, 0x00), (0x0B, 0x00),
   (0x0C, 0x00), (0x0D, 0x00), (0x0E, 0x00), (0x0F, 0x00),
   (0x10, 0x9C), (0x11, 0x0E), (0x12, 0x8F), (0x13, 0x28),
   (0x14, 0x40), (0x15, 0x96), (0x16, 0xB9), (0x17, 0xA3),
   (0x18, 0xFF)]

def gcTable : List (UInt8 × UInt8) :=
  [(0x00, 0x00), (0x01, 0x00), (0x02, 0x00), (0x03, 0x00),
   (0x04, 0x00), (0x05, 0x40), (0x06, 0x05), (0x07, 0x0F),
   (0x08, 0xFF)]

def acTable : List (UInt8 × UInt8) :=
  (List.range 16).map (fun i => (UInt8.ofNat i, UInt8.ofNat i)) ++
    [(0x10, 0x41), (0x11, 0x00), (0x12, 0x0F), (0x13, 0x00), (0x14, 0x00)]

def unlock (a : Adapter) : Adapter :=
  let a := a.write crtcIndex 0x11
  let (cr11, a) := a.read crtcData
  a.write crtcData (cr11 &&& ~~~0x80)

def setMode (a : Adapter) : Adapter :=
  let a := a.write miscWrite 0x63
  let a := writeIndexed seqIndex seqData seqTable a
  let a := unlock a
  let a := writeIndexed crtcIndex crtcData crtcTable a
  let a := writeIndexed gcIndex gcData gcTable a
  let (_, a) := a.read inputStatus1
  let a := acTable.foldl (fun a r => (a.write acPort r.1).write acPort r.2) a
  a.write acPort 0x20

def copyFrom (off : Nat) : List UInt8 → Adapter → Option Adapter
  | [], a => some a
  | v :: rest, a => do
    let a ← a.store off v
    copyFrom (off + 1) rest a

def enterMode13 (a : Adapter) : Option Adapter :=
  copyFrom 0 (List.replicate (screenWidth * screenHeight) 0) (setMode a)

def doomWad : Str := ⟨[0x64, 0x6f, 0x6f, 0x6d, 0x31, 0x2e, 0x77, 0x61, 0x64], by decide⟩

def dgInit (p : Profile) (archive : Option (List UInt8)) (a : Adapter) : Except Panic Adapter := do
  match ← Fs.openFile p archive doomWad with
  | none => pure a
  | some wad =>
    let writes ← loadPlaypal p wad
    pure ((writes.flatMap setPaletteEntry).foldl (fun a w => a.write w.1 w.2) a)

/- `DG_ScreenBuffer`: the memory from the pointer on, or null. -/
def dgDrawFrame (screenBuffer : Option (Nat → UInt8)) (a : Adapter) : Option Adapter :=
  match screenBuffer with
  | none => some a
  | some pixels => copyFrom 0 ((List.range (screenWidth * screenHeight)).map pixels) a

def drawFrames (frames : List (Option (Nat → UInt8))) (a : Adapter) : Option Adapter :=
  frames.foldlM (fun a frame => dgDrawFrame frame a) a

structure Programmed (a : Adapter) : Prop where
  misc : a.misc = 0x63
  seq : ∀ r ∈ seqTable, a.seq.regs r.1 = r.2
  crtc : ∀ r ∈ crtcTable, a.crtc.regs r.1 = r.2
  gc : ∀ r ∈ gcTable, a.gc.regs r.1 = r.2
  ac : ∀ r ∈ acTable, a.ac.regs r.1 = r.2
  enabled : a.ac.index = 0x20

variable {a b : Adapter} {l : List (UInt8 × UInt8)}

theorem writeIndexed_seq (a : Adapter) (l : List (UInt8 × UInt8)) :
    writeIndexed seqIndex seqData l a = { a with seq := a.seq.load l } := by
  induction l generalizing a with
  | nil => rfl
  | cons r l ih => exact ih _

theorem writeIndexed_gc (a : Adapter) (l : List (UInt8 × UInt8)) :
    writeIndexed gcIndex gcData l a = { a with gc := a.gc.load l } := by
  induction l generalizing a with
  | nil => rfl
  | cons r l ih => exact ih _

theorem write_acPort (a : Adapter) (l : List (UInt8 × UInt8)) :
    l.foldl (fun a r => (a.write acPort r.1).write acPort r.2) a =
      { a with ac := a.ac.load l } := by
  induction l generalizing a with
  | nil => rfl
  | cons r l ih => exact ih _

theorem write_crtcIndex (a : Adapter) (h : a.colour = true) (v : UInt8) :
    a.write crtcIndex v = { a with crtc := a.crtc.select v } := if_pos h

theorem write_crtcData (a : Adapter) (h : a.colour = true) (v : UInt8) :
    a.write crtcData v = { a with crtc := a.crtc.putProtected v } := if_pos h

theorem writeIndexed_crtc (h : a.colour = true) (l : List (UInt8 × UInt8)) :
    writeIndexed crtcIndex crtcData l a = { a with crtc := a.crtc.loadProtected l } := by
  induction l generalizing a with
  | nil => rfl
  | cons r l ih =>
    have hone : (a.write crtcIndex r.1).write crtcData r.2 =
        { a with crtc := (a.crtc.select r.1).putProtected r.2 } := by
      rw [write_crtcIndex a h]
      exact write_crtcData { a with crtc := a.crtc.select r.1 } h r.2
    rw [writeIndexed, List.foldl_cons, hone]
    exact ih h

/-- Register 0x11 is not among those it protects. -/
theorem unlock_eq (h : a.colour = true) :
    unlock a = { a with crtc := (a.crtc.select 0x11).put (a.crtc.regs 0x11 &&& ~~~0x80) } := by
  have hread : (a.write crtcIndex 0x11).read crtcData =
      (a.crtc.regs 0x11, { a with crtc := a.crtc.select 0x11 }) := by
    rw [write_crtcIndex a h]
    exact Prod.ext (if_pos h) rfl
  have hput (v : UInt8) : (a.crtc.select 0x11).putProtected v = (a.crtc.select 0x11).put v :=
    if_neg fun hp => absurd hp.1 (by decide : ¬ (0x11 : UInt8) ≤ 7)
  rw [unlock, hread, ← hput]
  exact write_crtcData { a with crtc := a.crtc.select 0x11 } h _

theorem loaded {regs : UInt8 → UInt8} (hnodup : (l.map Prod.fst).Nodup) :
    ∀ r ∈ l, assign regs l r.1 = r.2 := fun _ hr => assign_of_mem regs hnodup hr

/-- From any state of the adapter: wherever its index registers stand, with the CRTC protected or
at the other addresses, and whichever byte the attribute controller expects. -/
theorem setMode_programmed (a : Adapter) : Programmed (setMode a) ∧ (setMode a).dac = a.dac ∧
    (setMode a).pelMask = a.pelMask := by
  have hcolour (x : Adapter) (hx : x.misc = 0x63) : x.colour = true := by
    rw [Adapter.colour, hx]
    decide
  have hopen : (a.crtc.regs 0x11 &&& ~~~0x80) &&& 0x80 = 0 := by
    rw [UInt8.and_assoc]
    exact UInt8.and_zero
  have hcrtc : ((a.crtc.select 0x11).put (a.crtc.regs 0x11 &&& ~~~0x80)).loadProtected crtcTable =
      ((a.crtc.select 0x11).put (a.crtc.regs 0x11 &&& ~~~0x80)).load crtcTable :=
    Bank.loadProtected_eq (by simpa [Bank.put, Bank.select] using hopen)
      (List.forall_iff_forall_mem.mp (by decide))
  have hmode : setMode a = { a with
      misc := 0x63
      seq := a.seq.load seqTable
      crtc := ((a.crtc.select 0x11).put (a.crtc.regs 0x11 &&& ~~~0x80)).load crtcTable
      gc := a.gc.load gcTable
      ac := ({ a.ac with data := false }.load acTable).write 0x20 } := by
    have hmisc : a.write miscWrite 0x63 = { a with misc := 0x63 } := rfl
    have hstatus (x : Adapter) (hx : x.misc = 0x63) :
        (x.read inputStatus1).2 = { x with ac := { x.ac with data := false } } :=
      if_pos (hcolour x hx)
    unfold setMode
    simp only
    rw [hmisc, writeIndexed_seq, unlock_eq (hcolour _ rfl), writeIndexed_crtc (hcolour _ rfl),
      hcrtc, writeIndexed_gc, hstatus _ rfl, write_acPort]
    rfl
  have hac := Attribute.load_spec (a := { a.ac with data := false }) (l := acTable) rfl
    (List.forall_iff_forall_mem.mp (by decide))
  rw [hmode]
  refine ⟨⟨rfl, ?_, ?_, ?_, ?_, ?_⟩, rfl, rfl⟩
  · rw [Bank.load_regs]
    exact loaded (by decide)
  · rw [Bank.load_regs]
    exact loaded (by decide)
  · rw [Bank.load_regs]
    exact loaded (by decide)
  · simp only [Attribute.write, hac.1, hac.2]
    exact loaded (by decide)
  · simp [Attribute.write, hac.1]

theorem byte_cases (P : UInt8 → Prop) (h : ∀ n < 256, P (UInt8.ofNat n)) (v : UInt8) : P v := by
  have hv := h v.toNat v.toNat_lt
  rwa [UInt8.ofNat_toNat] at hv

namespace Programmed

theorem chained (h : Programmed a) : a.Chained := by
  have hseq := h.seq (0x04, 0x0E) (by decide)
  have hmap := h.gc (0x06, 0x05) (by decide)
  have hreset := h.gc (0x01, 0x00) (by decide)
  have hrotate := h.gc (0x03, 0x00) (by decide)
  have hwrite := h.gc (0x05, 0x40) (by decide)
  have hmask := h.gc (0x08, 0xFF) (by decide)
  simp only [Adapter.Chained, h.misc, hseq, hmap, hreset, hrotate, hwrite, hmask]
  decide

theorem scans256 (h : Programmed a) : a.Scans256 := by
  have hreset := h.seq (0x00, 0x03) (by decide)
  have hclock := h.seq (0x01, 0x01) (by decide)
  have hsync := h.crtc (0x17, 0xA3) (by decide)
  have hshift := h.gc (0x05, 0x40) (by decide)
  have hmode := h.ac (0x10, 0x41) (by decide)
  have hdword := h.crtc (0x14, 0x40) (by decide)
  have hpreset := h.crtc (0x08, 0x00) (by decide)
  have hpan := h.ac (0x13, 0x00) (by decide)
  simp only [Adapter.Scans256, h.enabled, hreset, hclock, hsync, hshift, hmode, hdword, hpreset,
    hpan]
  decide

/-- 320 by 200 pixels, each row on two scan lines and 80 addresses after the last, and no split
screen. -/
theorem geometry (h : Programmed a) : a.width = 320 ∧ a.height = 200 ∧ a.linesPerRow = 2 ∧
    a.lineCompare = 1023 ∧ ∀ x y, a.counter x y = 80 * y + x / 4 := by
  have hend := h.crtc (0x01, 0x4F) (by decide)
  have hlines := h.crtc (0x12, 0x8F) (by decide)
  have hover := h.crtc (0x07, 0x1F) (by decide)
  have hscan := h.crtc (0x09, 0x41) (by decide)
  have hcompare := h.crtc (0x18, 0xFF) (by decide)
  have hhigh := h.crtc (0x0C, 0x00) (by decide)
  have hlow := h.crtc (0x0D, 0x00) (by decide)
  have hoffset := h.crtc (0x13, 0x28) (by decide)
  have hper : a.linesPerRow = 2 := by
    simp only [Adapter.linesPerRow, hscan]
    decide
  refine ⟨?_, ?_, hper, ?_, fun x y => ?_⟩
  · simp only [Adapter.width, hend]
    decide
  · simp only [Adapter.height, hper, Adapter.scanLines, hlines, hover]
    decide
  · simp only [Adapter.lineCompare, hcompare, hover, hscan]
    decide
  · simp only [Adapter.counter, Adapter.startAddress, hhigh, hlow, hoffset]
    rw [show 2 * (0x28 : UInt8).toNat = 80 from rfl]
    simp

/-- The palette of the attribute controller changes nothing. -/
theorem nibble (h : Programmed a) (v : UInt8) : a.nibble v = v &&& 0xF := by
  have henable := h.ac (0x12, 0x0F) (by decide)
  have hlow := byte_cases (fun v => (v &&& 0x0F &&& 0xF, v &&& 0x0F &&& 0xF) ∈ acTable ∧
    v &&& 0x0F &&& 0xF &&& 0xF = v &&& 0xF) (by decide +kernel) v
  rw [Adapter.nibble, henable, h.ac _ hlow.1]
  exact hlow.2

theorem colourOf (h : Programmed a) (hmask : a.pelMask = 0xFF) (v : UInt8) :
    a.colourOf v = a.dac.colours v := by
  have hwhole := byte_cases (fun v =>
    ((v >>> 4 &&& 0xF) <<< 4 ||| (v &&& 0xF &&& 0xF)) &&& 0xFF = v) (by decide +kernel) v
  rw [Adapter.colourOf, h.nibble, h.nibble, hmask, hwhole]

/-- A pixel is a byte of the window, through the DAC. -/
theorem pixel (h : Programmed a) (hmask : a.pelMask = 0xFF) {x y : Nat} (hx : x < 320)
    (hy : y < 200) : a.pixel x y = some (a.dac.colours
      (a.memory ((320 * y + x) % 4, Adapter.dword ((320 * y + x) / 4)))) := by
  obtain ⟨hw, hh, hper, hcompare, hcounter⟩ := h.geometry
  have hplane : x % 4 = (320 * y + x) % 4 := by omega
  have haddress : (80 * y + x / 4) % 16384 = (320 * y + x) / 4 := by omega
  rw [Adapter.pixel, if_pos ⟨h.scans256, by omega, by omega, by rw [hper]; omega⟩, h.colourOf hmask, hcounter,
    haddress, hplane]

theorem store (h : Programmed a) {off : Nat} (hoff : off < 65536) (v : UInt8) : a.store off v =
    some { a with memory := Function.update a.memory (off % 4, Adapter.dword (off / 4)) v } := by
  have hmask := h.seq (0x02, 0x0F) (by decide)
  have hplanes : ∀ i < 4, (0x0F : UInt8).toNat.testBit i = true := by decide
  refine if_pos ⟨h.chained, hoff, ?_⟩
  rw [hmask]
  exact hplanes _ (Nat.mod_lt _ (by decide))

end Programmed

/-- Every byte of the window has a cell of its own. -/
theorem cell_injective {m n : Nat}
    (h : (m % 4, Adapter.dword (m / 4)) = (n % 4, Adapter.dword (n / 4))) : m = n := by
  simp only [Adapter.dword, Prod.mk.injEq] at h
  omega

structure Copied (off : Nat) (l : List UInt8) (a b : Adapter) : Prop where
  same : b = { a with memory := b.memory }
  bytes : ∀ k v, l[k]? = some v → b.memory ((off + k) % 4, Adapter.dword ((off + k) / 4)) = v
  before : ∀ k < off, b.memory (k % 4, Adapter.dword (k / 4)) = a.memory (k % 4, Adapter.dword (k / 4))

theorem copyFrom_spec (h : Programmed a) (l : List UInt8) (off : Nat)
    (hl : off + l.length ≤ 65536) : ∃ b, copyFrom off l a = some b ∧ Copied off l a b := by
  induction l generalizing a off with
  | nil => exact ⟨a, rfl, rfl, fun k v hk => by simp at hk, fun _ _ => rfl⟩
  | cons v l ih =>
    rw [List.length_cons] at hl
    have hstored : Programmed { a with
        memory := Function.update a.memory (off % 4, Adapter.dword (off / 4)) v } :=
      ⟨h.misc, h.seq, h.crtc, h.gc, h.ac, h.enabled⟩
    obtain ⟨b, hb, hsame, hbytes, hbefore⟩ := ih hstored (off + 1) (by omega)
    refine ⟨b, ?_, hsame, fun k w hk => ?_, fun k hk => ?_⟩
    · rw [copyFrom, h.store (by omega)]
      exact hb
    · cases k with
      | zero =>
        cases hk
        refine (hbefore off (by omega)).trans ?_
        exact Function.update_self _ _ _
      | succ k =>
        have hw := hbytes k w hk
        rwa [Nat.add_assoc, Nat.add_comm 1 k] at hw
    · refine (hbefore k (by omega)).trans (Function.update_of_ne (fun he => ?_) _ _)
      have := cell_injective he
      omega

theorem Copied.programmed {off : Nat} {l : List UInt8} (hc : Copied off l a b) (h : Programmed a) :
    Programmed b := by
  rw [hc.same]
  exact ⟨h.misc, h.seq, h.crtc, h.gc, h.ac, h.enabled⟩

theorem Copied.keeps {off : Nat} {l : List UInt8} (hc : Copied off l a b) :
    b.dac = a.dac ∧ b.pelMask = a.pelMask := by
  have hdac := congrArg Adapter.dac hc.same
  have hmask := congrArg Adapter.pelMask hc.same
  exact ⟨hdac, hmask⟩

structure Ready (c : UInt8 → UInt8 × UInt8 × UInt8) (a : Adapter) : Prop where
  programmed : Programmed a
  pelMask : a.pelMask = 0xFF
  colours : a.dac.colours = c

theorem Ready.copied {c : UInt8 → UInt8 × UInt8 × UInt8} {off : Nat} {l : List UInt8}
    (h : Ready c a) (hc : Copied off l a b) : Ready c b := by
  obtain ⟨hdac, hmask⟩ := hc.keeps
  exact ⟨hc.programmed h.programmed, hmask.trans h.pelMask,
    (congrArg Dac.colours hdac).trans h.colours⟩

/-- One frame: the mode stays, and every pixel is the byte of the buffer. -/
theorem dgDrawFrame_spec {c : UInt8 → UInt8 × UInt8 × UInt8} (h : Ready c a)
    (frame : Option (Nat → UInt8)) : ∃ b, dgDrawFrame frame a = some b ∧ Ready c b ∧
      ∀ pixels ∈ frame, ∀ x < 320, ∀ y < 200, b.pixel x y = some (c (pixels (320 * y + x))) := by
  cases frame with
  | none => exact ⟨a, rfl, h, fun pixels hp => by cases hp⟩
  | some pixels =>
    obtain ⟨b, hb, hc⟩ := copyFrom_spec h.programmed
      ((List.range (screenWidth * screenHeight)).map pixels) 0
      (by rw [List.length_map, List.length_range]; decide)
    refine ⟨b, hb, h.copied hc, fun pixels' hp x hx y hy => ?_⟩
    cases hp
    have hready := h.copied hc
    have hbyte := hc.bytes (320 * y + x) (pixels (320 * y + x)) (by
      rw [List.getElem?_map, List.getElem?_range (by simp only [screenWidth, screenHeight]; omega)]
      rfl)
    rw [Nat.zero_add] at hbyte
    rw [hready.programmed.pixel hready.pelMask hx hy, hready.colours, hbyte]

theorem drawFrames_ready {c : UInt8 → UInt8 × UInt8 × UInt8} (h : Ready c a)
    (frames : List (Option (Nat → UInt8))) : ∃ b, drawFrames frames a = some b ∧ Ready c b := by
  induction frames generalizing a with
  | nil => exact ⟨a, rfl, h⟩
  | cons frame frames ih =>
    obtain ⟨b, hb, hready, -⟩ := dgDrawFrame_spec h frame
    obtain ⟨d, hd, hend⟩ := ih hready
    refine ⟨d, ?_, hend⟩
    rw [drawFrames, List.foldlM_cons, hb]
    exact hd

theorem drawFrames_snoc {frames : List (Option (Nat → UInt8))} {frame : Option (Nat → UInt8)}
    {d : Adapter} (h : drawFrames frames a = some b) (hd : dgDrawFrame frame b = some d) :
    drawFrames (frames ++ [frame]) a = some d := by
  rw [drawFrames] at h
  rw [drawFrames, List.foldlM_append, h]
  simp [hd]

theorem enterMode13_programmed (a : Adapter) : ∃ b, enterMode13 a = some b ∧ Programmed b ∧
    b.dac = a.dac ∧ b.pelMask = a.pelMask := by
  obtain ⟨hmode, hdac, hmask⟩ := setMode_programmed a
  obtain ⟨b, hb, hc⟩ := copyFrom_spec hmode (List.replicate (screenWidth * screenHeight) 0) 0
    (by rw [List.length_replicate]; decide)
  obtain ⟨hdac', hmask'⟩ := hc.keeps
  refine ⟨b, ?_, hc.programmed hmode, hdac'.trans hdac, hmask'.trans hmask⟩
  rw [enterMode13, hb]

theorem write_entry (a : Adapter) (e : PaletteEntry) :
    (setPaletteEntry e).foldl (fun a w => a.write w.1 w.2) a =
      { a with dac := a.dac.run (setPaletteEntry e) } := by
  simp only [setPaletteEntry, List.foldl_cons, List.foldl_nil, Adapter.write, dacIndex, dacData,
    Dac.run]

/-- The writes to the DAC reach the DAC and nothing else. -/
theorem write_palette (a : Adapter) (writes : List PaletteEntry) :
    (writes.flatMap setPaletteEntry).foldl (fun a w => a.write w.1 w.2) a =
      { a with dac := a.dac.run (writes.flatMap setPaletteEntry) } := by
  induction writes generalizing a with
  | nil => rfl
  | cons e writes ih =>
    rw [run_entries_cons, List.flatMap_cons, List.foldl_append, write_entry, ih]

/-- There is one first entry of the name. -/
theorem found_unique {wad : List UInt8} {base n j k : Nat} (hj : Found wad base 0 n j)
    (hk : Found wad base 0 n k) : j = k := by
  rcases Nat.lt_trichotomy j k with hlt | he | hlt
  · exact absurd hj.named (hk.first j (Nat.zero_le j) hlt)
  · exact he
  · exact absurd hk.named (hj.first k (Nat.zero_le k) hlt)

/-- The first palette of a WAD that has one is written. -/
theorem loadPlaypal_found {p : Profile} {wad : List UInt8} {j : Nat}
    (hmagic : wad.take 4 = iwad ∨ wad.take 4 = pwad)
    (hfound : Found wad (dirOffset wad) 0 (numLumps wad) j) :
    ∃ writes, loadPlaypal p wad = .ok writes ∧
      Palette wad (lumpOff (entryAt wad (dirOffset wad) j)) writes := by
  have hlong : 12 ≤ wad.length := by
    have hfour : (wad.take 4).length = 4 := by
      rcases hmagic with h | h <;> rw [h] <;> rfl
    have hin := hfound.inside j (Nat.zero_le j) le_rfl
    omega
  have hslice : slice wad 0 4 = .ok (wad.take 4) := if_pos ⟨by decide, by omega⟩
  have hlumps : readU32 wad 4 = .ok (numLumps wad) := readU32_eq (by omega)
  have hdir : readU32 wad 8 = .ok (dirOffset wad) := readU32_eq (by omega)
  have hcount : numLumps wad < 2 ^ 32 := field_lt wad 4
  have hgood : ¬ (wad.take 4 ≠ iwad ∧ wad.take 4 ≠ pwad) := by tauto
  obtain ⟨k, writes, hk, hrun, hpal⟩ | ⟨-, hnone⟩ :=
    @loadLoop_spec p wad _ 0 (numLumps wad) (field_lt wad 8) (by omega)
  · refine ⟨writes, ?_, found_unique hfound hk ▸ hpal⟩
    simp only [loadPlaypal, if_neg (Nat.not_lt.mpr hlong), hslice, hlumps, hdir, bind, Except.bind,
      if_neg hgood]
    exact hrun
  · exact absurd hfound (hnone j)

/-- Doom's picture. With doom1.wad in the archive and a palette in it: from any state of the
adapter `enter_mode13` sets the mode, `DG_Init` loads the palette, and after any frames the screen
is the last one that was drawn, 320 by 200 pixels, each with the colour of the palette that its
byte of the screen buffer names, cut to six bits. -/
theorem frames_are_displayed (p : Profile) (a : Adapter) (hmask : a.pelMask = 0xFF)
    (archive : Option (List UInt8)) (wad : List UInt8)
    (hopen : Fs.openFile p archive doomWad = .ok (some wad))
    (hmagic : wad.take 4 = iwad ∨ wad.take 4 = pwad) (j : Nat)
    (hfound : Found wad (dirOffset wad) 0 (numLumps wad) j)
    (frames : List (Option (Nat → UInt8))) (frame : Nat → UInt8) :
    ∃ b c d, enterMode13 a = some b ∧ dgInit p archive b = .ok c ∧
      drawFrames (frames ++ [some frame]) c = some d ∧ d.width = 320 ∧ d.height = 200 ∧
      ∀ x < 320, ∀ y < 200, ∃ red green blue,
        wad[lumpOff (entryAt wad (dirOffset wad) j) + 3 * (frame (320 * y + x)).toNat]? = some red ∧
        wad[lumpOff (entryAt wad (dirOffset wad) j) + 3 * (frame (320 * y + x)).toNat + 1]? =
          some green ∧
        wad[lumpOff (entryAt wad (dirOffset wad) j) + 3 * (frame (320 * y + x)).toNat + 2]? =
          some blue ∧
        d.pixel x y = some (red >>> 2, green >>> 2, blue >>> 2) := by
  obtain ⟨b, hb, hmode, -, hpel⟩ := enterMode13_programmed a
  obtain ⟨writes, hload, hpal⟩ := loadPlaypal_found (p := p) hmagic hfound
  have hinit : dgInit p archive b =
      .ok { b with dac := b.dac.run (writes.flatMap setPaletteEntry) } := by
    simp only [dgInit, hopen, hload, bind, Except.bind, write_palette, pure, Except.pure]
  have hready : Ready (b.dac.run (writes.flatMap setPaletteEntry)).colours
      { b with dac := b.dac.run (writes.flatMap setPaletteEntry) } :=
    ⟨⟨hmode.misc, hmode.seq, hmode.crtc, hmode.gc, hmode.ac, hmode.enabled⟩, hpel.trans hmask, rfl⟩
  obtain ⟨e, he, hlast⟩ := drawFrames_ready hready frames
  obtain ⟨d, hd, hend, hpixels⟩ := dgDrawFrame_spec hlast (some frame)
  refine ⟨b, _, d, hb, hinit, ?_, hend.programmed.geometry.1, hend.programmed.geometry.2.1,
    fun x hx y hy => ?_⟩
  · exact drawFrames_snoc he hd
  · obtain ⟨red, green, blue, hr, hg, hblue, hcolour⟩ :=
      hpal.colours b.dac (frame (320 * y + x)).toNat (UInt8.toNat_lt _)
    rw [UInt8.ofNat_toNat] at hcolour
    refine ⟨red, green, blue, hr, hg, hblue, ?_⟩
    rw [hpixels frame rfl x hx y hy, hcolour]

/- An adapter with every bit set, so that the CRTC is protected and the attribute controller
   expects data, and a WAD with nothing but a grey palette. -/
def lockedAdapter : Adapter where
  misc := 0
  seq := ⟨0xFF, fun _ => 0xFF⟩
  crtc := ⟨0xFF, fun _ => 0xFF⟩
  gc := ⟨0xFF, fun _ => 0xFF⟩
  ac := ⟨0xFF, true, fun _ => 0xFF⟩
  dac := ⟨fun _ => (0, 0, 0), 0, [1]⟩
  pelMask := 0xFF
  memory := fun _ => 0xFF

def greyWad : List UInt8 :=
  iwad ++ [1, 0, 0, 0] ++ [0x0C, 3, 0, 0] ++ List.replicate 768 0x40 ++
    [12, 0, 0, 0] ++ [0, 3, 0, 0] ++ playpal ++ [0]

def greyArchive : List UInt8 :=
  Fs.magic ++ [1, 0, 0, 0] ++ doomWad.bytes ++ List.replicate 23 0 ++ [48, 0, 0, 0] ++
    [0x1C, 3, 0, 0] ++ greyWad

theorem greyWad_found : Found greyWad (dirOffset greyWad) 0 (numLumps greyWad) 0 := by
  refine ⟨le_rfl, by decide +kernel, fun k _ hk => ?_, fun k _ hk => absurd hk (Nat.not_lt_zero k),
    by decide +kernel, by decide +kernel, by decide +kernel⟩
  rw [Nat.le_zero.mp hk]
  decide +kernel

theorem grey_frame_is_displayed : ∃ b c d, enterMode13 lockedAdapter = some b ∧
    dgInit .dev (some greyArchive) b = .ok c ∧ drawFrames [some fun _ => 5] c = some d ∧
    d.pixel 7 9 = some (0x10, 0x10, 0x10) := by
  obtain ⟨b, c, d, hb, hc, hd, -, -, hpixels⟩ := frames_are_displayed .dev lockedAdapter rfl
    (some greyArchive) greyWad (by decide +kernel) (by decide +kernel) 0 greyWad_found [] fun _ => 5
  rw [List.nil_append] at hd
  obtain ⟨red, green, blue, hr, hg, hblue, hpixel⟩ := hpixels 7 (by decide) 9 (by decide)
  have hoff : lumpOff (entryAt greyWad (dirOffset greyWad) 0) + 3 * (5 : UInt8).toNat = 27 := by
    decide +kernel
  have hbytes : greyWad[27]? = some 0x40 ∧ greyWad[27 + 1]? = some 0x40 ∧
      greyWad[27 + 2]? = some 0x40 := by decide +kernel
  rw [hoff] at hr hg hblue
  cases hr.symm.trans hbytes.1
  cases hg.symm.trans hbytes.2.1
  cases hblue.symm.trans hbytes.2.2
  exact ⟨b, c, d, hb, hc, hd, hpixel⟩

end MoltOS.Mode13
