import Mathlib.Data.List.Nodup
import MoltOS.FsSafe

/-! `load_playpal`: the first palette of the PLAYPAL lump of a WAD file. All counts, offsets
and sizes are taken from the file. -/
namespace MoltOS.Playpal
open MoltOS.Rust

def iwad : List UInt8 := [0x49, 0x57, 0x41, 0x44]
def pwad : List UInt8 := [0x50, 0x57, 0x41, 0x44]
def playpal : List UInt8 := [0x50, 0x4C, 0x41, 0x59, 0x50, 0x41, 0x4C]

structure PaletteEntry where
  index : UInt8
  r : UInt8
  g : UInt8
  b : UInt8
deriving DecidableEq, Repr

def readU32 (l : List UInt8) (a : Nat) : Except Panic Nat := do
  let bytes ← slice l a (a + 4)
  pure (fromLeBytes bytes)

def chunksExact (k : Nat) (l : List UInt8) : List (List UInt8) :=
  (List.range (l.length / k)).map fun i => (l.drop (i * k)).take k

def setEntries : List (List UInt8 × Nat) → Except Panic (List PaletteEntry)
  | [] => .ok []
  | (chunk, idx) :: rest => do
    let r ← index chunk 0
    let g ← index chunk 1
    let b ← index chunk 2
    let writes ← setEntries rest
    pure (⟨UInt8.ofNat idx, r, g, b⟩ :: writes)

def loadLump (p : Profile) (wad entry : List UInt8) : Except Panic (List PaletteEntry) := do
  let lumpOff ← readU32 entry 0
  let lumpSize ← readU32 entry 4
  if lumpSize < 768 then pure []
  else do
    let stop ← add p lumpOff 768
    if stop > wad.length then pure []
    else do
      let palette ← slice wad lumpOff stop
      setEntries (chunksExact 3 palette).zipIdx

def loadLoop (p : Profile) (wad : List UInt8) (dirOffset i : Nat) :
    Nat → Except Panic (List PaletteEntry)
  | 0 => .ok []
  | n + 1 => do
    let offset ← mul p i 16
    let base ← add p dirOffset offset
    let stop ← add p base 16
    if stop > wad.length then pure []
    else do
      let entry ← slice wad base stop
      let name ← slice entry 8 16
      let nul := (name.findIdx? fun b => b == 0).getD 8
      let name ← sliceTo name nul
      if name ≠ playpal then loadLoop p wad dirOffset (i + 1) n
      else loadLump p wad entry

def loadPlaypal (p : Profile) (wad : List UInt8) : Except Panic (List PaletteEntry) :=
  if wad.length < 12 then .ok []
  else do
    let magic ← slice wad 0 4
    if magic ≠ iwad ∧ magic ≠ pwad then pure []
    else do
      let numLumps ← readU32 wad 4
      let dirOffset ← readU32 wad 8
      loadLoop p wad dirOffset 0 numLumps

def dacIndex : Nat := 0x3C8
def dacData : Nat := 0x3C9

/- The port writes of one call; the DAC takes six bits of each colour. -/
def setPaletteEntry (e : PaletteEntry) : List (Nat × UInt8) :=
  [(dacIndex, e.index), (dacData, e.r >>> 2), (dacData, e.g >>> 2), (dacData, e.b >>> 2)]

/- The colours of the DAC, the entry that is written next and the part of its colour that has
   arrived. The third part completes the entry and moves on to the next one. -/
structure Dac where
  colours : UInt8 → UInt8 × UInt8 × UInt8
  index : UInt8
  pending : List UInt8

def Dac.write (d : Dac) (w : Nat × UInt8) : Dac :=
  if w.1 = dacIndex then { d with index := w.2, pending := [] }
  else
    match d.pending with
    | [r, g] =>
      ⟨fun i => if i = d.index then (r, g, w.2) else d.colours i, d.index + 1, []⟩
    | parts => { d with pending := parts ++ [w.2] }

def Dac.run (d : Dac) (writes : List (Nat × UInt8)) : Dac := writes.foldl Dac.write d

def numLumps (wad : List UInt8) : Nat := fromLeBytes ((wad.drop 4).take 4)

def dirOffset (wad : List UInt8) : Nat := fromLeBytes ((wad.drop 8).take 4)

def entryAt (wad : List UInt8) (base i : Nat) : List UInt8 := (wad.drop (base + i * 16)).take 16

def nameOf (entry : List UInt8) : List UInt8 := ((entry.drop 8).take 8).takeWhile fun b => b != 0

def lumpOff (entry : List UInt8) : Nat := fromLeBytes (entry.take 4)

def lumpSize (entry : List UInt8) : Nat := fromLeBytes ((entry.drop 4).take 4)

/- Entry `j`, one of `n` from entry `i` on, is the first of the name, it and all before it
   lie in the file, and so does a whole palette. -/
structure Found (wad : List UInt8) (base i n j : Nat) : Prop where
  after : i ≤ j
  counted : j < i + n
  inside : ∀ k, i ≤ k → k ≤ j → base + k * 16 + 16 ≤ wad.length
  first : ∀ k, i ≤ k → k < j → nameOf (entryAt wad base k) ≠ playpal
  named : nameOf (entryAt wad base j) = playpal
  size : 768 ≤ lumpSize (entryAt wad base j)
  data : lumpOff (entryAt wad base j) + 768 ≤ wad.length

def Palette (wad : List UInt8) (off : Nat) (writes : List PaletteEntry) : Prop :=
  writes.length = 256 ∧ ∀ k < 256, ∃ r g b, wad[off + 3 * k]? = some r ∧
    wad[off + 3 * k + 1]? = some g ∧ wad[off + 3 * k + 2]? = some b ∧
    writes[k]? = some ⟨UInt8.ofNat k, r, g, b⟩

variable {p : Profile} {wad entry l : List UInt8} {base i n j : Nat}

theorem readU32_eq {a : Nat} (h : a + 4 ≤ l.length) :
    readU32 l a = .ok (fromLeBytes ((l.drop a).take 4)) := by
  have hslice : slice l a (a + 4) = .ok ((l.drop a).take 4) := by
    rw [slice, if_pos ⟨Nat.le_add_right _ _, h⟩, Nat.add_sub_cancel_left]
  rw [readU32, hslice]
  rfl

theorem field_lt (l : List UInt8) (a : Nat) : fromLeBytes ((l.drop a).take 4) < 2 ^ 32 := by
  have hlt := fromLeBytes_lt ((l.drop a).take 4)
  refine hlt.trans_le ?_
  have hlen : ((l.drop a).take 4).length ≤ 4 := by
    rw [List.length_take]
    exact Nat.min_le_left _ _
  exact (Nat.pow_le_pow_right (by decide) hlen).trans (by decide)

theorem setEntries_ok (cs : List (List UInt8)) (n : Nat) (h : ∀ c ∈ cs, c.length = 3) :
    ∃ writes, setEntries (cs.zipIdx n) = .ok writes ∧ writes.length = cs.length ∧
      ∀ (k : Nat) c, cs[k]? = some c → ∃ r g b, c = [r, g, b] ∧
        writes[k]? = some ⟨UInt8.ofNat (n + k), r, g, b⟩ := by
  induction cs generalizing n with
  | nil => exact ⟨[], rfl, rfl, by simp⟩
  | cons c cs ih =>
    obtain ⟨hc, hcs⟩ := List.forall_mem_cons.mp h
    obtain ⟨writes, hrun, hlen, hget⟩ := ih (n + 1) hcs
    obtain ⟨r, g, b, rfl⟩ := List.length_eq_three.mp hc
    refine ⟨⟨UInt8.ofNat n, r, g, b⟩ :: writes, ?_, by simp [hlen], ?_⟩
    · simp only [List.zipIdx_cons, setEntries, hrun]
      rfl
    · intro k c' hk
      cases k with
      | zero =>
        cases hk
        exact ⟨r, g, b, rfl, rfl⟩
      | succ k =>
        obtain ⟨r', g', b', hc', hw⟩ := hget k c' hk
        refine ⟨r', g', b', hc', ?_⟩
        rw [List.getElem?_cons_succ, hw, Nat.add_assoc, Nat.add_comm 1 k]

/-- The 768 bytes at `off`, three by three. -/
theorem palette_writes {off : Nat} (h : off + 768 ≤ wad.length) :
    ∃ writes, setEntries (chunksExact 3 ((wad.drop off).take 768)).zipIdx = .ok writes ∧
      Palette wad off writes := by
  have hlen : ((wad.drop off).take 768).length = 768 := by
    rw [List.length_take, List.length_drop]
    omega
  have hchunk (k : Nat) (hk : k < 256) : (chunksExact 3 ((wad.drop off).take 768))[k]? =
      some ((((wad.drop off).take 768).drop (k * 3)).take 3) := by
    rw [chunksExact, hlen, List.getElem?_map, List.getElem?_range hk]
    rfl
  have hthree : ∀ c ∈ chunksExact 3 ((wad.drop off).take 768), c.length = 3 := by
    intro c hc
    rw [chunksExact, hlen] at hc
    obtain ⟨k, hk, rfl⟩ := List.mem_map.mp hc
    have := List.mem_range.mp hk
    rw [List.length_take, List.length_drop, hlen]
    omega
  obtain ⟨writes, hrun, hwrites, hget⟩ := setEntries_ok _ 0 hthree
  refine ⟨writes, hrun, ?_, fun k hk => ?_⟩
  · rw [hwrites, chunksExact, hlen, List.length_map, List.length_range]
  · obtain ⟨r, g, b, hc, hw⟩ := hget k _ (hchunk k hk)
    have hbyte (d : Nat) (hd : d < 3) : wad[off + 3 * k + d]? = [r, g, b][d]? := by
      rw [← hc, List.getElem?_take_of_lt hd, List.getElem?_drop, List.getElem?_take_of_lt (by omega),
        List.getElem?_drop]
      congr 1
      omega
    rw [Nat.zero_add] at hw
    exact ⟨r, g, b, hbyte 0 (by decide), hbyte 1 (by decide), hbyte 2 (by decide), hw⟩

theorem entryAt_length (h : base + i * 16 + 16 ≤ wad.length) : (entryAt wad base i).length = 16 := by
  rw [entryAt, List.length_take, List.length_drop]
  omega

theorem loadLump_cases (h : entry.length = 16) :
    (∃ writes, loadLump p wad entry = .ok writes ∧ 768 ≤ lumpSize entry ∧
      lumpOff entry + 768 ≤ wad.length ∧ Palette wad (lumpOff entry) writes) ∨
    (loadLump p wad entry = .ok [] ∧
      ¬ (768 ≤ lumpSize entry ∧ lumpOff entry + 768 ≤ wad.length)) := by
  have hoff : readU32 entry 0 = .ok (lumpOff entry) := readU32_eq (by omega)
  have hsize : readU32 entry 4 = .ok (lumpSize entry) := readU32_eq (by omega)
  have hlt : lumpOff entry < 2 ^ 32 := field_lt entry 0
  have hadd : add p (lumpOff entry) 768 = .ok (lumpOff entry + 768) :=
    fit_of_le p (by unfold u64Max; omega)
  simp only [loadLump, hoff, hsize, hadd, bind, Except.bind, pure, Except.pure]
  by_cases hsmall : lumpSize entry < 768
  · right
    rw [if_pos hsmall]
    exact ⟨rfl, by omega⟩
  · rw [if_neg hsmall]
    by_cases hout : lumpOff entry + 768 > wad.length
    · right
      rw [if_pos hout]
      exact ⟨rfl, by omega⟩
    · left
      have hslice : slice wad (lumpOff entry) (lumpOff entry + 768) =
          .ok ((wad.drop (lumpOff entry)).take 768) := by
        rw [slice, if_pos ⟨Nat.le_add_right _ _, by omega⟩, Nat.add_sub_cancel_left]
      obtain ⟨writes, hrun, hpal⟩ := @palette_writes wad (lumpOff entry) (by omega)
      simp only [if_neg hout, hslice]
      exact ⟨writes, hrun, by omega, by omega, hpal⟩

/-- One round of the loop, on an entry that is in the file or is not. -/
theorem loadLoop_succ (hbase : base < 2 ^ 32) (hi : i < 2 ^ 32) :
    loadLoop p wad base i (n + 1) =
      if base + i * 16 + 16 > wad.length then .ok []
      else if nameOf (entryAt wad base i) ≠ playpal then loadLoop p wad base (i + 1) n
      else loadLump p wad (entryAt wad base i) := by
  have hmul : mul p i 16 = .ok (i * 16) := fit_of_le p (by unfold u64Max; omega)
  have hadd : add p base (i * 16) = .ok (base + i * 16) := fit_of_le p (by unfold u64Max; omega)
  have hstop : add p (base + i * 16) 16 = .ok (base + i * 16 + 16) :=
    fit_of_le p (by unfold u64Max; omega)
  simp only [loadLoop, hmul, hadd, hstop, bind, Except.bind]
  by_cases hout : base + i * 16 + 16 > wad.length
  · rw [if_pos hout, if_pos hout]
    rfl
  · rw [if_neg hout, if_neg hout]
    have hlen := @entryAt_length wad base i (by omega)
    have hentry : slice wad (base + i * 16) (base + i * 16 + 16) = .ok (entryAt wad base i) := by
      rw [slice, if_pos ⟨Nat.le_add_right _ _, by omega⟩, Nat.add_sub_cancel_left]
      rfl
    have hraw : slice (entryAt wad base i) 8 16 = .ok (((entryAt wad base i).drop 8).take 8) :=
      if_pos ⟨by decide, by omega⟩
    have height : (((entryAt wad base i).drop 8).take 8).length = 8 := by
      rw [List.length_take, List.length_drop, hlen]
      rfl
    have hname : sliceTo (((entryAt wad base i).drop 8).take 8)
        (((((entryAt wad base i).drop 8).take 8).findIdx? fun b => b == 0).getD 8) =
          .ok (nameOf (entryAt wad base i)) := by
      rw [sliceTo, if_pos (Fs.findIdx_le _ _ height.symm), Fs.take_findIdx _ _ height.symm]
      rfl
    simp only [hentry, hraw, hname]

theorem Found.skip (hname : nameOf (entryAt wad base i) ≠ playpal)
    (hin : base + i * 16 + 16 ≤ wad.length) : Found wad base i (n + 1) j ↔ Found wad base (i + 1) n j := by
  constructor
  · intro h
    have hne : i ≠ j := by
      rintro rfl
      exact hname h.named
    have hafter := h.after
    have hcounted := h.counted
    exact ⟨by omega, by omega, fun k hk => h.inside k (by omega), fun k hk => h.first k (by omega),
      h.named, h.size, h.data⟩
  · intro h
    have hafter := h.after
    have hcounted := h.counted
    refine ⟨by omega, by omega, fun k hk hkj => ?_, fun k hk hkj => ?_, h.named, h.size, h.data⟩
    · rcases Nat.eq_or_lt_of_le hk with rfl | hlt
      · exact hin
      · exact h.inside k hlt hkj
    · rcases Nat.eq_or_lt_of_le hk with rfl | hlt
      · exact hname
      · exact h.first k hlt hkj

/-- The loop writes the palette of the entry that is found, or there is none and it writes
nothing. -/
theorem loadLoop_spec (hbase : base < 2 ^ 32) (hn : i + n ≤ 2 ^ 32) :
    (∃ j writes, Found wad base i n j ∧ loadLoop p wad base i n = .ok writes ∧
      Palette wad (lumpOff (entryAt wad base j)) writes) ∨
    (loadLoop p wad base i n = .ok [] ∧ ∀ j, ¬ Found wad base i n j) := by
  induction n generalizing i with
  | zero =>
    refine Or.inr ⟨rfl, fun j h => ?_⟩
    have hafter := h.after
    have hcounted := h.counted
    omega
  | succ n ih =>
    rw [loadLoop_succ hbase (by omega)]
    by_cases hout : base + i * 16 + 16 > wad.length
    · rw [if_pos hout]
      refine Or.inr ⟨rfl, fun j h => ?_⟩
      have := h.inside i le_rfl h.after
      omega
    · rw [if_neg hout]
      by_cases hname : nameOf (entryAt wad base i) ≠ playpal
      · rw [if_pos hname]
        simp only [Found.skip hname (Nat.le_of_not_lt hout)]
        exact ih (by omega)
      · rw [if_neg hname]
        rw [ne_eq, not_not] at hname
        -- the first entry of the name decides, whatever comes after it
        have honly (j : Nat) (h : Found wad base i (n + 1) j) : j = i := by
          by_contra hne
          exact h.first i le_rfl (lt_of_le_of_ne h.after (Ne.symm hne)) hname
        obtain ⟨writes, hrun, hsize, hdata, hpal⟩ | ⟨hrun, hbad⟩ :=
          @loadLump_cases p wad _ (entryAt_length (Nat.le_of_not_lt hout))
        · refine Or.inl ⟨i, writes, ⟨le_rfl, by omega, fun k hk hki => ?_, fun k hk hki => ?_, hname,
            hsize, hdata⟩, hrun, hpal⟩
          · rw [show k = i by omega]
            exact Nat.le_of_not_lt hout
          · omega
        · refine Or.inr ⟨hrun, fun j h => ?_⟩
          obtain rfl := honly j h
          exact hbad ⟨h.size, h.data⟩

/-- PLAYPAL loading is safe and all-or-nothing. On every byte string it returns, with the 256
writes of the palette or with none, and with the palette exactly when the file is a WAD whose
first PLAYPAL entry can be reached and has a whole palette in the file. -/
theorem loadPlaypal_all_or_nothing (p : Profile) (wad : List UInt8) :
    ∃ writes, loadPlaypal p wad = .ok writes ∧
      ((writes = [] ∧ ¬ ((wad.take 4 = iwad ∨ wad.take 4 = pwad) ∧
          ∃ j, Found wad (dirOffset wad) 0 (numLumps wad) j)) ∨
       ((wad.take 4 = iwad ∨ wad.take 4 = pwad) ∧
          ∃ j, Found wad (dirOffset wad) 0 (numLumps wad) j ∧
            Palette wad (lumpOff (entryAt wad (dirOffset wad) j)) writes)) := by
  unfold loadPlaypal
  by_cases hshort : wad.length < 12
  · rw [if_pos hshort]
    refine ⟨[], rfl, Or.inl ⟨rfl, ?_⟩⟩
    rintro ⟨_, j, h⟩
    have := h.inside j h.after le_rfl
    omega
  · have hmagic : slice wad 0 4 = .ok (wad.take 4) := if_pos ⟨by decide, by omega⟩
    have hlumps : readU32 wad 4 = .ok (numLumps wad) := readU32_eq (by omega)
    have hdir : readU32 wad 8 = .ok (dirOffset wad) := readU32_eq (by omega)
    simp only [if_neg hshort, hmagic, hlumps, hdir, bind, Except.bind]
    by_cases hbad : wad.take 4 ≠ iwad ∧ wad.take 4 ≠ pwad
    · rw [if_pos hbad]
      refine ⟨[], rfl, Or.inl ⟨rfl, ?_⟩⟩
      rintro ⟨h | h, _⟩
      · exact hbad.1 h
      · exact hbad.2 h
    · rw [if_neg hbad]
      have hgood : wad.take 4 = iwad ∨ wad.take 4 = pwad := by tauto
      have hcount : numLumps wad < 2 ^ 32 := field_lt wad 4
      obtain ⟨j, writes, hfound, hrun, hpal⟩ | ⟨hrun, hnone⟩ :=
        @loadLoop_spec p wad _ 0 (numLumps wad) (field_lt wad 8) (by omega)
      · exact ⟨writes, hrun, Or.inr ⟨hgood, j, hfound, hpal⟩⟩
      · exact ⟨[], hrun, Or.inl ⟨rfl, fun h => hnone h.2.choose h.2.choose_spec⟩⟩

section Dac
variable {d : Dac} {writes : List PaletteEntry} {e : PaletteEntry}

def PaletteEntry.colour (e : PaletteEntry) : UInt8 × UInt8 × UInt8 := (e.r >>> 2, e.g >>> 2, e.b >>> 2)

theorem run_setPaletteEntry (d : Dac) (e : PaletteEntry) : d.run (setPaletteEntry e) =
    ⟨fun i => if i = e.index then e.colour else d.colours i, e.index + 1, []⟩ := by
  simp [Dac.run, setPaletteEntry, Dac.write, dacIndex, dacData, PaletteEntry.colour]

theorem run_entries_cons (d : Dac) (e : PaletteEntry) (writes : List PaletteEntry) :
    d.run ((e :: writes).flatMap setPaletteEntry) =
      (d.run (setPaletteEntry e)).run (writes.flatMap setPaletteEntry) := by
  rw [List.flatMap_cons, Dac.run, List.foldl_append]
  rfl

theorem run_entries_other {i : UInt8} (h : i ∉ writes.map PaletteEntry.index) :
    (d.run (writes.flatMap setPaletteEntry)).colours i = d.colours i := by
  induction writes generalizing d with
  | nil => rfl
  | cons e writes ih =>
    rw [List.map_cons, List.mem_cons, not_or] at h
    rw [run_entries_cons, ih h.2, run_setPaletteEntry]
    exact if_neg h.1

theorem run_entries (hnodup : (writes.map PaletteEntry.index).Nodup) (h : e ∈ writes) :
    (d.run (writes.flatMap setPaletteEntry)).colours e.index = e.colour := by
  induction writes generalizing d with
  | nil => cases h
  | cons x writes ih =>
    obtain ⟨hx, hrest⟩ := List.nodup_cons.mp hnodup
    rw [run_entries_cons]
    rcases List.mem_cons.mp h with rfl | h
    · rw [run_entries_other hx, run_setPaletteEntry]
      exact if_pos rfl
    · exact ih hrest h

theorem Palette.nodup {off : Nat} (h : Palette wad off writes) :
    (writes.map PaletteEntry.index).Nodup := by
  have hindex : writes.map PaletteEntry.index = (List.range 256).map UInt8.ofNat := by
    refine List.ext_getElem? fun k => ?_
    by_cases hk : k < 256
    · obtain ⟨r, g, b, _, _, _, hw⟩ := h.2 k hk
      rw [List.getElem?_map, List.getElem?_map, hw, List.getElem?_range hk]
      rfl
    · rw [List.getElem?_eq_none (by rw [List.length_map, h.1]; omega),
        List.getElem?_eq_none (by rw [List.length_map, List.length_range]; omega)]
  rw [hindex]
  refine List.Nodup.map_on (fun a ha b hb he => ?_) List.nodup_range
  have he' := congrArg UInt8.toNat he
  rw [UInt8.toNat_ofNat', UInt8.toNat_ofNat'] at he'
  have := List.mem_range.mp ha
  have := List.mem_range.mp hb
  omega

/-- The writes leave the DAC with the colours of the file, each cut to six bits. -/
theorem Palette.colours {off : Nat} (h : Palette wad off writes) (d : Dac) (k : Nat) (hk : k < 256) :
    ∃ r g b, wad[off + 3 * k]? = some r ∧ wad[off + 3 * k + 1]? = some g ∧
      wad[off + 3 * k + 2]? = some b ∧
      (d.run (writes.flatMap setPaletteEntry)).colours (UInt8.ofNat k) = (r >>> 2, g >>> 2, b >>> 2) := by
  obtain ⟨r, g, b, hr, hg, hb, hw⟩ := h.2 k hk
  exact ⟨r, g, b, hr, hg, hb, run_entries h.nodup (List.mem_of_getElem? hw)⟩

end Dac

end MoltOS.Playpal
