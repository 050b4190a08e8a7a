import Mathlib.Data.List.TakeWhile
import MoltOS.Bytes
import MoltOS.PrintfEnds

/-! `printf` and `puts` up to the serial port. The text is cut at 511 bytes and at its first NUL,
and `rust_serial_write` sends what is left only if that is valid UTF-8. -/
namespace MoltOS.Printf
open MoltOS.Rust MoltOS.CString MoltOS.Machine
open StateTransition (Reaches)

def rustSerialWrite (bytes : List UInt8) : List UInt8 :=
  match Str.fromUtf8 bytes with
  | some s => s.bytes
  | none => []

def serialPuts (s : List UInt8) : List UInt8 := rustSerialWrite (s.takeWhile fun c => c ≠ 0)

def puts (s : CStr) : List UInt8 := serialPuts s.mem ++ rustSerialWrite [0x0A]

def printf (fmt : CStr) (ap : List Arg) : Part (List UInt8) :=
  (vprintfImpl fmt ap).map rustSerialWrite

theorem rustSerialWrite_eq (l : List UInt8) :
    rustSerialWrite l = if validUtf8 l = true then l else [] := by
  unfold rustSerialWrite Str.fromUtf8
  split_ifs <;> rfl

section Buffer
variable {n : Nat} {l : List UInt8}

/-- The buffer holds a text, the NUL after it and then bytes that count as zeros. -/
theorem buffer_eq (h : l.length < n) :
    ((List.range n).map fun i => (Function.update (fun i => l[i]?) l.length (some 0) i).getD 0) =
      l ++ List.replicate (n - l.length) 0 := by
  refine List.ext_getElem? fun i => ?_
  rw [List.getElem?_map, List.getElem?_append]
  by_cases hn : i < n
  · rw [List.getElem?_range hn]
    rcases Nat.lt_trichotomy i l.length with hi | rfl | hi
    · simp [hi, Function.update_of_ne (Nat.ne_of_lt hi)]
    · simp [hn]
    · have hoff : i - l.length < n - l.length := by omega
      simp [Nat.not_lt_of_gt hi, Function.update_of_ne (Nat.ne_of_gt hi), hoff]
  · have hend : (List.range n).length ≤ i := by rw [List.length_range]; omega
    rw [List.getElem?_eq_none hend, if_neg (by omega),
      List.getElem?_eq_none (by rw [List.length_replicate]; omega)]
    rfl

theorem takeWhile_zeros (l : List UInt8) (k : Nat) :
    (l ++ List.replicate (k + 1) 0).takeWhile (fun c => c ≠ 0) = l.takeWhile fun c => c ≠ 0 := by
  induction l with
  | nil => rfl
  | cons c l ih =>
    by_cases hc : c = 0
    · rw [List.cons_append, List.takeWhile_cons_of_neg (by simpa using hc),
        List.takeWhile_cons_of_neg (by simpa using hc)]
    · rw [List.cons_append, List.takeWhile_cons_of_pos (by simpa using hc),
        List.takeWhile_cons_of_pos (by simpa using hc), ih]

end Buffer

variable {fmt : CStr} {ap : List Arg} {cells : List Cell}

theorem vprintfImpl_through (hc : Complete fmt) (hl : limited 512 fmt ap = some cells)
    (hf : Fits 512 0 cells) : vprintfImpl fmt ap =
      Part.some (((cells.map Cell.byte).take 511).takeWhile fun c => c ≠ 0) := by
  obtain ⟨ap', hend⟩ := through_reaches hl hf
  rw [show (pieces 0 fmt.mem).2 = false from hc] at hend
  have heval : fmtVsnprintf 512 fmt ap = Part.some (ended 512 (cells.map Cell.byte) ap' false) :=
    Part.eq_some_iff.mpr (StateTransition.mem_eval.mpr ⟨hend, halts_ended _ _ _⟩)
  have hlen : ((cells.map Cell.byte).take 511).length < 512 := by
    rw [List.length_take]
    omega
  have hbuf : (ended 512 (cells.map Cell.byte) ap' false).buf = Function.update
      (fun i => ((cells.map Cell.byte).take 511)[i]?) ((cells.map Cell.byte).take 511).length
        (some 0) := if_pos hlen
  obtain ⟨k, hk⟩ : ∃ k, 512 - ((cells.map Cell.byte).take 511).length = k + 1 :=
    ⟨511 - ((cells.map Cell.byte).take 511).length, by omega⟩
  rw [vprintfImpl, heval, Part.map_some, hbuf, buffer_eq hlen, hk, takeWhile_zeros]

/-- What `printf` sends is its text up to byte 511 and up to the first NUL, or nothing if that is
not UTF-8. It is the whole text exactly if that is shorter than 512 bytes, valid and without a
NUL. -/
theorem printf_sends (fmt : CStr) (ap : List Arg) (cells : List Cell) (hc : Complete fmt)
    (hl : limited 512 fmt ap = some cells) (hf : Fits 512 0 cells) :
    ∃ sent, printf fmt ap = Part.some sent ∧
      (sent = if validUtf8 (((cells.map Cell.byte).take 511).takeWhile fun c => c ≠ 0) = true then
        ((cells.map Cell.byte).take 511).takeWhile fun c => c ≠ 0 else []) ∧
      (sent = cells.map Cell.byte ↔ cells.length < 512 ∧ (∀ c ∈ cells, c.byte ≠ 0) ∧
        validUtf8 (cells.map Cell.byte) = true) := by
  refine ⟨_, by rw [printf, vprintfImpl_through hc hl hf, Part.map_some], rustSerialWrite_eq _,
    fun h => ?_, ?_⟩
  · rw [rustSerialWrite_eq] at h
    split_ifs at h with hvalid
    · refine ⟨?_, fun c hmem => ?_, h ▸ hvalid⟩
      · have hle := (List.takeWhile_sublist (l := (cells.map Cell.byte).take 511)
          fun c => decide (c ≠ 0)).length_le
        rw [h, List.length_take, List.length_map] at hle
        omega
      · have htake := List.mem_takeWhile_imp (h ▸ List.mem_map_of_mem hmem)
        simpa using htake
    · have hnil : cells = [] := List.map_eq_nil_iff.mp h.symm
      subst hnil
      exact ⟨by decide, fun c hmem => absurd hmem List.not_mem_nil, rfl⟩
  · rintro ⟨hlen, hnul, hvalid⟩
    have hall : ∀ b ∈ cells.map Cell.byte, decide (b ≠ 0) = true := by simpa using hnul
    rw [List.take_of_length_le (by rw [List.length_map]; omega),
      List.takeWhile_eq_self_iff.mpr hall, rustSerialWrite_eq, if_pos hvalid]

theorem fmtD_sends : Complete fmtD ∧ limited 512 fmtD [.int 7] = some [⟨55, false⟩] ∧
    ∃ sent, printf fmtD [.int 7] = Part.some sent ∧
      (sent = if validUtf8 [55] = true then [55] else []) ∧
      (sent = [55] ↔ [(⟨55, false⟩ : Cell)].length < 512 ∧
        (∀ c ∈ [(⟨55, false⟩ : Cell)], c.byte ≠ 0) ∧ validUtf8 [55] = true) :=
  ⟨rfl, by decide,
    printf_sends fmtD [.int 7] [⟨55, false⟩] rfl (by decide) (fits_free (l := [55]))⟩

/- `"%s\n"` -/
def fmtLine : CStr := .lit [37, 115, 10] rfl

def lineCells (s : CStr) : List Cell := (s.bytes ++ [10]).map fun c => ⟨c, true⟩

theorem limited_fmtLine (maxlen : Nat) (s : CStr) :
    limited maxlen fmtLine [.str (some s)] = some (lineCells s) := by
  have hcells : limited maxlen fmtLine [.str (some s)] =
      some (s.bytes.map (fun c => ⟨c, true⟩) ++ [⟨10, true⟩]) := rfl
  rw [hcells, lineCells, List.map_append]
  rfl

theorem takeWhile_mem (s : CStr) : s.mem.takeWhile (fun c => c ≠ 0) = s.bytes := by
  rw [CStr.mem, List.takeWhile_append_of_pos fun b hb => by simpa using s.noNul b hb,
    List.takeWhile_cons_of_neg (by simp), List.append_nil]

theorem puts_eq (s : CStr) :
    puts s = (if validUtf8 s.bytes = true then s.bytes else []) ++ [10] := by
  rw [puts, serialPuts, takeWhile_mem, rustSerialWrite_eq]
  rfl

theorem line_length (s : CStr) : (lineCells s).length = s.bytes.length + 1 := by
  rw [lineCells, List.length_map, List.length_append]
  rfl

theorem line_byte (s : CStr) : (lineCells s).map Cell.byte = s.bytes ++ [10] := map_byte _ _

theorem long_line_hangs (s : CStr) (h : 511 ≤ s.bytes.length) :
    ¬ (printf fmtLine [.str (some s)]).Dom := by
  have hstep : step 512 (State.start fmtLine [.str (some s)]) =
      some (.after 512 [] [10, 0] [] (.str s.bytes)) := by
    rw [start_eq_after 512]
    rfl
  by_cases hfits : Fits 512 ([] : List UInt8).length (s.bytes.map fun c => ⟨c, true⟩)
  · -- the line end finds the buffer full
    have hloop : step 512 (.after 512 s.bytes [10, 0] [] .loop) =
        some ((State.after 512 s.bytes [10, 0] [] .loop).outNext 512 10
          fun t => { t with fmt := [0] }) := rfl
    rw [outNext_full (by omega)] at hloop
    exact not_dom_of_loop hloop (reaches_step hstep (str_reaches hfits))
  · obtain ⟨u, hu, hloop⟩ := str_stuck hfits
    exact not_dom_of_loop hloop (reaches_step hstep hu)

theorem short_line_sends (s : CStr) (h : s.bytes.length < 511) :
    printf fmtLine [.str (some s)] =
      Part.some (if validUtf8 s.bytes = true then s.bytes ++ [10] else []) := by
  have hfits : Fits 512 0 (lineCells s) := fits_of_length (by rw [line_length]; omega)
  have hnul : ∀ b ∈ s.bytes ++ [10], decide (b ≠ 0) = true := by
    intro b hb
    obtain hb | hb := List.mem_append.mp hb
    · simpa using s.noNul b hb
    · rw [List.mem_singleton.mp hb]
      rfl
  have hcomplete : Complete fmtLine := rfl
  rw [printf, vprintfImpl_through hcomplete (limited_fmtLine 512 s) hfits, Part.map_some,
    line_byte, List.take_of_length_le (by rw [List.length_append]; exact Nat.succ_le_of_lt h),
    List.takeWhile_eq_self_iff.mpr hnul, rustSerialWrite_eq,
    validUtf8_snoc_ascii s.bytes (by decide)]

/-- `printf("%s\n", s)` and `puts(s)` do the same exactly for a valid string of at most 510
bytes: a longer one hangs the first, and an invalid one costs it the line end too. -/
theorem printf_line_agrees_puts (s : CStr) :
    (printf fmtLine [.str (some s)] = Part.some (puts s) ↔
      s.bytes.length < 511 ∧ validUtf8 s.bytes = true) ∧
    (511 ≤ s.bytes.length → ¬ (printf fmtLine [.str (some s)]).Dom) ∧
    (s.bytes.length < 511 → validUtf8 s.bytes ≠ true →
      printf fmtLine [.str (some s)] = Part.some [] ∧ puts s = [10]) := by
  refine ⟨?_, long_line_hangs s, fun hlen hvalid => ?_⟩
  · by_cases hlen : s.bytes.length < 511
    · rw [short_line_sends s hlen, puts_eq, Part.some_inj]
      by_cases hvalid : validUtf8 s.bytes = true
      · simp [hlen, hvalid]
      · simp [hvalid]
    · refine iff_of_false (fun h => ?_) fun h => hlen h.1
      refine long_line_hangs s (by omega) ?_
      rw [h]
      trivial
  · rw [short_line_sends s hlen, puts_eq, if_neg hvalid, if_neg hvalid]
    exact ⟨rfl, rfl⟩

end MoltOS.Printf
