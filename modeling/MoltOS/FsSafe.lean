import MoltOS.Fs

/-! Which archives `fs::open` survives. For each query the loop reads the entries in
order until one matches or has a name that is not UTF-8; the call panics exactly when an
entry it reads sticks out of the archive or the matching entry's data does. -/
namespace MoltOS.Fs
open MoltOS.Rust

def entryAt (data : List UInt8) (i : Nat) : List UInt8 :=
  (data.drop (8 + i * entrySize)).take entrySize

def nameOf (entry : List UInt8) : List UInt8 := (entry.take nameLen).takeWhile fun b => b != 0

def offsetOf (entry : List UInt8) : Nat := fromLeBytes ((entry.drop 32).take 4)

def sizeOf (entry : List UInt8) : Nat := fromLeBytes ((entry.drop 36).take 4)

variable {p : Profile} {data entry : List UInt8} {name : Str} {i n : Nat}

theorem readEntry_eq (hi : i < 2 ^ 32) : readEntry p data i =
    if 8 + i * entrySize + entrySize ≤ data.length then .ok (entryAt data i)
    else .error .indexOutOfBounds := by
  have hmul : mul p i entrySize = .ok (i * entrySize) :=
    fit_of_le p (by unfold entrySize u64Max; omega)
  have hadd : add p 8 (i * entrySize) = .ok (8 + i * entrySize) :=
    fit_of_le p (by unfold entrySize u64Max; omega)
  simp only [readEntry, hmul, hadd, bind, Except.bind, sliceFrom]
  by_cases hfrom : 8 + i * entrySize ≤ data.length
  · rw [if_pos hfrom]
    have hlen : entrySize ≤ (data.drop (8 + i * entrySize)).length ↔
        8 + i * entrySize + entrySize ≤ data.length := by
      rw [List.length_drop]
      omega
    simp only [sliceTo, hlen]
    rfl
  · rw [if_neg hfrom, if_neg (by omega)]

theorem take_findIdx (l : List UInt8) (k : Nat) (hk : k = l.length) :
    l.take ((l.findIdx? fun b => b == 0).getD k) = l.takeWhile fun b => b != 0 := by
  subst hk
  induction l with
  | nil => rfl
  | cons b l ih =>
    by_cases hb : b = 0
    · simp [hb, List.findIdx?_cons]
    · cases hf : l.findIdx? fun b => b == 0 with
      | none => simpa [List.findIdx?_cons, hb, hf] using ih
      | some j => simpa [List.findIdx?_cons, hb, hf] using ih

theorem findIdx_le (l : List UInt8) (k : Nat) (hk : k = l.length) :
    (l.findIdx? fun b => b == 0).getD k ≤ l.length := by
  cases hf : l.findIdx? fun b => b == 0 with
  | none => simp [hk]
  | some j =>
    obtain ⟨hlt, _⟩ := List.findIdx?_eq_some_iff_getElem.mp hf
    exact hlt.le

theorem readName_eq (h : entry.length = entrySize) :
    readName entry = .ok (Str.fromUtf8 (nameOf entry)) := by
  have hraw : (entry.take nameLen).length = nameLen := by
    rw [List.length_take, h]
    rfl
  have hto : sliceTo entry nameLen = .ok (entry.take nameLen) :=
    if_pos (by rw [h]; decide)
  have hname : sliceTo (entry.take nameLen)
      (((entry.take nameLen).findIdx? fun b => b == 0).getD nameLen) = .ok (nameOf entry) := by
    rw [sliceTo, if_pos (findIdx_le _ _ hraw.symm), take_findIdx _ _ hraw.symm]
    rfl
  simp only [readName, hto, hname, bind, Except.bind, pure, Except.pure]

theorem offsetOf_lt (h : entry.length = entrySize) : offsetOf entry < 2 ^ 32 := by
  have hlt := fromLeBytes_lt ((entry.drop 32).take 4)
  rwa [show ((entry.drop 32).take 4).length = 4 by simp [h, entrySize]] at hlt

theorem sizeOf_lt (h : entry.length = entrySize) : sizeOf entry < 2 ^ 32 := by
  have hlt := fromLeBytes_lt ((entry.drop 36).take 4)
  rwa [show ((entry.drop 36).take 4).length = 4 by simp [h, entrySize]] at hlt

theorem readData_eq (h : entry.length = entrySize) : readData p data entry =
    if offsetOf entry + sizeOf entry ≤ data.length then
      .ok ((data.drop (offsetOf entry)).take (sizeOf entry))
    else .error .indexOutOfBounds := by
  have hlen : entry.length = 40 := h
  have hoff : slice entry 32 36 = .ok ((entry.drop 32).take 4) := if_pos ⟨by omega, by omega⟩
  have hsize : slice entry 36 40 = .ok ((entry.drop 36).take 4) := if_pos ⟨by omega, by omega⟩
  have hadd : add p (offsetOf entry) (sizeOf entry) = .ok (offsetOf entry + sizeOf entry) := by
    have h1 := offsetOf_lt h
    have h2 := sizeOf_lt h
    exact fit_of_le p (by unfold u64Max; omega)
  simp only [readData, hoff, hsize, bind, Except.bind]
  unfold offsetOf sizeOf at hadd ⊢
  simp only [hadd, slice, Nat.le_add_right, true_and, Nat.add_sub_cancel_left]

def Passes (data : List UInt8) (name : Str) (j : Nat) : Prop :=
  validUtf8 (nameOf (entryAt data j)) = true ∧
    eqIgnoreAsciiCase (nameOf (entryAt data j)) name.bytes = false

def Matches (data : List UInt8) (name : Str) (j : Nat) : Prop :=
  validUtf8 (nameOf (entryAt data j)) = true ∧
    eqIgnoreAsciiCase (nameOf (entryAt data j)) name.bytes = true

def Inside (data : List UInt8) (name : Str) (j : Nat) : Prop :=
  8 + j * entrySize + entrySize ≤ data.length ∧
    (Matches data name j →
      offsetOf (entryAt data j) + sizeOf (entryAt data j) ≤ data.length)

theorem entryAt_length (h : 8 + i * entrySize + entrySize ≤ data.length) :
    (entryAt data i).length = entrySize := by
  rw [entryAt, List.length_take, List.length_drop]
  omega

/-- One round of the loop. -/
theorem openLoop_succ (hi : i < 2 ^ 32) (h : 8 + i * entrySize + entrySize ≤ data.length) :
    openLoop p data name i (n + 1) =
      if validUtf8 (nameOf (entryAt data i)) = true then
        if eqIgnoreAsciiCase (nameOf (entryAt data i)) name.bytes then
          (readData p data (entryAt data i)).map some
        else openLoop p data name (i + 1) n
      else .ok none := by
  have hentry : readEntry p data i = .ok (entryAt data i) := by rw [readEntry_eq hi, if_pos h]
  simp only [openLoop, hentry, readName_eq (entryAt_length h), bind, Except.bind]
  by_cases hv : validUtf8 (nameOf (entryAt data i)) = true
  · have hstr : Str.fromUtf8 (nameOf (entryAt data i)) = some ⟨_, hv⟩ := dif_pos hv
    simp only [hstr, if_pos hv]
    rfl
  · have hstr : Str.fromUtf8 (nameOf (entryAt data i)) = none := dif_neg hv
    simp only [hstr, if_neg hv]
    rfl

theorem openLoop_outside (hi : i < 2 ^ 32) (h : ¬ 8 + i * entrySize + entrySize ≤ data.length) :
    openLoop p data name i (n + 1) = .error .indexOutOfBounds := by
  have hentry : readEntry p data i = .error .indexOutOfBounds := by
    rw [readEntry_eq hi, if_neg h]
  simp only [openLoop, hentry, bind, Except.bind]

theorem openLoop_ok_iff (h : i + n ≤ 2 ^ 32) :
    (∃ r, openLoop p data name i n = .ok r) ↔
      ∀ k < n, (∀ j < k, Passes data name (i + j)) → Inside data name (i + k) := by
  induction n generalizing i with
  | zero => exact ⟨fun _ k hk => absurd hk (Nat.not_lt_zero k), fun _ => ⟨none, rfl⟩⟩
  | succ n ih =>
    have hi : i < 2 ^ 32 := by omega
    by_cases hin : 8 + i * entrySize + entrySize ≤ data.length
    swap
    · rw [openLoop_outside hi hin]
      refine ⟨fun hr => ?_, fun hall => absurd (hall 0 (by omega) ?_).1 hin⟩
      · obtain ⟨r, hr⟩ := hr
        cases hr
      · intro j hj
        exact absurd hj (Nat.not_lt_zero j)
    rw [openLoop_succ hi hin]
    by_cases hv : validUtf8 (nameOf (entryAt data i)) = true
    swap
    · rw [if_neg hv]
      refine ⟨fun _ k hk hpass => ?_, fun _ => ⟨none, rfl⟩⟩
      cases k with
      | zero => exact ⟨hin, fun hm => absurd hm.1 hv⟩
      | succ k => exact absurd (hpass 0 (by omega)).1 hv
    rw [if_pos hv]
    by_cases hm : eqIgnoreAsciiCase (nameOf (entryAt data i)) name.bytes = true
    · rw [if_pos hm, readData_eq (entryAt_length hin)]
      by_cases hfit : offsetOf (entryAt data i) + sizeOf (entryAt data i) ≤ data.length
      · rw [if_pos hfit]
        refine ⟨fun _ k hk hpass => ?_, fun _ => ⟨_, rfl⟩⟩
        cases k with
        | zero => exact ⟨hin, fun _ => hfit⟩
        | succ k =>
          have hno := (hpass 0 (by omega)).2
          simp only [Nat.add_zero] at hno
          rw [hm] at hno
          cases hno
      · rw [if_neg hfit]
        refine ⟨fun hr => ?_, fun hall => ?_⟩
        · obtain ⟨r, hr⟩ := hr
          cases hr
        · have hz := hall 0 (by omega) fun j hj => absurd hj (Nat.not_lt_zero j)
          exact absurd (hz.2 ⟨hv, hm⟩) hfit
    · rw [if_neg hm, ih (by omega)]
      have hpass : Passes data name i := ⟨hv, by simpa using hm⟩
      constructor
      · intro hall k hk hbefore
        cases k with
        | zero => exact ⟨hin, fun h => absurd h.2 hm⟩
        | succ k =>
          rw [show i + (k + 1) = i + 1 + k by omega]
          refine hall k (by omega) fun j hj => ?_
          rw [show i + 1 + j = i + (j + 1) by omega]
          exact hbefore (j + 1) (by omega)
      · intro hall k hk hbefore
        rw [show i + 1 + k = i + (k + 1) by omega]
        refine hall (k + 1) (by omega) fun j hj => ?_
        cases j with
        | zero => exact hpass
        | succ j =>
          rw [show i + (j + 1) = i + 1 + j by omega]
          exact hbefore j (by omega)

theorem openLoop_infix (h : i + n ≤ 2 ^ 32) {d : List UInt8}
    (hr : openLoop p data name i n = .ok (some d)) : d <:+: data := by
  induction n generalizing i with
  | zero => cases hr
  | succ n ih =>
    have hi : i < 2 ^ 32 := by omega
    by_cases hin : 8 + i * entrySize + entrySize ≤ data.length
    · rw [openLoop_succ hi hin] at hr
      split at hr
      · split at hr
        · rw [readData_eq (entryAt_length hin)] at hr
          split at hr
          · cases hr
            exact (List.take_prefix _ _).isInfix.trans (List.drop_suffix _ _).isInfix
          · cases hr
        · exact ih (by omega) hr
      · cases hr
    · rw [openLoop_outside hi hin] at hr
      cases hr

theorem init_ok (h : init none (.ok data) = (.ok n, some data)) :
    8 ≤ data.length ∧ data.take 4 = magic ∧ n = fromLeBytes ((data.drop 4).take 4) := by
  simp only [init] at h
  split at h
  · cases h
  next hno =>
    rw [not_or, not_lt, not_not] at hno
    simp only [Prod.mk.injEq, Except.ok.injEq] at h
    exact ⟨hno.1, hno.2, h.1.symm⟩

theorem openFile_eq (h : init none (.ok data) = (.ok n, some data)) :
    openFile p (some data) name = openLoop p data name 0 n := by
  obtain ⟨hlen, _, rfl⟩ := init_ok h
  have hcount : slice data 4 8 = .ok ((data.drop 4).take 4) := if_pos ⟨by omega, hlen⟩
  simp only [openFile, hcount, bind, Except.bind]

theorem init_count_lt (h : init none (.ok data) = (.ok n, some data)) : n < 2 ^ 32 := by
  obtain ⟨hlen, _, rfl⟩ := init_ok h
  have hlt := fromLeBytes_lt ((data.drop 4).take 4)
  have hfour : ((data.drop 4).take 4).length = 4 := by
    rw [List.length_take, List.length_drop]
    omega
  rwa [hfour] at hlt

/-- On an archive that `init` accepts, `open` returns `None` or a slice of the archive
exactly when every entry its loop reaches lies in the archive, and so does the data of the
one that matches. Nothing else can go wrong: in particular no addition overflows. -/
theorem open_survives_iff (p : Profile) (data : List UInt8) (n : Nat)
    (h : init none (.ok data) = (.ok n, some data)) (name : Str) :
    (∃ r, openFile p (some data) name = .ok r ∧ ∀ d, r = some d → d <:+: data) ↔
      ∀ i < n, (∀ j < i, Passes data name j) → Inside data name i := by
  have hn := init_count_lt h
  have hiff := @openLoop_ok_iff p data name 0 n (by omega)
  simp only [Nat.zero_add] at hiff
  rw [openFile_eq h, ← hiff]
  constructor
  · intro hr
    obtain ⟨r, hr, _⟩ := hr
    exact ⟨r, hr⟩
  · intro hr
    obtain ⟨r, hr⟩ := hr
    exact ⟨r, hr, fun d hd => openLoop_infix (by omega) (hd ▸ hr)⟩

def nameA : Str := ⟨[65], rfl⟩

def oneFile (size : Nat) : List UInt8 :=
  magic ++ toLeBytes 4 1 ++ (65 :: List.replicate 31 0) ++ toLeBytes 4 48 ++ toLeBytes 4 size

theorem oneFile_opens :
    init none (.ok (oneFile 2 ++ [7, 8])) = (.ok 1, some (oneFile 2 ++ [7, 8])) ∧
      ∃ r, openFile .dev (some (oneFile 2 ++ [7, 8])) nameA = .ok r ∧
        ∀ d, r = some d → d <:+: oneFile 2 ++ [7, 8] := by
  have hinit : init none (.ok (oneFile 2 ++ [7, 8])) = (.ok 1, some (oneFile 2 ++ [7, 8])) := by
    decide +kernel
  refine ⟨hinit, (open_survives_iff .dev _ 1 hinit nameA).mpr fun i hi _ => ?_⟩
  obtain rfl : i = 0 := by omega
  exact ⟨by decide, fun _ => by decide +kernel⟩

theorem entryAt_append (pre post : List UInt8) (h : 8 + i * entrySize + entrySize ≤ pre.length) :
    entryAt (pre ++ post) i = entryAt pre i := by
  rw [entryAt, entryAt, List.drop_append_of_le_length (by omega), List.take_append_of_le_length]
  rw [List.length_drop]
  omega

theorem init_append (post : List UInt8) (h : init none (.ok data) = (.ok n, some data)) :
    init none (.ok (data ++ post)) = (.ok n, some (data ++ post)) := by
  obtain ⟨hlen, hmagic, rfl⟩ := init_ok h
  have htake : (data ++ post).take 4 = magic := by
    rw [List.take_append_of_le_length (by omega), hmagic]
  have hcount : ((data ++ post).drop 4).take 4 = (data.drop 4).take 4 := by
    rw [List.drop_append_of_le_length (by omega), List.take_append_of_le_length]
    rw [List.length_drop]
    omega
  have hno : ¬ ((data ++ post).length < 8 ∨ (data ++ post).take 4 ≠ magic) := by
    rintro (hlt | hne)
    · rw [List.length_append] at hlt
      omega
    · exact hne htake
  simp only [init, if_neg hno, hcount, Option.getD_none]

def cutArchive : List UInt8 :=
  oneFile (6 * 1024 * 1024) ++ List.replicate (6 * 1024 * 1024 - 48) 0

theorem cutArchive_length : cutArchive.length = 6 * 1024 * 1024 := by
  have hhead : (oneFile (6 * 1024 * 1024)).length = 48 := by decide
  rw [cutArchive, List.length_append, hhead, List.length_replicate]

theorem cutArchive_init : init none (.ok cutArchive) = (.ok 1, some cutArchive) :=
  init_append _ (by decide +kernel)

theorem cutArchive_panics (r : Option (List UInt8)) :
    openFile .dev (some cutArchive) nameA ≠ .ok r := by
  rw [openFile_eq cutArchive_init]
  intro hr
  have hentry : entryAt cutArchive 0 = entryAt (oneFile (6 * 1024 * 1024)) 0 :=
    entryAt_append _ _ (by decide)
  have hmatch : Matches cutArchive nameA 0 := by
    unfold Matches
    rw [hentry]
    decide +kernel
  have hinside := (openLoop_ok_iff (by decide)).mp ⟨r, hr⟩ 0 (by decide) fun j hj =>
    absurd hj (Nat.not_lt_zero j)
  have hfit := hinside.2 hmatch
  have hstop : offsetOf (entryAt cutArchive 0) + sizeOf (entryAt cutArchive 0) =
      48 + 6 * 1024 * 1024 := by
    rw [hentry]
    decide +kernel
  rw [Nat.zero_add, hstop, cutArchive_length] at hfit
  omega

/-- Two archives `init` accepts and `open` panics on: a header that announces one file and
ends there, also when the query comes through `rust_fs_open`; and a whole archive with a
file of 6 MiB, cut by the read ceiling. -/
theorem accepted_archive_panics :
    (init none (.ok (magic ++ toLeBytes 4 1)) = (.ok 1, some (magic ++ toLeBytes 4 1)) ∧
      openFile .dev (some (magic ++ toLeBytes 4 1)) nameA = .error .indexOutOfBounds ∧
      rustFsOpen .dev (some (magic ++ toLeBytes 4 1)) [65, 0] = .error .indexOutOfBounds) ∧
    cutArchive <+: oneFile (6 * 1024 * 1024) ++ List.replicate (6 * 1024 * 1024) 0 ∧
      cutArchive.length = 6 * 1024 * 1024 ∧
      init none (.ok cutArchive) = (.ok 1, some cutArchive) ∧
      ∀ r, openFile .dev (some cutArchive) nameA ≠ .ok r := by
  refine ⟨⟨by decide +kernel, by decide +kernel, by decide +kernel⟩, ?_, cutArchive_length,
    cutArchive_init, cutArchive_panics⟩
  refine (List.prefix_append_right_inj _).mpr ⟨List.replicate 48 0, ?_⟩
  rw [List.replicate_append_replicate]

end MoltOS.Fs
