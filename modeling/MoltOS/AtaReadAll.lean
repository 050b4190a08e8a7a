import MoltOS.Ata

/-! `ata::read_all`: chunks of 128 sectors, and after an error the sectors of the chunk one by
one. -/
namespace MoltOS.Ata
open MoltOS.Rust
open MoltOS.Fs (AtaError)

def sectorsEnd (p : Profile) (i n : Nat) : Except Fault Nat := do
  let last ← lift .panic (add p i n)
  lift .panic (mul p last 512)

/- `read` into `&mut buf[i * 512..(i + n) * 512]`. -/
def readInto (p : Profile) (ide : Ide) (drive : Drive) (i n : Nat) (buf : List UInt8)
    (ch : Channel) : Except Fault (Except AtaError Unit × List UInt8 × Channel) := do
  let start ← lift .panic (mul p i 512)
  let stop ← sectorsEnd p i n
  let part ← lift .panic (slice buf start stop)
  let (r, part, ch) ← read ide drive (i % 2 ^ 32) part ch
  pure (r, buf.take start ++ part ++ buf.drop stop, ch)

def readSingles (p : Profile) (ide : Ide) (drive : Drive) (i : Nat) :
    List Nat → List UInt8 → Nat → Channel → Except Fault (List UInt8 × Nat × Channel)
  | [], buf, stop, ch => .ok (buf, stop, ch)
  | j :: js, buf, stop, ch => do
    let k ← lift .panic (add p i j)
    let (r, buf, ch) ← readInto p ide drive k 1 buf ch
    match r with
    | .ok () => do
      let stop ← sectorsEnd p k 1
      readSingles p ide drive i js buf stop ch
    | .error _ => pure (buf, stop, ch)

def readLoop (p : Profile) (ide : Ide) (drive : Drive) (maxSectors : Nat) :
    List Nat → List UInt8 → Nat → Channel →
      Except Fault (Except AtaError (List UInt8 × Nat) × Channel)
  | [], buf, stop, ch => .ok (.ok (buf, stop), ch)
  | i :: is, buf, stop, ch => do
    let left ← lift .panic (sub p maxSectors i)
    let count := min left 128
    let (r, buf, ch) ← readInto p ide drive i count buf ch
    match r with
    | .ok () => do
      let stop ← sectorsEnd p i count
      readLoop p ide drive maxSectors is buf stop ch
    | .error .noDrive => pure (.ok (buf, stop), ch)
    | .error _ =>
      if stop = 0 then pure (.error .diskError, ch)
      else do
        let (buf, stop, ch) ← readSingles p ide drive i (List.range count) buf stop ch
        pure (.ok (buf, stop), ch)

def readAll (p : Profile) (ide : Ide) (drive : Drive) (maxBytes : Nat) (ch : Channel) :
    Except Fault (Except AtaError (List UInt8) × Channel) := do
  let rounded ← lift .panic (add p maxBytes 511)
  let maxSectors := rounded / 512
  let len ← lift .panic (mul p maxSectors 512)
  let (r, ch) ← readLoop p ide drive maxSectors (stepBy 0 maxSectors 128) (List.replicate len 0) 0 ch
  match r with
  | .error e => pure (.error e, ch)
  | .ok (buf, stop) => pure (.ok (buf.take stop), ch)

structure Loaded (d : Disk) (maxSectors i : Nat) (buf : List UInt8) : Prop where
  length : buf.length = maxSectors * 512
  bytes : buf.take (i * 512) = d.bytes 0 i

section Loops
variable {p : Profile} {ide : Ide} {drive : Drive} {d : Disk} {maxSectors i n : Nat}
  {buf : List UInt8}

theorem sectorsEnd_eq (h : i + n ≤ 2 ^ 28) : sectorsEnd p i n = .ok ((i + n) * 512) := by
  have hadd : add p i n = .ok (i + n) := fit_of_le p (by unfold u64Max; omega)
  have hmul : mul p (i + n) 512 = .ok ((i + n) * 512) := fit_of_le p (by unfold u64Max; omega)
  exact bind_ok_iff.mpr ⟨_, lift_ok hadd, lift_ok hmul⟩

/-- The slice that `read` gets, and the buffer around what comes back. -/
theorem readInto_eq (hbuf : buf.length = maxSectors * 512) (hmax : maxSectors ≤ 2 ^ 28)
    (hn : i + n ≤ maxSectors) {r : Except AtaError Unit} {part : List UInt8} {ch ch' : Channel}
    (hread : read ide drive i ((buf.drop (i * 512)).take (n * 512)) ch = .ok (r, part, ch')) :
    readInto p ide drive i n buf ch =
      .ok (r, buf.take (i * 512) ++ part ++ buf.drop ((i + n) * 512), ch') := by
  have hmul : mul p i 512 = .ok (i * 512) := fit_of_le p (by unfold u64Max; omega)
  have hslice : slice buf (i * 512) ((i + n) * 512) = .ok ((buf.drop (i * 512)).take (n * 512)) := by
    rw [slice, if_pos ⟨by omega, by omega⟩]
    congr 3
    omega
  simp only [readInto, lift_ok hmul, sectorsEnd_eq (hn.trans hmax), lift_ok hslice,
    Nat.mod_eq_of_lt (show i < 2 ^ 32 by omega), hread, bind, Except.bind]
  rfl

theorem length_part (hbuf : buf.length = maxSectors * 512) (hn : i + n ≤ maxSectors) :
    ((buf.drop (i * 512)).take (n * 512)).length = 512 * n := by
  rw [List.length_take, List.length_drop]
  omega

theorem Loaded.readInto_ok (h : Loaded d maxSectors i buf) (hd : ide drive = some d)
    (hmax : maxSectors ≤ 2 ^ 28) (hn : i + n ≤ maxSectors) (hpos : 0 < n) (hle : n ≤ 256)
    (hend : i + n ≤ d.size) (ch : Channel) :
    ∃ buf' ch', readInto p ide drive i n buf ch = .ok (.ok (), buf', ch') ∧
      Loaded d maxSectors (i + n) buf' := by
  obtain ⟨ch', hread⟩ :=
    (read_spec hd (length_part h.length hn) hpos hle (show i < 2 ^ 28 by omega) ch).1 hend
  have hlength := h.length
  refine ⟨_, ch', readInto_eq h.length hmax hn hread, ?_, ?_⟩
  · rw [List.length_append, List.length_append, Disk.bytes_length, List.length_take,
      List.length_drop]
    omega
  · have hprefix : (d.bytes 0 (i + n)).length = (i + n) * 512 := by
      rw [Disk.bytes_length]
      omega
    have hall := d.bytes_append 0 i n
    rw [Nat.zero_add] at hall
    rw [h.bytes, hall, ← hprefix, List.take_left]

theorem Loaded.readInto_fails (h : Loaded d maxSectors i buf) (hd : ide drive = some d)
    (hmax : maxSectors ≤ 2 ^ 28) (hn : i + n ≤ maxSectors) (hpos : 0 < n) (hle : n ≤ 256)
    (hend : d.size < i + n) (ch : Channel) :
    ∃ buf' ch', readInto p ide drive i n buf ch = .ok (.error .diskError, buf', ch') ∧
      Loaded d maxSectors i buf' := by
  obtain ⟨part, ch', hread, hlen⟩ :=
    (read_spec hd (length_part h.length hn) hpos hle (show i < 2 ^ 28 by omega) ch).2 hend
  rw [length_part h.length hn] at hlen
  have hlength := h.length
  refine ⟨_, ch', readInto_eq h.length hmax hn hread, ?_, ?_⟩
  · rw [List.length_append, List.length_append, hlen, List.length_take, List.length_drop]
    omega
  · have hprefix : (buf.take (i * 512)).length = i * 512 := by
      rw [List.length_take]
      omega
    rw [← h.bytes, List.append_assoc]
    exact List.take_left' hprefix

/-- The fallback stops at the end of the disk. -/
theorem readSingles_spec {j m : Nat} (h : Loaded d maxSectors (i + j) buf) (hd : ide drive = some d)
    (hmax : maxSectors ≤ 2 ^ 28) (hm : i + j + m ≤ maxSectors) (hlow : i + j ≤ d.size)
    (hend : d.size < i + j + m) (ch : Channel) :
    ∃ buf' ch', readSingles p ide drive i (List.range' j m) buf ((i + j) * 512) ch =
      .ok (buf', d.size * 512, ch') ∧ Loaded d maxSectors d.size buf' := by
  induction m generalizing j buf ch with
  | zero => omega
  | succ m ih =>
    have hadd : add p i j = .ok (i + j) := fit_of_le p (by unfold u64Max; omega)
    rw [List.range'_succ]
    by_cases hlast : i + j + 1 ≤ d.size
    · obtain ⟨buf₁, ch₁, hread, h₁⟩ := @Loaded.readInto_ok p _ _ _ _ _ 1 _ h hd hmax (by omega)
        one_pos (by omega) hlast ch
      obtain ⟨buf', ch', hrest, h'⟩ := ih (j := j + 1) h₁ (by omega) hlast (by omega) ch₁
      refine ⟨buf', ch', ?_, h'⟩
      simp only [readSingles, lift_ok hadd, hread, sectorsEnd_eq (show i + j + 1 ≤ 2 ^ 28 by omega),
        bind, Except.bind]
      exact hrest
    · obtain ⟨buf₁, ch₁, hread, h₁⟩ := @Loaded.readInto_fails p _ _ _ _ _ 1 _ h hd hmax (by omega)
        one_pos (by omega) (by omega) ch
      obtain hsize : i + j = d.size := by omega
      rw [hsize] at h₁ ⊢
      refine ⟨buf₁, ch₁, ?_, h₁⟩
      rw [hsize] at hread hadd
      simp only [readSingles, lift_ok hadd, hread, bind, Except.bind]
      rfl

/-- From a chunk boundary on, the loop loads the rest of the disk or of the buffer. A first
chunk must be on the disk as a whole. -/
theorem readLoop_spec (h : Loaded d maxSectors i buf) (hd : ide drive = some d)
    (hmax : maxSectors ≤ 2 ^ 28) (hi : i ≤ maxSectors) (hlow : i ≤ d.size)
    (hfirst : i = 0 → min maxSectors 128 ≤ d.size) (ch : Channel) :
    ∃ buf' ch', readLoop p ide drive maxSectors (stepBy i maxSectors 128) buf (i * 512) ch =
      .ok (.ok (buf', min d.size maxSectors * 512), ch') ∧
      Loaded d maxSectors (min d.size maxSectors) buf' := by
  -- Induction on the chunks that are left.
  induction hk : maxSectors - i using Nat.strong_induction_on generalizing i buf ch with
  | _ k ih =>
  by_cases hdone : i = maxSectors
  · subst hdone
    rw [stepBy_of_le le_rfl (by decide), Nat.min_eq_right hlow]
    exact ⟨buf, ch, rfl, h⟩
  · have hsub : sub p maxSectors i = .ok (maxSectors - i) := sub_of_le p hi
    rw [stepBy_of_lt (by omega) (by decide)]
    by_cases hend : i + min (maxSectors - i) 128 ≤ d.size
    · obtain ⟨buf₁, ch₁, hread, h₁⟩ := @Loaded.readInto_ok p _ _ _ _ _ (min (maxSectors - i) 128) _ h hd
        hmax (by omega) (by omega) (by omega) hend ch
      have hstep : readLoop p ide drive maxSectors (i :: stepBy (i + 128) maxSectors 128) buf
          (i * 512) ch = readLoop p ide drive maxSectors (stepBy (i + 128) maxSectors 128) buf₁
          ((i + min (maxSectors - i) 128) * 512) ch₁ := by
        simp only [readLoop, lift_ok hsub, hread, bind, Except.bind,
          sectorsEnd_eq (show i + min (maxSectors - i) 128 ≤ 2 ^ 28 by omega)]
      rw [hstep]
      by_cases hlast : maxSectors ≤ i + 128
      · have hall : i + min (maxSectors - i) 128 = maxSectors := by omega
        rw [hall] at h₁ hend ⊢
        rw [stepBy_of_le hlast (by decide), Nat.min_eq_right hend]
        exact ⟨buf₁, ch₁, rfl, h₁⟩
      · have hfull : min (maxSectors - i) 128 = 128 := by omega
        rw [hfull] at h₁ hend ⊢
        exact ih _ (by omega) h₁ (by omega) hend (by omega) ch₁ rfl
    · obtain ⟨buf₁, ch₁, hread, h₁⟩ := @Loaded.readInto_fails p _ _ _ _ _ (min (maxSectors - i) 128) _
        h hd hmax (by omega) (by omega) (by omega) (by omega) ch
      have hpos : i * 512 ≠ 0 := by
        intro hzero
        have := hfirst (by omega)
        omega
      obtain ⟨buf', ch', hrest, h'⟩ := @readSingles_spec p _ _ _ _ i _ 0 (min (maxSectors - i) 128) h₁ hd
        hmax (by omega) hlow (by omega) ch₁
      rw [Nat.add_zero, ← List.range_eq_range'] at hrest
      rw [Nat.min_eq_left (show d.size ≤ maxSectors by omega)]
      refine ⟨buf', ch', ?_, h'⟩
      simp only [readLoop, lift_ok hsub, hread, bind, Except.bind, if_neg hpos, hrest]
      rfl

theorem loaded_zero (d : Disk) (maxSectors : Nat) :
    Loaded d maxSectors 0 (List.replicate (maxSectors * 512) 0) :=
  ⟨List.length_replicate, rfl⟩

end Loops

section Ceiling
variable {p : Profile} {ide : Ide} {drive : Drive} {d : Disk} {maxBytes maxSectors : Nat}

theorem readAll_of_loop (hceil : (maxBytes + 511) / 512 = maxSectors) (hmax : maxSectors ≤ 2 ^ 28)
    {ch ch' : Channel} {r : Except AtaError (List UInt8 × Nat)}
    (hloop : readLoop p ide drive maxSectors (stepBy 0 maxSectors 128)
      (List.replicate (maxSectors * 512) 0) 0 ch = .ok (r, ch')) :
    readAll p ide drive maxBytes ch = .ok (r.map fun x => x.1.take x.2, ch') := by
  have hadd : add p maxBytes 511 = .ok (maxBytes + 511) := fit_of_le p (by unfold u64Max; omega)
  have hmul : mul p maxSectors 512 = .ok (maxSectors * 512) := fit_of_le p (by unfold u64Max; omega)
  simp only [readAll, lift_ok hadd, hceil, lift_ok hmul, hloop, bind, Except.bind]
  cases r <;> rfl

/-- A disk that holds the first chunk is read to its end or to the ceiling. -/
theorem readAll_large (hd : ide drive = some d) (hceil : (maxBytes + 511) / 512 = maxSectors)
    (hmax : maxSectors ≤ 2 ^ 28) (hsize : min maxSectors 128 ≤ d.size) (ch : Channel) :
    ∃ ch', readAll p ide drive maxBytes ch = .ok (.ok (d.bytes 0 (min d.size maxSectors)), ch') := by
  obtain ⟨buf, ch', hloop, h⟩ := @readLoop_spec p ide drive d _ 0 _ (loaded_zero d _) hd hmax
    (Nat.zero_le _) (Nat.zero_le _) (fun _ => hsize) ch
  rw [Nat.zero_mul] at hloop
  exact ⟨ch', by rw [readAll_of_loop hceil hmax hloop, Except.map, h.bytes]⟩

/-- The first chunk runs over the end of a smaller disk, and the call gives up. -/
theorem readAll_small (hd : ide drive = some d) (hceil : (maxBytes + 511) / 512 = maxSectors)
    (hmax : maxSectors ≤ 2 ^ 28) (hsize : d.size < min maxSectors 128) (ch : Channel) :
    ∃ ch', readAll p ide drive maxBytes ch = .ok (.error .diskError, ch') := by
  have hsub : sub p maxSectors 0 = .ok maxSectors := sub_of_le p (Nat.zero_le _)
  obtain ⟨buf, ch', hread, -⟩ := @Loaded.readInto_fails p _ _ _ _ _ (min maxSectors 128) _
    (loaded_zero d maxSectors) hd hmax (by omega) (by omega) (by omega) (by omega) ch
  have hloop : readLoop p ide drive maxSectors (stepBy 0 maxSectors 128)
      (List.replicate (maxSectors * 512) 0) 0 ch = .ok (.error .diskError, ch') := by
    rw [stepBy_of_lt (by omega) (by decide)]
    simp only [readLoop, lift_ok hsub, hread, bind, Except.bind, if_true]
    rfl
  exact ⟨ch', readAll_of_loop hceil hmax hloop⟩

/-- Without a drive the loop breaks at once: the result is an empty archive, not `NoDrive`. -/
theorem readAll_absent (hd : ide drive = none) (hceil : (maxBytes + 511) / 512 = maxSectors)
    (hmax : maxSectors ≤ 2 ^ 28) (ch : Channel) :
    ∃ ch', readAll p ide drive maxBytes ch = .ok (.ok [], ch') := by
  by_cases hzero : maxSectors = 0
  · subst hzero
    exact ⟨ch, readAll_of_loop hceil hmax rfl⟩
  · have hsub : sub p maxSectors 0 = .ok maxSectors := sub_of_le p (Nat.zero_le _)
    have hlen : (List.replicate (maxSectors * 512) (0 : UInt8)).length = maxSectors * 512 :=
      List.length_replicate
    have hcount : 0 + min maxSectors 128 ≤ maxSectors := by omega
    obtain ⟨ch', hread⟩ := @read_absent _ _ 0 _ hd _ (length_part hlen hcount) (by omega) (by omega)
      (by omega) ch
    obtain ⟨buf, hinto⟩ : ∃ buf, readInto p ide drive 0 (min maxSectors 128)
        (List.replicate (maxSectors * 512) 0) ch = .ok (.error .noDrive, buf, ch') :=
      ⟨_, readInto_eq hlen hmax hcount hread⟩
    have hloop : readLoop p ide drive maxSectors (stepBy 0 maxSectors 128)
        (List.replicate (maxSectors * 512) 0) 0 ch = .ok (.ok (buf, 0), ch') := by
      rw [stepBy_of_lt (by omega) (by decide)]
      simp only [readLoop, lift_ok hsub, hinto, bind, Except.bind]
      rfl
    exact ⟨ch', by rw [readAll_of_loop hceil hmax hloop, Except.map, List.take_zero]⟩

/- So `fs::init` reports a bad magic where there is no drive. -/
example : Fs.init none (.ok []) = (.error .badMagic, none) := rfl

end Ceiling

/-- `read_all` returns the whole disk up to the ceiling if and only if the disk holds the
whole first chunk; a smaller disk is a `DiskError`, although its sectors could be read. -/
theorem readAll_whole_disk_iff (p : Profile) (ide : Ide) (drive : Drive) (d : Disk)
    (hd : ide drive = some d) (maxBytes : Nat) (hmax : (maxBytes + 511) / 512 ≤ 2 ^ 28)
    (ch : Channel) :
    ((∃ ch', readAll p ide drive maxBytes ch =
        .ok (.ok (d.bytes 0 (min d.size ((maxBytes + 511) / 512))), ch')) ↔
      min ((maxBytes + 511) / 512) 128 ≤ d.size) ∧
    (d.size < min ((maxBytes + 511) / 512) 128 →
      ∃ ch', readAll p ide drive maxBytes ch = .ok (.error .diskError, ch')) := by
  refine ⟨⟨fun ⟨ch', hread⟩ => ?_, fun hsize => readAll_large hd rfl hmax hsize ch⟩,
    fun hsize => readAll_small hd rfl hmax hsize ch⟩
  by_contra hsize
  obtain ⟨ch'', hfail⟩ := @readAll_small p _ _ _ _ _ hd rfl hmax (Nat.lt_of_not_le hsize) ch
  rw [hread] at hfail
  cases hfail

def numbered (size : Nat) : Disk :=
  ⟨size, fun lba _ => UInt8.ofNat lba, fun _ => 0, fun _ => 0, fun _ => Nat.zero_le _⟩

/- The slave that `fs::init` reads from. -/
def archiveDisk (d : Disk) : Ide
  | .master => none
  | .slave => some d

def powerOn : Channel := ⟨0, 0, 0, 0, 0, .idle, 0⟩

theorem readAll_two_hundred : ∃ ch', readAll .dev (archiveDisk (numbered 200)) .slave
    (6 * 1024 * 1024) powerOn = .ok (.ok ((numbered 200).bytes 0 200), ch') :=
  (readAll_whole_disk_iff .dev (archiveDisk (numbered 200)) .slave (numbered 200) rfl
    (6 * 1024 * 1024) (by decide) powerOn).1.mpr (by decide)

/-- A disk of 64 sectors under the ceiling of `fs::init`: a `DiskError`, and no archive. -/
theorem readAll_small_disk_fails : ∃ ch', readAll .dev (archiveDisk (numbered 64)) .slave
      (6 * 1024 * 1024) powerOn = .ok (.error .diskError, ch') ∧
    Fs.init none (.error .diskError) = (.error .diskError, none) := by
  obtain ⟨ch', hread⟩ := @readAll_small .dev (archiveDisk (numbered 64)) .slave (numbered 64)
    (6 * 1024 * 1024) _ rfl rfl (by decide) (by decide) powerOn
  exact ⟨ch', hread, rfl⟩

end MoltOS.Ata
