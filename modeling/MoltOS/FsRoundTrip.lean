import MoltOS.FsSafe
import MoltOS.MkCxfs

/-! What `mkcxfs.py` writes, `fs::open` reads back: the two sides agree on the layout, for
every list of files the writer accepts and every query. -/
namespace MoltOS.Fs
open MoltOS.Rust MoltOS.MkCxfs

structure Packed (e : Entry) (entry : List UInt8) : Prop where
  length : entry.length = Fs.entrySize
  name : (∀ c ∈ e.name.toList, c.toNat ≠ 0) → nameOf entry = asciiBytes e.name
  ascii : ∀ b ∈ asciiBytes e.name, b < 0x80
  offset : offsetOf entry = e.offset
  size : sizeOf entry = e.size
  fits : e.offset < 2 ^ 32

theorem packU32_ok {n : Nat} {l : List UInt8} (h : packU32 n = .ok l) :
    n < 2 ^ 32 ∧ l = toLeBytes 4 n := by
  unfold packU32 at h
  split at h
  next hn => exact ⟨hn, (Except.ok.inj h).symm⟩
  · cases h

theorem packName_ok {name : String} {l : List UInt8} (h : packName name = .ok l) :
    (∀ c ∈ name.toList, c.toNat < 128) ∧ (asciiBytes name).length < 32 ∧
      l = asciiBytes name ++ List.replicate (32 - (asciiBytes name).length) 0 := by
  obtain ⟨b, hb, h⟩ := bind_ok_iff.mp h
  unfold encodeAscii at hb
  split at hb
  next hall =>
    obtain rfl := Except.ok.inj hb
    split at h
    · cases h
    next hlen =>
      refine ⟨by simpa using hall, not_le.mp hlen, (Except.ok.inj h).symm⟩
  · cases hb

theorem takeWhile_padded (l : List UInt8) (k : Nat) (h : ∀ b ∈ l, b ≠ 0) :
    (l ++ List.replicate k 0).takeWhile (fun b => b != 0) = l := by
  induction l with
  | nil => cases k <;> simp [List.replicate_succ]
  | cons b l ih =>
    have hb : (b != 0) = true := by simpa using h b (by simp)
    simp only [List.cons_append, List.takeWhile_cons, hb, if_true]
    rw [ih fun c hc => h c (by simp [hc])]

theorem asciiBytes_lt {name : String} (h : ∀ c ∈ name.toList, c.toNat < 128) :
    ∀ b ∈ asciiBytes name, b < 0x80 := by
  intro b hb
  obtain ⟨c, hc, rfl⟩ := List.mem_map.mp hb
  have hlt := h c hc
  rw [UInt8.lt_iff_toNat_lt, UInt8.toNat_ofNat']
  show c.toNat % 2 ^ 8 < 128
  omega

theorem asciiBytes_ne_zero {name : String} (h : ∀ c ∈ name.toList, c.toNat < 128)
    (hz : ∀ c ∈ name.toList, c.toNat ≠ 0) : ∀ b ∈ asciiBytes name, b ≠ 0 := by
  intro b hb h0
  obtain ⟨c, hc, rfl⟩ := List.mem_map.mp hb
  have hlt := h c hc
  have hne := hz c hc
  have hn : c.toNat % 2 ^ 8 = 0 := by
    rw [← UInt8.toNat_ofNat', h0]
    rfl
  omega

theorem packEntry_packed {e : Entry} {entry : List UInt8} (h : packEntry e = .ok entry) :
    Packed e entry := by
  simp only [packEntry, bind_ok_iff] at h
  obtain ⟨name, hname, offset, hoff, size, hsize, h⟩ := h
  obtain ⟨hascii, hlen, rfl⟩ := packName_ok hname
  obtain ⟨ho, rfl⟩ := packU32_ok hoff
  obtain ⟨hs, rfl⟩ := packU32_ok hsize
  obtain rfl := Except.ok.inj h
  have hpad : (asciiBytes e.name ++
      List.replicate (32 - (asciiBytes e.name).length) (0 : UInt8)).length = 32 := by
    rw [List.length_append, List.length_replicate]
    omega
  generalize hraw : asciiBytes e.name ++
    List.replicate (32 - (asciiBytes e.name).length) (0 : UInt8) = raw at hpad
  refine ⟨by simp [hpad, Fs.entrySize], fun hz => ?_, asciiBytes_lt hascii, ?_, ?_, ho⟩
  · have htake : (raw ++ (toLeBytes 4 e.offset ++ toLeBytes 4 e.size)).take Fs.nameLen = raw :=
      List.take_left' hpad
    rw [nameOf, htake, ← hraw]
    exact takeWhile_padded _ _ (asciiBytes_ne_zero hascii hz)
  · have hdrop : (raw ++ (toLeBytes 4 e.offset ++ toLeBytes 4 e.size)).drop 32 =
        toLeBytes 4 e.offset ++ toLeBytes 4 e.size := List.drop_left' hpad
    rw [offsetOf, hdrop, List.take_left' (toLeBytes_length 4 _)]
    exact fromLeBytes_toLeBytes 4 _ ho
  · have hdrop : (raw ++ (toLeBytes 4 e.offset ++ toLeBytes 4 e.size)).drop 36 =
        toLeBytes 4 e.size := by
      rw [← List.append_assoc]
      exact List.drop_left' (by simp [hpad])
    rw [sizeOf, hdrop, List.take_of_length_le (by simp)]
    exact fromLeBytes_toLeBytes 4 _ hs

/-- The entry that follows the first `8 + i * 40` bytes. -/
theorem entryAt_of_append {pre entry post : List UInt8} {i : Nat}
    (hpre : pre.length = 8 + i * Fs.entrySize) (hentry : entry.length = Fs.entrySize) :
    entryAt (pre ++ (entry ++ post)) i = entry := by
  rw [entryAt, List.drop_left' hpre, List.take_left' hentry]

def lookup (files : List File) (q : Str) : Option (List UInt8) :=
  (files.find? fun f => eqIgnoreAsciiCase (asciiBytes f.name) q.bytes).map (·.data)

/-- The loop over the entries of `files`, with `pre` before the entries and `mid` between
them and the data: the data of the files already passed. -/
theorem openLoop_build (p : Profile) (q : Str) (files : List File)
    (hz : ∀ f ∈ files, ∀ c ∈ f.name.toList, c.toNat ≠ 0) (pre mid post entries : List UInt8)
    (i cursor : Nat) (hpre : pre.length = 8 + i * Fs.entrySize)
    (hentries : packEntries (layout cursor files) = .ok entries)
    (hcursor : cursor = pre.length + entries.length + mid.length) :
    openLoop p (pre ++ (entries ++ (mid ++ (blobs files ++ post)))) q i files.length =
      .ok (lookup files q) := by
  -- an entry passed goes to `pre` and its data to `mid`; the cursor stays behind both
  induction files generalizing pre mid entries i cursor with
  | nil => rfl
  | cons f fs ih =>
    simp only [layout, packEntries, bind_ok_iff] at hentries
    obtain ⟨entry, hentry, rest, hrest, h⟩ := hentries
    obtain rfl := Except.ok.inj h
    have hpacked := packEntry_packed hentry
    have hlen := hpacked.length
    rw [List.length_append] at hcursor
    have hfits : cursor < 2 ^ 32 := hpacked.fits
    have h40 : Fs.entrySize = 40 := rfl
    have hi40 : i * Fs.entrySize = i * 40 := rfl
    have hblobs : blobs (f :: fs) = f.data ++ blobs fs := rfl
    set data := pre ++ (entry ++ rest ++ (mid ++ (blobs (f :: fs) ++ post))) with hdata
    have hat : entryAt data i = entry := by
      rw [hdata, List.append_assoc]
      exact entryAt_of_append hpre hlen
    have htotal : data.length = pre.length + entry.length + rest.length + mid.length +
        f.data.length + (blobs fs).length + post.length := by
      rw [hdata, hblobs]
      simp only [List.length_append]
      omega
    have hname : nameOf (entryAt data i) = asciiBytes f.name := by
      rw [hat]
      exact hpacked.name (hz f (by simp))
    rw [List.length_cons, openLoop_succ (by omega) (by omega), hname,
      if_pos (validUtf8_of_ascii _ hpacked.ascii)]
    by_cases hm : eqIgnoreAsciiCase (asciiBytes f.name) q.bytes = true
    · have hbefore : data = pre ++ (entry ++ (rest ++ mid)) ++ (f.data ++ (blobs fs ++ post)) := by
        rw [hdata, hblobs]
        simp only [List.append_assoc]
      have hcur : (pre ++ (entry ++ (rest ++ mid))).length = cursor := by
        simp only [List.length_append]
        omega
      rw [if_pos hm, hat, readData_eq hlen, hpacked.offset, hpacked.size]
      simp only
      rw [if_pos (by omega), hbefore, List.drop_left' hcur, List.take_left' rfl]
      simp [lookup, hm, Except.map]
    · have hshift : data = pre ++ entry ++ (rest ++ ((mid ++ f.data) ++ (blobs fs ++ post))) := by
        rw [hdata, hblobs]
        simp only [List.append_assoc]
      rw [if_neg hm, hshift, ih (fun g hg => hz g (by simp [hg])) (pre ++ entry) (mid ++ f.data)
        rest (i + 1) (cursor + f.data.length) ?_ hrest ?_]
      · simp [lookup, hm]
      · rw [List.length_append, hlen, hpre, Nat.add_mul, Nat.one_mul, Nat.add_assoc]
      · simp only [List.length_append]
        omega

theorem packEntries_length {cursor : Nat} {files : List File} {entries : List UInt8}
    (h : packEntries (layout cursor files) = .ok entries) :
    entries.length = files.length * Fs.entrySize := by
  induction files generalizing cursor entries with
  | nil =>
    cases h
    rfl
  | cons f fs ih =>
    simp only [layout, packEntries, bind_ok_iff] at h
    obtain ⟨entry, hentry, rest, hrest, h⟩ := h
    obtain rfl := Except.ok.inj h
    rw [List.length_append, (packEntry_packed hentry).length, ih hrest, List.length_cons,
      Nat.add_mul]
    omega

theorem build_ok {files : List File} {bytes : List UInt8} (h : build files = .ok bytes) :
    ∃ entries pad, files.length < 2 ^ 32 ∧
      packEntries (layout (8 + files.length * MkCxfs.entrySize) files) = .ok entries ∧
      bytes = (Fs.magic ++ toLeBytes 4 files.length) ++ (entries ++ (blobs files ++ pad)) := by
  simp only [build, bind_ok_iff] at h
  obtain ⟨count, hcount, entries, hentries, h⟩ := h
  obtain ⟨hn, rfl⟩ := packU32_ok hcount
  obtain rfl := Except.ok.inj h
  refine ⟨entries, padding (MkCxfs.magic ++ (toLeBytes 4 files.length ++
    (entries ++ blobs files))).length, hn, hentries, ?_⟩
  simp only [List.append_assoc]
  rfl

/-- CXFS round trip. For every list of files that `build` accepts, with no NUL in a name,
`init` mounts the written bytes, and for every query `open` on them does not panic and
returns the data of the first file whose name is the query up to ASCII case, or `None` if
there is none. -/
theorem open_build (files : List File) (hz : ∀ f ∈ files, ∀ c ∈ f.name.toList, c.toNat ≠ 0)
    (bytes : List UInt8) (hb : build files = .ok bytes) :
    init none (.ok bytes) = (.ok files.length, some bytes) ∧
      ∀ (p : Profile) (q : Str), openFile p (some bytes) q = .ok (lookup files q) := by
  obtain ⟨entries, pad, hn, hentries, rfl⟩ := build_ok hb
  have hcount : fromLeBytes (toLeBytes 4 files.length) = files.length :=
    fromLeBytes_toLeBytes 4 _ hn
  constructor
  · simp [init, Fs.magic, List.take_left' (toLeBytes_length 4 files.length), hcount]
  · intro p q
    have hslice := slice_append Fs.magic (toLeBytes 4 files.length)
      (entries ++ (blobs files ++ pad))
    rw [← List.append_assoc, toLeBytes_length] at hslice
    have hopen : openFile p (some (Fs.magic ++ toLeBytes 4 files.length ++
        (entries ++ (blobs files ++ pad)))) q = openLoop p (Fs.magic ++ toLeBytes 4 files.length ++
          (entries ++ (blobs files ++ pad))) q 0 (fromLeBytes (toLeBytes 4 files.length)) :=
      congrArg (fun r => r >>= fun count => openLoop p _ q 0 (fromLeBytes count)) hslice
    rw [hopen, hcount]
    refine openLoop_build p q files hz _ [] pad entries 0 _ rfl hentries ?_
    rw [packEntries_length hentries]
    rfl

def demoFiles : List File := [⟨"Wad", [1, 2, 3]⟩, ⟨"empty", []⟩, ⟨"WAD", [9]⟩]

def wadQuery : Str := ⟨[119, 65, 100], by decide⟩

def missingQuery : Str := ⟨[119, 65], by decide⟩

theorem build_demoFiles : ∃ bytes, build demoFiles = .ok bytes := by
  simp [build, demoFiles, packU32, layout, packEntries, packEntry, packName, encodeAscii,
    asciiBytes, bind, Except.bind, pure, Except.pure, MkCxfs.nameLen, MkCxfs.entrySize]

theorem demoFiles_open : ∃ bytes, build demoFiles = .ok bytes ∧
    openFile .dev (some bytes) wadQuery = .ok (some [1, 2, 3]) ∧
    openFile .dev (some bytes) missingQuery = .ok none := by
  obtain ⟨bytes, hb⟩ := build_demoFiles
  have hz : ∀ f ∈ demoFiles, ∀ c ∈ f.name.toList, c.toNat ≠ 0 := by simp [demoFiles]
  have hw : eqIgnoreAsciiCase [87, 97, 100] [119, 65, 100] = true := by decide
  refine ⟨bytes, hb, ?_, ?_⟩
  · rw [(open_build demoFiles hz bytes hb).2 .dev wadQuery]
    simp [lookup, demoFiles, asciiBytes, wadQuery, hw]
  · rw [(open_build demoFiles hz bytes hb).2 .dev missingQuery]
    simp [lookup, demoFiles, asciiBytes, missingQuery, eqIgnoreAsciiCase]

end MoltOS.Fs
