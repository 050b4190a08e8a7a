import MoltOS.AtaReadAll
import MoltOS.FsRoundTrip
import MoltOS.Stdio

/-! From the archive writer to the C streams: an image that `mkcxfs.py` wrote to the slave
drive, read by `ata::read_all` up to its ceiling, mounted by `fs::init` and served by `fopen`
and `fread`. -/
namespace MoltOS.Storage
open MoltOS.Rust MoltOS.Fs MoltOS.MkCxfs

def ceiling : Nat := 6 * 1024 * 1024

/- `fs::init`, with the archive cell before and after the call. -/
def mount (p : Profile) (ide : Ata.Ide) (archive : Option (List UInt8)) (ch : Ata.Channel) :
    Except Ata.Fault ((Except FsError Nat × Option (List UInt8)) × Ata.Channel) := do
  let (read, ch) ← Ata.readAll p ide .slave ceiling ch
  pure (Fs.init archive read, ch)

theorem mount_of_read {p : Profile} {ide : Ata.Ide} {archive : Option (List UInt8)}
    {ch ch' : Ata.Channel} {read : Except AtaError (List UInt8)}
    (h : Ata.readAll p ide .slave ceiling ch = .ok (read, ch')) :
    mount p ide archive ch = .ok (Fs.init archive read, ch') := by
  rw [mount, h]
  rfl

/- The end of what `open` reads of an archive with its data from `cursor` on: the entries, and
   the data up to the end of the file it finds. -/
def reachFrom (header cursor : Nat) (q : Str) : List MkCxfs.File → Nat
  | [] => header
  | f :: fs =>
    if eqIgnoreAsciiCase (asciiBytes f.name) q.bytes then cursor + f.data.length
    else reachFrom header (cursor + f.data.length) q fs

def reach (files : List MkCxfs.File) (q : Str) : Nat :=
  reachFrom (8 + files.length * Fs.entrySize) (8 + files.length * Fs.entrySize) q files

section Cut
variable {p : Profile} {q : Str} {data whole : List UInt8} {i n : Nat}

theorem le_reachFrom {header cursor : Nat} (h : header ≤ cursor) (files : List MkCxfs.File) :
    header ≤ reachFrom header cursor q files := by
  induction files generalizing cursor with
  | nil => exact Nat.le_refl _
  | cons f fs ih =>
    unfold reachFrom
    split
    · omega
    · exact ih (by omega)

theorem reachFrom_le {header cursor : Nat} (h : header ≤ cursor) (files : List MkCxfs.File) :
    reachFrom header cursor q files ≤ cursor + (blobs files).length := by
  induction files generalizing cursor with
  | nil => exact h.trans (Nat.le_add_right _ _)
  | cons f fs ih =>
    have hlen : (blobs (f :: fs)).length = f.data.length + (blobs fs).length :=
      List.length_append
    unfold reachFrom
    split
    · omega
    · have := @ih (cursor + f.data.length) (by omega)
      omega

theorem entryAt_cut (hdata : data <+: whole) (h : 8 + i * Fs.entrySize + Fs.entrySize ≤ data.length) :
    entryAt data i = entryAt whole i := by
  obtain ⟨post, rfl⟩ := hdata
  exact (entryAt_append data post h).symm

theorem slice_cut (hdata : data <+: whole) {start len : Nat} (h : start + len ≤ data.length) :
    (data.drop start).take len = (whole.drop start).take len := by
  obtain ⟨post, rfl⟩ := hdata
  rw [List.drop_append_of_le_length (by omega), List.take_append_of_le_length]
  rw [List.length_drop]
  omega

/-- The loop on an archive that was cut somewhere: it goes through exactly if all it reads is
before the cut. As in `openLoop_build`, the entries passed go to `pre` and their data to `mid`. -/
theorem openLoop_cut (files : List MkCxfs.File)
    (hz : ∀ f ∈ files, ∀ c ∈ f.name.toList, c.toNat ≠ 0) (pre mid post entries : List UInt8)
    (i cursor : Nat) (hpre : pre.length = 8 + i * Fs.entrySize)
    (hentries : packEntries (layout cursor files) = .ok entries)
    (hcursor : cursor = pre.length + entries.length + mid.length)
    (hdata : data <+: pre ++ (entries ++ (mid ++ (blobs files ++ post))))
    (hin : pre.length ≤ data.length) :
    openLoop p data q i files.length =
      if reachFrom (pre.length + entries.length) cursor q files ≤ data.length
      then .ok (lookup files q) else .error .indexOutOfBounds := by
  induction files generalizing pre mid entries i cursor with
  | nil =>
    cases hentries
    exact (if_pos hin).symm
  | cons f fs ih =>
    simp only [layout, packEntries, bind_ok_iff] at hentries
    obtain ⟨entry, hentry, rest, hrest, h⟩ := hentries
    obtain rfl := Except.ok.inj h
    have hpacked := packEntry_packed hentry
    have hlen := hpacked.length
    have hfits : cursor < 2 ^ 32 := hpacked.fits
    have h40 : Fs.entrySize = 40 := rfl
    have hi40 : i * Fs.entrySize = i * 40 := rfl
    have hheader : pre.length + (entry ++ rest).length =
        (pre ++ entry).length + rest.length := by
      simp only [List.length_append]
      omega
    rw [List.length_append] at hcursor
    rw [List.length_cons]
    by_cases hnext : 8 + i * Fs.entrySize + Fs.entrySize ≤ data.length
    swap
    · -- the entry itself is behind the cut, and nothing reaches less far
      have hreach := @le_reachFrom q (pre.length + (entry ++ rest).length) cursor
        (by rw [List.length_append]; omega) (f :: fs)
      rw [List.length_append] at hreach
      rw [openLoop_outside (by omega) hnext, if_neg]
      rw [List.length_append]
      omega
    have hat : entryAt data i = entry := by
      rw [entryAt_cut hdata hnext, List.append_assoc]
      exact entryAt_of_append hpre hlen
    have hname : nameOf (entryAt data i) = asciiBytes f.name := by
      rw [hat]
      exact hpacked.name (hz f (by simp))
    rw [openLoop_succ (by omega) hnext, hname, if_pos (validUtf8_of_ascii _ hpacked.ascii),
      reachFrom]
    by_cases hm : eqIgnoreAsciiCase (asciiBytes f.name) q.bytes = true
    · rw [if_pos hm, if_pos hm, hat, readData_eq hlen, hpacked.offset, hpacked.size]
      simp only
      by_cases hend : cursor + f.data.length ≤ data.length
      · have hbefore : pre ++ ((entry ++ rest) ++ (mid ++ (blobs (f :: fs) ++ post))) =
            pre ++ (entry ++ (rest ++ mid)) ++ (f.data ++ (blobs fs ++ post)) := by
          rw [show blobs (f :: fs) = f.data ++ blobs fs from rfl]
          simp only [List.append_assoc]
        have hcur : (pre ++ (entry ++ (rest ++ mid))).length = cursor := by
          simp only [List.length_append]
          omega
        rw [if_pos hend, if_pos hend, slice_cut hdata hend, hbefore, List.drop_left' hcur,
          List.take_left' rfl]
        simp [lookup, hm, Except.map]
      · rw [if_neg hend, if_neg hend]
        rfl
    · have hshift : pre ++ ((entry ++ rest) ++ (mid ++ (blobs (f :: fs) ++ post))) =
          pre ++ entry ++ (rest ++ ((mid ++ f.data) ++ (blobs fs ++ post))) := by
        rw [show blobs (f :: fs) = f.data ++ blobs fs from rfl]
        simp only [List.append_assoc]
      have hlookup : lookup (f :: fs) q = lookup fs q := by simp [lookup, hm]
      rw [if_neg hm, if_neg hm, hheader, hlookup]
      refine ih (fun g hg => hz g (by simp [hg])) (pre ++ entry) (mid ++ f.data) rest (i + 1) _
        ?_ hrest ?_ (hshift ▸ hdata) ?_
      · rw [List.length_append, hlen, hpre, Nat.add_mul, Nat.one_mul, Nat.add_assoc]
      · simp only [List.length_append]
        omega
      · rw [List.length_append]
        omega

/-- An archive that `build` wrote, with anything after it, and cut behind its header: it is
mounted, and a query is answered exactly if what it reads is before the cut. -/
theorem open_cut {files : List MkCxfs.File} {image post : List UInt8}
    (hz : ∀ f ∈ files, ∀ c ∈ f.name.toList, c.toNat ≠ 0) (hb : build files = .ok image)
    (hdata : data <+: image ++ post) (hlen : 8 ≤ data.length) :
    Fs.init none (.ok data) = (.ok files.length, some data) ∧ ∀ (p : Profile) (q : Str),
      openFile p (some data) q = if reach files q ≤ data.length then .ok (lookup files q)
        else .error .indexOutOfBounds := by
  obtain ⟨entries, pad, hn, hentries, rfl⟩ := build_ok hb
  have hcount : fromLeBytes (toLeBytes 4 files.length) = files.length :=
    fromLeBytes_toLeBytes 4 _ hn
  have hpre : (Fs.magic ++ toLeBytes 4 files.length).length = 8 := by
    rw [List.length_append, toLeBytes_length]
    rfl
  have hshift : Fs.magic ++ toLeBytes 4 files.length ++ (entries ++ (blobs files ++ pad)) ++ post =
      Fs.magic ++ toLeBytes 4 files.length ++ (entries ++ ([] ++ (blobs files ++ (pad ++ post)))) := by
    simp only [List.append_assoc, List.nil_append]
  rw [hshift] at hdata
  have hmagic : data.take 4 = Fs.magic := by
    have hfirst : (data.drop 0).take 4 = _ := slice_cut hdata (by omega)
    simpa [Fs.magic] using hfirst
  have hfour : (data.drop 4).take 4 = toLeBytes 4 files.length := by
    rw [slice_cut hdata (by omega), List.append_assoc, List.drop_left' (by rfl),
      List.take_left' (toLeBytes_length 4 _)]
  have hinit : Fs.init none (.ok data) = (.ok files.length, some data) := by
    rw [Fs.init, if_neg (by rw [not_or]; exact ⟨by omega, not_not.mpr hmagic⟩), hfour, hcount]
    rfl
  refine ⟨hinit, fun p q => ?_⟩
  have hheader : (Fs.magic ++ toLeBytes 4 files.length).length + entries.length =
      8 + files.length * Fs.entrySize := by
    rw [hpre, packEntries_length hentries]
  rw [openFile_eq hinit, openLoop_cut files hz _ [] (pad ++ post) entries 0 _ hpre hentries
    (by rw [hheader]; rfl) hdata (by omega), hheader]
  rfl

theorem reach_le_image {files : List MkCxfs.File} {image : List UInt8}
    (hb : build files = .ok image) : reach files q ≤ image.length := by
  obtain ⟨entries, pad, -, hentries, rfl⟩ := build_ok hb
  have hreach := @reachFrom_le q _ _ (Nat.le_refl (8 + files.length * Fs.entrySize)) files
  have hlen := packEntries_length hentries
  have hpre : (Fs.magic ++ toLeBytes 4 files.length).length = 8 := by
    rw [List.length_append, toLeBytes_length]
    rfl
  rw [List.length_append, hpre, List.length_append, hlen, List.length_append]
  unfold reach
  omega

end Cut

def asked (ks : List Stdio.Call) : Nat :=
  (ks.map fun
    | .fread size nmemb => (size * nmemb).toNat
    | _ => 0).sum

theorem onAll_asked {ks : List Stdio.Call} (hks : ∀ k ∈ ks, ¬ k.Seeks) (c : Cursor UInt8) :
    (Stdio.delivered (Stdio.onAll ks c).1, (Stdio.onAll ks c).2) = c.read (asked ks) := by
  induction ks generalizing c with
  | nil => exact c.read_zero.symm
  | cons k ks ih =>
    have hrest := ih fun k' hk' => hks k' (List.mem_cons_of_mem _ hk')
    cases k with
    | fseek offset whence => exact absurd trivial (hks _ List.mem_cons_self)
    | ftell => exact (hrest c).trans (by simp [asked])
    | fread size nmemb =>
      have hsum : asked (.fread size nmemb :: ks) = (size * nmemb).toNat + asked ks :=
        List.sum_cons
      rw [hsum, ← Cursor.read_read, ← hrest]
      rfl

/-- Opening what is in the archive and reading on delivers it from its first byte. -/
theorem fopen_reads {p : Profile} {archive : Option (List UInt8)} {path content : List UInt8}
    (hfile : rustFsOpen p archive path = .ok (some content)) (hsize : content.length < 2 ^ 63) :
    ∃ f, Stdio.fopen p archive path true = .ok (some f) ∧
      ∀ reads : List Stdio.Call, (∀ k ∈ reads, k.Sized ∧ ¬ k.Seeks) →
        ∃ rs g, Stdio.run reads (some f) = .ok (rs, some g) ∧
          Stdio.delivered rs = content.take (asked reads) := by
  refine ⟨Stdio.ofCursor (.start content), by rw [Stdio.fopen, hfile]; rfl, fun reads hreads => ?_⟩
  refine ⟨_, _, Stdio.run_ofCursor hsize fun k hk => (hreads k hk).1, ?_⟩
  exact congrArg Prod.fst (onAll_asked (fun k hk => (hreads k hk).2) (.start content))

theorem length_le_reachFrom {files : List MkCxfs.File} {q : Str} {content : List UInt8}
    (header cursor : Nat) (h : lookup files q = some content) :
    content.length ≤ reachFrom header cursor q files := by
  induction files generalizing cursor with
  | nil => cases h
  | cons f fs ih =>
    unfold reachFrom
    by_cases hm : eqIgnoreAsciiCase (asciiBytes f.name) q.bytes = true
    · obtain rfl : f.data = content := by simpa [lookup, hm] using h
      rw [if_pos hm]
      omega
    · rw [if_neg hm]
      exact ih _ (by simpa [lookup, hm] using h)

/-- The whole way. The slave drive begins with an image that `build` wrote and has at least 128
sectors. Then `fs::init` mounts it, and a path is answered as a lookup in the list of files
would, unless the lookup reads beyond the ceiling of 6 MiB: then the kernel panics. What is
found can be opened, and reading on delivers its bytes. -/
theorem packed_files_are_read (p : Profile) (ide : Ata.Ide) (d : Ata.Disk)
    (hd : ide .slave = some d) (hsize : 128 ≤ d.size) (files : List MkCxfs.File)
    (hz : ∀ f ∈ files, ∀ c ∈ f.name.toList, c.toNat ≠ 0) (image : List UInt8)
    (hb : build files = .ok image) (himage : image <+: d.bytes 0 d.size) (ch : Ata.Channel) :
    ∃ data ch', mount p ide none ch = .ok ((.ok files.length, some data), ch') ∧
      ∀ (path : List UInt8) (q : Str), Str.fromUtf8 (path.takeWhile fun b => b != 0) = some q →
        rustFsOpen p (some data) path =
          (if reach files q ≤ ceiling then .ok (lookup files q) else .error .indexOutOfBounds) ∧
        ∀ content, lookup files q = some content → reach files q ≤ ceiling →
          ∃ f, Stdio.fopen p (some data) path true = .ok (some f) ∧
            ∀ reads : List Stdio.Call, (∀ k ∈ reads, k.Sized ∧ ¬ k.Seeks) →
              ∃ rs g, Stdio.run reads (some f) = .ok (rs, some g) ∧
                Stdio.delivered rs = content.take (asked reads) := by
  have hceil : (ceiling + 511) / 512 = 12288 := by decide
  obtain ⟨ch', hread⟩ := Ata.readAll_large (p := p) hd hceil (by decide) (by omega) ch
  obtain ⟨post, hpost⟩ := himage
  have hdata : d.bytes 0 (min d.size 12288) <+: image ++ post := by
    rw [hpost]
    refine ⟨d.bytes (0 + min d.size 12288) (d.size - min d.size 12288), ?_⟩
    rw [Ata.Disk.bytes_append, Nat.add_sub_cancel' (Nat.min_le_left _ _)]
  have hlen := d.bytes_length 0 (min d.size 12288)
  have himage : image.length ≤ 512 * d.size := by
    rw [← d.bytes_length 0, ← hpost, List.length_append]
    exact Nat.le_add_right _ _
  -- the cut is at the ceiling, or behind the image
  have hcut : ∀ q, reach files q ≤ (d.bytes 0 (min d.size 12288)).length ↔
      reach files q ≤ ceiling := by
    intro q
    have hreach := @reach_le_image q _ _ hb
    rw [hlen, ceiling]
    omega
  obtain ⟨hinit, hquery⟩ := open_cut hz hb hdata (by omega)
  refine ⟨d.bytes 0 (min d.size 12288), ch', ?_, fun path q hq => ?_⟩
  · rw [mount_of_read hread, hinit]
  · have hopen : rustFsOpen p (some (d.bytes 0 (min d.size 12288))) path =
        if reach files q ≤ ceiling then .ok (lookup files q) else .error .indexOutOfBounds := by
      simp only [rustFsOpen, hq, hquery p q, hcut]
    refine ⟨hopen, fun content hfound hreach => ?_⟩
    have hlength : content.length ≤ reach files q := length_le_reachFrom _ _ hfound
    rw [if_pos hreach, hfound] at hopen
    refine fopen_reads hopen ?_
    unfold ceiling at hreach
    omega

def imageDisk (size : Nat) (image : List UInt8) : Ata.Disk :=
  { Ata.numbered size with sector := fun lba i => image.getD (512 * lba + i) 0 }

theorem imageDisk_bytes (size n : Nat) (image : List UInt8) :
    (imageDisk size image).bytes 0 n = (List.range (512 * n)).map fun i => image.getD i 0 := by
  induction n with
  | zero => rfl
  | succ n ih =>
    rw [← Ata.Disk.bytes_append, ih, Nat.mul_succ, List.range_add, List.map_append, List.map_map]
    simp [Ata.Disk.bytes, imageDisk, Function.comp_def]

theorem imageDisk_holds {size : Nat} {image : List UInt8} (h : image.length ≤ 512 * size) :
    image <+: (imageDisk size image).bytes 0 size := by
  have hself : image = (List.range image.length).map fun i => image.getD i 0 :=
    List.ext_getElem (by simp) fun i hi _ => by simp [hi]
  rw [imageDisk_bytes, ← Nat.add_sub_cancel' h, List.range_add, List.map_append, ← hself]
  exact List.prefix_append _ _

theorem build_length_le {files : List MkCxfs.File} {image : List UInt8}
    (h : build files = .ok image) :
    image.length ≤ 8 + files.length * Fs.entrySize + (blobs files).length + 512 := by
  simp only [build, bind_ok_iff] at h
  obtain ⟨count, hcount, entries, hentries, h⟩ := h
  obtain ⟨-, rfl⟩ := packU32_ok hcount
  obtain rfl := Except.ok.inj h
  have hpad : ∀ n, (padding n).length ≤ 512 := by
    intro n
    unfold padding
    split
    · exact Nat.zero_le _
    · rw [List.length_replicate]
      exact Nat.sub_le _ _
  have hlen := packEntries_length hentries
  have hpad := hpad (MkCxfs.magic ++ (toLeBytes 4 files.length ++ (entries ++ blobs files))).length
  simp only [List.length_append, toLeBytes_length, hlen] at hpad ⊢
  have hmagic : MkCxfs.magic.length = 4 := rfl
  omega

theorem demoFiles_are_read : ∃ image data ch', build demoFiles = .ok image ∧
    mount .dev (Ata.archiveDisk (imageDisk 128 image)) none Ata.powerOn =
      .ok ((.ok 3, some data), ch') ∧
    rustFsOpen .dev (some data) [119, 65, 100, 0] = .ok (some [1, 2, 3]) ∧
    ∃ f, Stdio.fopen .dev (some data) [119, 65, 100, 0] true = .ok (some f) ∧
      ∃ rs g, Stdio.run [.fread 1 2, .ftell, .fread 2 4] (some f) = .ok (rs, some g) ∧
        Stdio.delivered rs = [1, 2, 3] := by
  obtain ⟨image, hb⟩ := build_demoFiles
  have hz : ∀ f ∈ demoFiles, ∀ c ∈ f.name.toList, c.toNat ≠ 0 := by simp [demoFiles]
  have hlen := build_length_le hb
  have hsmall : 8 + demoFiles.length * Fs.entrySize + (blobs demoFiles).length + 512 = 644 := by
    simp [demoFiles, blobs, Fs.entrySize]
  have hw : eqIgnoreAsciiCase [87, 97, 100] [119, 65, 100] = true := by decide
  have hfound : lookup demoFiles wadQuery = some [1, 2, 3] := by
    simp [lookup, demoFiles, asciiBytes, wadQuery, hw]
  have hreach : reach demoFiles wadQuery ≤ ceiling :=
    (reach_le_image hb).trans (by rw [ceiling]; omega)
  have hq : Str.fromUtf8 (([119, 65, 100, 0] : List UInt8).takeWhile fun b => b != 0) =
      some wadQuery := rfl
  obtain ⟨data, ch', hmount, hall⟩ := packed_files_are_read .dev
    (Ata.archiveDisk (imageDisk 128 image)) (imageDisk 128 image) rfl (Nat.le_refl 128) demoFiles hz
    image hb (imageDisk_holds (by omega)) Ata.powerOn
  obtain ⟨hopen, hread⟩ := hall [119, 65, 100, 0] wadQuery hq
  rw [if_pos hreach, hfound] at hopen
  obtain ⟨f, hf, hreads⟩ := hread _ hfound hreach
  obtain ⟨rs, g, hrun, hdelivered⟩ := hreads [.fread 1 2, .ftell, .fread 2 4]
    (by simp [Stdio.Call.Sized, Stdio.Call.Seeks])
  exact ⟨image, data, ch', hb, hmount, hopen, f, hf, rs, g, hrun, hdelivered⟩

end MoltOS.Storage
