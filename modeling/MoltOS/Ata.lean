import MoltOS.Fs

/-! The PIO driver of `ata.rs` and the primary IDE channel it talks to: task-file registers,
a status to poll, and a data port that gives a sector away word by word. -/
namespace MoltOS.Ata
open MoltOS.Rust
open MoltOS.Fs (AtaError)

def base : Nat := 0x1F0
def ctrl : Nat := 0x3F6

def data : Nat := base + 0
def seccnt : Nat := base + 2
def lba0 : Nat := base + 3
def lba1 : Nat := base + 4
def lba2 : Nat := base + 5
def drvsel : Nat := base + 6
def status : Nat := base + 7
def cmd : Nat := base + 7

def cmdRead : UInt8 := 0x20
def bsy : UInt8 := 0x80
def drq : UInt8 := 0x08
def errBit : UInt8 := 0x01

inductive Drive where
  | master | slave
deriving DecidableEq, Repr

/-- A drive. `latency` is the number of polls that find it busy before a sector is there and
`flags` are the status bits the driver does not look at, both at any time. -/
structure Disk where
  size : Nat
  sector : Nat → Nat → UInt8
  latency : Nat → Nat
  flags : Nat → UInt8
  prompt : ∀ time, latency time ≤ 1000000

/- What is plugged in. -/
abbrev Ide := Drive → Option Disk

/- `left` counts the sectors of the command that are still to come, `word` the words that have
   been taken from the current one. -/
inductive Phase where
  | idle
  | busy (lba left polls : Nat)
  | ready (lba left word : Nat)
  | failed
deriving DecidableEq, Repr

structure Channel where
  secCnt : UInt8
  lba0 : UInt8
  lba1 : UInt8
  lba2 : UInt8
  drvSel : UInt8
  phase : Phase
  clock : Nat
deriving DecidableEq, Repr

namespace Disk

def next (d : Disk) (clock lba : Nat) : Nat → Phase
  | 0 => .idle
  | left + 1 => .busy lba (left + 1) (d.latency clock)

def afterWord (d : Disk) (clock lba left word : Nat) : Phase :=
  if word < 256 then .ready lba left word else d.next clock (lba + 1) (left - 1)

def otherFlags (d : Disk) (clock : Nat) : UInt8 := d.flags clock &&& 0x76

def poll (d : Disk) (clock : Nat) : Phase → UInt8 × Phase
  | .idle => (d.otherFlags clock, .idle)
  | .busy lba left (polls + 1) => (bsy ||| d.otherFlags clock, .busy lba left polls)
  | .busy lba left 0 =>
    if lba < d.size then (drq ||| d.otherFlags clock, .ready lba left 0)
    else (errBit ||| d.otherFlags clock, .failed)
  | .ready lba left word => (drq ||| d.otherFlags clock, .ready lba left word)
  | .failed => (errBit ||| d.otherFlags clock, .failed)

def word (d : Disk) (lba i : Nat) : UInt16 :=
  UInt16.ofNat ((d.sector lba (2 * i)).toNat + 256 * (d.sector lba (2 * i + 1)).toNat)

def bytes (d : Disk) (lba n : Nat) : List UInt8 :=
  (List.range' lba n).flatMap fun k => (List.range 512).map (d.sector k)

end Disk

namespace Channel

def selected (ch : Channel) : Drive := if ch.drvSel &&& 0x10 = 0 then .master else .slave

def address (ch : Channel) : Nat :=
  ch.lba0.toNat + 2 ^ 8 * ch.lba1.toNat + 2 ^ 16 * ch.lba2.toNat + 2 ^ 24 * (ch.drvSel &&& 0x0F).toNat

def count (ch : Channel) : Nat := if ch.secCnt = 0 then 256 else ch.secCnt.toNat

/- READ SECTORS with an LBA address starts a transfer, whatever was going on before. -/
def command (ide : Ide) (v : UInt8) (ch : Channel) : Channel :=
  match ide ch.selected with
  | none => ch
  | some d =>
    if v = cmdRead ∧ ch.drvSel &&& 0x40 ≠ 0 then
      { ch with phase := d.next ch.clock ch.address ch.count }
    else ch

def outb (ide : Ide) (port : Nat) (v : UInt8) (ch : Channel) : Channel :=
  if port = Ata.seccnt then { ch with secCnt := v }
  else if port = Ata.lba0 then { ch with lba0 := v }
  else if port = Ata.lba1 then { ch with lba1 := v }
  else if port = Ata.lba2 then { ch with lba2 := v }
  else if port = Ata.drvsel then { ch with drvSel := v }
  else if port = Ata.cmd then ch.command ide v
  else ch

/- An empty channel floats high. -/
def readStatus (ide : Ide) (ch : Channel) : UInt8 × Channel :=
  match ide ch.selected with
  | none => (0xFF, ch)
  | some d =>
    let (s, phase) := d.poll ch.clock ch.phase
    (s, { ch with phase := phase, clock := ch.clock + 1 })

/- The alternate status has no effect on the transfer. -/
def inb (ide : Ide) (port : Nat) (ch : Channel) : UInt8 × Channel :=
  if port = Ata.status then ch.readStatus ide
  else if port = Ata.ctrl then ((ch.readStatus ide).1, ch)
  else (0xFF, ch)

def inw (ide : Ide) (port : Nat) (ch : Channel) : UInt16 × Channel :=
  if port = Ata.data then
    match ide ch.selected, ch.phase with
    | some d, .ready lba left i =>
      (d.word lba i, { ch with phase := d.afterWord ch.clock lba left (i + 1) })
    | _, _ => (0xFFFF, ch)
  else (0xFFFF, ch)

end Channel

def delay400ns (ide : Ide) (ch : Channel) : Channel :=
  (List.range 4).foldl (fun ch _ => (ch.inb ide ctrl).2) ch

def waitLoop (ide : Ide) (spins : Nat) (ch : Channel) : Except AtaError Unit × Channel :=
  let (s, ch) := ch.inb ide status
  if s = 0xFF then (.error .noDrive, ch)
  else if s &&& errBit ≠ 0 then (.error .diskError, ch)
  else if s &&& bsy = 0 ∧ s &&& drq ≠ 0 then (.ok (), ch)
  else if s &&& bsy = 0 then (.error .noDrive, ch)
  else
    match spins with
    | 0 => (.error .noDrive, ch)
    | spins + 1 => waitLoop ide spins ch

def waitReady (ide : Ide) (ch : Channel) : Except AtaError Unit × Channel := waitLoop ide 1000000 ch

/- `for word in chunk.chunks_exact_mut(2)` -/
def readWords (ide : Ide) : List UInt8 → Channel → List UInt8 × Channel
  | _ :: _ :: chunk, ch =>
    let (v, ch) := ch.inw ide data
    let (chunk, ch) := readWords ide chunk ch
    (v.toUInt8 :: (v >>> 8).toUInt8 :: chunk, ch)
  | chunk, ch => (chunk, ch)

/- `for chunk in buf.chunks_exact_mut(512)`, for so many chunks. -/
def readChunks (ide : Ide) : Nat → List UInt8 → Channel → Except AtaError Unit × List UInt8 × Channel
  | 0, buf, ch => (.ok (), buf, ch)
  | n + 1, buf, ch =>
    match waitReady ide ch with
    | (.error e, ch) => (.error e, buf, ch)
    | (.ok (), ch) =>
      let (chunk, ch) := readWords ide (buf.take 512) ch
      let (r, rest, ch) := readChunks ide n (buf.drop 512) ch
      (r, chunk ++ rest, ch)

inductive Fault where
  | assertFailed
  | panic (p : Panic)
deriving DecidableEq, Repr

def Drive.bit : Drive → UInt8
  | .master => 0
  | .slave => 1

def issue (ide : Ide) (drive : Drive) (lba sectors : Nat) (ch : Channel) : Channel :=
  let ch := ch.outb ide drvsel ((0xE0 : UInt8) ||| (drive.bit <<< 4) ||| (UInt8.ofNat (lba >>> 24) &&& 0x0F))
  let ch := delay400ns ide ch
  let ch := ch.outb ide seccnt (if sectors = 256 then 0 else UInt8.ofNat sectors)
  let ch := ch.outb ide lba0 (UInt8.ofNat lba)
  let ch := ch.outb ide lba1 (UInt8.ofNat (lba >>> 8))
  let ch := ch.outb ide lba2 (UInt8.ofNat (lba >>> 16))
  ch.outb ide cmd cmdRead

/- With the result what is in the buffer then, also after an error. -/
def read (ide : Ide) (drive : Drive) (lba : Nat) (buf : List UInt8) (ch : Channel) :
    Except Fault (Except AtaError Unit × List UInt8 × Channel) :=
  if buf.length % 512 ≠ 0 then .error .assertFailed
  else
    let sectors := buf.length / 512 % 2 ^ 32
    if sectors = 0 then .ok (.ok (), buf, ch)
    else if sectors > 0x100 then .ok (.error .overflow, buf, ch)
    else .ok (readChunks ide (buf.length / 512) buf (issue ide drive lba sectors ch))

section Status

theorem busy_status : ∀ f : UInt8, bsy ||| (f &&& 0x76) ≠ 0xFF ∧
    (bsy ||| (f &&& 0x76)) &&& errBit = 0 ∧ (bsy ||| (f &&& 0x76)) &&& bsy ≠ 0 := by
  rintro ⟨f⟩
  revert f
  decide +kernel

theorem ready_status : ∀ f : UInt8, drq ||| (f &&& 0x76) ≠ 0xFF ∧
    (drq ||| (f &&& 0x76)) &&& errBit = 0 ∧ (drq ||| (f &&& 0x76)) &&& bsy = 0 ∧
    (drq ||| (f &&& 0x76)) &&& drq ≠ 0 := by
  rintro ⟨f⟩
  revert f
  decide +kernel

theorem failed_status : ∀ f : UInt8, errBit ||| (f &&& 0x76) ≠ 0xFF ∧
    (errBit ||| (f &&& 0x76)) &&& errBit ≠ 0 := by
  rintro ⟨f⟩
  revert f
  decide +kernel

end Status

section Transfer
variable {ide : Ide} {d : Disk} {ch : Channel} {lba left : Nat}

theorem inb_status (hd : ide ch.selected = some d) :
    ch.inb ide status = ((d.poll ch.clock ch.phase).1,
      { ch with phase := (d.poll ch.clock ch.phase).2, clock := ch.clock + 1 }) := by
  rw [Channel.inb, if_pos rfl, Channel.readStatus, hd]

/-- The poll ends when the drive has the sector, or an error where the disk has none. -/
theorem waitLoop_spec (hd : ide ch.selected = some d) {polls spins : Nat}
    (hphase : ch.phase = .busy lba left polls) (h : polls ≤ spins) :
    ∃ clock, waitLoop ide spins ch =
      if lba < d.size then (.ok (), { ch with phase := .ready lba left 0, clock := clock })
      else (.error .diskError, { ch with phase := .failed, clock := clock }) := by
  induction polls generalizing spins ch with
  | zero =>
    refine ⟨ch.clock + 1, ?_⟩
    rw [waitLoop, inb_status hd, hphase]
    by_cases hlba : lba < d.size
    · obtain ⟨hfull, herr, hbsy, hdrq⟩ := ready_status (d.flags ch.clock)
      simp [Disk.poll, Disk.otherFlags, hlba, hfull, herr, hbsy, hdrq]
    · obtain ⟨hfull, herr⟩ := failed_status (d.flags ch.clock)
      simp [Disk.poll, Disk.otherFlags, hlba, hfull, herr]
  | succ polls ih =>
    obtain ⟨spins, rfl⟩ : ∃ n, spins = n + 1 := ⟨spins - 1, by omega⟩
    let ch' : Channel := { ch with phase := .busy lba left polls, clock := ch.clock + 1 }
    have hd' : ide ch'.selected = some d := hd
    obtain ⟨clock, hloop⟩ := ih hd' rfl (Nat.le_of_succ_le_succ h)
    obtain ⟨hfull, herr, hbsy⟩ := busy_status (d.flags ch.clock)
    refine ⟨clock, ?_⟩
    rw [waitLoop, inb_status hd, hphase]
    simp only [Disk.poll, Disk.otherFlags, hfull, herr, hbsy, ne_eq, not_true_eq_false, false_and,
      if_false]
    exact hloop

theorem inw_ready (hd : ide ch.selected = some d) {i : Nat} (hphase : ch.phase = .ready lba left i) :
    ch.inw ide data =
      (d.word lba i, { ch with phase := d.afterWord ch.clock lba left (i + 1) }) := by
  simp only [Channel.inw, hd, hphase, if_true]

theorem word_low (d : Disk) (lba i : Nat) : (d.word lba i).toUInt8 = d.sector lba (2 * i) := by
  have hlow := (d.sector lba (2 * i)).toNat_lt
  have hhigh := (d.sector lba (2 * i + 1)).toNat_lt
  refine UInt8.toNat_inj.mp ?_
  rw [UInt16.toNat_toUInt8, Disk.word, UInt16.toNat_ofNat']
  omega

theorem word_high (d : Disk) (lba i : Nat) :
    (d.word lba i >>> 8).toUInt8 = d.sector lba (2 * i + 1) := by
  have hlow := (d.sector lba (2 * i)).toNat_lt
  have hhigh := (d.sector lba (2 * i + 1)).toNat_lt
  refine UInt8.toNat_inj.mp ?_
  rw [UInt16.toNat_toUInt8, UInt16.toNat_shiftRight, Disk.word, UInt16.toNat_ofNat']
  simp only [UInt16.reduceToNat, Nat.shiftRight_eq_div_pow, Nat.reduceMod]
  omega

/-- The words of a sector from the `i`-th on. -/
theorem readWords_spec (hd : ide ch.selected = some d) {i m : Nat} (hm : i + m ≤ 256)
    (l : List UInt8) (hl : l.length = 2 * m) (hphase : ch.phase = d.afterWord ch.clock lba left i) :
    readWords ide l ch = ((List.range' (2 * i) (2 * m)).map (d.sector lba),
      { ch with phase := d.afterWord ch.clock lba left (i + m) }) := by
  induction m generalizing i l ch with
  | zero =>
    rw [List.eq_nil_of_length_eq_zero hl, readWords, Nat.add_zero, ← hphase]
    · rfl
    · nofun
  | succ m ih =>
    match l, hl with
    | _ :: _ :: l, hl =>
      have hready : ch.phase = .ready lba left i := by
        rw [hphase, Disk.afterWord, if_pos (by omega)]
      let ch' : Channel := { ch with phase := d.afterWord ch.clock lba left (i + 1) }
      have hd' : ide ch'.selected = some d := hd
      have hrest := ih hd' (i := i + 1) (by omega) l (by simp only [List.length_cons] at hl; omega) rfl
      rw [readWords, inw_ready hd hready]
      simp only
      rw [show ({ ch with phase := d.afterWord ch.clock lba left (i + 1) } : Channel) = ch' from rfl,
        hrest, word_low, word_high]
      simp only [Nat.mul_succ, List.range'_succ, List.map_cons, ch', Nat.add_right_comm i 1 m,
        Nat.add_assoc]

theorem Disk.bytes_succ (d : Disk) (lba n : Nat) :
    d.bytes lba (n + 1) = (List.range 512).map (d.sector lba) ++ d.bytes (lba + 1) n := by
  rw [bytes, List.range'_succ, List.flatMap_cons, bytes]

theorem Disk.bytes_append (d : Disk) (lba n k : Nat) :
    d.bytes lba n ++ d.bytes (lba + n) k = d.bytes lba (n + k) := by
  rw [bytes, bytes, ← List.flatMap_append, List.range'_append_1, bytes]

@[simp] theorem Disk.bytes_length (d : Disk) (lba n : Nat) : (d.bytes lba n).length = 512 * n := by
  induction n generalizing lba with
  | zero => rfl
  | succ n ih => rw [bytes_succ, List.length_append, ih, List.length_map, List.length_range]; omega

/-- One sector of a transfer that is on the disk. -/
theorem readChunks_step (hd : ide ch.selected = some d) {n : Nat} {buf : List UInt8}
    (hbuf : buf.length = 512 * (n + 1)) (hphase : ch.phase = d.next ch.clock lba (n + 1))
    (hlba : lba < d.size) :
    ∃ ch', ide ch'.selected = some d ∧ ch'.phase = d.next ch'.clock (lba + 1) n ∧
      readChunks ide (n + 1) buf ch =
        ((readChunks ide n (buf.drop 512) ch').1,
          (List.range 512).map (d.sector lba) ++ (readChunks ide n (buf.drop 512) ch').2.1,
          (readChunks ide n (buf.drop 512) ch').2.2) := by
  obtain ⟨clock, hwait⟩ := waitLoop_spec hd hphase (d.prompt ch.clock)
  rw [if_pos hlba] at hwait
  let ready : Channel := { ch with phase := .ready lba (n + 1) 0, clock := clock }
  have hready : ide ready.selected = some d := hd
  have htake : (buf.take 512).length = 2 * 256 := by
    rw [List.length_take]
    omega
  have hwords := readWords_spec hready (i := 0) (m := 256) le_rfl (buf.take 512) htake rfl
  refine ⟨{ ready with phase := d.next clock (lba + 1) n }, hd, rfl, ?_⟩
  rw [readChunks, waitReady, hwait]
  simp only
  rw [show ({ ch with phase := .ready lba (n + 1) 0, clock := clock } : Channel) = ready from rfl,
    hwords, List.range_eq_range']
  rfl

theorem readChunks_ok (hd : ide ch.selected = some d) {n : Nat} {buf : List UInt8}
    (hbuf : buf.length = 512 * n) (hphase : ch.phase = d.next ch.clock lba n)
    (hend : lba + n ≤ d.size) :
    ∃ ch', readChunks ide n buf ch = (.ok (), d.bytes lba n, ch') := by
  induction n generalizing lba buf ch with
  | zero =>
    rw [List.eq_nil_of_length_eq_zero hbuf]
    exact ⟨ch, rfl⟩
  | succ n ih =>
    obtain ⟨ch', hd', hphase', hstep⟩ := readChunks_step hd hbuf hphase (by omega)
    have hdrop : (buf.drop 512).length = 512 * n := by
      rw [List.length_drop]
      omega
    obtain ⟨ch'', hrest⟩ := ih hd' hdrop hphase' (by omega)
    exact ⟨ch'', by rw [hstep, hrest, Disk.bytes_succ]⟩

/-- A transfer that runs over the end of the disk stops there with an error. -/
theorem readChunks_fails (hd : ide ch.selected = some d) {n : Nat} {buf : List UInt8}
    (hbuf : buf.length = 512 * n) (hphase : ch.phase = d.next ch.clock lba n) (hn : 0 < n)
    (hend : d.size < lba + n) :
    ∃ buf' ch', readChunks ide n buf ch = (.error .diskError, buf', ch') ∧
      buf'.length = buf.length := by
  induction n generalizing lba buf ch with
  | zero => omega
  | succ n ih =>
    by_cases hlba : lba < d.size
    · obtain ⟨ch', hd', hphase', hstep⟩ := readChunks_step hd hbuf hphase hlba
      have hdrop : (buf.drop 512).length = 512 * n := by
        rw [List.length_drop]
        omega
      obtain ⟨buf', ch'', hrest, hlen⟩ := ih hd' hdrop hphase' (by omega) (by omega)
      refine ⟨_, ch'', by rw [hstep, hrest], ?_⟩
      rw [List.length_append, List.length_map, List.length_range, hlen]
      omega
    · obtain ⟨clock, hwait⟩ := waitLoop_spec hd hphase (d.prompt ch.clock)
      rw [if_neg hlba] at hwait
      exact ⟨buf, _, by rw [readChunks, waitReady, hwait], rfl⟩

end Transfer

section Read
variable {ide : Ide} {d : Disk} {drive : Drive} {lba n : Nat}

theorem drvsel_bits (drive : Drive) : ∀ high < 16,
    let v := (0xE0 : UInt8) ||| (drive.bit <<< 4) ||| (UInt8.ofNat high &&& 0x0F)
    (if v &&& 0x10 = 0 then Drive.master else Drive.slave) = drive ∧ v &&& 0x40 ≠ 0 ∧
      (v &&& 0x0F).toNat = high := by
  cases drive <;> decide

theorem lba_high (hlba : lba < 2 ^ 28) : lba >>> 24 < 16 := by
  rw [Nat.shiftRight_eq_div_pow]
  omega

def prepared (drive : Drive) (lba n : Nat) (ch : Channel) : Channel :=
  { ch with
    drvSel := (0xE0 : UInt8) ||| (drive.bit <<< 4) ||| (UInt8.ofNat (lba >>> 24) &&& 0x0F)
    secCnt := if n = 256 then 0 else UInt8.ofNat n
    lba0 := UInt8.ofNat lba
    lba1 := UInt8.ofNat (lba >>> 8)
    lba2 := UInt8.ofNat (lba >>> 16) }

theorem issue_eq (ide : Ide) (drive : Drive) (lba n : Nat) (ch : Channel) :
    issue ide drive lba n ch = (prepared drive lba n ch).command ide cmdRead := rfl

theorem prepared_count (hn : 0 < n) (hmax : n ≤ 256) (ch : Channel) :
    (prepared drive lba n ch).count = n := by
  by_cases h : n = 256
  · subst h
    rfl
  · have hsec : (prepared drive lba n ch).secCnt = UInt8.ofNat n := if_neg h
    have hne : UInt8.ofNat n ≠ 0 := by
      intro h0
      have hzero := congrArg UInt8.toNat h0
      rw [UInt8.toNat_ofNat', UInt8.toNat_zero] at hzero
      omega
    rw [Channel.count, hsec, if_neg hne, UInt8.toNat_ofNat', Nat.mod_eq_of_lt (by omega)]

theorem prepared_address (ch : Channel)
    (hhigh : ((prepared drive lba n ch).drvSel &&& 0x0F).toNat = lba >>> 24) :
    (prepared drive lba n ch).address = lba := by
  rw [Channel.address, hhigh]
  simp only [prepared, UInt8.toNat_ofNat', Nat.shiftRight_eq_div_pow]
  omega

/-- The registers hold the address and the count, and the command starts the transfer. -/
theorem issue_spec (hd : ide drive = some d) (hn : 0 < n) (hmax : n ≤ 256) (hlba : lba < 2 ^ 28)
    (ch : Channel) :
    ide (issue ide drive lba n ch).selected = some d ∧
      (issue ide drive lba n ch).phase = d.next (issue ide drive lba n ch).clock lba n := by
  obtain ⟨hselect, hmode, hnibble⟩ := drvsel_bits drive (lba >>> 24) (lba_high hlba)
  have hselected : (prepared drive lba n ch).selected = drive := hselect
  have hcommand : issue ide drive lba n ch =
      { prepared drive lba n ch with phase := d.next ch.clock lba n } := by
    rw [issue_eq, Channel.command, hselected, hd, prepared_address ch hnibble,
      prepared_count hn hmax]
    exact if_pos ⟨rfl, hmode⟩
  rw [hcommand]
  exact ⟨(congrArg ide hselected).trans hd, rfl⟩

theorem read_eq {buf : List UInt8} (hbuf : buf.length = 512 * n) (hn : 0 < n) (hmax : n ≤ 256)
    (ch : Channel) :
    read ide drive lba buf ch = .ok (readChunks ide n buf (issue ide drive lba n ch)) := by
  have hsectors : buf.length / 512 = n := by omega
  rw [read, if_neg (by omega), hsectors, Nat.mod_eq_of_lt (by omega)]
  simp only
  rw [if_neg hn.ne', if_neg (by omega)]

/-- `read` on a buffer of `n` sectors gives the sectors, or `DiskError` if the disk ends
before. -/
theorem read_spec (hd : ide drive = some d) {buf : List UInt8} (hbuf : buf.length = 512 * n)
    (hn : 0 < n) (hmax : n ≤ 256) (hlba : lba < 2 ^ 28) (ch : Channel) :
    (lba + n ≤ d.size → ∃ ch', read ide drive lba buf ch = .ok (.ok (), d.bytes lba n, ch')) ∧
    (d.size < lba + n → ∃ buf' ch', read ide drive lba buf ch = .ok (.error .diskError, buf', ch') ∧
      buf'.length = buf.length) := by
  obtain ⟨hd', hphase⟩ := issue_spec hd hn hmax hlba ch
  rw [read_eq hbuf hn hmax]
  constructor
  · intro hend
    obtain ⟨ch', hread⟩ := readChunks_ok hd' hbuf hphase hend
    exact ⟨ch', by rw [hread]⟩
  · intro hend
    obtain ⟨buf', ch', hread, hlen⟩ := readChunks_fails hd' hbuf hphase hn hend
    exact ⟨buf', ch', by rw [hread], hlen⟩

/-- Without a drive the bus reads 0xFF and nothing is transferred. -/
theorem read_absent (hd : ide drive = none) {buf : List UInt8} (hbuf : buf.length = 512 * n)
    (hn : 0 < n) (hmax : n ≤ 256) (hlba : lba < 2 ^ 28) (ch : Channel) :
    ∃ ch', read ide drive lba buf ch = .ok (.error .noDrive, buf, ch') := by
  have hselected : (prepared drive lba n ch).selected = drive :=
    (drvsel_bits drive _ (lba_high hlba)).1
  have hcommand : issue ide drive lba n ch = prepared drive lba n ch := by
    rw [issue_eq, Channel.command, hselected, hd]
  have hwait : waitReady ide (prepared drive lba n ch) = (.error .noDrive, prepared drive lba n ch) := by
    rw [waitReady, waitLoop, Channel.inb, if_pos rfl, Channel.readStatus, hselected, hd]
    rfl
  obtain ⟨n, rfl⟩ : ∃ k, n = k + 1 := ⟨n - 1, by omega⟩
  exact ⟨_, by rw [read_eq hbuf hn hmax, hcommand, readChunks, hwait]⟩

end Read
end MoltOS.Ata
