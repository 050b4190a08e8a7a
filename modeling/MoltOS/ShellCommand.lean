import MoltOS.Frames
import MoltOS.ShellScreen
import MoltOS.Words

/-! The commands of the shell: how a line is cut into words, and what the first of them makes the
shell print and do. -/
namespace MoltOS.Shell
open MoltOS.Rust MoltOS.Frames MoltOS.Words

def isWhitespace (c : Char) : Bool :=
  (9 ≤ c.toNat && c.toNat ≤ 13) || c.toNat == 0x20 || c.toNat == 0x85 || c.toNat == 0xa0 ||
    c.toNat == 0x1680 || (0x2000 ≤ c.toNat && c.toNat ≤ 0x200a) || c.toNat == 0x2028 ||
    c.toNat == 0x2029 || c.toNat == 0x202f || c.toNat == 0x205f || c.toNat == 0x3000

def isAsciiWhitespace (c : Char) : Bool :=
  c == '\t' || c == '\n' || c == '\x0c' || c == '\r' || c == ' '

/- What a command reads: the tick count, the number that the system call returns and the
   memory map. -/
structure Env where
  profile : Profile
  uptimeTicks : Nat
  syscallReturn : Nat
  memoryMap : MemoryMap

inductive Effect where
  | print (text : List Char)
  | clearScreen
  | spawnDoom
deriving DecidableEq, Repr

def println (text : List Char) : Effect := .print (text ++ ['\n'])

def cmdHelp : List Effect :=
  ["  help       - show this message", "  clear/cls  - clear the screen",
    "  echo ...   - print the rest of the line", "  uptime     - show uptime in timer ticks",
    "  mem/memory - dump memory map", "  syscall    - test syscalls (uptime, putchar)",
    "  doom       - launch Doom (requires doom1.wad)"].map fun text => println text.toList

def cmdUptime (env : Env) : List Effect :=
  [println ((toString env.uptimeTicks).toList ++ " ticks".toList)]

/- `{:016x}` and `{:>8}` -/
def hex16 (n : Nat) : List Char := (Nat.toDigits 16 n).leftpad 16 '0'
def right8 (n : Nat) : List Char := (Nat.toDigits 10 n).leftpad 8 ' '

def kindName : MemoryRegionType → String
  | .usable => "Usable"
  | .reserved => "Reserved"
  | .other _ => "Other"

def dumpRegion (env : Env) (region : MemoryRegion) : Except Panic Effect := do
  let size ← sub env.profile region.endAddr region.startAddr
  pure (println ("  ".toList ++ hex16 region.startAddr ++ "-".toList ++ hex16 region.endAddr ++
    " ".toList ++ right8 (size / 1024) ++ " KiB  ".toList ++ (kindName region.regionType).toList))

def dumpMemoryMap (env : Env) : Except Panic (List Effect) := env.memoryMap.mapM (dumpRegion env)

def cmdMem (env : Env) : Except Panic (List Effect) := do
  let out ← dumpMemoryMap env
  pure (println "Memory map:".toList :: out)

def cmdEcho (args : List Char) : List Effect := [println args]

def cmdSyscall (env : Env) (args : List Char) : List Effect :=
  let sub := (words isAsciiWhitespace args).headD []
  if sub = "uptime".toList ∨ sub = "u".toList then
    [println ("syscall(SYS_UPTIME) = ".toList ++ (toString env.syscallReturn).toList ++
      " ticks".toList)]
  else if sub = "putchar".toList ∨ sub = "p".toList then
    [.print ['A'], println " (printed via syscall)".toList]
  else if sub = [] then
    [println "Usage: syscall <uptime|putchar>".toList,
      println "  uptime (u)  - call SYS_UPTIME via int 0x80".toList,
      println "  putchar (p) - call SYS_PUTCHAR('A') via int 0x80".toList]
  else [println ("unknown syscall test: '".toList ++ sub ++ "'. Use uptime or putchar.".toList)]

def cmdDoom (launched : Bool) : List Effect :=
  if launched then [println "doom: already running".toList]
  else [println "launching doom...".toList, .spawnDoom]

def runParts (env : Env) (launched : Bool) (parts : List (List Char)) :
    Except Panic (List Effect × Bool) :=
  let cmd := parts.headD []
  let rest := join ' ' parts.tail
  if cmd = "help".toList then .ok (cmdHelp, launched)
  else if cmd = "clear".toList ∨ cmd = "cls".toList then .ok ([.clearScreen], launched)
  else if cmd = "echo".toList then .ok (cmdEcho (trim isWhitespace rest), launched)
  else if cmd = "uptime".toList then .ok (cmdUptime env, launched)
  else if cmd = "mem".toList ∨ cmd = "memory".toList then
    (cmdMem env).map fun out => (out, launched)
  else if cmd = "syscall".toList then
    .ok (cmdSyscall env (trim isWhitespace rest), launched)
  else if cmd = "doom".toList then .ok (cmdDoom launched, true)
  else .ok ([println ("unknown command: '".toList ++ cmd ++
    "'. Type 'help' for commands.".toList)], launched)

def runCommand (env : Env) (launched : Bool) (line : List Char) :
    Except Panic (List Effect × Bool) :=
  if line = [] then .ok ([], launched)
  else runParts env launched (words isAsciiWhitespace line)

section Lines
variable {env : Env} {launched launched' : Bool} {line : List Char} {out : List Effect}

theorem isAsciiWhitespace_iff {c : Char} : isAsciiWhitespace c = true ↔
    c.toNat = 9 ∨ c.toNat = 10 ∨ c.toNat = 12 ∨ c.toNat = 13 ∨ c.toNat = 32 := by
  have hchar (d : Char) : c = d ↔ c.toNat = d.toNat := Char.toNat_inj.symm
  simp only [isAsciiWhitespace, Bool.or_eq_true, beq_iff_eq, hchar, or_assoc]
  rfl

theorem whitespace_of_ascii {c : Char} (h : isAsciiWhitespace c = true) :
    isWhitespace c = true := by
  rw [isAsciiWhitespace_iff] at h
  simp only [isWhitespace, Bool.or_eq_true, Bool.and_eq_true, decide_eq_true_eq, beq_iff_eq]
  omega

/-- Of the characters that get into a line, both call the space alone blank. -/
theorem ascii_of_plain {c : Char} (hplain : Session.Plain c) (h : isWhitespace c = true) :
    isAsciiWhitespace c = true := by
  unfold Session.Plain at hplain
  simp only [isWhitespace, Bool.or_eq_true, Bool.and_eq_true, decide_eq_true_eq,
    beq_iff_eq] at h
  rw [isAsciiWhitespace_iff]
  omega

theorem words_trimmed (hplain : ∀ c ∈ line, Session.Plain c) :
    words isAsciiWhitespace (trim isWhitespace line) = words isAsciiWhitespace line :=
  words_trim fun c hc hblank => ascii_of_plain (hplain c hc) hblank

theorem runCommand_words (hplain : ∀ c ∈ line, Session.Plain c) :
    runCommand env launched (trim isWhitespace line) =
      if words isAsciiWhitespace line = [] then .ok ([], launched)
      else runParts env launched (words isAsciiWhitespace line) := by
  by_cases hwords : words isAsciiWhitespace line = []
  · have hblank : ∀ c ∈ line, isWhitespace c = true :=
      fun c hc => whitespace_of_ascii (words_eq_nil hwords c hc)
    rw [trim_of_blanks hblank, runCommand, if_pos rfl, if_pos hwords]
  · have hne : trim isWhitespace line ≠ [] := by
      intro hnil
      rw [← words_trimmed hplain, hnil] at hwords
      exact hwords rfl
    rw [runCommand, if_neg hne, if_neg hwords, words_trimmed hplain]

theorem runParts_echo (ws : List (List Char)) :
    runParts env launched ("echo".toList :: ws) =
      .ok (cmdEcho (trim isWhitespace (join ' ' ws)), launched) := by
  simp [runParts]

/-- The shell answers to the words of a line. Blanks around them change nothing, a line without
a word is not answered, and what `echo` prints gives the same words when it is echoed. -/
theorem reply_to_words (env : Env) (launched : Bool) (line : List Char)
    (hplain : ∀ c ∈ line, Session.Plain c) :
    (words isAsciiWhitespace line = [] →
      runCommand env launched (trim isWhitespace line) = .ok ([], launched)) ∧
    (∀ line', (∀ c ∈ line', Session.Plain c) →
      words isAsciiWhitespace line' = words isAsciiWhitespace line →
      runCommand env launched (trim isWhitespace line') =
        runCommand env launched (trim isWhitespace line)) ∧
    ∀ ws, words isAsciiWhitespace line = "echo".toList :: ws →
      runCommand env launched (trim isWhitespace line) =
        .ok ([println (join ' ' ws)], launched) ∧
      words isAsciiWhitespace ("echo".toList ++ ' ' :: join ' ' ws) = "echo".toList :: ws := by
  refine ⟨fun hnil => ?_, fun line' hplain' hsame => ?_, fun ws hws => ⟨?_, ?_⟩⟩
  · rw [runCommand_words hplain, if_pos hnil]
  · rw [runCommand_words hplain, runCommand_words hplain', hsame]
  · have hsolid : ∀ w ∈ ws, IsWord isWhitespace w := by
      intro w hw
      have hmem : w ∈ words isAsciiWhitespace line := hws ▸ List.mem_cons_of_mem _ hw
      have hword := words_isWord hmem
      refine ⟨hword.nonempty, fun c hc => Bool.eq_false_iff.mpr fun hblank => ?_⟩
      have hascii := ascii_of_plain (hplain c (words_subset hmem hc)) hblank
      exact Bool.false_ne_true ((hword.solid c hc).symm.trans hascii)
    rw [runCommand_words hplain, hws, if_neg (List.cons_ne_nil _ _), runParts_echo,
      trim_join hsolid]
    rfl
  · have hword : ∀ w ∈ "echo".toList :: ws, IsWord isAsciiWhitespace w :=
      fun w hw => words_isWord (hws ▸ hw)
    obtain ⟨hecho, hrest⟩ := List.forall_mem_cons.mp hword
    rw [words_word_blank hecho rfl, words_join rfl hrest]

/- A line in an environment without a memory map: "  echo  a " -/
def quietEnv : Env := ⟨.dev, 0, 0, []⟩
def paddedEcho : List Char := [' ', ' ', 'e', 'c', 'h', 'o', ' ', ' ', 'a', ' ']

theorem paddedEcho_plain : ∀ c ∈ paddedEcho, Session.Plain c :=
  List.forall_iff_forall_mem.mp (by decide)

theorem padded_echo_reply :
    runCommand quietEnv false (trim isWhitespace paddedEcho) = .ok ([println ['a']], false) :=
  ((reply_to_words quietEnv false paddedEcho paddedEcho_plain).2.2 [['a']] (by decide)).1

end Lines

def CallsDoom (line : List Char) : Prop :=
  (words isAsciiWhitespace line).headD [] = "doom".toList

instance (line : List Char) : Decidable (CallsDoom line) :=
  inferInstanceAs (Decidable ((words isAsciiWhitespace line).headD [] = "doom".toList))

section Doom
variable {env : Env} {launched launched' : Bool} {line : List Char} {out : List Effect}

theorem dump_prints {map : MemoryMap} (h : map.mapM (dumpRegion env) = .ok out) :
    Effect.spawnDoom ∉ out := by
  induction map generalizing out with
  | nil =>
    cases h
    exact List.not_mem_nil
  | cons r map ih =>
    rw [List.mapM_cons] at h
    obtain ⟨e, he, h⟩ := bind_eq_ok.mp h
    obtain ⟨rest, hrest, h⟩ := bind_eq_ok.mp h
    obtain ⟨size, -, hline⟩ := bind_eq_ok.mp he
    cases h
    cases hline
    exact List.not_mem_cons_of_ne_of_not_mem Effect.noConfusion (ih hrest)

theorem cmdMem_prints (h : cmdMem env = .ok out) : Effect.spawnDoom ∉ out := by
  obtain ⟨rest, hrest, h⟩ := bind_eq_ok.mp h
  cases h
  exact List.not_mem_cons_of_ne_of_not_mem Effect.noConfusion (dump_prints hrest)

theorem cmdSyscall_prints (args : List Char) : Effect.spawnDoom ∉ cmdSyscall env args := by
  unfold cmdSyscall
  dsimp only
  split_ifs <;> simp [println]

/-- Only `doom` touches the flag, and it spawns the thread only if that was not set. -/
theorem runParts_doom {parts : List (List Char)}
    (h : runParts env launched parts = .ok (out, launched')) :
    (parts.headD [] = "doom".toList → out = cmdDoom launched ∧ launched' = true) ∧
    (parts.headD [] ≠ "doom".toList → Effect.spawnDoom ∉ out ∧ launched' = launched) := by
  refine ⟨fun hdoom => ?_, fun hother => ?_⟩
  · simp only [runParts, hdoom] at h
    simp at h
    exact ⟨h.1.symm, h.2⟩
  · simp only [runParts, if_neg hother] at h
    split_ifs at h
    · cases h
      exact ⟨by simp [cmdHelp, println], rfl⟩
    · cases h
      exact ⟨by simp, rfl⟩
    · cases h
      exact ⟨by simp [cmdEcho, println], rfl⟩
    · cases h
      exact ⟨by simp [cmdUptime, println], rfl⟩
    · cases hmem : cmdMem env with
      | error e =>
        rw [hmem] at h
        cases h
      | ok dump =>
        rw [hmem] at h
        cases h
        exact ⟨cmdMem_prints hmem, rfl⟩
    · cases h
      exact ⟨cmdSyscall_prints _, rfl⟩
    · cases h
      exact ⟨by simp [println], rfl⟩

theorem cmdDoom_spawns : (cmdDoom launched).count .spawnDoom = if launched then 0 else 1 := by
  cases launched <;> decide

theorem runCommand_doom (hplain : ∀ c ∈ line, Session.Plain c)
    (h : runCommand env launched (trim isWhitespace line) = .ok (out, launched')) :
    out.count .spawnDoom = (if CallsDoom line ∧ launched = false then 1 else 0) ∧
      launched' = (launched || decide (CallsDoom line)) := by
  rw [runCommand_words hplain] at h
  by_cases hdoom : CallsDoom line
  · have hne : words isAsciiWhitespace line ≠ [] := by
      intro hnil
      rw [CallsDoom, hnil] at hdoom
      exact absurd hdoom (by simp)
    rw [if_neg hne] at h
    obtain ⟨rfl, rfl⟩ := (runParts_doom h).1 hdoom
    refine ⟨?_, by simp [hdoom]⟩
    rw [cmdDoom_spawns]
    cases launched <;> simp [hdoom]
  · have hkeep : Effect.spawnDoom ∉ out ∧ launched' = launched := by
      split_ifs at h
      · cases h
        exact ⟨List.not_mem_nil, rfl⟩
      · exact (runParts_doom h).2 hdoom
    refine ⟨?_, by simp [hdoom, hkeep.2]⟩
    rw [List.count_eq_zero.mpr hkeep.1, if_neg fun hboth => hdoom hboth.1]

end Doom

end MoltOS.Shell
