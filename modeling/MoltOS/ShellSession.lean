import MoltOS.ShellCommand

/-! A session of the shell: the keys edit a line, Enter runs it, and everything that is printed
goes to the text screen in that order. -/
namespace MoltOS.Shell
open MoltOS.Rust MoltOS.Words MoltOS.Vga

structure Console where
  line : List Char
  launched : Bool

namespace Console

def start : Console × List Effect :=
  (⟨[], false⟩, [println "Chronos shell. Type 'help' for commands.".toList, .print prompt])

def output (env : Env) : Output (Console × List Effect) where
  line s := s.1.line
  edit text s := ({ s.1 with line := text }, s.2)
  print text s := .ok (s.1, s.2 ++ [.print text])
  command s := do
    let (out, launched) ← runCommand env s.1.launched (trim isWhitespace s.1.line)
    pure (⟨[], launched⟩, s.2 ++ out)

def key (env : Env) (s : Console) (k : DecodedKey) : Except Panic (Console × List Effect) :=
  runKey (output env) (s, []) k

def edited (line : List Char) : DecodedKey → List Char
  | .unicode c =>
    if c = '\x08' ∨ c = '\x7f' then line.dropLast
    else if Session.Plain c then line ++ [c] else line
  | .rawKey .backspace => line.dropLast
  | .rawKey .other => line

def entered (line : List Char) : List DecodedKey → List (List Char)
  | [] => []
  | k :: ks =>
    if k = .unicode '\r' ∨ k = .unicode '\n' then line :: entered [] ks
    else entered (edited line k) ks

def keys (s : Console) : List (Env × DecodedKey) → Except Panic (Console × List Effect)
  | [] => .ok (s, [])
  | (env, k) :: ks => do
    let (t, out) ← s.key env k
    let (u, rest) ← keys t ks
    pure (u, out ++ rest)

variable {env : Env} {s t : Console} {k : DecodedKey} {out : List Effect}

theorem key_of_enter (hk : k.IsEnter) (h : s.key env k = .ok (t, out)) :
    ∃ reply launched, runCommand env s.launched (trim isWhitespace s.line) = .ok (reply, launched) ∧
      t = ⟨[], launched⟩ ∧ out = println [] :: reply ++ [.print prompt] := by
  have hrun : (runKey (output env) (s, []) k) = (do
      let u ← (output env).command (s, [println []])
      (output env).print prompt u) := by
    obtain rfl | rfl := hk <;> rfl
  rw [key, hrun] at h
  obtain ⟨u, hu, h⟩ := bind_eq_ok.mp h
  obtain ⟨⟨reply, launched⟩, hreply, hu⟩ := bind_eq_ok.mp hu
  cases hu
  cases h
  exact ⟨reply, launched, hreply, rfl, rfl⟩

theorem key_enter (hk : k.IsEnter) (hplain : ∀ c ∈ s.line, Session.Plain c)
    (h : s.key env k = .ok (t, out)) :
    t.line = [] ∧ t.launched = (s.launched || decide (CallsDoom s.line)) ∧
      out.count .spawnDoom = if CallsDoom s.line ∧ s.launched = false then 1 else 0 := by
  obtain ⟨reply, launched, hreply, rfl, rfl⟩ := key_of_enter hk h
  obtain ⟨hcount, hflag⟩ := runCommand_doom hplain hreply
  refine ⟨rfl, hflag, ?_⟩
  rw [← hcount]
  simp [println]

theorem erase_edits (h : erase (output env) (s, []) = .ok (t, out)) :
    t.line = s.line.dropLast ∧ t.launched = s.launched ∧ Effect.spawnDoom ∉ out := by
  unfold erase at h
  split_ifs at h with hnil
  · cases h
    rw [show s.line = [] from hnil]
    exact ⟨rfl, rfl, List.not_mem_nil⟩
  · cases h
    exact ⟨rfl, rfl, by simp [output]⟩

/-- Any other key edits the line. -/
theorem key_edits (hk : ¬ k.IsEnter) (h : s.key env k = .ok (t, out)) :
    t.line = edited s.line k ∧ t.launched = s.launched ∧ Effect.spawnDoom ∉ out := by
  cases k with
  | unicode c =>
    have hne : ¬ (c = '\r' ∨ c = '\n') := by simpa [DecodedKey.IsEnter] using hk
    simp only [key, runKey, if_neg hne] at h
    split_ifs at h with hrub hchar
    · rw [edited, if_pos hrub]
      exact erase_edits h
    · cases h
      rw [edited, if_neg hrub, if_pos hchar]
      exact ⟨rfl, rfl, by simp [output]⟩
    · cases h
      rw [edited, if_neg hrub, if_neg hchar]
      exact ⟨rfl, rfl, List.not_mem_nil⟩
  | rawKey code =>
    cases code with
    | backspace => exact erase_edits h
    | other =>
      cases h
      exact ⟨rfl, rfl, List.not_mem_nil⟩

theorem edited_plain {line : List Char} (hplain : ∀ c ∈ line, Session.Plain c) (k : DecodedKey) :
    ∀ c ∈ edited line k, Session.Plain c := by
  have hback : ∀ c ∈ line.dropLast, Session.Plain c :=
    fun c hc => hplain c ((List.dropLast_sublist line).subset hc)
  cases k with
  | unicode c =>
    rw [edited]
    split_ifs with hrub hchar
    · exact hback
    · intro d hd
      obtain hd | hd := List.mem_append.mp hd
      · exact hplain d hd
      · rwa [List.mem_singleton.mp hd]
    · exact hplain
  | rawKey code =>
    cases code with
    | backspace => exact hback
    | other => exact hplain

/-- In every session the thread is spawned at most once, and it is exactly if a line calls for
it and the flag was not set before. -/
theorem doom_launched_once (s t : Console) (ks : List (Env × DecodedKey)) (out : List Effect)
    (hplain : ∀ c ∈ s.line, Session.Plain c) (h : s.keys ks = .ok (t, out)) :
    (out.count .spawnDoom = if s.launched = false ∧
      ∃ line ∈ entered s.line (ks.map Prod.snd), CallsDoom line then 1 else 0) ∧
    (t.launched = true ↔
      s.launched = true ∨ ∃ line ∈ entered s.line (ks.map Prod.snd), CallsDoom line) := by
  induction ks generalizing s out with
  | nil =>
    cases h
    simp [entered]
  | cons event ks ih =>
    obtain ⟨env, k⟩ := event
    obtain ⟨⟨u, first⟩, hkey, h⟩ := bind_eq_ok.mp h
    obtain ⟨⟨v, rest⟩, hkeys, h⟩ := bind_eq_ok.mp h
    cases h
    rw [List.count_append, List.map_cons, entered]
    by_cases hk : k.IsEnter
    · obtain ⟨hline, hflag, hcount⟩ := key_enter hk hplain hkey
      have hempty : ∀ c ∈ u.line, Session.Plain c := by
        rw [hline]
        exact fun c hc => absurd hc List.not_mem_nil
      obtain ⟨hrest, hend⟩ := ih u rest hempty hkeys
      rw [if_pos (show _ ∨ _ from hk), hcount, hrest, hend, hflag, hline]
      by_cases hdoom : CallsDoom s.line <;> cases s.launched <;> simp [hdoom]
    · obtain ⟨hline, hflag, hnone⟩ := key_edits hk hkey
      obtain ⟨hrest, hend⟩ := ih u rest (by rw [hline]; exact edited_plain hplain k) hkeys
      rw [if_neg (show ¬ (_ ∨ _) from hk), List.count_eq_zero.mpr hnone, hrest, hend, hflag, hline, Nat.zero_add]
      exact ⟨rfl, Iff.rfl⟩

/- "doom" and Enter -/
def doomKeys : List (Env × DecodedKey) :=
  ['d', 'o', 'o', 'm', '\n'].map fun c => (quietEnv, .unicode c)

theorem second_doom_is_refused : ∃ t out,
    start.1.keys (doomKeys ++ doomKeys) = .ok (t, out) ∧ out.count .spawnDoom = 1 := by
  refine ⟨⟨[], true⟩, _, rfl, ?_⟩
  refine (doom_launched_once start.1 ⟨[], true⟩ (doomKeys ++ doomKeys) _
    (fun c hc => absurd hc List.not_mem_nil) rfl).1.trans (if_pos ⟨rfl, ?_⟩)
  exact ⟨['d', 'o', 'o', 'm'], by decide, by decide⟩

def perform (w : Writer) : Effect → Except Panic Writer
  | .print text => w.writeString (encode text)
  | .clearScreen => w.clearScreen
  | .spawnDoom => .ok w

def performAll (w : Writer) (out : List Effect) : Except Panic Writer := out.foldlM perform w

def onScreen (env : Env) : Output (Session × Bool) where
  line a := a.1.line
  edit text a := ({ a.1 with line := text }, a.2)
  print text a := do
    let b ← a.1.print text
    pure (b, a.2)
  command a := do
    let (out, launched) ← runCommand env a.2 (trim isWhitespace a.1.line)
    let w ← performAll a.1.writer out
    pure (.fresh w, launched)

section Effects
variable {w v : Writer} {a b : Session × Bool}

end Effects

def render (color : UInt8) (t : Terminal) : Effect → Terminal
  | .print text => (encode text).foldl (Terminal.feed color) t
  | .clearScreen => .empty _ _
  | .spawnDoom => t

section Screen
variable {Pad : ScreenChar → Prop} {w : Writer} {x : Terminal}

end Screen

section Editing
variable {a : Session × Bool}

end Editing

end Console

end MoltOS.Shell
