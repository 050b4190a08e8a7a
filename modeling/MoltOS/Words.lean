import Mathlib.Data.List.Basic
import Mathlib.Data.List.TakeWhile

/-! Lists cut into words at blanks, and the way back by a join with one blank. -/
namespace MoltOS.Words
variable {α : Type*} {blank : α → Bool}

/- `w` is the word that has begun. -/
def wordsFrom (blank : α → Bool) (w : List α) : List α → List (List α)
  | [] => if w.isEmpty then [] else [w]
  | c :: l =>
    if blank c then
      if w.isEmpty then wordsFrom blank [] l else w :: wordsFrom blank [] l
    else wordsFrom blank (w ++ [c]) l

def words (blank : α → Bool) (l : List α) : List (List α) := wordsFrom blank [] l

def join (sep : α) : List (List α) → List α
  | [] => []
  | [w] => w
  | w :: ws => w ++ sep :: join sep ws

def trim (blank : α → Bool) (l : List α) : List α :=
  ((l.dropWhile blank).reverse.dropWhile blank).reverse

structure IsWord (blank : α → Bool) (w : List α) : Prop where
  nonempty : w ≠ []
  solid : ∀ c ∈ w, blank c = false

theorem wordsFrom_solid {u : List α} (hu : ∀ c ∈ u, blank c = false) (w l : List α) :
    wordsFrom blank w (u ++ l) = wordsFrom blank (w ++ u) l := by
  induction u generalizing w with
  | nil => rw [List.append_nil, List.nil_append]
  | cons c u ih =>
    obtain ⟨hc, hu⟩ := List.forall_mem_cons.mp hu
    rw [List.cons_append, wordsFrom, hc, if_neg Bool.false_ne_true, ih hu, List.append_assoc]
    rfl

theorem words_word {w : List α} (hw : IsWord blank w) : words blank w = [w] := by
  have h := wordsFrom_solid hw.solid [] []
  rw [List.append_nil, List.nil_append, wordsFrom] at h
  rw [words, h, if_neg (by simpa using hw.nonempty)]

theorem words_word_blank {w : List α} (hw : IsWord blank w) {c : α} (hc : blank c = true)
    (l : List α) : words blank (w ++ c :: l) = w :: words blank l := by
  rw [words, wordsFrom_solid hw.solid, List.nil_append, wordsFrom, if_pos hc,
    if_neg (by simpa using hw.nonempty)]
  rfl

theorem words_blanks {u : List α} (hu : ∀ c ∈ u, blank c = true) (l : List α) :
    words blank (u ++ l) = words blank l := by
  induction u with
  | nil => rfl
  | cons c u ih =>
    obtain ⟨hc, hu⟩ := List.forall_mem_cons.mp hu
    rw [List.cons_append, words, wordsFrom, if_pos hc]
    exact ih hu

theorem wordsFrom_append_blanks {v : List α} (hv : ∀ c ∈ v, blank c = true) (w l : List α) :
    wordsFrom blank w (l ++ v) = wordsFrom blank w l := by
  induction l generalizing w with
  | nil =>
    cases v with
    | nil => rfl
    | cons c v =>
      obtain ⟨hc, hv⟩ := List.forall_mem_cons.mp hv
      have hnil : wordsFrom blank [] v = [] := by
        have h := words_blanks hv []
        rwa [List.append_nil] at h
      simp only [List.nil_append, wordsFrom, hc, if_true, hnil]
  | cons c l ih =>
    rw [List.cons_append, wordsFrom, wordsFrom, ih, ih]

theorem wordsFrom_isWord {w l u : List α} (hw : ∀ c ∈ w, blank c = false)
    (hu : u ∈ wordsFrom blank w l) : IsWord blank u := by
  induction l generalizing w with
  | nil =>
    rw [wordsFrom] at hu
    split at hu
    · cases hu
    · next hne =>
      cases List.mem_singleton.mp hu
      exact ⟨by simpa using hne, hw⟩
  | cons c l ih =>
    have hnil : ∀ c ∈ ([] : List α), blank c = false := fun c hc => absurd hc List.not_mem_nil
    rw [wordsFrom] at hu
    split at hu
    · split at hu
      · exact ih hnil hu
      · next hne =>
        obtain rfl | hu := List.mem_cons.mp hu
        · exact ⟨by simpa using hne, hw⟩
        · exact ih hnil hu
    · next hc =>
      refine ih (fun d hd => ?_) hu
      obtain hd | hd := List.mem_append.mp hd
      · exact hw d hd
      · rw [List.mem_singleton.mp hd]
        simpa using hc

theorem words_isWord {l u : List α} (hu : u ∈ words blank l) : IsWord blank u :=
  wordsFrom_isWord (fun _ hc => absurd hc List.not_mem_nil) hu

theorem wordsFrom_subset {w l u : List α} (hu : u ∈ wordsFrom blank w l) {c : α} (hc : c ∈ u) :
    c ∈ w ∨ c ∈ l := by
  induction l generalizing w with
  | nil =>
    rw [wordsFrom] at hu
    split at hu
    · cases hu
    · exact .inl (List.mem_singleton.mp hu ▸ hc)
  | cons d l ih =>
    rw [wordsFrom] at hu
    split at hu
    · split at hu
      · exact (ih hu).elim (fun h => absurd h List.not_mem_nil) fun h => .inr (.tail d h)
      · obtain rfl | hu := List.mem_cons.mp hu
        · exact .inl hc
        · exact (ih hu).elim (fun h => absurd h List.not_mem_nil) fun h => .inr (.tail d h)
    · obtain h | h := ih hu
      · obtain h | h := List.mem_append.mp h
        · exact .inl h
        · exact .inr (List.mem_singleton.mp h ▸ .head l)
      · exact .inr (.tail d h)

theorem words_subset {l u : List α} (hu : u ∈ words blank l) {c : α} (hc : c ∈ u) : c ∈ l :=
  (wordsFrom_subset hu hc).resolve_left List.not_mem_nil

theorem wordsFrom_eq_nil {w l : List α} (h : wordsFrom blank w l = []) :
    w = [] ∧ ∀ c ∈ l, blank c = true := by
  induction l generalizing w with
  | nil =>
    rw [wordsFrom] at h
    split at h
    · next hw => exact ⟨List.isEmpty_iff.mp hw, fun c hc => absurd hc List.not_mem_nil⟩
    · cases h
  | cons c l ih =>
    rw [wordsFrom] at h
    split at h
    · next hc =>
      split at h
      · next hw => exact ⟨List.isEmpty_iff.mp hw, List.forall_mem_cons.mpr ⟨hc, (ih h).2⟩⟩
      · cases h
    · exact absurd (ih h).1 (by simp)

theorem words_eq_nil {l : List α} (h : words blank l = []) : ∀ c ∈ l, blank c = true :=
  (wordsFrom_eq_nil h).2

/-- What was cut off at the two ends belongs to no word. -/
theorem words_trim {p : α → Bool} {l : List α} (h : ∀ c ∈ l, p c = true → blank c = true) :
    words blank (trim p l) = words blank l := by
  have hfront : ∀ c ∈ l.takeWhile p, blank c = true := fun c hc =>
    h c ((List.takeWhile_sublist p).subset hc) (List.mem_takeWhile_imp hc)
  have hback : ∀ c ∈ ((l.dropWhile p).reverse.takeWhile p).reverse, blank c = true := by
    intro c hc
    have hmem := List.mem_reverse.mp hc
    have hdrop := List.mem_reverse.mp ((List.takeWhile_sublist p).subset hmem)
    exact h c ((List.dropWhile_sublist p).subset hdrop) (List.mem_takeWhile_imp hmem)
  have hsplit : trim p l ++ ((l.dropWhile p).reverse.takeWhile p).reverse = l.dropWhile p := by
    rw [trim, ← List.reverse_append, List.takeWhile_append_dropWhile, List.reverse_reverse]
  calc words blank (trim p l)
      = words blank (trim p l ++ ((l.dropWhile p).reverse.takeWhile p).reverse) :=
        (wordsFrom_append_blanks hback [] _).symm
    _ = words blank (l.takeWhile p ++ l.dropWhile p) := by rw [hsplit, words_blanks hfront]
    _ = words blank l := by rw [List.takeWhile_append_dropWhile]

theorem words_join {sep : α} (hsep : blank sep = true) {ws : List (List α)}
    (hws : ∀ w ∈ ws, IsWord blank w) : words blank (join sep ws) = ws := by
  induction ws with
  | nil => rfl
  | cons w ws ih =>
    obtain ⟨hw, hws⟩ := List.forall_mem_cons.mp hws
    cases ws with
    | nil => exact words_word hw
    | cons v ws => exact (words_word_blank hw hsep _).trans (congrArg (w :: ·) (ih hws))

section Trim
variable {p : α → Bool} {l : List α}

theorem dropWhile_of_head (h : ∀ c ∈ l.head?, p c = false) : l.dropWhile p = l := by
  cases l with
  | nil => rfl
  | cons c l => exact List.dropWhile_cons_of_neg (by simp [h c rfl])

theorem trim_of_ends (hhead : ∀ c ∈ l.head?, p c = false)
    (hlast : ∀ c ∈ l.getLast?, p c = false) : trim p l = l := by
  rw [trim, dropWhile_of_head hhead, dropWhile_of_head (by rwa [List.head?_reverse]),
    List.reverse_reverse]

theorem trim_of_blanks (h : ∀ c ∈ l, p c = true) : trim p l = [] := by
  rw [trim, List.dropWhile_eq_nil_iff.mpr h]
  rfl

end Trim

section Join
variable {sep : α} {ws : List (List α)}

theorem join_head (hws : ∀ w ∈ ws, IsWord blank w) :
    ∀ c ∈ (join sep ws).head?, blank c = false := by
  intro c hc
  rcases ws with _ | ⟨w, ws⟩
  · cases hc
  · have hw := hws w List.mem_cons_self
    obtain ⟨d, u, rfl⟩ := List.exists_cons_of_ne_nil hw.nonempty
    have hd : c = d := by
      cases ws with
      | nil => exact (Option.mem_some_iff.mp hc).symm
      | cons v ws => exact (Option.mem_some_iff.mp hc).symm
    rw [hd]
    exact hw.solid d List.mem_cons_self

theorem join_last (hws : ∀ w ∈ ws, IsWord blank w) :
    ∀ c ∈ (join sep ws).getLast?, blank c = false := by
  induction ws with
  | nil => exact fun c hc => absurd hc (by simp [join])
  | cons w ws ih =>
    obtain ⟨hw, hws⟩ := List.forall_mem_cons.mp hws
    cases ws with
    | nil => exact fun c hc => hw.solid c (List.mem_of_getLast? hc)
    | cons v ws =>
      have hne : join sep (v :: ws) ≠ [] := by
        have hv := (hws v List.mem_cons_self).nonempty
        cases ws with
        | nil => exact hv
        | cons _ _ => simp [join]
      intro c hc
      refine ih hws c ?_
      obtain ⟨d, hd⟩ := Option.ne_none_iff_exists'.mp (mt List.getLast?_eq_none_iff.mp hne)
      simpa [join, List.getLast?_append, List.getLast?_cons, hd] using hc

theorem trim_join (hws : ∀ w ∈ ws, IsWord blank w) :
    trim blank (join sep ws) = join sep ws :=
  trim_of_ends (join_head hws) (join_last hws)

end Join

end MoltOS.Words
