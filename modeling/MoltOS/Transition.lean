import Mathlib.Data.List.Basic

/-! Finite runs of a labelled step relation and the invariant rules for them. -/
namespace MoltOS.Transition
variable {σ ε : Type*}

inductive Run (Step : σ → ε → σ → Prop) : σ → List ε → σ → Prop where
  | nil (s : σ) : Run Step s [] s
  | cons {s t u : σ} {e : ε} {es : List ε} :
      Step s e t → Run Step t es u → Run Step s (e :: es) u

def Reachable (Step : σ → ε → σ → Prop) (init s : σ) : Prop := ∃ es, Run Step init es s

/- The steps of a system that meet a condition on the state before them. -/
def Restrict (Step : σ → ε → σ → Prop) (Allowed : σ → ε → Prop) (s : σ) (e : ε) (t : σ) : Prop :=
  Step s e t ∧ Allowed s e

def exec (step : σ → ε → Option σ) : σ → List ε → Option σ
  | s, [] => some s
  | s, e :: es => match step s e with
    | none => none
    | some t => exec step t es

variable {Step : σ → ε → σ → Prop}

/-- A predicate kept by every step is kept by every run. -/
theorem Run.invariant {Inv : σ → Prop} (hstep : ∀ s e t, Inv s → Step s e t → Inv t)
    {s t : σ} {es : List ε} (h : Run Step s es t) (hs : Inv s) : Inv t := by
  induction h with
  | nil s => exact hs
  | cons k _ ih => exact ih (hstep _ _ _ hs k)

theorem Reachable.invariant {Inv : σ → Prop} (hstep : ∀ s e t, Inv s → Step s e t → Inv t)
    {init s : σ} (h : Reachable Step init s) (hinit : Inv init) : Inv s := by
  obtain ⟨es, hr⟩ := h
  exact hr.invariant hstep hinit

theorem run_of_exec {step : σ → ε → Option σ} {s t : σ} {es : List ε}
    (h : exec step s es = some t) : Run (fun s e t => step s e = some t) s es t := by
  induction es generalizing s with
  | nil =>
    cases h
    exact Run.nil t
  | cons e es ih =>
    unfold exec at h
    cases hs : step s e with
    | none => simp [hs] at h
    | some u =>
      rw [hs] at h
      exact Run.cons hs (ih h)

theorem Run.mono {Step' : σ → ε → σ → Prop} (hstep : ∀ s e t, Step s e t → Step' s e t) {s t : σ}
    {es : List ε} (h : Run Step s es t) : Run Step' s es t := by
  induction h with
  | nil s => exact Run.nil s
  | cons k _ ih => exact Run.cons (hstep _ _ _ k) ih

theorem Reachable.mono {Step' : σ → ε → σ → Prop} (hstep : ∀ s e t, Step s e t → Step' s e t)
    {init s : σ} (h : Reachable Step init s) : Reachable Step' init s := by
  obtain ⟨es, hr⟩ := h
  exact ⟨es, hr.mono hstep⟩

theorem Reachable.step {init s t : σ} {e : ε} (h : Reachable Step init s) (k : Step s e t) :
    Reachable Step init t := by
  obtain ⟨es, hr⟩ := h
  induction hr with
  | nil s => exact ⟨[e], .cons k (.nil t)⟩
  | cons k' _ ih =>
    obtain ⟨es', hr'⟩ := ih k
    exact ⟨_, .cons k' hr'⟩

theorem Run.snoc {s t u : σ} {e : ε} {es : List ε} (h : Run Step s es t) (k : Step t e u) :
    Run Step s (es ++ [e]) u := by
  induction h with
  | nil s => exact .cons k (.nil u)
  | cons k' _ ih => exact .cons k' (ih k)

/-- An abstract run for every run, if every step from a state with the invariant keeps it and is
a step of the abstract system. -/
theorem Run.simulate {σ' : Type*} {Step' : σ' → ε → σ' → Prop} {Inv : σ → Prop} {f : σ → σ'}
    (hstep : ∀ s e t, Inv s → Step s e t → Inv t ∧ Step' (f s) e (f t)) {s t : σ} {es : List ε}
    (h : Run Step s es t) (hs : Inv s) : Inv t ∧ Run Step' (f s) es (f t) := by
  induction h with
  | nil s => exact ⟨hs, .nil _⟩
  | cons k _ ih =>
    obtain ⟨hinv, habstract⟩ := hstep _ _ _ hs k
    obtain ⟨hend, hrun⟩ := ih hinv
    exact ⟨hend, .cons habstract hrun⟩

/-- A measure that no step raises is kept by a run exactly if every step of the run is one of
those that keep it. -/
theorem Run.kept_iff {Inv : σ → Prop} {Keeps : σ → ε → Prop} {f : σ → Nat}
    (hstep : ∀ s e t, Inv s → Step s e t → Inv t ∧ f t ≤ f s ∧ (f t = f s ↔ Keeps s e)) {s t : σ}
    {es : List ε} (h : Run Step s es t) (hs : Inv s) :
    f t ≤ f s ∧ (f t = f s ↔ Run (Restrict Step Keeps) s es t) := by
  induction h with
  | nil s => exact ⟨Nat.le_refl _, fun _ => .nil s, fun _ => rfl⟩
  | @cons s u t e es k rest ih =>
    obtain ⟨hinv, hle, hiff⟩ := hstep s e u hs k
    obtain ⟨hle', hiff'⟩ := ih hinv
    refine ⟨Nat.le_trans hle' hle, fun he => ?_, fun hr => ?_⟩
    · exact .cons ⟨k, hiff.mp (by omega)⟩ (hiff'.mp (by omega))
    · have hkeep (a : σ) (e : ε) (b : σ) (ha : Inv a ∧ f a = f s) (hk : Restrict Step Keeps a e b) :
          Inv b ∧ f b = f s := by
        obtain ⟨hb, -, hsame⟩ := hstep a e b ha.1 hk.1
        exact ⟨hb, (hsame.mpr hk.2).trans ha.2⟩
      exact (hr.invariant hkeep ⟨hs, rfl⟩).2

/-- A run comes to a state with a property, or every step of it avoids the property. -/
theorem Run.meets_or_avoids {P : σ → Prop} {s t : σ} {es : List ε} (h : Run Step s es t) :
    (∃ fore aft u, es = fore ++ aft ∧ fore ≠ [] ∧ Run Step s fore u ∧ Run Step u aft t ∧ P u) ∨
      Run (fun s e t => Step s e t ∧ ¬ P t) s es t := by
  induction h with
  | nil s => exact .inr (.nil s)
  | @cons s u t e es k rest ih =>
    by_cases hu : P u
    · exact .inl ⟨[e], es, u, rfl, List.cons_ne_nil _ _, .cons k (.nil u), rest, hu⟩
    · obtain ⟨fore, aft, v, rfl, -, hfore, haft, hv⟩ | havoid := ih
      · exact .inl ⟨e :: fore, aft, v, rfl, List.cons_ne_nil _ _, .cons k hfore, haft, hv⟩
      · exact .inr (.cons ⟨k, hu⟩ havoid)

/-- A measure that one event can lower as long as the goal is not reached bounds how often the
event is needed. -/
theorem Run.settles {Inv Done : σ → Prop} {cost : σ → Nat} {e : ε}
    (hstep : ∀ s, Inv s → ¬ Done s → ∃ t, Step s e t ∧ Inv t ∧ cost t < cost s) {s : σ}
    (hs : Inv s) :
    ∃ n t, n ≤ cost s ∧ Run Step s (List.replicate n e) t ∧ Inv t ∧ Done t := by
  generalize hc : cost s = c
  induction c using Nat.strongRecOn generalizing s with
  | ind c ih =>
    by_cases hd : Done s
    · exact ⟨0, s, Nat.zero_le c, .nil s, hs, hd⟩
    · obtain ⟨u, hu, hinv, hlt⟩ := hstep s hs hd
      obtain ⟨n, t, hn, hrun, ht⟩ := ih (cost u) (hc ▸ hlt) hinv rfl
      exact ⟨n + 1, t, by omega, .cons hu hrun, ht⟩

def Logged {ο : Type*} (Step : σ → ε → σ → Prop) (report : σ → ε → List ο) (s : σ × List ο) (e : ε)
    (t : σ × List ο) : Prop :=
  Step s.1 e t.1 ∧ t.2 = s.2 ++ report s.1 e

def checked (step : σ → ε → Option σ) (Allowed : σ → ε → Prop) [∀ s e, Decidable (Allowed s e)]
    (s : σ) (e : ε) : Option σ :=
  if Allowed s e then step s e else none

theorem run_of_checked {step : σ → ε → Option σ} {Allowed : σ → ε → Prop}
    [∀ s e, Decidable (Allowed s e)] {s t : σ} {es : List ε}
    (h : exec (checked step Allowed) s es = some t) :
    Run (Restrict (fun s e t => step s e = some t) Allowed) s es t := by
  refine (run_of_exec h).mono fun u e v hu => ?_
  by_cases ha : Allowed u e
  · simp only [checked, if_pos ha] at hu
    exact ⟨hu, ha⟩
  · simp [checked, ha] at hu

theorem Reachable.logged {ο : Type*} {report : σ → ε → List ο} {init : σ} {x y : σ × List ο}
    {es : List ε} (h : Reachable Step init x.1) (hr : Run (Logged Step report) x es y) :
    Reachable Step init y.1 := by
  induction hr with
  | nil x => exact h
  | cons hs _ ih => exact ih (h.step hs.1)

/-- An evaluated run whose last state passes a test reaches a state that does. -/
theorem reachable_of_exec {step : σ → ε → Option σ} {s : σ} {es : List ε} {q : σ → Bool}
    (h : (exec step s es).any q = true) :
    ∃ t, Reachable (fun s e t => step s e = some t) s t ∧ q t = true := by
  obtain ⟨t, ht, hq⟩ := (Option.any_eq_true _ _).mp h
  exact ⟨t, ⟨es, run_of_exec ht⟩, hq⟩

theorem reachable_of_checked {step : σ → ε → Option σ} {Allowed : σ → ε → Prop}
    [∀ s e, Decidable (Allowed s e)] {s : σ} {es : List ε} {q : σ → Bool}
    (h : (exec (checked step Allowed) s es).any q = true) :
    ∃ t, Reachable (Restrict (fun s e t => step s e = some t) Allowed) s t ∧ q t = true := by
  obtain ⟨t, ht, hq⟩ := (Option.any_eq_true _ _).mp h
  exact ⟨t, ⟨es, run_of_checked ht⟩, hq⟩

end MoltOS.Transition
