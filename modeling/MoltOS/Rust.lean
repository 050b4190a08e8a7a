import Mathlib.Data.List.Basic
import Mathlib.Order.Lattice
import Mathlib.Tactic.Linarith

/-! Rust's u64 arithmetic under the two cargo profiles, checked indexing and the
iterator adaptors `sum` and `min_by`, as fallible functions on natural numbers. -/
namespace MoltOS.Rust
variable {α β σ : Type}

/- What an overflowing operation does is decided by the profile: `dev` builds
   carry overflow checks and panic, `release` builds wrap. -/
inductive Profile where
  | dev | release
deriving DecidableEq, Repr

inductive Panic where
  | overflow | indexOutOfBounds
deriving DecidableEq, Repr

def u64Max : Nat := 2^64 - 1

def fit (p : Profile) (n : Nat) : Except Panic Nat :=
  if n ≤ u64Max then .ok n else
    match p with
    | .dev => .error .overflow
    | .release => .ok (n % 2^64)

def add (p : Profile) (a b : Nat) : Except Panic Nat := fit p (a + b)
def mul (p : Profile) (a b : Nat) : Except Panic Nat := fit p (a * b)
def sub (p : Profile) (a b : Nat) : Except Panic Nat :=
  if b ≤ a then .ok (a - b) else
    match p with
    | .dev => .error .overflow
    | .release => .ok (2^64 + a - b)
def checkedAdd (a b : Nat) : Option Nat := if a + b ≤ u64Max then some (a + b) else none
def saturatingAdd (a b : Nat) : Nat := min (a + b) u64Max
def saturatingSub (a b : Nat) : Nat := a - b

def lift {ε : Type} (wrap : Panic → ε) (x : Except Panic α) : Except ε α := x.mapError wrap

def index (l : List α) (i : Nat) : Except Panic α :=
  match l[i]? with
  | some a => .ok a
  | none => .error .indexOutOfBounds

def stepBy (start stop step : Nat) : List Nat :=
  (List.range ((stop - start + step - 1) / step)).map fun k => start + k * step

def sum (p : Profile) (l : List Nat) : Except Panic Nat :=
  l.foldlM (add p) 0

/- `Iterator::min_by`: a left fold that moves to the new element only when the
   accumulator compares strictly greater, so the first minimum wins. The
   comparison runs for every element but the first. -/
def minByStep (key : α → Except Panic Nat) (x y : α) : Except Panic α := do
  let kx ← key x
  let ky ← key y
  pure (if ky < kx then y else x)

def minBy (key : α → Except Panic Nat) : List α → Except Panic (Option α)
  | [] => .ok none
  | x :: xs => do
    let best ← xs.foldlM (minByStep key) x
    pure (some best)

theorem bind_ok_iff {ε : Type} {x : Except ε α} {f : α → Except ε β} {b : β} :
    (x >>= f) = .ok b ↔ ∃ a, x = .ok a ∧ f a = .ok b := by
  cases x <;> simp [bind, Except.bind]

theorem bind_eq_ok {x : Except Panic α} {f : α → Except Panic β} {b : β} :
    (x >>= f) = .ok b ↔ ∃ a, x = .ok a ∧ f a = .ok b := bind_ok_iff

theorem pure_eq_ok {a b : α} : (pure a : Except Panic α) = .ok b ↔ a = b := by
  simp [pure, Except.pure]

theorem lift_ok {ε : Type} {wrap : Panic → ε} {x : Except Panic α} {a : α} (h : x = .ok a) :
    lift wrap x = .ok a := by
  rw [h]
  rfl

theorem index_eq_ok {l : List α} {i : Nat} {a : α} : index l i = .ok a ↔ l[i]? = some a := by
  unfold index
  cases l[i]? <;> simp

theorem fit_dev {n m : Nat} : fit .dev n = .ok m ↔ m = n ∧ n ≤ u64Max := by
  unfold fit
  by_cases h : n ≤ u64Max <;> simp [h, eq_comm]

theorem fit_of_le (p : Profile) {n : Nat} (h : n ≤ u64Max) : fit p n = .ok n := if_pos h

theorem sub_of_le (p : Profile) {a b : Nat} (h : b ≤ a) : sub p a b = .ok (a - b) := if_pos h

theorem fit_le {p : Profile} {n m : Nat} (h : fit p n = .ok m) : m ≤ u64Max := by
  unfold fit at h
  by_cases hn : n ≤ u64Max
  · rw [if_pos hn] at h
    cases h
    exact hn
  · rw [if_neg hn] at h
    cases p with
    | dev => cases h
    | release =>
      cases h
      have hm := Nat.mod_lt n (show 0 < 2^64 by norm_num)
      unfold u64Max
      omega

theorem foldlM_add_dev (l : List Nat) (a m : Nat) (ha : a ≤ u64Max) :
    l.foldlM (add .dev) a = .ok m ↔ m = a + l.sum ∧ a + l.sum ≤ u64Max := by
  induction l generalizing a with
  | nil => simp [List.foldlM, pure, Except.pure, eq_comm, ha]
  | cons x xs ih =>
    simp only [List.foldlM_cons, bind_eq_ok, add, fit_dev, List.sum_cons]
    constructor
    · rintro ⟨b, ⟨rfl, hb⟩, h⟩
      have hi := (ih (a + x) hb).mp h
      omega
    · rintro ⟨rfl, h⟩
      exact ⟨a + x, ⟨rfl, by omega⟩, (ih (a + x) (by omega)).mpr (by omega)⟩

theorem sum_dev {l : List Nat} {m : Nat} : sum .dev l = .ok m ↔ m = l.sum ∧ l.sum ≤ u64Max := by
  simpa [sum] using foldlM_add_dev l 0 m (Nat.zero_le _)

/-- The accumulator of `min_by` is always an element it has already seen. -/
theorem foldlM_minByStep_mem {key : α → Except Panic Nat} (xs : List α) (x b : α)
    (h : xs.foldlM (minByStep key) x = .ok b) : b = x ∨ b ∈ xs := by
  induction xs generalizing x with
  | nil => exact Or.inl (pure_eq_ok.mp h).symm
  | cons y ys ih =>
    rw [List.foldlM_cons, bind_eq_ok] at h
    obtain ⟨a, ha, h⟩ := h
    simp only [minByStep, bind_eq_ok, pure_eq_ok] at ha
    obtain ⟨kx, _, ky, _, ha⟩ := ha
    rcases ih a h with hb | hb
    · by_cases hk : ky < kx
      · right
        rw [if_pos hk] at ha
        simp [hb, ← ha]
      · left
        rw [if_neg hk] at ha
        rw [hb, ← ha]
    · exact Or.inr (List.mem_cons_of_mem y hb)

theorem minBy_mem {key : α → Except Panic Nat} {l : List α} {b : α}
    (h : minBy key l = .ok (some b)) : b ∈ l := by
  cases l with
  | nil => cases h
  | cons x xs =>
    simp only [minBy, bind_eq_ok, pure_eq_ok, Option.some.injEq, exists_eq_right] at h
    rcases foldlM_minByStep_mem xs x b h with hb | hb
    · simp [hb]
    · exact List.mem_cons_of_mem x hb

theorem minBy_isSome {key : α → Except Panic Nat} {l : List α} {r : Option α}
    (h : minBy key l = .ok r) (hl : l ≠ []) : ∃ b, r = some b := by
  cases l with
  | nil => exact absurd rfl hl
  | cons x xs =>
    simp only [minBy, bind_eq_ok, pure_eq_ok] at h
    obtain ⟨b, _, hb⟩ := h
    exact ⟨b, hb.symm⟩

/- With a second element to compare with, the key of the first is computed. -/
theorem minBy_head {key : α → Except Panic Nat} {x y : α} {l : List α} {r : Option α}
    (h : minBy key (x :: y :: l) = .ok r) : ∃ k, key x = .ok k := by
  simp only [minBy, List.foldlM_cons, minByStep, bind_eq_ok] at h
  obtain ⟨_, ⟨_, ⟨k, hk, _⟩, _⟩, _⟩ := h
  exact ⟨k, hk⟩

def FirstMin (f : α → Nat) (l : List α) (b : α) : Prop :=
  ∃ pre post, l = pre ++ b :: post ∧ (∀ y ∈ pre, f b < f y) ∧ ∀ y ∈ post, f b ≤ f y

theorem FirstMin.mem {f : α → Nat} {l : List α} {b : α} (h : FirstMin f l b) : b ∈ l := by
  obtain ⟨pre, post, rfl, _, _⟩ := h
  simp

theorem FirstMin.le {f : α → Nat} {l : List α} {b : α} (h : FirstMin f l b) :
    ∀ y ∈ l, f b ≤ f y := by
  obtain ⟨pre, post, rfl, hpre, hpost⟩ := h
  intro y hy
  simp only [List.mem_append, List.mem_cons] at hy
  rcases hy with hy | rfl | hy
  · exact (hpre y hy).le
  · exact le_rfl
  · exact hpost y hy

theorem FirstMin.snoc {f : α → Nat} {l : List α} {b y : α} (h : FirstMin f l b) :
    FirstMin f (l ++ [y]) (if f y < f b then y else b) := by
  have hle := h.le
  obtain ⟨pre, post, rfl, hpre, hpost⟩ := h
  by_cases hy : f y < f b
  · rw [if_pos hy]
    refine ⟨pre ++ b :: post, [], rfl, ?_, by simp⟩
    intro z hz
    exact hy.trans_le (hle z hz)
  · rw [if_neg hy]
    refine ⟨pre, post ++ [y], by simp, hpre, ?_⟩
    intro z hz
    rcases List.mem_append.mp hz with hz | hz
    · exact hpost z hz
    · rw [List.mem_singleton.mp hz]
      omega

theorem foldlM_minByStep_firstMin {key : α → Except Panic Nat} {f : α → Nat}
    (hkey : ∀ x k, key x = .ok k → k = f x) (xs l : List α) (x b : α)
    (hx : FirstMin f l x) (h : xs.foldlM (minByStep key) x = .ok b) :
    FirstMin f (l ++ xs) b := by
  induction xs generalizing l x with
  | nil => simpa [pure_eq_ok.mp h] using hx
  | cons y ys ih =>
    rw [List.foldlM_cons, bind_eq_ok] at h
    obtain ⟨a, ha, h⟩ := h
    simp only [minByStep, bind_eq_ok, pure_eq_ok] at ha
    obtain ⟨kx, hkx, ky, hky, ha⟩ := ha
    rw [hkey x kx hkx, hkey y ky hky] at ha
    have hs := hx.snoc (y := y)
    rw [ha] at hs
    simpa using ih (l ++ [y]) a hs h

/-- Whenever it does not panic, `min_by` returns the first minimum of the values
its key computes to. -/
theorem minBy_firstMin {key : α → Except Panic Nat} {f : α → Nat}
    (hkey : ∀ x k, key x = .ok k → k = f x) {l : List α} {b : α}
    (h : minBy key l = .ok (some b)) : FirstMin f l b := by
  cases l with
  | nil => cases h
  | cons x xs =>
    simp only [minBy, bind_eq_ok, pure_eq_ok, Option.some.injEq, exists_eq_right] at h
    exact foldlM_minByStep_firstMin hkey xs [x] x b ⟨[], [], rfl, by simp, by simp⟩ h

theorem minBy_ok (key : α → Except Panic Nat) (l : List α)
    (h : ∀ x ∈ l, ∃ k, key x = .ok k) : ∃ r, minBy key l = .ok r := by
  have hfold (xs : List α) (x : α) (hx : ∃ k, key x = .ok k) (hxs : ∀ y ∈ xs, ∃ k, key y = .ok k) :
      ∃ b, xs.foldlM (minByStep key) x = .ok b := by
    induction xs generalizing x with
    | nil => exact ⟨x, rfl⟩
    | cons y ys ih =>
      obtain ⟨kx, hkx⟩ := hx
      obtain ⟨ky, hky⟩ := hxs y (by simp)
      have hstep : minByStep key x y = .ok (if ky < kx then y else x) := by
        simp [minByStep, hkx, hky, bind, Except.bind, pure, Except.pure]
      obtain ⟨b, hb⟩ := ih (if ky < kx then y else x) (by split <;> simp [hkx, hky])
        fun z hz => hxs z (List.mem_cons_of_mem y hz)
      exact ⟨b, by rw [List.foldlM_cons, hstep]; exact hb⟩
  cases l with
  | nil => exact ⟨none, rfl⟩
  | cons x xs =>
    obtain ⟨b, hb⟩ := hfold xs x (h x (by simp)) fun y hy => h y (List.mem_cons_of_mem x hy)
    exact ⟨some b, by simp [minBy, hb, bind, Except.bind, pure, Except.pure]⟩

def OnlyOverflow (p : Profile) (x : Except Panic α) : Prop :=
  (∃ a, x = .ok a) ∨ (p = .dev ∧ x = .error .overflow)

theorem onlyOverflow_ok {p : Profile} (a : α) : OnlyOverflow p (.ok a) := Or.inl ⟨a, rfl⟩

theorem onlyOverflow_fit (p : Profile) (n : Nat) : OnlyOverflow p (fit p n) := by
  unfold fit
  by_cases h : n ≤ u64Max
  · exact Or.inl ⟨n, if_pos h⟩
  · rw [if_neg h]
    cases p with
    | dev => exact Or.inr ⟨rfl, rfl⟩
    | release => exact Or.inl ⟨_, rfl⟩

theorem onlyOverflow_bind {p : Profile} {x : Except Panic α} {f : α → Except Panic β}
    (hx : OnlyOverflow p x) (hf : ∀ a, x = .ok a → OnlyOverflow p (f a)) :
    OnlyOverflow p (x >>= f) := by
  rcases hx with ⟨a, rfl⟩ | ⟨hp, rfl⟩
  · exact hf a rfl
  · exact Or.inr ⟨hp, rfl⟩

theorem onlyOverflow_foldlM {p : Profile} {f : σ → α → Except Panic σ}
    (hf : ∀ s a, OnlyOverflow p (f s a)) (l : List α) (s : σ) :
    OnlyOverflow p (l.foldlM f s) := by
  induction l generalizing s with
  | nil => exact onlyOverflow_ok s
  | cons a l ih =>
    rw [List.foldlM_cons]
    exact onlyOverflow_bind (hf s a) fun b _ => ih b

theorem onlyOverflow_sum (p : Profile) (l : List Nat) : OnlyOverflow p (sum p l) :=
  onlyOverflow_foldlM (fun a b => onlyOverflow_fit p (a + b)) l 0

theorem onlyOverflow_minBy {p : Profile} {key : α → Except Panic Nat}
    (hkey : ∀ x, OnlyOverflow p (key x)) (l : List α) : OnlyOverflow p (minBy key l) := by
  cases l with
  | nil => exact onlyOverflow_ok none
  | cons x xs =>
    refine onlyOverflow_bind (onlyOverflow_foldlM ?_ xs x) fun b _ => onlyOverflow_ok _
    intro a b
    exact onlyOverflow_bind (hkey a) fun _ _ => onlyOverflow_bind (hkey b) fun _ _ => onlyOverflow_ok _

def Extends (x y : Except Panic α) : Prop := ∀ a, x = .ok a → y = .ok a

theorem Extends.refl (x : Except Panic α) : Extends x x := fun _ h => h

theorem extends_bind {x y : Except Panic α} {f g : α → Except Panic β} (hx : Extends x y)
    (hf : ∀ a, Extends (f a) (g a)) : Extends (x >>= f) (y >>= g) := by
  intro b hb
  obtain ⟨a, ha, hfa⟩ := bind_eq_ok.mp hb
  exact bind_eq_ok.mpr ⟨a, hx a ha, hf a b hfa⟩

/-- An operation that passes its overflow check does not wrap either. -/
theorem extends_fit (p : Profile) (n : Nat) : Extends (fit .dev n) (fit p n) := by
  intro m hm
  obtain ⟨rfl, hle⟩ := fit_dev.mp hm
  exact if_pos hle

theorem extends_foldlM {f g : σ → α → Except Panic σ} (hf : ∀ s a, Extends (f s a) (g s a))
    (l : List α) (s : σ) : Extends (l.foldlM f s) (l.foldlM g s) := by
  induction l generalizing s with
  | nil => exact Extends.refl _
  | cons a l ih =>
    rw [List.foldlM_cons, List.foldlM_cons]
    exact extends_bind (hf s a) ih

theorem extends_minBy {f g : α → Except Panic Nat} (hf : ∀ x, Extends (f x) (g x)) (l : List α) :
    Extends (minBy f l) (minBy g l) := by
  cases l with
  | nil => exact Extends.refl _
  | cons x xs =>
    refine extends_bind (extends_foldlM ?_ xs x) fun _ => Extends.refl _
    intro a b
    exact extends_bind (hf a) fun _ => extends_bind (hf b) fun _ => Extends.refl _

theorem stepBy_of_le {start stop step : Nat} (h : stop ≤ start) (hstep : 0 < step) :
    stepBy start stop step = [] := by
  rw [stepBy, Nat.sub_eq_zero_of_le h, Nat.zero_add, Nat.div_eq_of_lt (by omega)]
  rfl

theorem stepBy_of_lt {start stop step : Nat} (h : start < stop) (hstep : 0 < step) :
    stepBy start stop step = start :: stepBy (start + step) stop step := by
  have hcount : (stop - start + step - 1) / step = (stop - (start + step) + step - 1) / step + 1 := by
    by_cases hlast : stop ≤ start + step
    · have hone : (stop - start + step - 1) / step = 1 := Nat.div_eq_of_lt_le (by omega) (by omega)
      have hzero : (stop - (start + step) + step - 1) / step = 0 := Nat.div_eq_of_lt (by omega)
      rw [hone, hzero]
    · rw [← Nat.add_div_right _ hstep]
      congr 1
      omega
  rw [stepBy, hcount, List.range_succ_eq_map, List.map_cons, List.map_map, stepBy, Nat.zero_mul,
    Nat.add_zero]
  congr 1
  refine List.map_congr_left fun k _ => ?_
  simp only [Function.comp_apply, Nat.succ_mul]
  omega

/-- The invariant rule for a `for` loop over `a .. a + n`. -/
theorem for_range {ε : Type} {f : σ → Nat → Except ε σ} {Inv : Nat → σ → Prop} {a n : Nat}
    (hstep : ∀ i s, a ≤ i → i < a + n → Inv i s → ∃ t, f s i = .ok t ∧ Inv (i + 1) t) {s : σ}
    (hs : Inv a s) : ∃ t, (List.range' a n).foldlM f s = .ok t ∧ Inv (a + n) t := by
  induction n generalizing a s with
  | zero => exact ⟨s, rfl, hs⟩
  | succ n ih =>
    obtain ⟨t, ht, hinv⟩ := hstep a s le_rfl (by omega) hs
    obtain ⟨u, hu, hend⟩ :=
      ih (fun i s hi hlt => hstep i s (by omega) (by omega)) hinv
    refine ⟨u, ?_, by rwa [Nat.add_right_comm] at hend⟩
    rw [List.range'_succ, List.foldlM_cons, ht]
    exact hu

end MoltOS.Rust
