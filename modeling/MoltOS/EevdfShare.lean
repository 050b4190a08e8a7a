import MoltOS.EevdfBounds
import MoltOS.EevdfFair

/-! CPU share of two threads ticked once per tick. The charge multiplies by the
weight where a proportional share would divide by it, so the heavier thread gets
at least as many ticks exactly when the weights are equal. -/
namespace MoltOS.Eevdf
open MoltOS.Rust MoltOS.Transition

namespace EevdfScheduler

def runTicks (s : EevdfScheduler) : Nat → Except Panic (EevdfScheduler × List Nat)
  | 0 => .ok (s, [])
  | n + 1 => do
    let before ← runTicks s n
    let after ← before.1.tickPrepare .dev .bootstrap (n + 1)
    pure (after.1, before.2 ++ after.1.current.toList)

def duo (a b : Thread) (w₁ w₂ v₁ v₂ : Nat) (cur : Option Nat) (low last : Nat) : EevdfScheduler :=
  ⟨[a, b], [⟨v₁, w₁, false⟩, ⟨v₂, w₂, false⟩], cur, low, last⟩

def slice (w total : Nat) : Nat := 1 * w * 1024 / total

variable {a b : Thread} {w₁ w₂ v₁ v₂ low n : Nat} {cur : Option Nat} {s' : EevdfScheduler}
  {r : Option Switch}

theorem duo_timeSlice : (duo a b w₁ w₂ v₁ v₂ cur low n).timeSlice (n + 1) = 1 := by
  unfold timeSlice duo saturatingSub minTimeSlice
  cases cur <;> simp

theorem duo_total : totalWeight (duo a b w₁ w₂ v₁ v₂ cur low n).metadata = w₁ + w₂ := by
  simp [totalWeight, runnable, duo]

def due (cur : Option Nat) (i w total : Nat) : Nat := if cur = some i then slice w total else 0

theorem duo_chargedMeta (hw : 1 ≤ w₂) (hcur : cur = none ∨ cur = some 0 ∨ cur = some 1) :
    (duo a b w₁ w₂ v₁ v₂ cur low n).chargedMeta 1 =
      [⟨v₁ + due cur 0 w₁ (w₁ + w₂), w₁, false⟩, ⟨v₂ + due cur 1 w₂ (w₁ + w₂), w₂, false⟩] := by
  unfold chargedMeta
  rw [duo_total]
  have hne : ¬ w₁ + w₂ = 0 := by omega
  simp only [if_neg hne]
  obtain rfl | rfl | rfl := hcur <;> simp [duo, due, ThreadMeta.charge, slice]

/-- One tick of two threads: the running one is charged, the next one is the first
earliest deadline among the eligible. -/
theorem duo_step (hw : 1 ≤ w₂) (hcur : cur = none ∨ cur = some 0 ∨ cur = some 1)
    (hfit : (duo a b w₁ w₂ v₁ v₂ cur low n).Fits)
    (h : (duo a b w₁ w₂ v₁ v₂ cur low n).tickPrepare .dev .bootstrap (n + 1) = .ok (s', r)) :
    ∃ i low', (i = 0 ∨ i = 1) ∧
      s' = duo a b w₁ w₂ (v₁ + due cur 0 w₁ (w₁ + w₂)) (v₂ + due cur 1 w₂ (w₁ + w₂))
        (some i) low' (n + 1) ∧ s'.IsMinVruntime ∧ s'.EarliestEligible 1 i := by
  have hsel := tickPrepare_selected hfit (i := 0) ⟨_, rfl, rfl⟩ (by simp [duo]) h
  have hmeta := hsel.charged
  rw [duo_timeSlice, duo_chargedMeta hw hcur] at hmeta
  obtain ⟨i, hi, _, hpick⟩ := hsel.picked
  rw [duo_timeSlice] at hpick
  have hthreads : s'.threads = [a, b] := (tickPrepare_shape h).1
  have hlast : s'.lastSwitchTick = n + 1 := by
    obtain ⟨he, _⟩ | ⟨_, c, _, hch, ⟨hn, _⟩ | ⟨k, _, ⟨hk, _, _⟩ | ⟨_, rfl, _⟩⟩⟩ := tickPrepare_cases h
    · simp [duo] at he
    · have hall := allBlocked_iff.mp (nextIdx_none hn) 0
      rw [runnableAt_of_shape hch.shape] at hall
      exact absurd ⟨_, rfl, rfl⟩ hall
    · have hle := hk.2.2
      simp [duo] at hle
    · rfl
  refine ⟨i, s'.minVruntime, ?_, ?_, hsel.isMin, hpick⟩
  · obtain ⟨m, ⟨hm, _⟩, _⟩ := hpick
    have hlt := (List.getElem?_eq_some_iff.mp hm).1
    rw [hmeta] at hlt
    simp only [List.length_cons, List.length_nil] at hlt
    omega
  · obtain ⟨threads, metadata, current, minV, last⟩ := s'
    simp only at hthreads hmeta hi hlast
    subst hthreads hmeta hi hlast
    rfl

theorem duo_isMin (h : (duo a b w₁ w₂ v₁ v₂ cur low n).IsMinVruntime) :
    low ≤ v₁ ∧ low ≤ v₂ ∧ (low = v₁ ∨ low = v₂) := by
  obtain ⟨⟨m, hm, _, hv⟩, hlow⟩ := h
  refine ⟨hlow ⟨⟨v₁, w₁, false⟩, by simp [duo], rfl, rfl⟩,
    hlow ⟨⟨v₂, w₂, false⟩, by simp [duo], rfl, rfl⟩, ?_⟩
  simp only [duo, List.mem_cons, List.not_mem_nil, or_false] at hm hv
  obtain rfl | rfl := hm
  · exact Or.inl hv.symm
  · exact Or.inr hv.symm

/- The deadlines of the two threads at a one-tick slice. -/
theorem duo_pick_zero (h : (duo a b w₁ w₂ v₁ v₂ cur low n).EarliestEligible 1 0)
    (hmin : (duo a b w₁ w₂ v₁ v₂ cur low n).IsMinVruntime) (hw : 1 ≤ w₂) :
    v₁ ≤ v₂ + (w₁ + w₂) ∧
    (v₂ ≤ v₁ → (⟨v₁, w₁, false⟩ : ThreadMeta).deadline 1 (w₁ + w₂) ≤
      (⟨v₂, w₂, false⟩ : ThreadMeta).deadline 1 (w₁ + w₂)) := by
  obtain ⟨m, ⟨hm, _, hle⟩, hbest⟩ := h
  obtain ⟨h1, h2, h3⟩ := duo_isMin hmin
  simp only [duo_total] at hle hbest
  cases hm
  refine ⟨?_, ?_⟩
  · simp only [duo] at hle
    omega
  · intro hv
    refine (hbest 1 _ ⟨rfl, rfl, ?_⟩).1
    simp only [duo]
    omega

theorem duo_pick_one (h : (duo a b w₁ w₂ v₁ v₂ cur low n).EarliestEligible 1 1)
    (hmin : (duo a b w₁ w₂ v₁ v₂ cur low n).IsMinVruntime) :
    v₁ ≤ v₂ → (⟨v₂, w₂, false⟩ : ThreadMeta).deadline 1 (w₁ + w₂) <
      (⟨v₁, w₁, false⟩ : ThreadMeta).deadline 1 (w₁ + w₂) := by
  obtain ⟨m, ⟨hm, _, _⟩, hbest⟩ := h
  obtain ⟨h1, h2, h3⟩ := duo_isMin hmin
  simp only [duo_total] at hbest
  cases hm
  intro hv
  refine (hbest 0 _ ⟨rfl, rfl, ?_⟩).2 (by omega)
  simp only [duo]
  omega

/-- Where two threads stand after `n` ticks: each has been charged its slice for
every selection but a running one, and the first is ahead by at most the lag
tolerance and one slice. -/
structure Share (a b : Thread) (w₁ w₂ n : Nat) (s : EevdfScheduler) (sel : List Nat) : Prop where
  fits : s.Fits
  count : sel.count 0 + sel.count 1 = n
  state : ∃ v₁ v₂ cur low, s = duo a b w₁ w₂ v₁ v₂ cur low n ∧
    (cur = none ∨ cur = some 0 ∨ cur = some 1) ∧
    v₁ + due cur 0 w₁ (w₁ + w₂) = slice w₁ (w₁ + w₂) * sel.count 0 ∧
    v₂ + due cur 1 w₂ (w₁ + w₂) = slice w₂ (w₁ + w₂) * sel.count 1
  ahead : slice w₁ (w₁ + w₂) * sel.count 0 ≤
    slice w₂ (w₁ + w₂) * sel.count 1 + (w₁ + w₂) + slice w₁ (w₁ + w₂)

variable {s : EevdfScheduler} {sel : List Nat}

def Picks (w₁ w₂ v₁ v₂ i : Nat) : Prop :=
  (i = 0 ∧ (v₂ ≤ v₁ → (⟨v₁, w₁, false⟩ : ThreadMeta).deadline 1 (w₁ + w₂) ≤
      (⟨v₂, w₂, false⟩ : ThreadMeta).deadline 1 (w₁ + w₂))) ∨
  (i = 1 ∧ (v₁ ≤ v₂ → (⟨v₂, w₂, false⟩ : ThreadMeta).deadline 1 (w₁ + w₂) <
      (⟨v₁, w₁, false⟩ : ThreadMeta).deadline 1 (w₁ + w₂)))

theorem Share.step (hw : 1 ≤ w₂) (hs : Share a b w₁ w₂ n s sel)
    (h : s.tickPrepare .dev .bootstrap (n + 1) = .ok (s', r)) :
    ∃ i, s'.current = some i ∧ Share a b w₁ w₂ (n + 1) s' (sel ++ [i]) ∧
      Picks w₁ w₂ (slice w₁ (w₁ + w₂) * sel.count 0) (slice w₂ (w₁ + w₂) * sel.count 1) i := by
  have hfits : s'.Fits := fits_step (p := .dev) (e := (.tickPrepare (n + 1), r)) hs.fits h
  obtain ⟨v₁, v₂, cur, low, rfl, hcur, hv₁, hv₂⟩ := hs.state
  obtain ⟨i, low', hi, rfl, hmin, hpick⟩ := duo_step hw hcur hs.fits h
  rw [hv₁, hv₂] at hmin hpick hfits ⊢
  have hcount := hs.count
  have hahead := hs.ahead
  refine ⟨i, rfl, ?_, ?_⟩
  · obtain rfl | rfl := hi
    · have hle := (duo_pick_zero hpick hmin hw).1
      refine ⟨hfits, by simp; omega, ⟨_, _, _, _, rfl, by simp, ?_, ?_⟩, ?_⟩
      · simp [due, Nat.mul_add]
      · simp [due]
      · simp only [List.count_append, List.count_singleton_self, Nat.mul_add, Nat.mul_one]
        simp
        omega
    · refine ⟨hfits, by simp; omega, ⟨_, _, _, _, rfl, by simp, ?_, ?_⟩, ?_⟩
      · simp [due]
      · simp [due, Nat.mul_add]
      · simp only [List.count_append, List.count_singleton_self, Nat.mul_add, Nat.mul_one]
        simp
        omega
  · obtain rfl | rfl := hi
    · exact Or.inl ⟨rfl, (duo_pick_zero hpick hmin hw).2⟩
    · exact Or.inr ⟨rfl, duo_pick_one hpick hmin⟩

theorem share_spawnAll (hw : 1 ≤ w₂) (hle : w₂ ≤ w₁) :
    Share a b w₁ w₂ 0 (spawnAll [(a, w₁), (b, w₂)]) [] := by
  have hs : spawnAll [(a, w₁), (b, w₂)] = duo a b w₁ w₂ 0 0 none 0 0 :=
    spawnAll_state _ (by simp; omega)
  rw [hs]
  exact ⟨by simp [Fits, duo], rfl, ⟨0, 0, none, 0, rfl, by simp, by simp [due], by simp [due]⟩,
    by simp⟩

theorem runTicks_succ {s₀ : EevdfScheduler} (h : runTicks s₀ (n + 1) = .ok (s', sel)) :
    ∃ s l r, runTicks s₀ n = .ok (s, l) ∧ s.tickPrepare .dev .bootstrap (n + 1) = .ok (s', r) ∧
      sel = l ++ s'.current.toList := by
  simp only [runTicks, bind_eq_ok, pure_eq_ok, Prod.mk.injEq] at h
  obtain ⟨⟨s, l⟩, hb, ⟨s₁, r⟩, ha, rfl, rfl⟩ := h
  exact ⟨s, l, r, hb, ha, rfl⟩

theorem share_run (hw : 1 ≤ w₂) (hle : w₂ ≤ w₁)
    (h : runTicks (spawnAll [(a, w₁), (b, w₂)]) n = .ok (s, sel)) : Share a b w₁ w₂ n s sel := by
  induction n generalizing s sel with
  | zero =>
    cases h
    exact share_spawnAll hw hle
  | succ n ih =>
    obtain ⟨s₀, l, r, hb, ha, rfl⟩ := runTicks_succ h
    obtain ⟨i, hi, hs, _⟩ := (ih hb).step hw ha
    rw [hi]
    exact hs

/- Slices of unequal weights: the heavier thread is charged more. -/
theorem slice_bounds (hw : 1 ≤ w₂) (hlt : w₂ < w₁) :
    slice w₂ (w₁ + w₂) + 1 ≤ slice w₁ (w₁ + w₂) ∧ slice w₁ (w₁ + w₂) ≤ 1023 ∧
      slice w₂ (w₁ + w₂) ≤ 511 := by
  have h₁ : 512 ≤ slice w₁ (w₁ + w₂) := (Nat.le_div_iff_mul_le (by omega)).mpr (by omega)
  have h₂ : slice w₁ (w₁ + w₂) < 1024 := (Nat.div_lt_iff_lt_mul (by omega)).mpr (by omega)
  have h₃ : slice w₂ (w₁ + w₂) < 512 := (Nat.div_lt_iff_lt_mul (by omega)).mpr (by omega)
  omega

/-- As long as the heavier thread has not fallen behind, the number of its turns is
bounded by the total weight. -/
theorem Share.count_le (hs : Share a b w₁ w₂ n s sel) (hw : 1 ≤ w₂) (hlt : w₂ < w₁)
    (hcount : sel.count 1 ≤ sel.count 0) : sel.count 0 ≤ w₁ + w₂ + 1023 := by
  obtain ⟨h₁, h₂, _⟩ := slice_bounds hw hlt
  have hahead := hs.ahead
  have hmore : (slice w₂ (w₁ + w₂) + 1) * sel.count 0 ≤ slice w₁ (w₁ + w₂) * sel.count 0 :=
    Nat.mul_le_mul_right _ h₁
  have hless : slice w₂ (w₁ + w₂) * sel.count 1 ≤ slice w₂ (w₁ + w₂) * sel.count 0 :=
    Nat.mul_le_mul_left _ hcount
  rw [Nat.add_mul, Nat.one_mul] at hmore
  omega

theorem lighter_deadline_le {A B : Nat} (hw : 1 ≤ w₂) (hlt : w₂ < w₁) (hfit : 1024 * (w₁ + w₂) ≤ u64Max)
    (hA : A ≤ w₁ + w₂ + 1023) (hB : B ≤ A) :
    slice w₂ (w₁ + w₂) * B + 1 * (w₁ + w₂) * 1024 / w₂ ≤ u64Max := by
  obtain ⟨_, _, h₃⟩ := slice_bounds hw hlt
  have hmul : slice w₂ (w₁ + w₂) * B ≤ 511 * (w₁ + w₂ + 1023) :=
    Nat.mul_le_mul h₃ (hB.trans hA)
  unfold u64Max at hfit ⊢
  by_cases h2 : 2 ≤ w₂
  · have hdiv : 1 * (w₁ + w₂) * 1024 / w₂ ≤ 1 * (w₁ + w₂) * 1024 / 2 :=
      Nat.div_le_div_left h2 (by omega)
    omega
  · obtain rfl : w₂ = 1 := by omega
    rw [Nat.div_one]
    by_cases hsmall : w₁ + 1 ≤ 1024
    · omega
    · have h0 : slice 1 (w₁ + 1) = 0 := Nat.div_eq_of_lt (by omega)
      rw [h0]
      omega

/-- While the heavier thread has not fallen behind, the next tick goes through. -/
theorem Share.tick_ok (hs : Share a b w₁ w₂ n s sel) (hw : 1 ≤ w₂) (hlt : w₂ < w₁)
    (hfit : 1024 * (w₁ + w₂) ≤ u64Max) (hcount : sel.count 1 ≤ sel.count 0) :
    ∃ s' r, s.tickPrepare .dev .bootstrap (n + 1) = .ok (s', r) := by
  obtain ⟨_, h₂, h₃⟩ := slice_bounds hw hlt
  have hA := hs.count_le hw hlt hcount
  have hheavy : slice w₁ (w₁ + w₂) * sel.count 0 + 1 * (w₁ + w₂) * 1024 / w₁ ≤ u64Max := by
    have hmul : slice w₁ (w₁ + w₂) * sel.count 0 ≤ 1023 * (w₁ + w₂ + 1023) := Nat.mul_le_mul h₂ hA
    have hdiv : 1 * (w₁ + w₂) * 1024 / w₁ ≤ 2048 := Nat.div_le_of_le_mul (by omega)
    unfold u64Max at hfit ⊢
    omega
  have hlight := lighter_deadline_le hw hlt hfit hA hcount
  have hheavy_v := (Nat.le_add_right _ _).trans hheavy
  have hlight_v := (Nat.le_add_right _ _).trans hlight
  obtain ⟨v₁, v₂, cur, low, rfl, hcur, hv₁, hv₂⟩ := hs.state
  refine tickPrepare_ok ⟨rfl, by simp [duo]; omega, ?_⟩ (by simp [duo]) ?_ ?_ ?_ ?_
  · obtain rfl | rfl | rfl := hcur <;> simp [duo]
  · rw [duo_timeSlice, duo_total]
    omega
  · rw [duo_total]
    omega
  · rw [duo_timeSlice, duo_total]
    intro i m hi hm
    obtain rfl | rfl | rfl := hcur
    · cases hi
    · cases hi
      cases hm
      simp only [due, if_true, slice, ThreadMeta.charge] at hv₁ ⊢
      simp only [slice] at hheavy_v
      omega
    · cases hi
      cases hm
      simp only [due, if_true, slice, ThreadMeta.charge] at hv₂ ⊢
      simp only [slice] at hlight_v
      omega
  · rw [duo_timeSlice, duo_chargedMeta hw hcur, duo_total, hv₁, hv₂]
    simp only [List.mem_cons, List.not_mem_nil, or_false, forall_eq_or_imp, forall_eq,
      ThreadMeta.deadline]
    rw [if_neg (by omega), if_neg (by omega)]
    exact ⟨hheavy, hlight⟩

/-- Unequal weights: the heavier thread falls behind within `2 * (w₁ + w₂ + 1024)` ticks. -/
theorem heavier_falls_behind (a b : Thread) (hw : 1 ≤ w₂) (hlt : w₂ < w₁)
    (hfit : 1024 * (w₁ + w₂) ≤ u64Max) :
    ∃ n s sel, runTicks (spawnAll [(a, w₁), (b, w₂)]) n = .ok (s, sel) ∧
      sel.count 0 < sel.count 1 := by
  by_contra hno
  simp only [not_exists, not_and, not_lt] at hno
  have hall (n : Nat) : ∃ s sel, runTicks (spawnAll [(a, w₁), (b, w₂)]) n = .ok (s, sel) := by
    induction n with
    | zero => exact ⟨_, _, rfl⟩
    | succ n ih =>
      obtain ⟨s, sel, hs⟩ := ih
      obtain ⟨s', r, hr⟩ := (share_run hw hlt.le hs).tick_ok hw hlt hfit (hno n s sel hs)
      exact ⟨s', _, bind_eq_ok.mpr ⟨_, hs, bind_eq_ok.mpr ⟨_, hr, rfl⟩⟩⟩
  obtain ⟨s, sel, hs⟩ := hall (2 * (w₁ + w₂ + 1024))
  have hcount := hno _ s sel hs
  have hshare := share_run hw hlt.le hs
  have hle := hshare.count_le hw hlt hcount
  have hsum := hshare.count
  omega

/-- Equal weights alternate. -/
theorem equal_alternate (hw : 1 ≤ w₂)
    (h : runTicks (spawnAll [(a, w₂), (b, w₂)]) n = .ok (s, sel)) :
    sel.count 0 = sel.count 1 ∨ sel.count 0 = sel.count 1 + 1 := by
  induction n generalizing s sel with
  | zero =>
    cases h
    exact Or.inl rfl
  | succ n ih =>
    obtain ⟨s₀, l, r, hb, ha, rfl⟩ := runTicks_succ h
    obtain ⟨i, hi, _, hpick⟩ := (share_run hw le_rfl hb).step hw ha
    rw [hi]
    have hslice : slice w₂ (w₂ + w₂) = 512 := Nat.div_eq_of_lt_le (by omega) (by omega)
    have hne : ¬ w₂ = 0 := by omega
    simp only [Picks, hslice, ThreadMeta.deadline, if_neg hne] at hpick
    obtain ⟨rfl, hpick⟩ | ⟨rfl, hpick⟩ := hpick
    · simp only [Option.toList, List.count_append, List.count_singleton_self]
      obtain he | he := ih hb
      · simp [he]
      · omega
    · simp only [Option.toList, List.count_append, List.count_singleton_self]
      obtain he | he := ih hb
      · omega
      · simp [he]

theorem runTicks_one {s₀ : EevdfScheduler} (h : runTicks s₀ (n + 1) = .ok (s, sel)) :
    ∃ s' sel', runTicks s₀ 1 = .ok (s', sel') := by
  induction n generalizing s sel with
  | zero => exact ⟨s, sel, h⟩
  | succ n ih =>
    obtain ⟨s₁, l, _, hb, _⟩ := runTicks_succ h
    exact ih hb

/-- The first tick computes a deadline of both threads. -/
theorem first_tick_fits (hw : 1 ≤ w₂) (hle : w₂ ≤ w₁)
    (h : runTicks (spawnAll [(a, w₁), (b, w₂)]) 1 = .ok (s, sel)) : 1024 * (w₁ + w₂) ≤ u64Max := by
  obtain ⟨s₀, l, r, hb, ha, _⟩ := runTicks_succ h
  cases hb
  have hs : spawnAll [(a, w₁), (b, w₂)] = duo a b w₁ w₂ 0 0 none 0 0 :=
    spawnAll_state _ (by simp; omega)
  rw [hs] at ha
  have hfits : (duo a b w₁ w₂ 0 0 none 0 0).Fits := by simp [Fits, duo]
  have hsel := tickPrepare_selected hfits (i := 0) ⟨_, rfl, rfl⟩ (by simp [duo]) ha
  obtain ⟨i, low, _, rfl, hmin, _⟩ := duo_step hw (Or.inl rfl) hfits ha
  obtain ⟨_, _, hpick, _⟩ := hsel.picked
  obtain rfl : low = 0 := by
    have hlow := (duo_isMin hmin).1
    simp only [due] at hlow
    simpa using hlow
  rw [duo_timeSlice] at hpick
  simp only [earliestDeadline, bind_eq_ok] at hpick
  obtain ⟨total, hsum, best, hbest, _⟩ := hpick
  rw [sumWeights_dev hsum, duo_total] at hbest
  have helig : (duo a b w₁ w₂ (0 + due none 0 w₁ (w₁ + w₂)) (0 + due none 1 w₂ (w₁ + w₂))
      (some i) 0 (0 + 1)).eligible (max (w₁ + w₂) 1) =
      [(⟨0, w₁, false⟩, 0), (⟨0, w₂, false⟩, 1)] := by
    simp [eligible, duo, due, List.zipIdx]
  rw [helig] at hbest
  obtain ⟨d, hd⟩ := minBy_head hbest
  have hmul := virtualDeadline_fits hd (by simp; omega)
  omega

/-- The heavier of two threads keeps at least as many ticks as the lighter exactly
when they are equally heavy, or when their total is so large that the first tick
already panics. -/
theorem heavier_keeps_share_iff (a b : Thread) (w₁ w₂ : Nat) (hw : 1 ≤ w₂) (hle : w₂ ≤ w₁) :
    (∀ n s sel, runTicks (spawnAll [(a, w₁), (b, w₂)]) n = .ok (s, sel) →
      sel.count 1 ≤ sel.count 0) ↔ w₁ = w₂ ∨ u64Max < 1024 * (w₁ + w₂) := by
  constructor
  · intro hall
    by_contra hno
    obtain ⟨hne, hfit⟩ := not_or.mp hno
    obtain ⟨n, s, sel, hs, hlt⟩ := heavier_falls_behind a b hw (by omega) (not_lt.mp hfit)
    exact absurd (hall n s sel hs) (not_le.mpr hlt)
  · intro hcond n s sel hs
    obtain rfl | hbig := hcond
    · have halt := equal_alternate hw hs
      omega
    · cases n with
      | zero =>
        cases hs
        simp
      | succ n =>
        obtain ⟨s', sel', h1⟩ := runTicks_one hs
        exact absurd (first_tick_fits hw hle h1) (not_le.mpr hbig)

theorem equal_weights_keep_share :
    1 ≤ 1024 ∧ ∀ n s sel, runTicks (spawnAll [(⟨7⟩, 1024), (⟨8⟩, 1024)]) n = .ok (s, sel) →
      sel.count 1 ≤ sel.count 0 :=
  ⟨by decide, (heavier_keeps_share_iff ⟨7⟩ ⟨8⟩ 1024 1024 (by decide) le_rfl).mpr (Or.inl rfl)⟩

/-- Weights 2 and 1: after three ticks the heavier thread has run once and the
lighter one twice. -/
theorem heavier_runs_less :
    ∃ s, runTicks (spawnAll [(⟨7⟩, 2), (⟨8⟩, 1)]) 3 = .ok (s, [0, 1, 1]) ∧
      [0, 1, 1].count 0 < [0, 1, 1].count 1 := by
  refine ⟨⟨[⟨7⟩, ⟨8⟩], [⟨682, 2, false⟩, ⟨341, 1, false⟩], some 1, 341, 3⟩, ?_, by decide⟩
  decide +kernel

end EevdfScheduler
end MoltOS.Eevdf
