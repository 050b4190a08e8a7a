import Mathlib.Computability.StateTransition

/-! Invariants and endless loops of a machine given by a step function that is `none` where the
machine halts. -/
namespace MoltOS.Machine
open StateTransition

variable {σ : Type*} {f : σ → Option σ} {a b c : σ}

theorem reaches_step (h : f a = some b) (hbc : Reaches f b c) : Reaches f a c :=
  Relation.ReflTransGen.head h hbc

theorem reaches_single (h : f a = some b) : Reaches f a b := Relation.ReflTransGen.single h

/-- What every step keeps holds wherever the machine gets. -/
theorem reaches_invariant {P : σ → Prop} (hstep : ∀ s t, f s = some t → P s → P t)
    (h : Reaches f a b) (ha : P a) : P b := by
  induction h with
  | refl => exact ha
  | tail _ hk ih => exact hstep _ _ hk ih

/-- A machine that steps from a state to itself never gets anywhere else. -/
theorem reaches_loop (h : f a = some a) (hab : Reaches f a b) : b = a :=
  reaches_invariant (P := fun s => s = a)
    (fun s t hst hs => by
      rw [hs, h] at hst
      exact (Option.some.inj hst).symm) hab rfl

theorem not_dom_of_loop (h : f b = some b) (hab : Reaches f a b) : ¬ (eval f a).Dom := by
  intro hdom
  rw [reaches_eval hab] at hdom
  obtain ⟨hbt, hhalt⟩ := mem_eval.mp (Part.get_mem hdom)
  rw [reaches_loop h hbt, h] at hhalt
  cases hhalt

theorem dom_of_halt (hab : Reaches f a b) (h : f b = none) : (eval f a).Dom :=
  Part.dom_iff_mem.mpr ⟨b, mem_eval.mpr ⟨hab, h⟩⟩

/-- The machine halts in one state only. -/
theorem halt_unique (hab : Reaches f a b) (hb : f b = none) (hac : Reaches f a c)
    (hc : f c = none) : c = b :=
  Part.mem_unique (mem_eval.mpr ⟨hac, hc⟩) (mem_eval.mpr ⟨hab, hb⟩)

end MoltOS.Machine
