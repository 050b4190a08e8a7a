import MoltOS.EevdfRun

/-! Which threads each scheduler operation blocks and unblocks, position by position. -/
namespace MoltOS.Eevdf
open MoltOS.Rust

def BlockedAt (ms : List ThreadMeta) (i : Nat) : Prop := ∃ m, ms[i]? = some m ∧ m.blocked = true

theorem blockedAt_of_shape {ms ms' : List ThreadMeta} (h : shape ms' = shape ms) {i : Nat} :
    BlockedAt ms' i ↔ BlockedAt ms i := flag_of_shape h

theorem BlockedAt.not_runnable {ms : List ThreadMeta} {i : Nat} (h : BlockedAt ms i) :
    ¬ RunnableAt ms i := by
  intro hr
  obtain ⟨m, hm, hb⟩ := h
  obtain ⟨m', hm', hb'⟩ := hr
  have he := Option.some.inj (hm.symm.trans hm')
  rw [he, hb'] at hb
  cases hb

theorem BlockedAt.lt {ms : List ThreadMeta} {i : Nat} (h : BlockedAt ms i) : i < ms.length := by
  obtain ⟨m, hm, _⟩ := h
  exact (List.getElem?_eq_some_iff.mp hm).1

theorem runnable_or_blocked {ms : List ThreadMeta} {i : Nat} (h : i < ms.length) :
    RunnableAt ms i ∨ BlockedAt ms i := by
  have hi : ms[i]? = some ms[i] := List.getElem?_eq_getElem h
  cases hb : ms[i].blocked with
  | false => exact Or.inl ⟨_, hi, hb⟩
  | true => exact Or.inr ⟨_, hi, hb⟩

theorem blockedAt_set {ms : List ThreadMeta} {i j : Nat} {m : ThreadMeta} {b : Bool}
    (hi : ms[i]? = some m) :
    BlockedAt (ms.set i { m with blocked := b }) j ↔
      (j = i ∧ b = true) ∨ (j ≠ i ∧ BlockedAt ms j) := flag_set hi

theorem runnableAt_set_false {ms : List ThreadMeta} {i j : Nat} {m : ThreadMeta}
    (hi : ms[i]? = some m) (h : RunnableAt ms j ∨ j = i) :
    RunnableAt (ms.set i { m with blocked := false }) j := by
  refine (flag_set hi).mpr ?_
  by_cases hj : j = i
  · exact .inl ⟨hj, rfl⟩
  · exact .inr ⟨hj, h.resolve_right hj⟩

theorem blockedAt_push {ms : List ThreadMeta} {m : ThreadMeta} (hm : m.blocked = false) {i : Nat} :
    BlockedAt (ms ++ [m]) i ↔ BlockedAt ms i := by
  unfold BlockedAt
  by_cases hi : i < ms.length
  · rw [List.getElem?_append_left hi]
  · have hnone : ms[i]? = none := List.getElem?_eq_none (by omega)
    rw [hnone]
    constructor
    · intro h
      obtain ⟨x, hx, hb⟩ := h
      rw [List.getElem?_append_right (by omega)] at hx
      have hmem := List.mem_of_getElem? hx
      simp only [List.mem_singleton] at hmem
      rw [hmem, hm] at hb
      cases hb
    · intro h
      obtain ⟨x, hx, _⟩ := h
      cases hx

theorem runnableAt_push {ms : List ThreadMeta} (m : ThreadMeta) {i : Nat} (h : RunnableAt ms i) :
    RunnableAt (ms ++ [m]) i := by
  have hlt := h.lt
  obtain ⟨x, hx, hb⟩ := h
  exact ⟨x, by rw [List.getElem?_append_left hlt]; exact hx, hb⟩

theorem index_unique {ts : List Thread} (hids : (ts.map (·.id)).Nodup) {i j : Nat} {t u : Thread}
    (ht : ts[i]? = some t) (hu : ts[j]? = some u) (h : t.id = u.id) : i = j := by
  have hi : (ts.map (·.id))[i]? = some t.id := by simp [ht]
  have hj : (ts.map (·.id))[j]? = some t.id := by simp [hu, h]
  have hlt := (List.getElem?_eq_some_iff.mp hi).1
  exact (List.getElem?_inj hlt hids).mp (hi.trans hj.symm)

namespace EevdfScheduler
variable {s s' : EevdfScheduler} {p : Profile} {b : CtxPtr} {n : Nat} {r : Option Switch}

theorem tickPrepare_blockedAt (h : s.tickPrepare p b n = .ok (s', r)) {i : Nat} :
    BlockedAt s'.metadata i ↔ BlockedAt s.metadata i :=
  blockedAt_of_shape (tickPrepare_shape h).2.1

theorem tickPrepare_runnableAt (h : s.tickPrepare p b n = .ok (s', r)) {i : Nat} :
    RunnableAt s'.metadata i ↔ RunnableAt s.metadata i :=
  runnableAt_of_shape (tickPrepare_shape h).2.1

/-- The current thread after a tick can run, or nobody can and nothing has changed. -/
theorem tickPrepare_current (hv : s.Valid) (h : s.tickPrepare p b n = .ok (s', r)) {i : Nat}
    (hi : s'.current = some i) :
    RunnableAt s'.metadata i ∨ (AllBlocked s'.metadata ∧ s.current = some i ∧ r = none) := by
  obtain ⟨he, rfl, hr⟩ | ⟨_, c, _, hc, ⟨hn, rfl, hr⟩ | ⟨k, hk, ⟨hkeep, rfl, _⟩ | ⟨_, rfl, _⟩⟩⟩ :=
    tickPrepare_cases h
  · have hlt := hv.current i hi
    simp [he] at hlt
  · exact Or.inr ⟨nextIdx_none hn, hc.current ▸ hi, hr⟩
  · left
    have hcur : s.current = some i := hc.current ▸ hi
    rw [hkeep.1] at hcur
    cases hcur
    exact nextIdx_some hk
  · left
    cases hi
    exact nextIdx_some hk

theorem block_blockedAt {i₀ : Nat} (hcur : s.current = some i₀)
    (h : s.blockCurrentAndPrepareSwitch p b n = .ok (s', r)) {i : Nat} :
    BlockedAt s'.metadata i ↔ i = i₀ ∨ BlockedAt s.metadata i := by
  obtain ⟨hn, _⟩ | ⟨j, m, hj, hm, h⟩ := block_cases h
  · rw [hcur] at hn
    cases hn
  · rw [hcur] at hj
    cases hj
    rw [tickPrepare_blockedAt h, blockedAt_set hm]
    by_cases hi : i = i₀ <;> simp [hi]

theorem block_runnableAt {i₀ : Nat} (hcur : s.current = some i₀)
    (h : s.blockCurrentAndPrepareSwitch p b n = .ok (s', r)) {i : Nat} (hi : i ≠ i₀)
    (hr : RunnableAt s.metadata i) : RunnableAt s'.metadata i := by
  obtain ⟨hn, _⟩ | ⟨j, m, hj, hm, h⟩ := block_cases h
  · rw [hcur] at hn
    cases hn
  · rw [hcur] at hj
    cases hj
    exact (tickPrepare_runnableAt h).mpr ((runnableAt_marked hm).mpr ⟨hi, hr⟩)

/-- Blocking the current thread leaves nobody to run, or hands over to a thread that can. -/
theorem block_current {i₀ : Nat} (hv : s.Valid) (hcur : s.current = some i₀)
    (h : s.blockCurrentAndPrepareSwitch p b n = .ok (s', r)) :
    (r = none ∧ s'.current = some i₀ ∧ AllBlocked s'.metadata) ∨
    ∃ j, j ≠ i₀ ∧ s'.current = some j ∧ RunnableAt s'.metadata j ∧
      r = some (.thread i₀, .thread j) := by
  have hblk (i : Nat) := block_blockedAt hcur h (i := i)
  have hv' := hv.block h
  cases block_switch hv hcur h with
  | inl hnone =>
    refine Or.inl ⟨hnone.1, hnone.2.1, allBlocked_iff.mpr fun j hj => ?_⟩
    by_cases hji : j = i₀
    · exact ((hblk j).mpr (Or.inl hji)).not_runnable hj
    · have hlt : j < s.metadata.length := by
        have hj' := hj.lt
        rw [← hv'.lengths, block_threads h, hv.lengths] at hj'
        exact hj'
      cases runnable_or_blocked hlt with
      | inl hr => exact hnone.2.2 j hji hr
      | inr hb => exact ((hblk j).mpr (Or.inr hb)).not_runnable hj
  | inr hsome =>
    obtain ⟨j, hji, hrun, hj, hr⟩ := hsome
    refine Or.inr ⟨j, hji, hj, ?_, hr⟩
    have hlt : j < s'.metadata.length := by
      rw [← hv'.lengths]
      exact hv'.current j hj
    cases runnable_or_blocked hlt with
    | inl hr => exact hr
    | inr hb =>
      cases (hblk j).mp hb with
      | inl he => exact absurd he hji
      | inr hb => exact absurd hrun hb.not_runnable

theorem unblock_blockedAt {id : ThreadId} (h : s.unblockThread id = .ok s') {i : Nat}
    (hb : BlockedAt s'.metadata i) : BlockedAt s.metadata i := by
  obtain ⟨rfl, _⟩ | ⟨j, t, m, _, _, hm, rfl⟩ := unblockThread_ok h
  · exact hb
  · have hb' := (blockedAt_set hm).mp hb
    cases hb' with
    | inl hi => cases hi.2
    | inr hi => exact hi.2

theorem unblock_runnableAt {id : ThreadId} (h : s.unblockThread id = .ok s') {i : Nat}
    (hr : RunnableAt s.metadata i) : RunnableAt s'.metadata i := by
  obtain ⟨rfl, _⟩ | ⟨j, t, m, _, _, hm, rfl⟩ := unblockThread_ok h
  · exact hr
  · exact runnableAt_set_false hm (Or.inl hr)

/-- With distinct ids, `unblock_thread` clears the flag of the one thread it names. -/
theorem unblock_exact {id : ThreadId} {i : Nat} {t : Thread} (hids : (s.threads.map (·.id)).Nodup)
    (ht : s.threads[i]? = some t) (hid : t.id = id) (h : s.unblockThread id = .ok s') :
    RunnableAt s'.metadata i ∧ ∀ j, BlockedAt s'.metadata j ↔ j ≠ i ∧ BlockedAt s.metadata j := by
  cases unblockThread_ok h with
  | inl h => exact absurd hid (h.2 t (List.mem_of_getElem? ht))
  | inr h =>
    obtain ⟨k, u, m, hu, huid, hm, rfl⟩ := h
    obtain rfl := index_unique hids hu ht (huid.trans hid.symm)
    refine ⟨runnableAt_set_false hm (Or.inr rfl), fun j => ?_⟩
    simp [blockedAt_set hm]

end EevdfScheduler
end MoltOS.Eevdf
