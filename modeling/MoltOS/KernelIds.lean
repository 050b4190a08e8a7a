import MoltOS.KernelAgree

/-! Thread ids never repeat: `ThreadId::next` hands each out once, and a thread that is
created is spawned at most once. The counter is taken to be unbounded. -/
namespace MoltOS.Kernel
open MoltOS.Rust MoltOS.Eevdf MoltOS.Transition

variable {μ α R : Type} {s t : Core μ α R} {e : Event μ α R} {p : Profile}

def Pc.spawning : Pc μ α R → Option ThreadId
  | .acquire (.spawn x _ _) | .disable (.spawn x _ _) _ | .spin (.spawn x _ _) _
  | .locked (.spawn x _ _) _ => some x.id
  | _ => none

structure Ids (s : Core μ α R) : Prop where
  nodup : (s.sched.threads.map (·.id)).Nodup
  old : ∀ x ∈ s.sched.threads, x.id < s.nextId
  pending : ∀ f id, (s.pc f).spawning = some id →
    id < s.nextId ∧ ∀ x ∈ s.sched.threads, x.id ≠ id
  distinct : ∀ f g id, (s.pc f).spawning = some id → (s.pc g).spawning = some id → f = g

theorem Ids.init (data : μ → α) (r : R) : Ids (Core.init data r) := by
  refine ⟨?_, ?_, ?_, ?_⟩ <;> simp [Core.init, EevdfScheduler.new, Pc.spawning]

theorem Ids.goto (h : Ids s) {u : Core μ α R} {k : Pc μ α R} (hr : u.running = s.running)
    (hpc : u.pc = s.pc) (hth : u.sched.threads = s.sched.threads) (hn : u.nextId = s.nextId)
    (hk : ∀ id, k.spawning = some id → (s.pc s.running).spawning = some id) :
    Ids (u.goto k) := by
  have back (f : Flow) (id : ThreadId) (hf : ((u.goto k).pc f).spawning = some id) :
      (s.pc f).spawning = some id := by
    by_cases hne : f = u.running
    · subst hne
      rw [goto_pc_self] at hf
      rw [hr]
      exact hk id hf
    · rwa [goto_pc_other u k hne, hpc] at hf
  refine ⟨?_, ?_, ?_, ?_⟩
  · change (u.sched.threads.map (·.id)).Nodup
    rw [hth]
    exact h.nodup
  · change ∀ x ∈ u.sched.threads, x.id < u.nextId
    rw [hth, hn]
    exact h.old
  · intro f id hf
    change id < u.nextId ∧ ∀ x ∈ u.sched.threads, x.id ≠ id
    rw [hth, hn]
    exact h.pending f id (back f id hf)
  · intro f g id hf hg
    exact h.distinct f g id (back f id hf) (back g id hg)

/- `Thread::new` takes the next id. -/
theorem Ids.newThread (h : Ids s) (weight : Option Nat) (entry : R) :
    Ids ({ s with nextId := s.nextId + 1 }.goto (.acquire (.spawn ⟨s.nextId⟩ weight entry))) := by
  have fresh (f : Flow) (hf : (s.pc f).spawning = some s.nextId) : False :=
    absurd (h.pending f _ hf).1 (lt_irrefl _)
  refine ⟨h.nodup, fun x hx => (h.old x hx).trans (Nat.lt_succ_self _), ?_, ?_⟩
  · intro f id hf
    by_cases hne : f = s.running
    · subst hne
      simp only [Core.goto, Function.update_self, Pc.spawning, Option.some.injEq] at hf
      subst hf
      exact ⟨Nat.lt_succ_self _, fun x hx => (h.old x hx).ne⟩
    · simp only [Core.goto, Function.update_of_ne hne] at hf
      have hold := h.pending f id hf
      exact ⟨hold.1.trans (Nat.lt_succ_self _), hold.2⟩
  · intro f g id hf hg
    by_cases hfr : f = s.running <;> by_cases hgr : g = s.running
    · rw [hfr, hgr]
    · simp only [hfr, Core.goto, Function.update_self, Function.update_of_ne hgr, Pc.spawning,
        Option.some.injEq] at hf hg
      exact (fresh g (hf ▸ hg)).elim
    · simp only [hgr, Core.goto, Function.update_self, Function.update_of_ne hfr, Pc.spawning,
        Option.some.injEq] at hf hg
      exact (fresh f (hg ▸ hf)).elim
    · simp only [Core.goto, Function.update_of_ne hfr, Function.update_of_ne hgr] at hf hg
      exact h.distinct f g id hf hg

theorem Ids.spawn (h : Ids s) {x : Thread} {weight : Option Nat} {entry : R} {w : Bool}
    (hpc : s.pc s.running = .locked (.spawn x weight entry) w) {k : Pc μ α R}
    (hk : k.spawning = none) : Ids ((s.spawnThread x weight entry).goto k) := by
  have hself : (s.pc s.running).spawning = some x.id := by rw [hpc]; rfl
  obtain ⟨hlt, hne⟩ := h.pending s.running x.id hself
  have hth := spawnThread_threads s x weight entry
  have back (f : Flow) (id : ThreadId)
      (hf : (((s.spawnThread x weight entry).goto k).pc f).spawning = some id) :
      f ≠ s.running ∧ (s.pc f).spawning = some id := by
    by_cases hfr : f = s.running
    · subst hfr
      change (((s.spawnThread x weight entry).goto k).pc
        (s.spawnThread x weight entry).running).spawning = _ at hf
      rw [goto_pc_self, hk] at hf
      cases hf
    · exact ⟨hfr, by simpa [Core.goto, Core.spawnThread, hfr] using hf⟩
  refine ⟨?_, ?_, ?_, ?_⟩
  · change ((s.spawnThread x weight entry).sched.threads.map (·.id)).Nodup
    rw [hth, List.map_append, List.nodup_append]
    refine ⟨h.nodup, by simp, ?_⟩
    intro a ha b hb
    obtain ⟨y, hy, rfl⟩ := List.mem_map.mp ha
    simp only [List.map_cons, List.map_nil, List.mem_singleton] at hb
    rw [hb]
    exact hne y hy
  · change ∀ y ∈ (s.spawnThread x weight entry).sched.threads, y.id < s.nextId
    rw [hth]
    intro y hy
    cases List.mem_append.mp hy with
    | inl hy => exact h.old y hy
    | inr hy =>
      rw [List.mem_singleton.mp hy]
      exact hlt
  · intro f id hf
    obtain ⟨hfr, hf⟩ := back f id hf
    refine ⟨(h.pending f id hf).1, ?_⟩
    change ∀ y ∈ (s.spawnThread x weight entry).sched.threads, y.id ≠ id
    rw [hth]
    intro y hy
    cases List.mem_append.mp hy with
    | inl hy => exact (h.pending f id hf).2 y hy
    | inr hy =>
      rw [List.mem_singleton.mp hy]
      intro he
      exact hfr (h.distinct f s.running id hf (he ▸ hself))
  · intro f g id hf hg
    exact h.distinct f g id (back f id hf).2 (back g id hg).2

theorem Jump.spawning {k k' : Pc μ α R} (h : Jump s e k k') (id : ThreadId)
    (hk : k'.spawning = some id) : k.spawning = some id := by
  cases h with
  | flag c => cases c <;> exact hk
  | resume c k hr => cases c <;> cases hr <;> cases hk
  | _ => cases hk

variable [DecidableEq μ]

theorem Ids.step (h : Ids s) (hs : Step p s e t) : Ids t := by
  have leaves {u : Core μ α R} {k : Pc μ α R} (hr : u.running = s.running) (hpc : u.pc = s.pc)
      (hth : u.sched.threads = s.sched.threads) (hn : u.nextId = s.nextId)
      (hk : k.spawning = none) : Ids (u.goto k) :=
    h.goto hr hpc hth hn fun id hid => by rw [hk] at hid; cases hid
  cases hs.move with
  | jump hm hj => exact h.goto rfl rfl rfl rfl hj.spawning
  | newThread weight entry hm hpc => exact h.newThread weight entry
  | own m k hm hl hk =>
    refine leaves rfl rfl rfl rfl ?_
    generalize s.pc s.running = k₀ at hk
    cases hk <;> rfl
  | disable c w hm hpc =>
    exact h.goto rfl rfl rfl rfl fun id hid => by rw [hpc]; cases c <;> exact hid
  | take c w hm hpc hh =>
    exact h.goto rfl rfl rfl rfl fun id hid => by rw [hpc]; cases c <;> exact hid
  | tick w sched sw hm hpc hsched =>
    exact leaves rfl rfl (EevdfScheduler.tickPrepare_shape hsched).1 rfl rfl
  | block w sched sw hm hpc hsched =>
    exact leaves rfl rfl (EevdfScheduler.block_threads hsched) rfl rfl
  | enqueue m id sched sw hm hpc hw hsched =>
    exact leaves rfl rfl (EevdfScheduler.block_threads hsched) rfl rfl
  | unblock id k w sched hm hpc hsched =>
    exact leaves rfl rfl (EevdfScheduler.unblock_frame hsched).1 rfl rfl
  | spawn x weight entry w hm hpc => exact h.spawn hpc rfl
  | restore w k hm hpc => exact leaves rfl rfl rfl rfl (by cases k <;> rfl)
  | halt c hm hpc => exact leaves rfl rfl rfl rfl (by cases c <;> rfl)
  | irqTick frame sched sw hm hh hsched =>
    have hth := (EevdfScheduler.tickPrepare_shape hsched).1
    exact ⟨hth ▸ h.nodup, hth ▸ h.old, hth ▸ h.pending, h.distinct⟩
  | drop | write | unlock | release | save | dropLock | pop | dropUnlock =>
    exact leaves rfl rfl rfl rfl rfl
  | compute | setInterrupts | irq | irqReturn | irqSave | load =>
    exact ⟨h.nodup, h.old, h.pending, h.distinct⟩

end MoltOS.Kernel
