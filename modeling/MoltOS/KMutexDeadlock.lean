import MoltOS.KMutexOwner
import MoltOS.KernelAwake

/-! The deadlock branch of `KMutex::lock` under non-nested use: a set flag has an owner,
an owner is in no lock call, and a thread in no lock call is not blocked. -/
namespace MoltOS.Kernel
open MoltOS.Rust MoltOS.Eevdf MoltOS.Transition

variable {μ α R : Type} {s t : Core μ α R} {e : Event μ α R} {data : μ → α}

def Pc.locking : Pc μ α R → Option μ
  | .lockTry m => some m
  | .acquire (.kmutexLock m) | .disable (.kmutexLock m) _ | .spin (.kmutexLock m) _
  | .locked (.kmutexLock m) _ => some m
  | .enqueue m _ => some m
  | .prepared (.kmutexLock m) _ | .released (.kmutexLock m) _ | .resumed (.kmutexLock m)
  | .deadlock (.kmutexLock m) => some m
  | .unlock _ (.lockTry m) | .restore _ (.lockTry m) => some m
  | _ => none

/- No lock call while a guard is owned, none from bootstrap, and no other blocking. -/
def NonNested (s : Core μ α R) (e : Event μ α R) : Prop :=
  match e with
  | .lock _ => s.running ≠ .bootstrap ∧ s.guards s.running = []
  | .blockAndYield => False
  | _ => True

instance (s : Core μ α R) : (e : Event μ α R) → Decidable (NonNested s e)
  | .lock _ => inferInstanceAs (Decidable (_ ≠ _ ∧ _ = _))
  | .blockAndYield => instDecidableFalse
  | .irq _ | .advance | .compute _ | .setInterrupts _ | .drop _ | .read _ | .write _
  | .enterScheduler | .unblockThread _ | .spawn _ _ => instDecidableTrue

theorem NonNested.yields (h : NonNested s e) : e.yields = false := by
  cases e with
  | blockAndYield => exact h.elim
  | _ => rfl

theorem Jump.locking {k k' : Pc μ α R} (h : Jump s e k k') {m : μ} (hm : k'.locking = some m) :
    k.locking = some m ∨ e = .lock m := by
  cases h with
  | lock n =>
    cases hm
    exact Or.inr rfl
  | contend n hl | wait n w id hl hid | retry n w hl hid => exact Or.inl hm
  | flag c => cases c <;> exact Or.inl hm
  | resume c k hk => cases c <;> cases hk <;> exact Or.inl hm
  | read | enter | yield | unblock | wake | popNone => cases hm

theorem Pc.locking_of_sleepsOn {k : Pc μ α R} {m : μ} (h : k.sleepsOn = some m) :
    k.locking = some m := by
  cases k with
  | prepared c sw | released c sw | resumed c | deadlock c =>
    cases c <;> exact h
  | _ => cases h

structure Nest (s : Core μ α R) : Prop where
  empty : ∀ f m, (s.pc f).locking = some m → f ≠ .bootstrap ∧ s.guards f = []
  boot : s.guards .bootstrap = []
  spawned : ∀ i, s.guards (.thread i) ≠ [] → i < s.sched.threads.length

theorem Nest.init (data : μ → α) (r : R) : Nest (Core.init data r) := by
  refine ⟨?_, ?_, ?_⟩ <;> simp [Core.init, Pc.locking]

theorem Nest.goto (h : Nest s) {u : Core μ α R} {k : Pc μ α R} (hr : u.running = s.running)
    (hpc : u.pc = s.pc) (hg : u.guards = s.guards)
    (hn : s.sched.threads.length ≤ u.sched.threads.length)
    (hk : ∀ m, k.locking = some m → s.running ≠ .bootstrap ∧ s.guards s.running = []) :
    Nest (u.goto k) := by
  refine ⟨?_, ?_, ?_⟩
  · intro f m hf
    change f ≠ .bootstrap ∧ u.guards f = []
    rw [hg]
    by_cases hne : f = u.running
    · subst hne
      rw [goto_pc_self] at hf
      rw [hr]
      exact hk m hf
    · rw [goto_pc_other u k hne, hpc] at hf
      exact h.empty f m hf
  · change u.guards .bootstrap = []
    rw [hg]
    exact h.boot
  · intro i hi
    change u.guards (.thread i) ≠ [] at hi
    rw [hg] at hi
    exact (h.spawned i hi).trans_le hn

/- Changing the guards of a flow that ends up outside `lock`. -/
theorem Nest.reguard (h : Nest s) {u : Core μ α R} {k : Pc μ α R} {l : List μ}
    (hr : u.running = s.running) (hpc : u.pc = s.pc)
    (hg : u.guards = Function.update s.guards s.running l) (hsched : u.sched = s.sched)
    (hl : s.running = .bootstrap → l = [])
    (hi : ∀ i, s.running = .thread i → i < s.sched.threads.length) (hk : k.locking = none) :
    Nest (u.goto k) := by
  refine ⟨?_, ?_, ?_⟩
  · intro f m hf
    change f ≠ .bootstrap ∧ u.guards f = []
    by_cases hne : f = u.running
    · subst hne
      rw [goto_pc_self, hk] at hf
      cases hf
    · rw [goto_pc_other u k hne, hpc] at hf
      rw [hg, Function.update_of_ne (hr ▸ hne)]
      exact h.empty f m hf
  · change u.guards .bootstrap = []
    rw [hg]
    by_cases hb : s.running = .bootstrap
    · rw [hb, Function.update_self]
      exact hl hb
    · rw [Function.update_of_ne (Ne.symm hb)]
      exact h.boot
  · intro i hne
    change u.guards (.thread i) ≠ [] at hne
    change i < u.sched.threads.length
    rw [hsched]
    by_cases hf : s.running = .thread i
    · exact hi i hf
    · rw [hg, Function.update_of_ne (Ne.symm hf)] at hne
      exact h.spawned i hne

variable [DecidableEq μ] {p : Profile}

theorem Nest.step (h : Nest s) (hc : CoreInv s) (hs : Restrict (Step p) NonNested s e t) :
    Nest t := by
  have keep {u : Core μ α R} {k : Pc μ α R} (hr : u.running = s.running) (hpc : u.pc = s.pc)
      (hg : u.guards = s.guards) (hn : u.sched.threads = s.sched.threads)
      (hk : k.locking = (s.pc s.running).locking) : Nest (u.goto k) :=
    h.goto hr hpc hg (by rw [hn]) fun m hm => h.empty s.running m (hk ▸ hm)
  have out {u : Core μ α R} {k : Pc μ α R} (hr : u.running = s.running) (hpc : u.pc = s.pc)
      (hg : u.guards = s.guards) (hn : s.sched.threads.length ≤ u.sched.threads.length)
      (hk : k.locking = none) : Nest (u.goto k) :=
    h.goto hr hpc hg hn fun m hm => by rw [hk] at hm; cases hm
  obtain ⟨hs, hno⟩ := hs
  cases hs.move with
  | jump hm hj =>
    refine h.goto rfl rfl rfl le_rfl fun m hk => ?_
    cases hj.locking hk with
    | inl hold => exact h.empty s.running m hold
    | inr he =>
      subst he
      exact hno
  | compute r hm hpc => exact ⟨h.empty, h.boot, h.spawned⟩
  | setInterrupts b hm hpc => exact ⟨h.empty, h.boot, h.spawned⟩
  | newThread weight entry hm hpc => exact out rfl rfl rfl le_rfl rfl
  | drop m hm hpc hg =>
    refine h.reguard rfl rfl rfl rfl (fun hb => ?_) hc.stored.running rfl
    rw [hb, h.boot] at hg
    cases hg
  | write m v f hm hpc => exact out rfl rfl rfl le_rfl rfl
  | own m k hm hl hk =>
    have hlock : (s.pc s.running).locking = some m ∧ k.locking = none := by
      generalize s.pc s.running = k₀ at hk
      cases hk <;> exact ⟨rfl, rfl⟩
    exact h.reguard rfl rfl rfl rfl (fun hb => absurd hb (h.empty _ m hlock.1).1)
      hc.stored.running hlock.2
  | disable c w hm hpc => exact keep rfl rfl rfl rfl (by rw [hpc]; cases c <;> rfl)
  | take c w hm hpc hh => exact keep rfl rfl rfl rfl (by rw [hpc]; cases c <;> rfl)
  | tick w sched sw hm hpc hsched =>
    exact out rfl rfl rfl (by simp [(EevdfScheduler.tickPrepare_shape hsched).1]) rfl
  | block w sched sw hm hpc hsched =>
    exact out rfl rfl rfl (by simp [EevdfScheduler.block_threads hsched]) rfl
  | enqueue m id sched sw hm hpc hw hsched =>
    exact keep rfl rfl rfl (EevdfScheduler.block_threads hsched) (by rw [hpc]; rfl)
  | unblock id k w sched hm hpc hsched =>
    refine out rfl rfl rfl (by simp [(EevdfScheduler.unblock_frame hsched).1]) ?_
    cases k <;> rfl
  | spawn thread weight entry w hm hpc =>
    exact out rfl rfl rfl (by simp [spawnThread_threads]) rfl
  | unlock w k hm hpc => exact keep rfl rfl rfl rfl (by rw [hpc]; cases k <;> rfl)
  | restore w k hm hpc => exact keep rfl rfl rfl rfl (by rw [hpc]; cases k <;> rfl)
  | release c sw hm hpc => exact keep rfl rfl rfl rfl (by rw [hpc]; cases c <;> rfl)
  | save c fromCtx toCtx hm hpc => exact keep rfl rfl rfl rfl (by rw [hpc]; cases c <;> rfl)
  | halt c hm hpc => exact keep rfl rfl rfl rfl (by rw [hpc]; cases c <;> rfl)
  | dropLock m hm hpc hw => exact out rfl rfl rfl le_rfl rfl
  | pop m id rest hm hpc hw => exact out rfl rfl rfl le_rfl rfl
  | dropUnlock m hm hpc => exact out rfl rfl rfl le_rfl rfl
  | irqTick frame sched sw hm hh hsched =>
    refine ⟨h.empty, h.boot, fun i hi => ?_⟩
    change i < sched.threads.length
    rw [(EevdfScheduler.tickPrepare_shape hsched).1]
    exact h.spawned i hi
  | irq | irqReturn | irqSave | load => exact ⟨h.empty, h.boot, h.spawned⟩

structure Live (data : μ → α) (s : Core μ α R) : Prop where
  core : CoreInv s
  owned : Owned data s
  calls : Calls (fun c => c.yields = false) s
  enqueues : Enqueues s
  awake : Awake s
  nest : Nest s
  free : ∀ f, (s.pc f).stuck = false

omit [DecidableEq μ] in
theorem Live.init (data : μ → α) (r : R) : Live data (Core.init data r) := by
  refine ⟨CoreInv.init data r, Owned.init data r, ?_, ?_, Awake.init data r, Nest.init data r, ?_⟩
  · intro f c hc
    cases hc
  · intro f m id hf
    cases hf
  · intro f
    rfl

omit [DecidableEq μ] in
/-- When a thread is about to block on `m`, the owner of `m` can run. -/
theorem Live.owner_runs (h : Live data s) {m : μ} {id : ThreadId}
    (hpc : s.pc s.running = .enqueue m id) :
    ∃ i j, s.running = .thread i ∧ s.sched.current = some i ∧ j ≠ i ∧
      RunnableAt s.sched.metadata j := by
  have hmask : (s.pc s.running).masked = true := by rw [hpc]; rfl
  have hcur := h.core.current (h.core.shielded.alone _ hmask).2 (by rw [hpc]; rfl)
  obtain ⟨hboot, hnone⟩ := h.nest.empty s.running m (by rw [hpc]; rfl)
  obtain ⟨g, hg⟩ := (h.owned.locked m).mp (h.enqueues _ m id hpc).1
  obtain ⟨i, hi⟩ : ∃ i, s.sched.current = some i := by
    cases ho : s.sched.current with
    | none =>
      rw [ho] at hcur
      exact absurd hcur hboot
    | some i => exact ⟨i, rfl⟩
  rw [hi] at hcur
  change s.running = .thread i at hcur
  cases g with
  | bootstrap =>
    rw [h.nest.boot] at hg
    cases hg
  | thread j =>
    have hne : s.guards (.thread j) ≠ [] := List.ne_nil_of_mem hg
    refine ⟨i, j, hcur, hi, ?_, ?_⟩
    · intro hji
      rw [hcur, ← hji] at hnone
      exact hne hnone
    · have hlt := h.nest.spawned j hne
      rw [h.core.valid.lengths] at hlt
      cases runnable_or_blocked hlt with
      | inl hr => exact hr
      | inr hb =>
        obtain ⟨n, hn⟩ := Option.ne_none_iff_exists'.mp (h.awake.asleep j hb)
        exact absurd (h.nest.empty _ n (Pc.locking_of_sleepsOn hn)).2 hne

omit [DecidableEq μ] in
/-- So blocking hands over to another thread. -/
theorem Live.block_some (h : Live data s) {m : μ} {id : ThreadId} {sched : EevdfScheduler}
    {sw : Option Switch} (hpc : s.pc s.running = .enqueue m id)
    (hs : s.sched.blockCurrentAndPrepareSwitch p .bootstrap s.ticks = .ok (sched, sw)) :
    ∃ i k, s.running = .thread i ∧ k ≠ i ∧ RunnableAt s.sched.metadata k ∧
      sw = some (.thread i, .thread k) := by
  obtain ⟨i, j, hrun, hi, hji, hj⟩ := h.owner_runs hpc
  cases EevdfScheduler.block_switch h.core.valid hi hs with
  | inl hnone => exact absurd hj (hnone.2.2 j hji)
  | inr hsome =>
    obtain ⟨k, hki, hk, _, hsw⟩ := hsome
    exact ⟨i, k, hrun, hki, hk, hsw⟩

theorem Live.free_step (h : Live data s) (hs : Step p s e t) (f : Flow) :
    (t.pc f).stuck = false := by
  have keep {u : Core μ α R} {k : Pc μ α R} (hr : u.running = s.running) (hpc : u.pc = s.pc)
      (hk : k.stuck = false) : ((u.goto k).pc f).stuck = false := by
    by_cases hne : f = u.running
    · subst hne
      rw [goto_pc_self]
      exact hk
    · rw [goto_pc_other u k hne, hpc]
      exact h.free f
  have hfree := h.free s.running
  cases hs.move with
  | jump hm hj => exact keep rfl rfl hj.stuck.2
  | own m k hm hl hk => exact keep rfl rfl hk.sleepsOn.2.2
  | enqueue m id sched sw hm hpc hw hsched =>
    obtain ⟨i, k, _, _, _, rfl⟩ := h.block_some hpc hsched
    exact keep rfl rfl rfl
  | restore w k hm hpc => exact keep rfl rfl (Cont.pc_stuck k)
  | release c sw hm hpc =>
    rw [hpc] at hfree
    refine keep rfl rfl ?_
    cases c <;> cases sw <;> first | rfl | exact hfree
  | halt c hm hpc =>
    rw [hpc] at hfree
    exact keep rfl rfl ((haltPc_stuck c).trans hfree)
  | newThread | drop | write | disable | take | tick | block | unblock | spawn | unlock | save
  | dropLock | pop | dropUnlock => exact keep rfl rfl rfl
  | compute | setInterrupts | irq | irqTick | irqReturn | irqSave | load => exact h.free f

theorem Live.step (h : Live data s) (hs : Restrict (Step p) NonNested s e t) : Live data t where
  core := h.core.step hs.1
  owned := h.owned.step hs.1
  calls := noYield_calls h.calls ⟨hs.1, hs.2.yields⟩
  enqueues := Enqueues.step h.core.shielded hs.1
  awake := h.awake.step h.core h.enqueues h.calls hs.1
  nest := h.nest.step h.core hs
  free := h.free_step hs.1

/-- The deadlock branch of `KMutex::lock` is dead code under non-nested use. Whenever a
thread calls `block_current_and_prepare_switch` from `lock`, another thread can run, and
the call returns a pair of two different contexts; the only other outcome is the overflow
panic of the scheduler's own arithmetic under the dev profile. -/
theorem lock_never_deadlocks (data : μ → α) (r₀ : R) (s : Core μ α R)
    (h : Reachable (Restrict (Step p) NonNested) (Core.init data r₀) s) :
    (∀ m id, s.pc s.running = .enqueue m id → ∃ i, s.running = .thread i ∧
      (∃ j, j ≠ i ∧ RunnableAt s.sched.metadata j) ∧
      ((∃ sched k, k ≠ i ∧ RunnableAt s.sched.metadata k ∧
          s.sched.blockCurrentAndPrepareSwitch p .bootstrap s.ticks =
            .ok (sched, some (.thread i, .thread k))) ∨
        (p = .dev ∧ s.sched.blockCurrentAndPrepareSwitch p .bootstrap s.ticks =
          .error .overflow))) ∧
    ∀ f m, s.pc f ≠ .deadlock (.kmutexLock m) := by
  have hinv : Live data s := h.invariant (fun _ _ _ hi hs => hi.step hs) (Live.init data r₀)
  refine ⟨fun m id hpc => ?_, fun f m hf => ?_⟩
  · obtain ⟨i, j, hrun, _, hji, hj⟩ := hinv.owner_runs hpc
    refine ⟨i, hrun, ⟨j, hji, hj⟩, ?_⟩
    cases EevdfScheduler.onlyOverflow_block hinv.core.valid (p := p) (b := .bootstrap)
      (t := s.ticks) with
    | inl hok =>
      obtain ⟨⟨sched, sw⟩, hok⟩ := hok
      obtain ⟨i', k, hrun', hki, hk, rfl⟩ := hinv.block_some hpc hok
      rw [hrun] at hrun'
      cases hrun'
      exact Or.inl ⟨sched, k, hki, hk, hok⟩
    | inr herr => exact Or.inr herr
  · have hfree := hinv.free f
    rw [hf] at hfree
    cases hfree

def Core.enqueues (s : Core μ α R) (i : Nat) : Bool :=
  match s.pc (.thread i) with
  | .enqueue _ id => decide (id = i)
  | _ => false

theorem contended_lock_hands_over : ∃ s : Core Unit Nat Unit,
    Reachable (Restrict (Step .release) NonNested) (Core.init (fun _ => 0) ()) s ∧
      s.running = .thread 1 ∧ s.pc (.thread 1) = .enqueue () 1 ∧
      ∃ j, j ≠ 1 ∧ RunnableAt s.sched.metadata j := by
  have hrun : ((exec (checked (Core.step .release) NonNested) (Core.init (fun _ => 0) ())
      contendEvents).any fun s => decide (s.running = .thread 1) && s.enqueues 1) = true := by
    decide +kernel
  obtain ⟨s, hreach, hp⟩ := reachable_of_checked hrun
  simp only [Bool.and_eq_true, decide_eq_true_eq] at hp
  have hpc : s.pc (.thread 1) = .enqueue () 1 := by
    have henq := hp.2
    unfold Core.enqueues at henq
    cases hk : s.pc (.thread 1) <;> simp_all
  obtain ⟨i, hi, hj, _⟩ := (lock_never_deadlocks _ _ s hreach).1 () 1 (hp.1 ▸ hpc)
  rw [hp.1] at hi
  cases hi
  exact ⟨s, hreach, hp.1, hpc, hj⟩

end MoltOS.Kernel
