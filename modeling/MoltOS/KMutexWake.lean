import MoltOS.KMutexPop

/-! No lost wakeup. A mutex that is free while threads wait for it is in the hands of a
guard drop that has not finished, or of a thread that is awake inside `lock` and will try
the flag again. -/
namespace MoltOS.Kernel
open MoltOS.Rust MoltOS.Eevdf MoltOS.Transition

variable {μ α R : Type} {s t : Core μ α R} {e : Event μ α R} {p : Profile}

def Pc.dropping : Pc μ α R → Option μ
  | .dropLock m | .dropPop m => some m
  | .acquire c | .disable c _ | .spin c _ | .locked c _ => c.popped.map (·.2)
  | _ => none

def Call.locks : Call μ R → Option μ
  | .kmutexLock m => some m
  | _ => none

def Cont.tries : Cont μ → Option μ
  | .lockTry m => some m
  | _ => none

def Pc.trying : Pc μ α R → Option μ
  | .lockTry m => some m
  | .acquire c | .disable c _ | .spin c _ | .locked c _ | .resumed c => c.locks
  | .unlock _ k | .restore _ k => k.tries
  | _ => none

/- Bootstrap is no thread of the scheduler and is never blocked. -/
def Core.awake (s : Core μ α R) : Flow → Prop
  | .bootstrap => True
  | .thread i => RunnableAt s.sched.metadata i

def Lively (s : Core μ α R) : Prop :=
  ∀ m, (s.mutexes m).waiters ≠ [] → (s.mutexes m).locked = false →
    (∃ f, (s.pc f).dropping = some m) ∨ ∃ f, (s.pc f).trying = some m ∧ s.awake f

/-- A step keeps a mutex lively if it keeps what made it so. -/
theorem Lively.keep (h : Lively s) {m : μ}
    (hw : (t.mutexes m).waiters ≠ [] → (s.mutexes m).waiters ≠ [])
    (hl : (t.mutexes m).locked = false → (s.mutexes m).locked = false)
    (hd : ∀ f, (t.mutexes m).waiters ≠ [] → (s.pc f).dropping = some m →
      (t.pc f).dropping = some m)
    (ht : ∀ f, (t.mutexes m).locked = false → (s.pc f).trying = some m → s.awake f →
      (t.pc f).trying = some m ∧ t.awake f) :
    (t.mutexes m).waiters ≠ [] → (t.mutexes m).locked = false →
      (∃ f, (t.pc f).dropping = some m) ∨ ∃ f, (t.pc f).trying = some m ∧ t.awake f := by
  intro hwt hlt
  cases h m (hw hwt) (hl hlt) with
  | inl hf =>
    obtain ⟨f, hf⟩ := hf
    exact Or.inl ⟨f, hd f hwt hf⟩
  | inr hf =>
    obtain ⟨f, hf, ha⟩ := hf
    exact Or.inr ⟨f, ht f hlt hf ha⟩

theorem awake_mono (hr : ∀ i, RunnableAt s.sched.metadata i → RunnableAt t.sched.metadata i)
    {f : Flow} (h : s.awake f) : t.awake f := by
  cases f with
  | bootstrap => exact h
  | thread i => exact hr i h

/- A move of the running flow that leaves its own claim to `m` alone. -/
theorem pc_goto {u : Core μ α R} {k : Pc μ α R} (hr : u.running = s.running) (hpc : u.pc = s.pc)
    (q : Pc μ α R → Option μ) {m : μ} (hk : q (s.pc s.running) = some m → q k = some m) {f : Flow}
    (hf : q (s.pc f) = some m) : q ((u.goto k).pc f) = some m := by
  by_cases hne : f = u.running
  · rw [hne, goto_pc_self]
    rw [hne, hr] at hf
    exact hk hf
  · rw [goto_pc_other u k hne, hpc]
    exact hf

theorem Jump.dropping {k k' : Pc μ α R} (h : Jump s e k k') {m : μ}
    (hw : (s.mutexes m).waiters ≠ []) (hk : k.dropping = some m) : k'.dropping = some m := by
  cases h with
  | flag c => exact hk
  | popNone n hn =>
    cases hk
    exact absurd hn hw
  | _ => cases hk

theorem Jump.trying {k k' : Pc μ α R} (h : Jump s e k k') {m : μ}
    (hl : (s.mutexes m).locked = false) (hk : k.trying = some m) : k'.trying = some m := by
  cases h with
  | contend n hn => exact hk
  | flag c => exact hk
  | wait n w id hn hid =>
    cases hk
    rw [hl] at hn
    cases hn
  | retry n w hn hid => exact hk
  | resume c k hr => cases c <;> cases hr <;> exact hk
  | _ => cases hk

/-- The thread that a guard drop unblocks is asleep after `context_switch`, and not stuck. -/
theorem woken_trying (hc : CoreInv s) (ha : Awake s) {i : Nat} {m : μ}
    (hne : s.running ≠ .thread i) (hs : (s.pc (.thread i)).sleepsOn = some m) :
    (s.pc (.thread i)).trying = some m := by
  have hopen : (s.pc (.thread i)).masked = false := by
    cases hk : (s.pc (.thread i)).masked with
    | false => rfl
    | true => exact absurd (hc.shielded.alone _ hk).1.symm hne
  have hfree : (s.pc (.thread i)).stuck = false := by
    cases hk : (s.pc (.thread i)).stuck with
    | false => rfl
    | true => exact absurd (ha.stuck _ hk).1 hne
  cases hk : s.pc (.thread i) with
  | resumed c =>
    rw [hk] at hs
    cases c <;> exact hs
  | deadlock c =>
    rw [hk] at hs hfree
    cases c with
    | kmutexLock n => cases hfree
    | _ => cases hs
  | prepared c sw | released c sw =>
    rw [hk] at hopen
    cases hopen
  | _ =>
    rw [hk] at hs
    cases hs

variable [DecidableEq μ]

theorem Lively.unblock (h : Lively s) (hc : CoreInv s) (ha : Awake s) (hids : Ids s)
    (htok : Tokens s) {m : μ} {id : ThreadId} {w : Bool} {sched : EevdfScheduler}
    (hpc : s.pc s.running = .locked (.unblockThread id (some m)) w)
    (hs : s.sched.unblockThread id = .ok sched) :
    Lively ({ s with sched := sched }.goto (.unlock w (.dropUnlock m))) := by
  have hmono {f : Flow} (hf : s.awake f) :
      ({ s with sched := sched }.goto (.unlock w (.dropUnlock m))).awake f :=
    awake_mono (fun i => EevdfScheduler.unblock_runnableAt hs) hf
  intro n
  by_cases hn : n = m
  · subst hn
    intro _ _
    obtain ⟨i, x, hx, hid, hb, hsl⟩ := (htok.popped s.running n id (by rw [hpc]; rfl)).1
    have hne : s.running ≠ .thread i := fun hr => ha.not_blocked (by rw [hpc]; rfl) i hr hb
    refine Or.inr ⟨.thread i, ?_, (EevdfScheduler.unblock_exact hids.nodup hx hid hs).1⟩
    rw [goto_pc_other { s with sched := sched } _ (Ne.symm hne)]
    exact woken_trying hc ha hne hsl
  · refine h.keep (fun hw => hw) (fun hl => hl) (fun f _ hf => ?_) fun f _ hf hw => ⟨?_, hmono hw⟩
    · refine pc_goto (s := s) rfl rfl Pc.dropping (fun hk => ?_) hf
      rw [hpc] at hk
      cases hk
      exact absurd rfl hn
    · refine pc_goto (s := s) rfl rfl Pc.trying (fun hk => ?_) hf
      rw [hpc] at hk
      cases hk

theorem Lively.step (h : Lively s) (hc : CoreInv s) (ha : Awake s) (hids : Ids s)
    (hq : Enqueues s) (htok : Tokens s)
    (hy : Calls (fun c => c.yields = false ∧ c.unblocks = false) s) (hs : Step p s e t) :
    Lively t := by
  have plain {u : Core μ α R} {k : Pc μ α R} (hr : u.running = s.running) (hpc : u.pc = s.pc)
      (hu : ∀ m, (u.mutexes m).waiters = (s.mutexes m).waiters ∧
        (u.mutexes m).locked = (s.mutexes m).locked)
      (hrun : ∀ i, RunnableAt s.sched.metadata i → RunnableAt u.sched.metadata i)
      (hd : ∀ m, (s.pc s.running).dropping = some m → k.dropping = some m)
      (ht : ∀ m, (s.pc s.running).trying = some m → k.trying = some m) : Lively (u.goto k) := by
    intro m
    refine h.keep (fun hw => (hu m).1 ▸ hw) (fun hl => (hu m).2 ▸ hl) (fun f _ hf => ?_)
      fun f _ hf hw => ⟨?_, awake_mono hrun hw⟩
    · exact pc_goto hr hpc Pc.dropping (hd m) hf
    · exact pc_goto hr hpc Pc.trying (ht m) hf
  have quiet {u : Core μ α R} {k : Pc μ α R} (hr : u.running = s.running) (hpc : u.pc = s.pc)
      (hu : ∀ m, (u.mutexes m).waiters = (s.mutexes m).waiters ∧
        (u.mutexes m).locked = (s.mutexes m).locked)
      (hrun : ∀ i, RunnableAt s.sched.metadata i → RunnableAt u.sched.metadata i)
      (hd : (s.pc s.running).dropping = none) (ht : (s.pc s.running).trying = none) :
      Lively (u.goto k) :=
    plain hr hpc hu hrun (fun m hm => by rw [hd] at hm; cases hm) fun m hm => by
      rw [ht] at hm
      cases hm
  have same {u : Core μ α R} (hpc : u.pc = s.pc) (hu : u.mutexes = s.mutexes)
      (hrun : ∀ i, RunnableAt s.sched.metadata i → RunnableAt u.sched.metadata i) : Lively u := by
    intro m
    refine h.keep (fun hw => hu ▸ hw) (fun hl => hu ▸ hl) (fun f _ hf => ?_)
      fun f _ hf hw => ⟨?_, awake_mono hrun hw⟩
    · rw [hpc]
      exact hf
    · rw [hpc]
      exact hf
  cases hs.move with
  | jump hm hj =>
    intro m
    refine h.keep (fun hw => hw) (fun hl => hl) (fun f hw hf => ?_) fun f hl hf ha => ⟨?_, ha⟩
    · exact pc_goto (s := s) rfl rfl Pc.dropping (fun hk => hj.dropping hw hk) hf
    · exact pc_goto (s := s) rfl rfl Pc.trying (fun hk => hj.trying hl hk) hf
  | compute r hm hpc => exact same rfl rfl fun _ hi => hi
  | setInterrupts b hm hpc => exact same rfl rfl fun _ hi => hi
  | newThread weight entry hm hpc =>
    exact quiet rfl rfl (fun _ => ⟨rfl, rfl⟩) (fun _ hi => hi) (by rw [hpc]; rfl) (by rw [hpc]; rfl)
  | drop m hm hpc hg =>
    intro n
    by_cases hn : n = m
    · subst hn
      intro _ _
      refine Or.inl ⟨s.running, ?_⟩
      have hself : ((s.disown n).goto (.dropLock n)).pc s.running = .dropLock n :=
        goto_pc_self (s.disown n) _
      rw [hself]
      rfl
    · have hu : ((s.disown m).goto (.dropLock m)).mutexes n = s.mutexes n := by
        simp [Core.goto, Core.disown, Core.setMutex, hn]
      refine h.keep (fun hw => hu ▸ hw) (fun hl => hu ▸ hl) (fun f _ hf => ?_)
        fun f _ hf ha => ⟨?_, ha⟩
      · exact pc_goto (s := s) rfl rfl Pc.dropping (fun hk => by rw [hpc] at hk; cases hk) hf
      · exact pc_goto (s := s) rfl rfl Pc.trying (fun hk => by rw [hpc] at hk; cases hk) hf
  | write m v f hm hpc =>
    refine quiet rfl rfl (fun n => ?_) (fun _ hi => hi) (by rw [hpc]; rfl) (by rw [hpc]; rfl)
    by_cases hn : n = m
    · subst hn
      simp [Core.store, Core.setMutex]
    · simp [Core.store, Core.setMutex, hn]
  | own m k hm hl hk =>
    have hkeep : (s.pc s.running).dropping = none ∧ (s.pc s.running).trying = some m := by
      generalize s.pc s.running = k₀ at hk
      cases hk <;> exact ⟨rfl, rfl⟩
    intro n
    by_cases hn : n = m
    · subst hn
      intro _ hlock
      simp [Core.goto, Core.own, Core.setMutex] at hlock
    · have hu : ((s.own m).goto k).mutexes n = s.mutexes n := by
        simp [Core.goto, Core.own, Core.setMutex, hn]
      refine h.keep (fun hw => hu ▸ hw) (fun hl => hu ▸ hl) (fun f _ hf => ?_)
        fun f _ hf ha => ⟨?_, ha⟩
      · refine pc_goto (s := s) rfl rfl Pc.dropping (fun hk => ?_) hf
        rw [hkeep.1] at hk
        cases hk
      · refine pc_goto (s := s) rfl rfl Pc.trying (fun hk => ?_) hf
        rw [hkeep.2] at hk
        cases hk
        exact absurd rfl hn
  | disable c w hm hpc =>
    exact plain rfl rfl (fun _ => ⟨rfl, rfl⟩) (fun _ hi => hi) (fun m hk => by rw [hpc] at hk; exact hk)
      fun m hk => by rw [hpc] at hk; exact hk
  | take c w hm hpc hh =>
    exact plain rfl rfl (fun _ => ⟨rfl, rfl⟩) (fun _ hi => hi) (fun m hk => by rw [hpc] at hk; exact hk)
      fun m hk => by rw [hpc] at hk; exact hk
  | tick w sched sw hm hpc hsched =>
    exact quiet rfl rfl (fun _ => ⟨rfl, rfl⟩)
      (fun i hi => (EevdfScheduler.tickPrepare_runnableAt hsched).mpr hi)
      (by rw [hpc]; rfl) (by rw [hpc]; rfl)
  | block w sched sw hm hpc hsched =>
    have hno := (hy s.running .blockAndYield (by rw [hpc]; rfl)).1
    cases hno
  | enqueue m id sched sw hm hpc hw hsched =>
    obtain ⟨i₀, _, hcur, hrun, _, _⟩ := hq.current hc hpc
    intro n
    by_cases hn : n = m
    · subst hn
      intro _ hl
      have hlock := setWaiters_locked s n ((s.mutexes n).waiters ++ [id]) n
      rw [(hq _ n id hpc).1] at hlock
      exact absurd (hlock.symm.trans hl) (by simp)
    · refine h.keep (fun hw => setWaiters_other s m _ hn ▸ hw)
        (fun hl => setWaiters_locked s m _ n ▸ hl) (fun f _ hf => ?_) fun f _ hf hw => ⟨?_, ?_⟩
      · exact pc_goto (s := s) rfl rfl Pc.dropping (fun hk => by rw [hpc] at hk; cases hk) hf
      · exact pc_goto (s := s) rfl rfl Pc.trying (fun hk => by rw [hpc] at hk; cases hk) hf
      · cases f with
        | bootstrap => exact hw
        | thread i =>
          refine EevdfScheduler.block_runnableAt hcur hsched (fun he => ?_) hw
          rw [he, ← hrun, hpc] at hf
          cases hf
  | unblock id k w sched hm hpc hsched =>
    cases k with
    | none =>
      have hno := (hy s.running (.unblockThread id none) (by rw [hpc]; rfl)).2
      cases hno
    | some m => exact h.unblock hc ha hids htok hpc hsched
  | spawn x weight entry w hm hpc =>
    refine quiet rfl rfl (fun _ => ⟨rfl, rfl⟩) (fun i hi => ?_) (by rw [hpc]; rfl) (by rw [hpc]; rfl)
    cases weight with
    | none => exact runnableAt_push _ hi
    | some w => exact runnableAt_push _ hi
  | unlock w k hm hpc =>
    exact plain rfl rfl (fun _ => ⟨rfl, rfl⟩) (fun _ hi => hi) (fun m hk => by rw [hpc] at hk; cases hk)
      fun m hk => by rw [hpc] at hk; exact hk
  | restore w k hm hpc =>
    refine plain rfl rfl (fun _ => ⟨rfl, rfl⟩) (fun _ hi => hi)
      (fun m hk => by rw [hpc] at hk; cases hk) fun m hk => ?_
    rw [hpc] at hk
    cases k <;> exact hk
  | release c sw hm hpc =>
    exact quiet rfl rfl (fun _ => ⟨rfl, rfl⟩) (fun _ hi => hi) (by rw [hpc]; rfl) (by rw [hpc]; rfl)
  | save c fromCtx toCtx hm hpc =>
    exact quiet rfl rfl (fun _ => ⟨rfl, rfl⟩) (fun _ hi => hi) (by rw [hpc]; rfl) (by rw [hpc]; rfl)
  | halt c hm hpc =>
    exact quiet rfl rfl (fun _ => ⟨rfl, rfl⟩) (fun _ hi => hi) (by rw [hpc]; rfl) (by rw [hpc]; rfl)
  | dropLock m hm hpc hw =>
    exact plain rfl rfl
      (fun n => ⟨setWaitersHeld_waiters s m _ n, setWaitersHeld_locked s m _ n⟩) (fun _ hi => hi)
      (fun m hk => by rw [hpc] at hk; exact hk) fun m hk => by rw [hpc] at hk; cases hk
  | pop m id rest hm hpc hw =>
    intro n
    refine h.keep (fun hwt => ?_) (fun hl => setWaiters_locked s m rest n ▸ hl) (fun f _ hf => ?_)
      fun f _ hf ha => ⟨?_, ha⟩
    · by_cases hn : n = m
      · subst hn
        rw [hw]
        simp
      · exact setWaiters_other s m rest hn ▸ hwt
    · exact pc_goto (s := s) rfl rfl Pc.dropping (fun hk => by rw [hpc] at hk; exact hk) hf
    · exact pc_goto (s := s) rfl rfl Pc.trying (fun hk => by rw [hpc] at hk; cases hk) hf
  | dropUnlock m hm hpc =>
    exact quiet rfl rfl
      (fun n => ⟨setWaitersHeld_waiters s m _ n, setWaitersHeld_locked s m _ n⟩) (fun _ hi => hi)
      (by rw [hpc]; rfl) (by rw [hpc]; rfl)
  | irqTick frame sched sw hm hh hsched =>
    exact same rfl rfl fun i hi => (EevdfScheduler.tickPrepare_runnableAt hsched).mpr hi
  | irq | irqReturn | irqSave | load => exact same rfl rfl fun _ hi => hi

end MoltOS.Kernel
