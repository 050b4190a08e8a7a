import MoltOS.KMutexTokens

/-! What a guard drop does with the wait queue: it takes the first id out, unblocks its
thread, and no id is lost or duplicated on the way. -/
namespace MoltOS.Kernel
open MoltOS.Rust MoltOS.Eevdf MoltOS.Transition

variable {μ α R : Type} {s t : Core μ α R} {e : Event μ α R} {p : Profile}

/-- Unblocking the popped id wakes its thread and ends the pop. -/
theorem Tokens.unblock (h : Tokens s) (ha : Awake s) (hids : Ids s) {m : μ} {id : ThreadId}
    {w : Bool} {sched : EevdfScheduler}
    (hpc : s.pc s.running = .locked (.unblockThread id (some m)) w)
    (hs : s.sched.unblockThread id = .ok sched) {k : Cont μ} :
    Tokens ({ s with sched := sched }.goto (.unlock w k)) := by
  have hme : (s.pc s.running).popped = some (id, m) := by rw [hpc]; rfl
  obtain ⟨hsleep, hout⟩ := h.popped s.running m id hme
  have hsleep' := hsleep
  obtain ⟨i₀, x₀, hx₀, hid, _, _⟩ := hsleep'
  have hblk := (EevdfScheduler.unblock_exact hids.nodup hx₀ hid hs).2
  have hth := (EevdfScheduler.unblock_frame hs).1
  set u := { s with sched := sched }.goto (.unlock w k) with hu
  have hself : u.pc s.running = .unlock w k := goto_pc_self { s with sched := sched } _
  have hother (f : Flow) (hf : f ≠ s.running) : u.pc f = s.pc f :=
    goto_pc_other { s with sched := sched } _ hf
  have hold {f : Flow} {n : μ} {j : ThreadId} (hf : (u.pc f).popped = some (j, n)) :
      f ≠ s.running ∧ (s.pc f).popped = some (j, n) := by
    by_cases hfr : f = s.running
    · rw [hfr, hself] at hf
      cases hf
    · exact ⟨hfr, hother f hfr ▸ hf⟩
  have sleeper {n : μ} {j : ThreadId} (hsl : Sleeper s n j) (hj : j ≠ id) : Sleeper u n j := by
    obtain ⟨i, x, hx, hxid, hb, hn⟩ := hsl
    have hne : i ≠ i₀ := by
      intro he
      subst he
      exact hj (hxid.symm.trans ((congrArg _ (Option.some.inj (hx.symm.trans hx₀))).trans hid))
    refine ⟨i, x, ?_, hxid, (hblk i).mpr ⟨hne, hb⟩, ?_⟩
    · change sched.threads[i]? = some x
      rw [hth]
      exact hx
    · have hf : Flow.thread i ≠ s.running := fun he =>
        ha.not_blocked (by rw [hpc]; rfl) i he.symm hb
      rw [hother _ hf]
      exact hn
  refine ⟨?_, ?_, ?_, h.nodup, ?_⟩
  · intro n j hj
    have hsl := h.waits n j hj
    refine sleeper hsl fun he => ?_
    subst he
    obtain rfl := hsleep.unique hids.nodup hsl
    exact hout hj
  · intro f n j hf
    obtain ⟨hfr, hf⟩ := hold hf
    obtain ⟨hsl, hno⟩ := h.popped f n j hf
    refine ⟨sleeper hsl fun he => ?_, hno⟩
    exact hfr (h.once f s.running n m id (he ▸ hf) hme)
  · intro f g n k j hf hg
    exact h.once f g n k j (hold hf).2 (hold hg).2
  · intro i x hx hb
    change sched.threads[i]? = some x at hx
    rw [hth] at hx
    obtain ⟨hne, hb⟩ := (hblk i).mp hb
    obtain ⟨n, hn⟩ := h.cover i x hx hb
    refine ⟨n, hn.imp_right fun hf => ?_⟩
    obtain ⟨f, hf⟩ := hf
    have hfr : f ≠ s.running := by
      intro he
      rw [he, hme] at hf
      cases hf
      exact hne (index_unique hids.nodup hx hx₀ hid.symm)
    exact ⟨f, by rw [hother f hfr]; exact hf⟩

theorem Tokens.spawn (h : Tokens s) (hv : s.sched.Valid) {x : Thread}
    {weight : Option Nat} {entry : R} {w : Bool}
    (hpc : s.pc s.running = .locked (.spawn x weight entry) w) :
    Tokens ((s.spawnThread x weight entry).goto (.unlock w .code)) := by
  refine h.frame (fun _ => rfl) ?_ hv.lengths ?_
    (popped_goto rfl rfl (by rw [hpc]; rfl)) fun i hb => ?_
  · intro i y hy
    change (s.spawnThread x weight entry).sched.threads[i]? = some y
    rw [spawnThread_threads, List.getElem?_append_left (List.getElem?_eq_some_iff.mp hy).1]
    exact hy
  · intro i
    cases weight with
    | none => exact blockedAt_push rfl
    | some w => exact blockedAt_push rfl
  · refine sleepsOn_goto (s := s) rfl rfl fun hr => ?_
    rw [hpc]
    rfl

variable [DecidableEq μ]

theorem setWaitersHeld_waiters (s : Core μ α R) (m : μ) (o : Option Flow) (n : μ) :
    ((s.setWaitersHeld m o).mutexes n).waiters = (s.mutexes n).waiters :=
  setMutex_keeps KMutex.waiters s m { s.mutexes m with waitersHeld := o } rfl n

/-- A guard drop takes the first id out of the queue. -/
theorem Tokens.pop (h : Tokens s) (ha : Awake s) (hids : Ids s) {m : μ} {id : ThreadId}
    {rest : List ThreadId} (hpc : s.pc s.running = .dropPop m)
    (hw : (s.mutexes m).waiters = id :: rest) :
    Tokens ((s.setWaiters m rest).goto (.acquire (.unblockThread id (some m)))) := by
  set u := (s.setWaiters m rest).goto (.acquire (.unblockThread id (some m))) with hu
  have hself : u.pc s.running = .acquire (.unblockThread id (some m)) :=
    goto_pc_self (s.setWaiters m rest) _
  have hother (f : Flow) (hf : f ≠ s.running) : u.pc f = s.pc f :=
    goto_pc_other (s.setWaiters m rest) _ hf
  have hwm : (u.mutexes m).waiters = rest := setWaiters_same s m rest
  have hwn (n : μ) (hn : n ≠ m) : (u.mutexes n).waiters = (s.mutexes n).waiters :=
    setWaiters_other s m rest hn
  have hsub (n : μ) (j : ThreadId) (hj : j ∈ (u.mutexes n).waiters) :
      j ∈ (s.mutexes n).waiters := by
    by_cases hn : n = m
    · subst hn
      rw [hwm] at hj
      rw [hw]
      exact List.mem_cons_of_mem _ hj
    · rwa [hwn n hn] at hj
  have hnd : id ∉ rest ∧ rest.Nodup := by
    have hnd := h.nodup m
    rw [hw] at hnd
    exact List.nodup_cons.mp hnd
  have hmem : id ∈ (s.mutexes m).waiters := by
    rw [hw]
    simp
  have sleeper {n : μ} {j : ThreadId} (hsl : Sleeper s n j) : Sleeper u n j := by
    obtain ⟨i, x, hx, hxid, hb, hn⟩ := hsl
    refine ⟨i, x, hx, hxid, hb, ?_⟩
    have hf : Flow.thread i ≠ s.running := fun he =>
      ha.not_blocked (by rw [hpc]; rfl) i he.symm hb
    rw [hother _ hf]
    exact hn
  have hrunning {g : Flow} {n : μ} (hg : (s.pc g).popped = some (id, n)) : False := by
    obtain ⟨hsl, hno⟩ := h.popped g n id hg
    obtain rfl := (h.waits m id hmem).unique hids.nodup hsl
    exact hno hmem
  refine ⟨fun n j hj => sleeper (h.waits n j (hsub n j hj)), ?_, ?_, ?_, ?_⟩
  · intro f n j hf
    by_cases hfr : f = s.running
    · rw [hfr, hself] at hf
      cases hf
      rw [hwm]
      exact ⟨sleeper (h.waits m id hmem), hnd.1⟩
    · rw [hother f hfr] at hf
      obtain ⟨hsl, hno⟩ := h.popped f n j hf
      exact ⟨sleeper hsl, fun hj => hno (hsub n j hj)⟩
  · intro f g n k j hf hg
    by_cases hfr : f = s.running <;> by_cases hgr : g = s.running
    · rw [hfr, hgr]
    · rw [hfr, hself] at hf
      rw [hother g hgr] at hg
      cases hf
      exact (hrunning hg).elim
    · rw [hgr, hself] at hg
      rw [hother f hfr] at hf
      cases hg
      exact (hrunning hf).elim
    · rw [hother f hfr] at hf
      rw [hother g hgr] at hg
      exact h.once f g n k j hf hg
  · intro n
    by_cases hn : n = m
    · subst hn
      rw [hwm]
      exact hnd.2
    · rw [hwn n hn]
      exact h.nodup n
  · intro i x hx hb
    obtain ⟨n, hn⟩ := h.cover i x hx hb
    refine ⟨n, ?_⟩
    cases hn with
    | inl hin =>
      by_cases hnm : n = m
      · subst hnm
        rw [hw, List.mem_cons] at hin
        rw [hwm]
        cases hin with
        | inl he =>
          refine Or.inr ⟨s.running, ?_⟩
          rw [hself, he]
          rfl
        | inr hr => exact Or.inl hr
      · rw [hwn n hnm]
        exact Or.inl hin
    | inr hpop =>
      obtain ⟨f, hf⟩ := hpop
      have hfr : f ≠ s.running := by
        intro he
        rw [he, hpc] at hf
        cases hf
      exact Or.inr ⟨f, by rw [hother f hfr]; exact hf⟩

theorem Tokens.step (h : Tokens s) (hc : CoreInv s) (ha : Awake s) (hids : Ids s) (hq : Enqueues s)
    (hy : Calls (fun c => c.yields = false ∧ c.unblocks = false) s) (hs : Step p s e t) :
    Tokens t := by
  have plain {u : Core μ α R} {k : Pc μ α R} (hr : u.running = s.running) (hpc : u.pc = s.pc)
      (hw : ∀ m, (u.mutexes m).waiters = (s.mutexes m).waiters) (hsched : u.sched = s.sched)
      (hpop : k.popped = (s.pc s.running).popped)
      (hsl : ∀ i, s.running = .thread i → BlockedAt s.sched.metadata i →
        k.sleepsOn = (s.pc s.running).sleepsOn) : Tokens (u.goto k) := by
    refine h.frame hw (fun i x hx => ?_) hc.valid.lengths (fun i => ?_)
      (popped_goto hr hpc hpop) fun i hb => sleepsOn_goto hr hpc fun hi => hsl i hi hb
    · change u.sched.threads[i]? = some x
      rw [hsched]
      exact hx
    · change BlockedAt u.sched.metadata i ↔ _
      rw [hsched]
  have awake {k : Pc μ α R} (hk : (s.pc s.running).sleepsOn = none) (i : Nat)
      (hi : s.running = .thread i) (hb : BlockedAt s.sched.metadata i) :
      k.sleepsOn = (s.pc s.running).sleepsOn := absurd hb (ha.not_blocked hk i hi)
  have same {u : Core μ α R} (hpc : u.pc = s.pc) (hw : u.mutexes = s.mutexes)
      (hth : u.sched.threads = s.sched.threads)
      (hb : ∀ i, BlockedAt u.sched.metadata i ↔ BlockedAt s.sched.metadata i) : Tokens u :=
    h.frame (fun _ => by rw [hw]) (fun i x hx => by rw [hth]; exact hx) hc.valid.lengths hb
      (fun f => by rw [hpc]) fun i _ => by rw [hpc]
  cases hs.move with
  | jump hm hj =>
    have hrun := ha.running_runnable hc hm hj.switch.1 hj.stuck.1
    exact plain rfl rfl (fun _ => rfl) rfl hj.popped fun i hi hb =>
      absurd (hrun i hi) hb.not_runnable
  | compute r hm hpc => exact same rfl rfl rfl fun _ => Iff.rfl
  | setInterrupts b hm hpc => exact same rfl rfl rfl fun _ => Iff.rfl
  | newThread weight entry hm hpc =>
    exact plain rfl rfl (fun _ => rfl) rfl (by rw [hpc]; rfl) (awake (by rw [hpc]; rfl))
  | drop m hm hpc hg =>
    exact plain rfl rfl (setMutex_keeps KMutex.waiters s m _ rfl) rfl (by rw [hpc]; rfl) (awake (by rw [hpc]; rfl))
  | write m v f hm hpc =>
    exact plain rfl rfl (setMutex_keeps KMutex.waiters s m _ rfl) rfl (by rw [hpc]; rfl) (awake (by rw [hpc]; rfl))
  | own m k hm hl hk =>
    refine plain rfl rfl (setMutex_keeps KMutex.waiters s m _ rfl) rfl ?_ (awake hk.sleepsOn.1)
    generalize s.pc s.running = k₀ at hk
    cases hk <;> rfl
  | disable c w hm hpc =>
    exact plain rfl rfl (fun _ => rfl) rfl (by rw [hpc]; rfl) (awake (by rw [hpc]; rfl))
  | take c w hm hpc hh =>
    exact plain rfl rfl (fun _ => rfl) rfl (by rw [hpc]; rfl) (awake (by rw [hpc]; rfl))
  | tick w sched sw hm hpc hsched =>
    refine h.frame (fun _ => rfl) (fun i x hx => ?_) hc.valid.lengths
      (fun i => EevdfScheduler.tickPrepare_blockedAt hsched)
      (popped_goto rfl rfl (by rw [hpc]; rfl)) fun i hb =>
        sleepsOn_goto (s := s) rfl rfl fun hi => by rw [hpc]; rfl
    change sched.threads[i]? = some x
    rw [(EevdfScheduler.tickPrepare_shape hsched).1]
    exact hx
  | block w sched sw hm hpc hsched =>
    have hno := (hy s.running .blockAndYield (by rw [hpc]; rfl)).1
    cases hno
  | enqueue m id sched sw hm hpc hw hsched => exact h.enqueue hc ha hids hq hpc hsched
  | unblock id k w sched hm hpc hsched =>
    cases k with
    | none =>
      have hno := (hy s.running (.unblockThread id none) (by rw [hpc]; rfl)).2
      cases hno
    | some m => exact h.unblock ha hids hpc hsched
  | spawn x weight entry w hm hpc => exact h.spawn hc.valid hpc
  | unlock w k hm hpc =>
    exact plain rfl rfl (fun _ => rfl) rfl (by rw [hpc]; rfl) (awake (by rw [hpc]; rfl))
  | restore w k hm hpc =>
    refine plain rfl rfl (fun _ => rfl) rfl ?_ (awake (by rw [hpc]; rfl))
    rw [hpc, Pc.popped_none_of_call (Cont.pc_call k)]
    rfl
  | release c sw hm hpc =>
    exact plain rfl rfl (fun _ => rfl) rfl (by rw [hpc]; rfl) fun i _ _ => by
      rw [hpc]
      cases c <;> rfl
  | save c fromCtx toCtx hm hpc =>
    exact plain rfl rfl (fun _ => rfl) rfl (by rw [hpc]; rfl) fun i _ _ => by
      rw [hpc]
      cases c <;> rfl
  | halt c hm hpc =>
    refine plain rfl rfl (fun _ => rfl) rfl ?_ fun i _ _ => ?_
    · rw [hpc]
      cases c <;> rfl
    · rw [hpc]
      exact haltPc_sleepsOn c
  | dropLock m hm hpc hw =>
    exact plain rfl rfl (setMutex_keeps KMutex.waiters s m _ rfl) rfl (by rw [hpc]; rfl) (awake (by rw [hpc]; rfl))
  | pop m id rest hm hpc hw => exact h.pop ha hids hpc hw
  | dropUnlock m hm hpc =>
    exact plain rfl rfl (setMutex_keeps KMutex.waiters s m _ rfl) rfl (by rw [hpc]; rfl) (awake (by rw [hpc]; rfl))
  | irqTick frame sched sw hm hh hsched =>
    exact same rfl rfl (EevdfScheduler.tickPrepare_shape hsched).1 fun i =>
      EevdfScheduler.tickPrepare_blockedAt hsched
  | irq | irqReturn | irqSave | load => exact same rfl rfl rfl fun _ => Iff.rfl

end MoltOS.Kernel
