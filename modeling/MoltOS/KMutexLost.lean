import MoltOS.KMutexWake

/-! Threads that contend on sleeping mutexes and block on nothing else. Their blocked
marks, the wait queues and the guard drops agree, and none sleeps on an idle mutex. -/
namespace MoltOS.Kernel
open MoltOS.Rust MoltOS.Eevdf MoltOS.Transition

variable {μ α R : Type} {s t : Core μ α R} {e : Event μ α R} {p : Profile}

def Call.contends : Call μ R → Bool
  | .kmutexLock _ | .unblockThread _ (some _) => true
  | _ => false

def Cont.contends : Cont μ → Bool
  | .lockTry _ => true
  | _ => false

def Pc.contends : Pc μ α R → Bool
  | .lockTry _ | .enqueue _ _ | .dropLock _ | .dropPop _ => true
  | .acquire c | .disable c _ | .spin c _ | .locked c _ | .prepared c _ | .released c _
  | .resumed c | .deadlock c => c.contends
  | .unlock _ k | .restore _ k => k.contends
  | _ => false

theorem Jump.contends {k k' : Pc μ α R} (h : Jump s e k k') (hk : k'.contends = true) :
    k.contends = true ∨ ∃ m, e = .lock m := by
  cases h with
  | lock m => exact Or.inr ⟨m, rfl⟩
  | contend | wait | retry | popNone => exact Or.inl rfl
  | flag c => exact Or.inl hk
  | resume c k hr =>
    cases c <;> cases hr <;> cases hk
    exact Or.inl rfl
  | read | enter | yield | unblock | wake => cases hk

theorem Pc.contends_of_dropping {k : Pc μ α R} {m : μ} (h : k.dropping = some m) :
    k.contends = true := by
  cases k with
  | dropLock n | dropPop n => rfl
  | acquire c | disable c w | spin c w | locked c w =>
    cases c with
    | unblockThread id o =>
      cases o with
      | none => cases h
      | some n => rfl
    | _ => cases h
  | _ => cases h

theorem Pc.contends_of_trying {k : Pc μ α R} {m : μ} (h : k.trying = some m) :
    k.contends = true := by
  cases k with
  | lockTry n => rfl
  | acquire c | disable c w | spin c w | locked c w | resumed c =>
    cases c <;> cases h
    rfl
  | unlock w k | restore w k =>
    cases k <;> cases h
    rfl
  | _ => cases h

structure OnlyThreads (s : Core μ α R) : Prop where
  guards : s.guards .bootstrap = []
  outside : (s.pc .bootstrap).contends = false

theorem OnlyThreads.goto (h : OnlyThreads s) {u : Core μ α R} {k : Pc μ α R}
    (hr : u.running = s.running) (hpc : u.pc = s.pc) (hg : u.guards = s.guards)
    (hk : k.contends = true → (s.pc s.running).contends = true ∨ s.running ≠ .bootstrap) :
    OnlyThreads (u.goto k) := by
  refine ⟨(congrFun hg _).trans h.guards, ?_⟩
  by_cases hb : Flow.bootstrap = u.running
  · rw [hb, goto_pc_self]
    rw [hr] at hb
    cases hc : k.contends with
    | false => rfl
    | true =>
      cases hk hc with
      | inl hold =>
        rw [← hb, h.outside] at hold
        cases hold
      | inr hne => exact absurd hb.symm hne
  · rw [goto_pc_other u k hb, hpc]
    exact h.outside

/- The guards of a flow other than bootstrap change. -/
theorem OnlyThreads.reguard (h : OnlyThreads s) {u : Core μ α R} {k : Pc μ α R} {l : List μ}
    (hne : s.running ≠ .bootstrap) (hr : u.running = s.running) (hpc : u.pc = s.pc)
    (hg : u.guards = Function.update s.guards s.running l) : OnlyThreads (u.goto k) := by
  refine ⟨?_, ?_⟩
  · change u.guards .bootstrap = []
    rw [hg, Function.update_of_ne hne.symm]
    exact h.guards
  · rw [goto_pc_other u k (hr ▸ hne.symm), hpc]
    exact h.outside

variable [DecidableEq μ]

theorem OnlyThreads.step (h : OnlyThreads s) (hs : Restrict (Step p) LocksOnly s e t) :
    OnlyThreads t := by
  have keep {u : Core μ α R} {k : Pc μ α R} (hr : u.running = s.running) (hpc : u.pc = s.pc)
      (hg : u.guards = s.guards)
      (hk : k.contends = true → (s.pc s.running).contends = true) : OnlyThreads (u.goto k) :=
    h.goto hr hpc hg fun hc => Or.inl (hk hc)
  have after {k : Pc μ α R} (hk : k.contends = false) (hc : k.contends = true) :
      (s.pc s.running).contends = true := by
    rw [hk] at hc
    cases hc
  obtain ⟨hs, honly⟩ := hs
  cases hs.move with
  | jump hm hj =>
    refine h.goto rfl rfl rfl fun hk => ?_
    cases hj.contends hk with
    | inl hold => exact Or.inl hold
    | inr hlock =>
      obtain ⟨m, rfl⟩ := hlock
      exact Or.inr honly
  | drop m hm hpc hg =>
    refine h.reguard (fun hb => ?_) rfl rfl rfl
    rw [hb, h.guards] at hg
    cases hg
  | own m k hm hl hk =>
    refine h.reguard (fun hb => ?_) rfl rfl rfl
    have hout := h.outside
    rw [← hb] at hout
    generalize s.pc s.running = k₀ at hk hout
    cases hk <;> cases hout
  | disable c w hm hpc | take c w hm hpc hh | release c sw hm hpc | save c fromCtx toCtx hm hpc =>
    exact keep rfl rfl rfl fun hc => by rw [hpc]; exact hc
  | unlock w k hm hpc => exact keep rfl rfl rfl fun hc => by rw [hpc]; exact hc
  | enqueue m id sched sw hm hpc hw hsched | dropLock m hm hpc hw | pop m id rest hm hpc hw =>
    exact keep rfl rfl rfl fun _ => by rw [hpc]; rfl
  | restore w k hm hpc =>
    refine keep rfl rfl rfl fun hc => ?_
    rw [hpc]
    cases k <;> exact hc
  | halt c hm hpc =>
    refine keep rfl rfl rfl fun hc => ?_
    rw [hpc]
    cases c <;> exact hc
  | unblock id k w sched hm hpc hsched =>
    refine keep rfl rfl rfl (after ?_)
    cases k <;> rfl
  | newThread | write | tick | block | spawn | dropUnlock => exact keep rfl rfl rfl (after rfl)
  | compute | setInterrupts | irq | irqTick | irqReturn | irqSave | load =>
    exact ⟨h.guards, h.outside⟩

structure Contended (s : Core μ α R) : Prop where
  core : CoreInv s
  calls : Calls (fun c => c.yields = false ∧ c.unblocks = false) s
  enqueues : Enqueues s
  awake : Awake s
  ids : Ids s
  tokens : Tokens s
  lively : Lively s
  threads : OnlyThreads s

omit [DecidableEq μ] in
theorem Contended.init (data : μ → α) (r : R) : Contended (Core.init data r) where
  core := CoreInv.init data r
  calls := fun _ _ hc => by cases hc
  enqueues := fun _ _ _ hf => by cases hf
  awake := Awake.init data r
  ids := Ids.init data r
  tokens := Tokens.init data r
  lively := fun _ hw => absurd rfl hw
  threads := ⟨rfl, rfl⟩

theorem Contended.step (h : Contended s) (hs : Restrict (Step p) LocksOnly s e t) :
    Contended t where
  core := h.core.step hs.1
  calls := locksOnly_calls h.calls hs
  enqueues := Enqueues.step h.core.shielded hs.1
  awake := h.awake.step h.core h.enqueues (fun f c hc => (h.calls f c hc).1) hs.1
  ids := h.ids.step hs.1
  tokens := h.tokens.step h.core h.awake h.ids h.enqueues h.calls hs.1
  lively := h.lively.step h.core h.awake h.ids h.enqueues h.tokens h.calls hs.1
  threads := h.threads.step hs

omit [DecidableEq μ] in
/- A thread is marked blocked exactly while its id is in a queue, or popped from one and
   not unblocked yet. -/
theorem Contended.blocked_iff (h : Contended s) {i : Nat} {x : Thread}
    (hx : s.sched.threads[i]? = some x) : BlockedAt s.sched.metadata i ↔
      ∃ m, x.id ∈ (s.mutexes m).waiters ∨ ∃ f, (s.pc f).popped = some (x.id, m) := by
  refine ⟨h.tokens.cover i x hx, fun hm => ?_⟩
  obtain ⟨m, hm⟩ := hm
  have hsleep : Sleeper s m x.id := by
    cases hm with
    | inl hw => exact h.tokens.waits m x.id hw
    | inr hf =>
      obtain ⟨f, hf⟩ := hf
      exact (h.tokens.popped f m x.id hf).1
  obtain ⟨j, y, hy, hid, hb, _⟩ := hsleep
  rwa [index_unique h.ids.nodup hx hy hid.symm]

omit [DecidableEq μ] in
theorem Pc.dropping_of_popped {k : Pc μ α R} {id : ThreadId} {m : μ}
    (h : k.popped = some (id, m)) : k.dropping = some m := by
  cases k with
  | acquire c | disable c w | spin c w | locked c w =>
    change c.popped.map (·.2) = some m
    rw [show c.popped = some (id, m) from h]
    rfl
  | _ => cases h

omit [DecidableEq μ] in
/- What the two halves of `Lively` say once bootstrap is out of the way. -/
theorem Contended.helper (h : Contended s) {m : μ} (hw : (s.mutexes m).waiters ≠ [])
    (hl : (s.mutexes m).locked = false) : (∃ i, (s.pc (.thread i)).dropping = some m) ∨
      ∃ i, (s.pc (.thread i)).trying = some m ∧ RunnableAt s.sched.metadata i := by
  have outside {f : Flow} (hf : (s.pc f).contends = true) : f ≠ .bootstrap := by
    rintro rfl
    rw [h.threads.outside] at hf
    cases hf
  cases h.lively m hw hl with
  | inl hd =>
    obtain ⟨f, hf⟩ := hd
    cases f with
    | bootstrap => exact absurd rfl (outside (Pc.contends_of_dropping hf))
    | thread i => exact Or.inl ⟨i, hf⟩
  | inr ht =>
    obtain ⟨f, hf, ha⟩ := ht
    cases f with
    | bootstrap => exact absurd rfl (outside (Pc.contends_of_trying hf))
    | thread i => exact Or.inr ⟨i, hf, ha⟩

omit [DecidableEq μ] in
theorem Contended.idle (h : Contended s) {m : μ} (hl : (s.mutexes m).locked = false)
    (hd : ∀ i, (s.pc (.thread i)).dropping ≠ some m)
    (ht : ∀ i, RunnableAt s.sched.metadata i → (s.pc (.thread i)).trying ≠ some m) {i : Nat}
    (hb : BlockedAt s.sched.metadata i) : (s.pc (.thread i)).sleepsOn ≠ some m := by
  intro hsleep
  have hlt : i < s.sched.threads.length := h.core.valid.lengths ▸ hb.lt
  have hx : s.sched.threads[i]? = some s.sched.threads[i] := List.getElem?_eq_getElem hlt
  have hself : Sleeper s m s.sched.threads[i].id := ⟨i, _, hx, rfl, hb, hsleep⟩
  obtain ⟨n, hn⟩ := (h.blocked_iff hx).mp hb
  cases hn with
  | inl hw =>
    obtain rfl := (h.tokens.waits n _ hw).unique h.ids.nodup hself
    cases h.helper (List.ne_nil_of_mem hw) hl with
    | inl hf =>
      obtain ⟨j, hj⟩ := hf
      exact hd j hj
    | inr hf =>
      obtain ⟨j, hj, hr⟩ := hf
      exact ht j hr hj
  | inr hf =>
    obtain ⟨f, hf⟩ := hf
    obtain rfl := (h.tokens.popped f n _ hf).1.unique h.ids.nodup hself
    have hdrop := Pc.dropping_of_popped hf
    cases f with
    | bootstrap =>
      have hout := Pc.contends_of_dropping hdrop
      rw [h.threads.outside] at hout
      cases hout
    | thread j => exact hd j hdrop

/-- No lost wakeup. In every run in which threads lock and drop mutexes and nothing else
blocks or wakes them: a thread is marked blocked iff its id is in a wait queue, and then
exactly once, or a guard drop has popped it and not unblocked it yet; a free mutex with a
waiter has a thread in its guard drop, or a thread that is not blocked and still tries its
flag; so nobody sleeps on a mutex that is free and idle. -/
theorem no_lost_wakeup (data : μ → α) (r₀ : R) (s : Core μ α R)
    (h : Reachable (Restrict (Step p) LocksOnly) (Core.init data r₀) s) :
    (∀ i x, s.sched.threads[i]? = some x → (BlockedAt s.sched.metadata i ↔
      ∃ m, (s.mutexes m).waiters.count x.id = 1 ∨ ∃ f, (s.pc f).popped = some (x.id, m))) ∧
    (∀ m id, (s.mutexes m).waiters.count id ≤ 1) ∧
    (∀ m, (s.mutexes m).waiters ≠ [] → (s.mutexes m).locked = false →
      (∃ i, (s.pc (.thread i)).dropping = some m) ∨
      ∃ i, (s.pc (.thread i)).trying = some m ∧ RunnableAt s.sched.metadata i) ∧
    ∀ m, (s.mutexes m).locked = false → (∀ i, (s.pc (.thread i)).dropping ≠ some m) →
      (∀ i, RunnableAt s.sched.metadata i → (s.pc (.thread i)).trying ≠ some m) →
      ∀ i, BlockedAt s.sched.metadata i → (s.pc (.thread i)).sleepsOn ≠ some m := by
  have hinv : Contended s :=
    h.invariant (fun _ _ _ hi hs => hi.step hs) (Contended.init data r₀)
  have hcount (m : μ) (id : ThreadId) : (s.mutexes m).waiters.count id ≤ 1 :=
    List.nodup_iff_count.mp (hinv.tokens.nodup m) id
  refine ⟨fun i x hx => ?_, hcount, fun m hw hl => hinv.helper hw hl,
    fun m hl hd ht i hb => hinv.idle hl hd ht hb⟩
  rw [hinv.blocked_iff hx]
  refine exists_congr fun m => or_congr_left ?_
  rw [← List.count_pos_iff]
  have hle := hcount m x.id
  omega

/- Two threads; the second one sleeps on the mutex, and the first one has dropped it and
   not woken the second one yet. -/
def releaseEvents : List (Event Unit Nat Unit) :=
  let steps (n : Nat) : List (Event Unit Nat Unit) := List.replicate n .advance
  bootEvents 2 ++ [.lock ()] ++ steps 1 ++ [.irq .timer] ++ steps 3 ++ [.lock ()] ++ steps 9 ++
    [.drop ()]

theorem sleeper_awaits_drop : ∃ s : Core Unit Nat Unit,
    Reachable (Restrict (Step .dev) LocksOnly) (Core.init (fun _ => 0) ()) s ∧
      (s.mutexes ()).waiters = [1] ∧ (s.mutexes ()).locked = false ∧
      ((∃ i, (s.pc (.thread i)).dropping = some ()) ∨
        ∃ i, (s.pc (.thread i)).trying = some () ∧ RunnableAt s.sched.metadata i) := by
  have hrun : ((exec (checked (Core.step .dev) LocksOnly) (Core.init (fun _ => 0) ())
      releaseEvents).any fun s => decide ((s.mutexes ()).waiters = [1]) &&
        decide ((s.mutexes ()).locked = false)) = true := by decide +kernel
  obtain ⟨s, hreach, hp⟩ := reachable_of_checked hrun
  simp only [Bool.and_eq_true, decide_eq_true_eq] at hp
  exact ⟨s, hreach, hp.1, hp.2, (no_lost_wakeup _ _ s hreach).2.2.1 () (by simp [hp.1]) hp.2⟩

end MoltOS.Kernel
