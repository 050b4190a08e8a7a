import MoltOS.KernelAgree

/-! Where a flow stands in a call: which calls are under way in a run that makes only
some of them, where a flow sleeps, and what it has seen before it enqueues itself. -/
namespace MoltOS.Kernel
open MoltOS.Rust MoltOS.Eevdf MoltOS.Transition

variable {μ α R : Type}

def Pc.call : Pc μ α R → Option (Call μ R)
  | .acquire c | .disable c _ | .spin c _ | .locked c _ | .prepared c _ | .released c _
  | .resumed c | .deadlock c => some c
  | .enqueue m _ => some (.kmutexLock m)
  | _ => none

def Pc.sleepsOn : Pc μ α R → Option μ
  | .prepared (.kmutexLock m) _ | .released (.kmutexLock m) _ | .resumed (.kmutexLock m)
  | .deadlock (.kmutexLock m) => some m
  | _ => none

def Pc.stuck : Pc μ α R → Bool
  | .prepared (.kmutexLock _) none | .released (.kmutexLock _) none | .deadlock (.kmutexLock _) =>
    true
  | _ => false

theorem Cont.pc_stuck (k : Cont μ) : (k.pc : Pc μ α R).stuck = false := by
  cases k <;> rfl

theorem Cont.pc_call (k : Cont μ) : (k.pc : Pc μ α R).call = none := by
  cases k <;> rfl

theorem haltPc_stuck (c : Call μ R) :
    (haltPc c : Pc μ α R).stuck = (Pc.released c none : Pc μ α R).stuck := by
  cases c <;> rfl

theorem haltPc_sleepsOn (c : Call μ R) :
    (haltPc c : Pc μ α R).sleepsOn = (Pc.released c none : Pc μ α R).sleepsOn := by
  cases c <;> rfl

theorem haltPc_call {c d : Call μ R} (h : (haltPc c : Pc μ α R).call = some d) : d = c := by
  cases c <;> cases h <;> rfl

theorem afterSwitch_stuck {c : Call μ R} {k : Pc μ α R} (h : Core.afterSwitch c = some k) :
    k.stuck = false := by
  cases c <;> cases h <;> rfl

theorem Acquires.ne_enqueue {m : μ} {k k' : Pc μ α R} (h : Acquires m k k') (n : μ)
    (id : ThreadId) : k' ≠ .enqueue n id := by
  cases h <;> simp

theorem Acquires.sleepsOn {m : μ} {k k' : Pc μ α R} (h : Acquires m k k') :
    k.sleepsOn = none ∧ k.stuck = false ∧ k'.stuck = false := by
  cases h <;> exact ⟨rfl, rfl, rfl⟩

variable {s t : Core μ α R} {e : Event μ α R}

theorem Jump.stuck {k k' : Pc μ α R} (h : Jump s e k k') : k.stuck = false ∧ k'.stuck = false := by
  cases h with
  | resume c k hk => exact ⟨rfl, afterSwitch_stuck hk⟩
  | _ => exact ⟨rfl, rfl⟩

def Event.yields : Event μ α R → Bool
  | .blockAndYield => true
  | _ => false

def Event.unblocks : Event μ α R → Bool
  | .unblockThread _ => true
  | _ => false

def Call.yields : Call μ R → Bool
  | .blockAndYield => true
  | _ => false

/- `unblock_thread` called from outside a guard drop. -/
def Call.unblocks : Call μ R → Bool
  | .unblockThread _ none => true
  | _ => false

theorem Jump.call {k k' : Pc μ α R} (h : Jump s e k k') {c : Call μ R} (hc : k'.call = some c) :
    k.call = some c ∨ (c.yields = e.yields ∧ c.unblocks = e.unblocks) := by
  cases h with
  | resume d k hk =>
    cases d <;> cases hk <;> cases hc
    exact Or.inl rfl
  | wait m w id hl hid | flag c =>
    left
    exact hc
  | lock | read | retry | popNone => cases hc
  | enter | yield | unblock | contend | wake =>
    right
    cases hc
    exact ⟨rfl, rfl⟩

def Calls (P : Call μ R → Prop) (s : Core μ α R) : Prop :=
  ∀ f c, (s.pc f).call = some c → P c

theorem Calls.goto {P : Call μ R → Prop} (h : Calls P s) {u : Core μ α R} {k : Pc μ α R}
    (hpc : u.pc = s.pc) (hk : ∀ c, k.call = some c → P c) : Calls P (u.goto k) := by
  intro f c hc
  by_cases hf : f = u.running
  · subst hf
    rw [goto_pc_self] at hc
    exact hk c hc
  · rw [goto_pc_other u k hf, hpc] at hc
    exact h f c hc

variable [DecidableEq μ] {p : Profile}

theorem Calls.step {P : Call μ R → Prop}
    (hP : ∀ c, c.yields = e.yields → c.unblocks = e.unblocks → P c)
    (hin : ∀ c : Call μ R, c.yields = false → c.unblocks = false → P c)
    (h : Calls P s) (hs : Step p s e t) : Calls P t := by
  have same {u : Core μ α R} {k : Pc μ α R} (hpc : u.pc = s.pc)
      (hk : k.call = (s.pc s.running).call) : Calls P (u.goto k) :=
    h.goto hpc fun c hc => h s.running c (hk ▸ hc)
  have leaves {u : Core μ α R} {k : Pc μ α R} (hpc : u.pc = s.pc) (hk : k.call = none) :
      Calls P (u.goto k) := h.goto hpc fun c hc => by rw [hk] at hc; cases hc
  cases hs.move with
  | jump hm hj =>
    refine h.goto rfl fun c hc => ?_
    cases hj.call hc with
    | inl hold => exact h _ c hold
    | inr hnew => exact hP c hnew.1 hnew.2
  | newThread weight entry hm hpc =>
    exact h.goto rfl fun c hc => by cases hc; exact hin _ rfl rfl
  | drop m hm hpc hg => exact leaves rfl rfl
  | write m v f hm hpc => exact leaves rfl rfl
  | own m k hm hl hk =>
    refine leaves rfl ?_
    generalize s.pc s.running = k₀ at hk
    cases hk <;> rfl
  | disable c w hm hpc => exact same rfl (by rw [hpc]; rfl)
  | take c w hm hpc hh => exact same rfl (by rw [hpc]; rfl)
  | tick w sched sw hm hpc hsched => exact same rfl (by rw [hpc]; rfl)
  | block w sched sw hm hpc hsched => exact same rfl (by rw [hpc]; rfl)
  | enqueue m id sched sw hm hpc hw hsched => exact same rfl (by rw [hpc]; rfl)
  | unblock id k w sched hm hpc hsched => exact leaves rfl rfl
  | spawn thread weight entry w hm hpc => exact leaves rfl rfl
  | unlock w k hm hpc => exact leaves rfl rfl
  | restore w k hm hpc => exact leaves rfl (Cont.pc_call k)
  | release c sw hm hpc => exact same rfl (by rw [hpc]; rfl)
  | save c fromCtx toCtx hm hpc => exact same rfl (by rw [hpc]; rfl)
  | halt c hm hpc =>
    refine h.goto rfl fun d hd => ?_
    obtain rfl := haltPc_call hd
    exact h s.running d (by rw [hpc]; rfl)
  | dropLock m hm hpc hw => exact leaves rfl rfl
  | pop m id rest hm hpc hw => exact h.goto rfl fun c hc => by cases hc; exact hin _ rfl rfl
  | dropUnlock m hm hpc => exact leaves rfl rfl
  | compute | setInterrupts | irq | irqTick | irqReturn | irqSave | load => exact h

def NoYield (_ : Core μ α R) (e : Event μ α R) : Prop := e.yields = false

/- Runs in which also nothing but the guard drop unblocks, and only threads lock. -/
def LocksOnly (s : Core μ α R) (e : Event μ α R) : Prop :=
  match e with
  | .lock _ => s.running ≠ .bootstrap
  | .blockAndYield | .unblockThread _ => False
  | _ => True

instance (s : Core μ α R) : (e : Event μ α R) → Decidable (LocksOnly s e)
  | .lock _ => inferInstanceAs (Decidable (_ ≠ _))
  | .blockAndYield | .unblockThread _ => instDecidableFalse
  | .irq _ | .advance | .compute _ | .setInterrupts _ | .drop _ | .read _ | .write _
  | .enterScheduler | .spawn _ _ => instDecidableTrue

omit [DecidableEq μ] in
theorem LocksOnly.calls (h : LocksOnly s e) : e.yields = false ∧ e.unblocks = false := by
  cases e with
  | blockAndYield | unblockThread id => exact h.elim
  | _ => exact ⟨rfl, rfl⟩

theorem noYield_calls (h : Calls (fun c => c.yields = false) s)
    (hs : Restrict (Step p) NoYield s e t) : Calls (fun c => c.yields = false) t :=
  h.step (fun _ hy _ => hy.trans hs.2) (fun _ hy _ => hy) hs.1

theorem locksOnly_calls (h : Calls (fun c => c.yields = false ∧ c.unblocks = false) s)
    (hs : Restrict (Step p) LocksOnly s e t) :
    Calls (fun c => c.yields = false ∧ c.unblocks = false) t :=
  h.step (fun _ hy hu => ⟨hy.trans hs.2.calls.1, hu.trans hs.2.calls.2⟩) (fun _ hy hu => ⟨hy, hu⟩) hs.1

omit [DecidableEq μ] in
theorem enqueue_goto (h : Shielded s) {u : Core μ α R} {k : Pc μ α R} (hr : u.running = s.running)
    (hpc : u.pc = s.pc) {f : Flow} {m : μ} {id : ThreadId}
    (hf : (u.goto k).pc f = .enqueue m id) : k = .enqueue m id := by
  by_cases hne : f = u.running
  · subst hne
    rwa [goto_pc_self] at hf
  · rw [goto_pc_other u k hne, hpc] at hf
    have halone := (h.alone f (by rw [hf]; rfl)).1
    exact absurd (halone.trans hr.symm) hne

def Enqueues (s : Core μ α R) : Prop :=
  ∀ f m id, s.pc f = .enqueue m id →
    (s.mutexes m).locked = true ∧ s.sched.currentThreadId = .ok (some id)

omit [DecidableEq μ] in
/- So it is the current thread of the scheduler, under that id. -/
theorem Enqueues.current (h : Enqueues s) (hc : CoreInv s) {m : μ} {id : ThreadId}
    (hpc : s.pc s.running = .enqueue m id) : ∃ i x, s.sched.current = some i ∧
      s.running = .thread i ∧ s.sched.threads[i]? = some x ∧ x.id = id := by
  have hmask : (s.pc s.running).masked = true := by rw [hpc]; rfl
  have hrun := hc.current (hc.shielded.alone _ hmask).2 (by rw [hpc]; rfl)
  have hid := (h _ m id hpc).2
  cases ho : s.sched.current with
  | none => simp [EevdfScheduler.currentThreadId, ho] at hid
  | some i =>
    simp only [EevdfScheduler.currentThreadId, ho, bind_eq_ok, pure_eq_ok, index_eq_ok,
      Option.some.injEq] at hid
    obtain ⟨x, hx, hid⟩ := hid
    rw [ho] at hrun
    exact ⟨i, x, rfl, hrun, hx, hid⟩

theorem Enqueues.step (hsh : Shielded s) (hs : Step p s e t) : Enqueues t := by
  have leaves {u : Core μ α R} {k : Pc μ α R} (hr : u.running = s.running) (hpc : u.pc = s.pc)
      (hk : ∀ m id, k ≠ .enqueue m id) : Enqueues (u.goto k) := by
    intro f m id hf
    exact absurd (enqueue_goto hsh hr hpc hf) (hk m id)
  have empty {u : Core μ α R} (hpc : u.pc = s.pc) (hm : s.mode ≠ .normal) : Enqueues u := by
    intro f m id hf
    rw [hpc] at hf
    exact absurd (hsh.alone f (by rw [hf]; rfl)).2 hm
  have idle {u : Core μ α R} (hpc : u.pc = s.pc) (hk : (s.pc s.running).masked = false) :
      Enqueues u := by
    intro f m id hf
    rw [hpc] at hf
    have hmask : (s.pc f).masked = true := by rw [hf]; rfl
    rw [(hsh.alone f hmask).1, hk] at hmask
    cases hmask
  cases hs.move with
  | jump hm hj =>
    intro f m id hf
    have hk := enqueue_goto hsh rfl rfl hf
    subst hk
    generalize s.pc s.running = k₀ at hj
    cases hj with
    | wait m w id hl hid => exact ⟨hl, hid⟩
    | resume c k hk => cases c <;> cases hk
  | compute r hm hpc => exact idle rfl (by rw [hpc]; rfl)
  | setInterrupts b hm hpc => exact idle rfl (by rw [hpc]; rfl)
  | irq k hm hi => exact idle rfl (hsh.normal hi).2
  | irqTick frame sched sw hm hh hsched => exact empty rfl (by simp [hm])
  | irqReturn frame sw hm hsw => exact empty rfl (by simp [hm])
  | irqSave frame fromCtx toCtx hne hm => exact empty rfl (by simp [hm])
  | load toCtx f r hm hc => exact empty rfl (by simp [hm])
  | own m k hm hl hk => exact leaves rfl rfl hk.ne_enqueue
  | restore w k hm hpc => exact leaves rfl rfl (by cases k <;> simp [Cont.pc])
  | halt c hm hpc => exact leaves rfl rfl (by cases c <;> simp [haltPc])
  | newThread | drop | write | disable | take | tick | block | enqueue | unblock | spawn | unlock
  | release | save | dropLock | pop | dropUnlock => exact leaves rfl rfl (by simp)

end MoltOS.Kernel
