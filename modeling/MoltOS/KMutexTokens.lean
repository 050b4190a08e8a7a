import MoltOS.KernelAwake
import MoltOS.KernelIds

/-! Where the id of a blocked thread is: once in the wait queue it sleeps on, or in the
hands of the one guard drop that has popped it. -/
namespace MoltOS.Kernel
open MoltOS.Rust MoltOS.Eevdf MoltOS.Transition

variable {μ α R : Type} {s t : Core μ α R} {e : Event μ α R} {p : Profile}

def Call.popped : Call μ R → Option (ThreadId × μ)
  | .unblockThread id (some m) => some (id, m)
  | _ => none

def Pc.popped : Pc μ α R → Option (ThreadId × μ)
  | .acquire c | .disable c _ | .spin c _ | .locked c _ => c.popped
  | _ => none

def Sleeper (s : Core μ α R) (m : μ) (id : ThreadId) : Prop :=
  ∃ i x, s.sched.threads[i]? = some x ∧ x.id = id ∧ BlockedAt s.sched.metadata i ∧
    (s.pc (.thread i)).sleepsOn = some m

theorem Sleeper.unique (hids : (s.sched.threads.map (·.id)).Nodup) {m n : μ} {id : ThreadId}
    (h : Sleeper s m id) (k : Sleeper s n id) : m = n := by
  obtain ⟨i, x, hx, hxid, _, hm⟩ := h
  obtain ⟨j, y, hy, hyid, _, hn⟩ := k
  obtain rfl := index_unique hids hx hy (hxid.trans hyid.symm)
  rw [hm] at hn
  cases hn
  rfl

structure Tokens (s : Core μ α R) : Prop where
  waits : ∀ m id, id ∈ (s.mutexes m).waiters → Sleeper s m id
  popped : ∀ f m id, (s.pc f).popped = some (id, m) →
    Sleeper s m id ∧ id ∉ (s.mutexes m).waiters
  once : ∀ f g m n id, (s.pc f).popped = some (id, m) → (s.pc g).popped = some (id, n) → f = g
  nodup : ∀ m, (s.mutexes m).waiters.Nodup
  cover : ∀ i x, s.sched.threads[i]? = some x → BlockedAt s.sched.metadata i →
    ∃ m, x.id ∈ (s.mutexes m).waiters ∨ ∃ f, (s.pc f).popped = some (x.id, m)

theorem Tokens.init (data : μ → α) (r : R) : Tokens (Core.init data r) := by
  refine ⟨?_, ?_, ?_, ?_, ?_⟩ <;>
    simp [Core.init, KMutex.new, EevdfScheduler.new, Pc.popped]

/-- A step that moves no id and neither blocks nor wakes anyone. -/
theorem Tokens.frame (h : Tokens s) (hw : ∀ m, (t.mutexes m).waiters = (s.mutexes m).waiters)
    (hth : ∀ (i : Nat) x, s.sched.threads[i]? = some x → t.sched.threads[i]? = some x)
    (hlen : s.sched.threads.length = s.sched.metadata.length)
    (hb : ∀ i, BlockedAt t.sched.metadata i ↔ BlockedAt s.sched.metadata i)
    (hpop : ∀ f, (t.pc f).popped = (s.pc f).popped)
    (hsl : ∀ i, BlockedAt s.sched.metadata i →
      (t.pc (.thread i)).sleepsOn = (s.pc (.thread i)).sleepsOn) : Tokens t := by
  have sleeper {m : μ} {id : ThreadId} (hs : Sleeper s m id) : Sleeper t m id := by
    obtain ⟨i, x, hx, hid, hbl, hm⟩ := hs
    exact ⟨i, x, hth i x hx, hid, (hb i).mpr hbl, (hsl i hbl).trans hm⟩
  refine ⟨?_, ?_, ?_, ?_, ?_⟩
  · intro m id hid
    rw [hw] at hid
    exact sleeper (h.waits m id hid)
  · intro f m id hf
    rw [hpop] at hf
    rw [hw]
    exact ⟨sleeper (h.popped f m id hf).1, (h.popped f m id hf).2⟩
  · intro f g m n id hf hg
    rw [hpop] at hf hg
    exact h.once f g m n id hf hg
  · intro m
    rw [hw]
    exact h.nodup m
  · intro i x hx hbl
    have hold := (hb i).mp hbl
    have hlt : i < s.sched.threads.length := hlen ▸ hold.lt
    have hsx : s.sched.threads[i]? = some s.sched.threads[i] := List.getElem?_eq_getElem hlt
    have he := (hth i _ hsx).symm.trans hx
    obtain ⟨m, hm⟩ := h.cover i x (hsx.trans he) hold
    refine ⟨m, ?_⟩
    rw [hw]
    simpa only [hpop] using hm

theorem popped_goto {u : Core μ α R} {k : Pc μ α R} (hr : u.running = s.running)
    (hpc : u.pc = s.pc) (hk : k.popped = (s.pc s.running).popped) (f : Flow) :
    ((u.goto k).pc f).popped = (s.pc f).popped := by
  by_cases hf : f = u.running
  · rw [hf, goto_pc_self, hk, hr]
  · rw [goto_pc_other u k hf, hpc]

theorem sleepsOn_goto {u : Core μ α R} {k : Pc μ α R} (hr : u.running = s.running)
    (hpc : u.pc = s.pc) {i : Nat}
    (hk : s.running = .thread i → k.sleepsOn = (s.pc s.running).sleepsOn) :
    ((u.goto k).pc (.thread i)).sleepsOn = (s.pc (.thread i)).sleepsOn := by
  by_cases hf : Flow.thread i = u.running
  · rw [hf, goto_pc_self, hk (hr.symm.trans hf.symm), hr]
  · rw [goto_pc_other u k hf, hpc]

theorem Jump.popped {k k' : Pc μ α R} (h : Jump s e k k') : k'.popped = k.popped := by
  cases h with
  | resume c k hk => cases c <;> cases hk <;> rfl
  | _ => rfl

theorem Pc.popped_none_of_call {k : Pc μ α R} (h : k.call = none) : k.popped = none := by
  cases k <;> first | rfl | cases h

variable [DecidableEq μ]

theorem setWaiters_same (s : Core μ α R) (m : μ) (l : List ThreadId) :
    ((s.setWaiters m l).mutexes m).waiters = l := by
  simp [Core.setWaiters, Core.setMutex]

theorem setWaiters_other (s : Core μ α R) (m : μ) (l : List ThreadId) {n : μ} (hn : n ≠ m) :
    ((s.setWaiters m l).mutexes n).waiters = (s.mutexes n).waiters := by
  simp [Core.setWaiters, Core.setMutex, hn]

/-- A thread that blocks puts its id into the queue it sleeps on. -/
theorem Tokens.enqueue (h : Tokens s) (hc : CoreInv s) (ha : Awake s) (hids : Ids s)
    (hq : Enqueues s) {m : μ} {id : ThreadId} {sched : EevdfScheduler} {sw : Option Switch}
    (hpc : s.pc s.running = .enqueue m id)
    (hs : s.sched.blockCurrentAndPrepareSwitch p .bootstrap s.ticks = .ok (sched, sw)) :
    Tokens ({ s.setWaiters m ((s.mutexes m).waiters ++ [id]) with sched := sched }.goto
      (.prepared (.kmutexLock m) sw)) := by
  obtain ⟨i₀, x₀, hcur, hrun, hx₀, hid⟩ := hq.current hc hpc
  have hth : sched.threads = s.sched.threads := EevdfScheduler.block_threads hs
  have hblk (i : Nat) := EevdfScheduler.block_blockedAt hcur hs (i := i)
  have hfree : ¬ BlockedAt s.sched.metadata i₀ := ha.not_blocked (by rw [hpc]; rfl) i₀ hrun
  have hnew {n : μ} {j : ThreadId} (hsl : Sleeper s n j) : j ≠ id := by
    obtain ⟨i, x, hx, hxid, hb, _⟩ := hsl
    intro he
    obtain rfl := index_unique hids.nodup hx hx₀ (hxid.trans (he.trans hid.symm))
    exact hfree hb
  set u := ({ s.setWaiters m ((s.mutexes m).waiters ++ [id]) with sched := sched }.goto
    (.prepared (.kmutexLock m) sw)) with hu
  have hself : u.pc s.running = .prepared (.kmutexLock m) sw :=
    goto_pc_self { s.setWaiters m ((s.mutexes m).waiters ++ [id]) with sched := sched } _
  have hother (f : Flow) (hf : f ≠ s.running) : u.pc f = s.pc f :=
    goto_pc_other { s.setWaiters m ((s.mutexes m).waiters ++ [id]) with sched := sched } _ hf
  have hpop (f : Flow) : (u.pc f).popped = (s.pc f).popped := by
    by_cases hf : f = s.running
    · rw [hf, hself, hpc]
      rfl
    · rw [hother f hf]
  have hwm : (u.mutexes m).waiters = (s.mutexes m).waiters ++ [id] := setWaiters_same s m _
  have hwn (n : μ) (hn : n ≠ m) : (u.mutexes n).waiters = (s.mutexes n).waiters :=
    setWaiters_other s m _ hn
  have sleeper {n : μ} {j : ThreadId} (hsl : Sleeper s n j) : Sleeper u n j := by
    obtain ⟨i, x, hx, hxid, hb, hn⟩ := hsl
    refine ⟨i, x, ?_, hxid, (hblk i).mpr (Or.inr hb), ?_⟩
    · change sched.threads[i]? = some x
      rw [hth]
      exact hx
    · have hf : Flow.thread i ≠ s.running := by
        intro he
        rw [hrun] at he
        cases he
        exact hfree hb
      rw [hother _ hf]
      exact hn
  have hme : Sleeper u m id := by
    refine ⟨i₀, x₀, ?_, hid, (hblk i₀).mpr (Or.inl rfl), ?_⟩
    · change sched.threads[i₀]? = some x₀
      rw [hth]
      exact hx₀
    · rw [← hrun, hself]
      rfl
  refine ⟨?_, ?_, ?_, ?_, ?_⟩
  · intro n j hj
    by_cases hn : n = m
    · subst hn
      rw [hwm, List.mem_append, List.mem_singleton] at hj
      cases hj with
      | inl hj => exact sleeper (h.waits n j hj)
      | inr hj => exact hj ▸ hme
    · rw [hwn n hn] at hj
      exact sleeper (h.waits n j hj)
  · intro f n j hf
    rw [hpop] at hf
    obtain ⟨hsl, hno⟩ := h.popped f n j hf
    refine ⟨sleeper hsl, ?_⟩
    by_cases hn : n = m
    · subst hn
      rw [hwm, List.mem_append, List.mem_singleton]
      exact not_or.mpr ⟨hno, hnew hsl⟩
    · rw [hwn n hn]
      exact hno
  · intro f g n k j hf hg
    rw [hpop] at hf hg
    exact h.once f g n k j hf hg
  · intro n
    by_cases hn : n = m
    · subst hn
      rw [hwm, List.nodup_append]
      refine ⟨h.nodup n, by simp, ?_⟩
      intro a hain b hb
      rw [List.mem_singleton.mp hb]
      exact hnew (h.waits n a hain)
    · rw [hwn n hn]
      exact h.nodup n
  · intro i x hx hb
    change sched.threads[i]? = some x at hx
    rw [hth] at hx
    cases (hblk i).mp hb with
    | inl he =>
      subst he
      have hxx := Option.some.inj (hx.symm.trans hx₀)
      refine ⟨m, Or.inl ?_⟩
      rw [hwm, hxx, hid]
      simp
    | inr hold =>
      obtain ⟨n, hn⟩ := h.cover i x hx hold
      refine ⟨n, ?_⟩
      simp only [hpop]
      refine hn.imp_left fun hmem => ?_
      by_cases hnm : n = m
      · subst hnm
        rw [hwm]
        exact List.mem_append_left _ hmem
      · rw [hwn n hnm]
        exact hmem

end MoltOS.Kernel
