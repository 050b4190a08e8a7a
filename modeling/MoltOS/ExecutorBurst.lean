import Mathlib.Data.List.Count
import MoltOS.ExecutorWake

/-! How full the task queue gets. Wakes are not merged, and a poll of the shell arms its
waker again for every byte it takes, so each accepted key can queue the shell once more:
99 keys between two drains of the queue are safe and 100 are not. -/
namespace MoltOS.Task
open MoltOS.Transition

def shellWakes (l : List TaskId) : Nat := l.count shell

def otherWakes (l : List TaskId) : Nat := l.countP (· != shell)

def armed (waker : Option TaskId) : Nat := if waker.isSome then 1 else 0

def Pc.outside : Pc → Bool
  | .loop => true
  | .sleepers _ _ => true
  | .wake _ _ _ => true
  | .test => true
  | .halt => true
  | .halted => true
  | _ => false

def Pc.polling : Pc → Bool
  | .register => true
  | .pop => true
  | .key _ => true
  | _ => false

def Pc.shellTaken : Pc → Nat
  | .dispatch id => if id = shell then 1 else 0
  | _ => 0

def Pc.beats : Pc → Nat
  | .wake _ _ _ => 1
  | .dispatch id => if id = shell then 0 else 1
  | .sleepNew => 1
  | .sleepPoll => 1
  | .sleepPush => 1
  | _ => 0

variable {s t : Core} {e : Event}

theorem length_eq_wakes (l : List TaskId) : l.length = shellWakes l + otherWakes l := by
  have hcount := List.length_eq_countP_add_countP (fun id => id == shell) (l := l)
  have hother : l.countP (fun id => ¬ (id == shell) = true) = otherWakes l :=
    List.countP_congr fun id _ => by simp
  rw [hother] at hcount
  exact hcount

theorem shellWakes_snoc (l : List TaskId) (id : TaskId) :
    shellWakes (l ++ [id]) = shellWakes l + if id = shell then 1 else 0 := by
  simp [shellWakes, List.count_append, List.count_singleton]

theorem otherWakes_snoc (l : List TaskId) (id : TaskId) :
    otherWakes (l ++ [id]) = otherWakes l + if id = shell then 0 else 1 := by
  by_cases h : id = shell <;> simp [otherWakes, h]

theorem shellWakes_cons (l : List TaskId) (id : TaskId) :
    shellWakes (id :: l) = shellWakes l + if id = shell then 1 else 0 := by
  simp [shellWakes, List.count_cons]

theorem otherWakes_cons (l : List TaskId) (id : TaskId) :
    otherWakes (id :: l) = otherWakes l + if id = shell then 0 else 1 := by
  by_cases h : id = shell <;> simp [otherWakes, h]

/-- Everybody but the shell has one wake in all: queued, among the sleepers, or in the
hands of the executor. -/
structure Beats (s : Core) : Prop where
  sleeper : ∀ x ∈ s.sleepers, x.2 = heartbeat
  waking : ∀ now i id, s.pc = .wake now i id → id = heartbeat
  once : otherWakes s.taskQueue.items + s.sleepers.length + s.pc.beats ≤ 1

theorem Beats.init (now : Nat) : Beats (Core.init now) :=
  ⟨fun _ h => (by cases h), fun _ _ _ h => (by cases h), Nat.le_of_eq rfl⟩

theorem Jump.beats_le {k k' : Pc} (h : Jump s k k') : k'.beats ≤ k.beats := by
  cases h with
  | unknown | waiting => exact Nat.zero_le _
  | shell | first | again | key | loop | asleep | woken | expired | enlist | empty | idle | busy
  | halt => exact Nat.le_refl _

theorem Jump.not_wake {k k' : Pc} (h : Jump s k k') (now i : Nat) (id : TaskId) :
    k' ≠ .wake now i id := by
  intro he
  subst he
  cases h

theorem resumed_beats (k : Pc) : k.resumed.beats = k.beats := by
  cases k <;> rfl

theorem resumed_eq_wake {k : Pc} {now i : Nat} {id : TaskId} (h : k.resumed = .wake now i id) :
    k = .wake now i id := by
  cases k <;> first | exact h | cases h

theorem Beats.step (hb : Beats s) (ho : ∀ id, s.waker = some id → id = shell) (h : Step s e t) :
    Beats t := by
  have honce := hb.once
  cases h.move with
  | jump k hj =>
    have hle := hj.beats_le
    exact ⟨hb.sleeper, fun now i id hk => absurd hk (hj.not_wake now i id), by simp only; omega⟩
  | remove now i x hpc hx =>
    obtain ⟨hlt, _⟩ := List.getElem?_eq_some_iff.mp hx
    refine ⟨fun y hy => hb.sleeper y (List.mem_of_mem_eraseIdx hy), ?_, ?_⟩
    · intro now' i' id hk
      cases hk
      exact hb.sleeper x (List.mem_of_getElem? hx)
    · rw [hpc] at honce
      simp only [List.length_eraseIdx, hlt, if_true, Pc.beats] at honce ⊢
      omega
  | wake now i id q hpc hq =>
    obtain rfl := hb.waking now i id hpc
    refine ⟨hb.sleeper, fun _ _ _ hk => (by cases hk), ?_⟩
    rw [hpc] at honce
    simp only [(ArrayQueue.push_eq_some.mp hq).2, otherWakes_snoc, Pc.beats] at honce ⊢
    rw [if_neg (by decide)]
    omega
  | take id q hpc hq =>
    refine ⟨hb.sleeper, fun _ _ _ hk => (by cases hk), ?_⟩
    rw [hpc, hq, otherWakes_cons] at honce
    simp only [Pc.beats] at honce ⊢
    omega
  | drained hpc hq | register hpc | yield scancode q hpc hq | pending hpc hq | sleepNew x hpc =>
    rw [hpc] at honce
    exact ⟨hb.sleeper, fun _ _ _ hk => (by cases hk), honce⟩
  | sleepPush target x hpc =>
    rw [hpc] at honce
    refine ⟨fun y hy => ?_, fun _ _ _ hk => (by cases hk), ?_⟩
    · obtain hy | hy := List.mem_append.mp hy
      · exact hb.sleeper y hy
      · rw [List.mem_singleton.mp hy]
    · simp only [List.length_append, List.length_singleton, Pc.beats] at honce ⊢
      omega
  | timer | keyFull | keyQuiet =>
    exact ⟨hb.sleeper, fun now i id hk => hb.waking now i id (resumed_eq_wake hk),
      by simp only [resumed_beats]; exact honce⟩
  | keyWake scancode q id r hq hw hr =>
    obtain rfl := ho id hw
    refine ⟨hb.sleeper, fun now i id hk => hb.waking now i id (resumed_eq_wake hk), ?_⟩
    simp only [resumed_beats, (ArrayQueue.push_eq_some.mp hr).2, otherWakes_snoc, if_true]
    exact honce

/-- Every wake of the shell but one is paid for by a key accepted since the last drain. -/
structure Paid (s : Core) : Prop where
  all : shellWakes s.taskQueue.items + armed s.waker + s.pc.shellTaken ≤ 1 + s.burst
  polling : s.pc.polling = true → shellWakes s.taskQueue.items ≤ s.burst
  outside : s.pc.outside = true → shellWakes s.taskQueue.items + armed s.waker ≤ 1

theorem Paid.init (now : Nat) : Paid (Core.init now) :=
  ⟨Nat.le_of_eq rfl, fun hk => (by cases hk), fun _ => Nat.le_of_eq rfl⟩

theorem armed_le (w : Option TaskId) : armed w ≤ 1 := by
  unfold armed
  split <;> omega

theorem Paid.jump (hp : Paid s) {k : Pc} (hj : Jump s s.pc k) : Paid { s with pc := k } := by
  obtain ⟨hall, hpoll, hout⟩ := hp
  generalize s.pc = k₀ at *
  cases hj with
  | shell =>
    have hle : shellWakes s.taskQueue.items + armed s.waker + 1 ≤ 1 + s.burst := hall
    refine ⟨?_, fun _ => ?_, fun hk => (by cases hk)⟩ <;> simp only [Pc.shellTaken] <;> omega
  | unknown | first | again | expired | waiting | enlist | empty | woken =>
    exact ⟨by simp only [Pc.shellTaken] at *; omega, fun hk => (by cases hk), fun hk => (by cases hk)⟩
  | key => exact ⟨hall, fun _ => hpoll rfl, fun hk => (by cases hk)⟩
  | loop | asleep | idle | busy | halt => exact ⟨hall, fun hk => (by cases hk), fun _ => hout rfl⟩

theorem resumed_shellTaken (k : Pc) : k.resumed.shellTaken = k.shellTaken := by
  cases k <;> rfl

theorem resumed_polling (k : Pc) : k.resumed.polling = k.polling := by
  cases k <;> rfl

theorem resumed_outside (k : Pc) : k.resumed.outside = k.outside := by
  cases k <;> rfl

theorem Paid.step (hp : Paid s) (hb : Beats s) (ho : ∀ id, s.waker = some id → id = shell)
    (h : Step s e t) : Paid t := by
  obtain ⟨hall, hpoll, hout⟩ := hp
  have harmed := armed_le s.waker
  cases h.move with
  | jump k hj => exact Paid.jump ⟨hall, hpoll, hout⟩ hj
  | remove now i x hpc hx =>
    rw [hpc] at hall hout
    exact ⟨hall, fun hk => (by cases hk), fun _ => hout rfl⟩
  | wake now i id q hpc hq =>
    obtain rfl := hb.waking now i id hpc
    rw [hpc] at hall hout
    have hsame : shellWakes q.items = shellWakes s.taskQueue.items := by
      rw [(ArrayQueue.push_eq_some.mp hq).2, shellWakes_snoc, if_neg (by decide), Nat.add_zero]
    exact ⟨by simp only [hsame]; exact hall, fun hk => (by cases hk),
      fun _ => by simp only [hsame]; exact hout rfl⟩
  | take id q hpc hq =>
    rw [hpc, hq, shellWakes_cons] at hall
    refine ⟨?_, fun hk => (by cases hk), fun hk => (by cases hk)⟩
    simp only [Pc.shellTaken] at hall ⊢
    omega
  | drained hpc hq =>
    have hzero : shellWakes s.taskQueue.items = 0 := by simp [hq, shellWakes]
    refine ⟨?_, fun hk => (by cases hk), fun _ => ?_⟩ <;>
      simp only [hzero, Pc.shellTaken] <;> omega
  | register hpc =>
    rw [hpc] at hpoll
    have hle := hpoll rfl
    have h1 : armed (some shell) = 1 := rfl
    exact ⟨by simp only [h1, Pc.shellTaken]; omega, fun _ => hle, fun hk => (by cases hk)⟩
  | yield scancode q hpc hq =>
    rw [hpc] at hall hpoll
    exact ⟨hall, fun _ => hpoll rfl, fun hk => (by cases hk)⟩
  | pending hpc hq | sleepNew x hpc | sleepPush target x hpc =>
    rw [hpc] at hall
    exact ⟨hall, fun hk => (by cases hk), fun hk => (by cases hk)⟩
  | timer | keyFull =>
    exact ⟨by simp only [resumed_shellTaken]; exact hall,
      fun hk => hpoll ((resumed_polling s.pc).symm.trans hk),
      fun hk => hout ((resumed_outside s.pc).symm.trans hk)⟩
  | keyQuiet scancode q hq hw =>
    refine ⟨by simp only [resumed_shellTaken]; omega, fun hk => ?_,
      fun hk => hout ((resumed_outside s.pc).symm.trans hk)⟩
    exact (hpoll ((resumed_polling s.pc).symm.trans hk)).trans (Nat.le_succ _)
  | keyWake scancode q id r hq hw hr =>
    obtain rfl := ho id hw
    have hcount : shellWakes r.items = shellWakes s.taskQueue.items + 1 := by
      rw [(ArrayQueue.push_eq_some.mp hr).2, shellWakes_snoc, if_pos rfl]
    have h1 : armed s.waker = 1 := by simp [armed, hw]
    have h0 : armed none = 0 := rfl
    refine ⟨?_, fun hk => ?_, fun hk => ?_⟩
    · simp only [resumed_shellTaken, hcount, h0]
      omega
    · have hle := hpoll ((resumed_polling s.pc).symm.trans hk)
      simp only [hcount]
      omega
    · have hle := hout ((resumed_outside s.pc).symm.trans hk)
      simp only [hcount, h0]
      omega

def ShortBurst (s : Core) : Event → Prop
  | .keyboard _ => s.burst < 99
  | _ => True

instance (s : Core) : (e : Event) → Decidable (ShortBurst s e)
  | .keyboard _ => inferInstanceAs (Decidable (_ < _))
  | .advance => inferInstanceAs (Decidable True)
  | .timer => inferInstanceAs (Decidable True)

/-- A step can only find the task queue full in the wake of a sleeper or of the shell. -/
theorem full_cases (h : s.step e = .error .taskQueueFull) :
    ∃ id, s.taskQueue.push id = none ∧
      ((∃ now i, s.pc = .wake now i id) ∨ ((∃ b, e = .keyboard b) ∧ s.waker = some id)) := by
  cases e with
  | timer => cases h
  | keyboard b =>
    simp only [Core.step, Core.addScancode] at h
    cases hq : s.scancodeQueue.push b with
    | none => simp [hq, bind, Except.bind, pure, Except.pure] at h
    | some q =>
      cases hw : s.waker with
      | none => simp [hq, hw, Core.wakeWaker, bind, Except.bind, pure, Except.pure] at h
      | some id =>
        simp only [hq, hw, Core.wakeWaker, Core.wakeTask] at h
        cases hr : s.taskQueue.push id with
        | none => exact ⟨id, hr, Or.inr ⟨⟨b, rfl⟩, rfl⟩⟩
        | some r => simp [hr, bind, Except.bind, pure, Except.pure] at h
  | advance =>
    simp only [Core.step, Core.advance] at h
    cases hpc : s.pc with
    | wake now i id =>
      simp only [hpc, Core.wakeTask] at h
      cases hr : s.taskQueue.push id with
      | none => exact ⟨id, hr, Or.inl ⟨now, i, rfl⟩⟩
      | some r => simp [hr, bind, Except.bind, pure, Except.pure] at h
    | _ =>
      simp only [hpc] at h
      repeat' split at h
      all_goals cases h

/-- With at most 99 keys accepted between two drains of the task queue, `wake_task`
never finds the queue full. -/
theorem wake_never_finds_full (now : Nat) (s : Core)
    (h : Reachable (Restrict Step ShortBurst) (Core.init now) s) (e : Event)
    (he : ShortBurst s e) : s.step e ≠ .error .taskQueueFull := by
  have hstep (u : Core) (e : Event) (v : Core) (hu : Armed u ∧ Beats u ∧ Paid u)
      (hs : Restrict Step ShortBurst u e v) : Armed v ∧ Beats v ∧ Paid v :=
    ⟨hu.1.step hs.1, hu.2.1.step hu.1.owner hs.1, hu.2.2.step hu.2.1 hu.1.owner hs.1⟩
  obtain ⟨ha, hb, hp⟩ := h.invariant hstep ⟨Armed.init now, Beats.init now, Paid.init now⟩
  intro hfull
  obtain ⟨id, hnone, hcase⟩ := full_cases hfull
  have hlen := ArrayQueue.push_eq_none.mp hnone
  rw [length_eq_wakes] at hlen
  have hsize : queueSize = 100 := rfl
  have honce := hb.once
  obtain ⟨n, i, hpc⟩ | ⟨⟨b, rfl⟩, hw⟩ := hcase
  · -- a sleeper is woken outside `run_ready_tasks`, where the shell is queued at most once
    have hout := hp.outside (by rw [hpc]; rfl)
    omega
  · have hall := hp.all
    have hburst : s.burst < 99 := he
    have h1 : armed s.waker = 1 := by simp [armed, hw]
    omega

/- One key lands in each of `n` rounds of the shell's first poll, after the waker has been
   armed and before the byte is taken. -/
def burstEvents (n : Nat) : List Event :=
  List.replicate 4 .advance ++
    (List.replicate n [.advance, .keyboard 30, .advance, .advance]).flatten ++ [.advance]

theorem long_burst_is_safe : ∃ s,
    Reachable (Restrict Step ShortBurst) (Core.init 0) s ∧ s.burst = 98 ∧
      s.step (.keyboard 30) ≠ .error .taskQueueFull := by
  have hrun : ((exec (checked stepOption ShortBurst) (Core.init 0) (burstEvents 98)).any
      fun s => decide (s.burst = 98)) = true := by decide +kernel
  obtain ⟨s, hreach, hp⟩ := reachable_of_checkedEvents hrun
  have hburst : s.burst = 98 := of_decide_eq_true hp
  refine ⟨s, hreach, hburst, wake_never_finds_full 0 s hreach _ ?_⟩
  show s.burst < 99
  omega

/-- The hundredth key of one poll finds the task queue full, and the panic is raised in
the keyboard interrupt. -/
theorem hundredth_key_panics : ∃ s, Reachable Step (Core.init 0) s ∧ s.burst = 99 ∧
    s.step (.keyboard 30) = .error .taskQueueFull := by
  have hrun : ((exec stepOption (Core.init 0) (burstEvents 99)).any fun s =>
      decide (s.burst = 99) && match s.step (.keyboard 30) with
        | .error .taskQueueFull => true
        | _ => false) = true := by decide +kernel
  obtain ⟨s, hreach, hp⟩ := reachable_of_events hrun
  simp only [Bool.and_eq_true, decide_eq_true_eq] at hp
  refine ⟨s, hreach, hp.1, ?_⟩
  obtain ⟨_, hm⟩ := hp
  split at hm
  · assumption
  · cases hm

end MoltOS.Task
