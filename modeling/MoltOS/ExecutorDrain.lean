import MoltOS.ExecutorTasks

/-! No wake is lost: when `run_ready_tasks` finds its queue empty, every live task has been
polled since it was last woken. -/
namespace MoltOS.Tasks
open MoltOS.Rust MoltOS.Transition
open MoltOS.Task (TaskId Sleep queueSize)

def Everywhere (P : List Record → Record → List Record → Prop) (log : List Record) : Prop :=
  ∀ later r earlier, log = later ++ r :: earlier → P later r earlier

def Served (log : List Record) (id : TaskId) : Prop :=
  Everywhere (fun later r _ => r = .woken id ∨ r = .spawned id → .polled id ∈ later) log

def Live (log : List Record) (id : TaskId) : Prop := .spawned id ∈ log ∧ .finished id ∉ log

section Log
variable {log : List Record} {x : Record} {id : TaskId}

theorem everywhere_nil (P : List Record → Record → List Record → Prop) : Everywhere P [] :=
  fun later r earlier h => by simp at h

theorem everywhere_cons {P : List Record → Record → List Record → Prop} :
    Everywhere P (x :: log) ↔ P [] x log ∧ Everywhere (fun later => P (x :: later)) log := by
  constructor
  · intro h
    exact ⟨h [] x log rfl, fun later r earlier he => h (x :: later) r earlier (by rw [he]; rfl)⟩
  · rintro ⟨hnew, hold⟩ later r earlier h
    cases later with
    | nil =>
      cases h
      exact hnew
    | cons y later =>
      cases h
      exact hold later r earlier rfl

theorem served_polled : Served (.polled id :: log) id :=
  everywhere_cons.mpr ⟨by simp, fun later r earlier _ _ => List.mem_cons_self⟩

/-- A record other than its own enqueueing keeps a task served. -/
theorem Served.cons (h : Served log id) (hwoken : x ≠ .woken id) (hspawned : x ≠ .spawned id) :
    Served (x :: log) id := by
  refine everywhere_cons.mpr ⟨fun hx => ?_, fun later r earlier he hr => ?_⟩
  · rcases hx with hx | hx
    · exact absurd hx hwoken
    · exact absurd hx hspawned
  · exact List.mem_cons_of_mem _ (h later r earlier he hr)

end Log

def Core.inPoll (s : Core) : Option TaskId :=
  match s.pc with
  | .poll id | .register id | .pended id => some id
  | _ => none

theorem pc_of_polled {s : Core} {id : TaskId} (h : s.polled = some id) :
    s.pc = .poll id ∨ s.pc = .pended id := by
  unfold Core.polled at h
  split at h
  next hpc =>
    cases h
    exact .inl hpc
  next hpc =>
    cases h
    exact .inr hpc
  · cases h

theorem inPoll_of_polled {s : Core} {id : TaskId} (h : s.polled = some id) : s.inPoll = some id := by
  rcases pc_of_polled h with hpc | hpc <;> simp [Core.inPoll, hpc]

structure Tracked (s : Core) : Prop where
  live : ∀ id, id ∈ s.tasks ↔ Live s.log id ∨ s.pc = .retire id
  ended : ∀ id, s.pc = .retire id → .finished id ∈ s.log
  begun : ∀ id, .finished id ∈ s.log → .spawned id ∈ s.log
  old : ∀ id, .spawned id ∈ s.log → id < s.nextId
  held : ∀ id ∈ s.held, id < s.nextId ∧ .spawned id ∉ s.log
  polled : ∀ id, s.inPoll = some id → id ∈ s.tasks

section Tracked
variable {s t : Core} {e : Event}

/-- A step that neither spawns nor finishes a task. -/
theorem Tracked.quiet (h : Tracked s) (htasks : t.tasks = s.tasks) (hheld : t.held = s.held)
    (hnext : t.nextId = s.nextId) (hretire : ∀ id, t.pc = .retire id ↔ s.pc = .retire id)
    (hspawned : ∀ id, .spawned id ∈ t.log ↔ .spawned id ∈ s.log)
    (hfinished : ∀ id, .finished id ∈ t.log ↔ .finished id ∈ s.log)
    (hpoll : ∀ id, t.inPoll = some id → id ∈ s.tasks) : Tracked t := by
  constructor
  · intro id
    rw [htasks, h.live id, Live, Live, hspawned, hfinished, hretire]
  · intro id
    rw [hretire, hfinished]
    exact h.ended id
  · intro id
    rw [hspawned, hfinished]
    exact h.begun id
  · intro id
    rw [hspawned, hnext]
    exact h.old id
  · intro id
    rw [hheld, hspawned, hnext]
    exact h.held id
  · rw [htasks]
    exact hpoll

theorem tracked_spawn (h : Tracked s) {id : TaskId} {f : TaskId → Option Sleep}
    {q : ArrayQueue TaskId queueSize} (hidle : s.pc = .idle) (hid : id ∈ s.held) :
    Tracked { s with
      held := s.held.erase id
      tasks := insert id s.tasks
      sleep := f
      taskQueue := q
      log := .spawned id :: s.log } := by
  obtain ⟨hlt, hnew⟩ := h.held id hid
  have hfresh : .finished id ∉ s.log := fun hf => hnew (h.begun id hf)
  constructor
  · intro j
    by_cases hj : j = id
    · subst hj
      simp [Live, hfresh]
    · have hlive := h.live j
      simp only [Live] at hlive ⊢
      simp [hj, hlive]
  · intro j hj
    simp [hidle] at hj
  · intro j hj
    have hj : .finished j ∈ s.log := by simpa using hj
    exact List.mem_cons_of_mem _ (h.begun j hj)
  · intro j hj
    rcases List.mem_cons.mp hj with he | hj
    · cases he
      exact hlt
    · exact h.old j hj
  · intro j hj
    obtain ⟨hne, hj⟩ := Finset.mem_erase.mp hj
    obtain ⟨hjlt, hjnew⟩ := h.held j hj
    exact ⟨hjlt, by simp [hne, hjnew]⟩
  · intro j hj
    simp [Core.inPoll, hidle] at hj

theorem tracked_ready (h : Tracked s) {id : TaskId} (hid : s.inPoll = some id) :
    Tracked { s with pc := .retire id, log := .finished id :: s.log } := by
  have hretire : ∀ j, s.pc ≠ .retire j := fun j hj => by simp [Core.inPoll, hj] at hid
  have hlive : Live s.log id := ((h.live id).mp (h.polled id hid)).resolve_right (hretire id)
  constructor
  · intro j
    have hj := h.live j
    by_cases he : j = id
    · subst he
      simp [hj, hlive]
    · simp [hj, hretire j, Live, he, Ne.symm he]
  · intro j hj
    cases hj
    exact List.mem_cons_self
  · intro j hj
    rcases List.mem_cons.mp hj with he | hj
    · cases he
      exact List.mem_cons_of_mem _ hlive.1
    · exact List.mem_cons_of_mem _ (h.begun j hj)
  · intro j hj
    exact h.old j (by simpa using hj)
  · intro j hj
    exact ⟨(h.held j hj).1, by simpa using (h.held j hj).2⟩
  · intro j hj
    simp [Core.inPoll] at hj

theorem tracked_retired (h : Tracked s) {id : TaskId} (hid : s.pc = .retire id) :
    Tracked { s with tasks := s.tasks.erase id, pc := .forget id } := by
  refine ⟨fun j => ?_, by simp, h.begun, h.old, h.held, by simp [Core.inPoll]⟩
  by_cases he : j = id
  · subst he
    simp [Live, h.ended j hid]
  · have hne : s.pc ≠ .retire j := fun hj => he (Pc.retire.inj (hj.symm.trans hid))
    simp [h.live j, he, hne]

theorem tracked_step (h : Tracked s) (hm : Move s e t) : Tracked t := by
  have hpolled := h.polled
  cases hm with
  | newTask =>
    refine ⟨h.live, h.ended, h.begun, fun id hid => Nat.lt_succ_of_lt (h.old id hid),
      fun id hid => ?_, h.polled⟩
    rcases Finset.mem_insert.mp hid with rfl | hid
    · exact ⟨Nat.lt_succ_self _, fun hs => absurd (h.old _ hs) (Nat.lt_irrefl _)⟩
    · exact ⟨Nat.lt_succ_of_lt (h.held id hid).1, (h.held id hid).2⟩
  | spawn hidle hid _ hpush =>
    obtain ⟨q, -, rfl⟩ := hpush
    exact tracked_spawn h hidle hid
  | ready hid => exact tracked_ready h (inPoll_of_polled hid)
  | retired hpc => exact tracked_retired h hpc
  | wake hpush =>
    obtain ⟨q, -, rfl⟩ := hpush
    exact h.quiet rfl rfl rfl (fun _ => Iff.rfl) (by simp) (by simp) hpolled
  | tick | sweep | swept | sweepSkip | sleepNew | sleepReady =>
    exact h.quiet rfl rfl rfl (fun _ => Iff.rfl) (by simp) (by simp) hpolled
  | sweepWake _ _ _ hpush =>
    obtain ⟨q, -, rfl⟩ := hpush
    exact h.quiet rfl rfl rfl (fun _ => Iff.rfl) (by simp) (by simp) hpolled
  | run hpc | popped hpc | drained hpc | stale hpc | forgot hpc =>
    exact h.quiet rfl rfl rfl (by simp [hpc]) (by simp) (by simp) (by simp [Core.inPoll])
  | pending hid =>
    refine h.quiet rfl rfl rfl ?_ (by simp) (by simp) (by simp [Core.inPoll])
    rcases pc_of_polled hid with hpc | hpc <;> simp [hpc]
  | polled hpc hlive =>
    exact h.quiet rfl rfl rfl (by simp [hpc]) (by simp) (by simp) (by simpa [Core.inPoll] using hlive)
  | registered hpc | sleepAgain hpc | sleepFirst hpc | resume hpc =>
    refine h.quiet rfl rfl rfl (by simp [hpc]) (by simp) (by simp) ?_
    simpa [Core.inPoll, hpc] using hpolled

end Tracked

def Owed (s : Core) : Prop :=
  ∀ id ∈ s.tasks, Served s.log id ∨ id ∈ s.taskQueue.items ∨ s.pc = .dispatch id

section Owed
variable {s t : Core} {e : Event}

/-- A step that takes no id from the queue and adds no task. -/
theorem Owed.quiet (h : Owed s) (htasks : t.tasks ⊆ s.tasks) (hqueue : t.taskQueue = s.taskQueue)
    (hpc : ∀ id, s.pc = .dispatch id → t.pc = .dispatch id)
    (hlog : ∀ id, Served s.log id → Served t.log id) : Owed t := by
  intro id hid
  rw [hqueue]
  exact (h id (htasks hid)).imp (hlog id) (Or.imp_right (hpc id))

/-- A push, for a task that may be new. -/
theorem Owed.push (h : Owed s) {q : ArrayQueue TaskId queueSize} {r : Record} {id : TaskId}
    (hq : q.items = s.taskQueue.items ++ [id]) (hr : r = .woken id ∨ r = .spawned id)
    (htasks : ∀ j ∈ t.tasks, j = id ∨ j ∈ s.tasks) (hqueue : t.taskQueue = q)
    (hlog : t.log = r :: s.log) (hpc : t.pc = s.pc) : Owed t := by
  intro j hj
  rw [hqueue, hq, hlog, hpc, List.mem_append, List.mem_singleton]
  by_cases he : j = id
  · exact .inr (.inl (.inr he))
  · have hj : j ∈ s.tasks := (htasks j hj).resolve_left he
    have hne : r ≠ .woken j ∧ r ≠ .spawned j := by
      rcases hr with rfl | rfl <;> simp [Ne.symm he]
    exact (h j hj).imp (fun hs => hs.cons hne.1 hne.2) (Or.imp_left .inl)

theorem owed_step (h : Owed s) (hm : Move s e t) : Owed t := by
  cases hm with
  | newTask | tick | sweep | sweepSkip | sleepNew =>
    exact h.quiet (Finset.Subset.refl _) rfl (fun _ => id) (fun _ => id)
  | spawn _ _ _ hpush =>
    obtain ⟨q, hq, rfl⟩ := hpush
    exact h.push hq (.inr rfl) (fun j hj => Finset.mem_insert.mp hj) rfl rfl rfl
  | wake hpush =>
    obtain ⟨q, hq, rfl⟩ := hpush
    exact h.push hq (.inl rfl) (fun j hj => .inr hj) rfl rfl rfl
  | sweepWake _ _ _ hpush =>
    obtain ⟨q, hq, rfl⟩ := hpush
    exact h.push hq (.inl rfl) (fun j hj => .inr hj) rfl rfl rfl
  | swept | sleepReady =>
    exact h.quiet (Finset.Subset.refl _) rfl (fun _ => id) fun _ hs => hs.cons (by simp) (by simp)
  | run hpc | registered hpc | sleepAgain hpc | sleepFirst hpc | resume hpc | forgot hpc =>
    exact h.quiet (Finset.Subset.refl _) rfl (by simp [hpc]) fun _ => id
  | drained hpc =>
    exact h.quiet (Finset.Subset.refl _) rfl (by simp [hpc]) fun _ hs => hs.cons (by simp) (by simp)
  | pending hpc =>
    refine h.quiet (Finset.Subset.refl _) rfl (fun id hid => ?_) fun _ => id
    simp [Core.polled, hid] at hpc
  | @popped id q hpc hhead =>
    intro j hj
    rcases h j hj with hs | hqueue | hd
    · exact .inl hs
    · rw [hhead] at hqueue
      rcases List.mem_cons.mp hqueue with rfl | hqueue
      · exact .inr (.inr rfl)
      · exact .inr (.inl hqueue)
    · simp [hpc] at hd
  | @polled id hpc hlive =>
    intro j hj
    by_cases he : j = id
    · subst he
      exact .inl served_polled
    · rcases h j hj with hs | hqueue | hd
      · exact .inl (hs.cons (by simp) (by simp))
      · exact .inr (.inl hqueue)
      · rw [hpc] at hd
        exact absurd (Pc.dispatch.inj hd).symm he
  | @stale id hpc hdead =>
    intro j hj
    rcases h j hj with hs | hqueue | hd
    · exact .inl hs
    · exact .inr (.inl hqueue)
    · rw [hpc] at hd
      cases hd
      exact absurd hj hdead
  | ready hpc =>
    refine h.quiet (Finset.Subset.refl _) rfl (fun id hid => ?_) fun _ hs => hs.cons (by simp) (by simp)
    simp [Core.polled, hid] at hpc
  | retired hpc =>
    exact h.quiet (Finset.erase_subset _ _) rfl (by simp [hpc]) fun _ => id

end Owed

def Drained (log : List Record) : Prop :=
  Everywhere (fun _ r earlier => r = .drained → ∀ id, Live earlier id → Served earlier id) log

def Ended (log : List Record) : Prop :=
  Everywhere (fun later r _ => ∀ id, r = .finished id → .polled id ∉ later) log

def Cached (s : Core) : Prop := ∀ id ∈ s.wakerCache, id ∈ s.tasks ∨ s.pc = .forget id

structure Drains (s : Core) : Prop where
  tracked : Tracked s
  owed : Owed s
  cached : Cached s
  drained : Drained s.log
  ended : Ended s.log

section Drains
variable {s t : Core} {e : Event} {log : List Record} {x : Record}

theorem Drained.cons (h : Drained log)
    (hx : x = .drained → ∀ id, Live log id → Served log id) : Drained (x :: log) :=
  everywhere_cons.mpr ⟨hx, h⟩

theorem Ended.cons (h : Ended log) (hx : ∀ id, x = .polled id → .finished id ∉ log) :
    Ended (x :: log) := by
  refine everywhere_cons.mpr ⟨fun _ _ => by simp, fun later r earlier he id hr hmem => ?_⟩
  rcases List.mem_cons.mp hmem with hnew | hold
  · exact hx id hnew.symm (by rw [he, hr]; simp)
  · exact h later r earlier he id hr hold

/-- What a step writes into the log: a drain with nothing owed, a poll of a live task, or
a record of another kind. -/
theorem log_step (h : Drains s) (hm : Move s e t) :
    t.log = s.log ∨ ∃ x, t.log = x :: s.log ∧
      (x = .drained → ∀ id, Live s.log id → Served s.log id) ∧
      ∀ id, x = .polled id → .finished id ∉ s.log := by
  cases hm with
  | newTask | tick | sweep | sweepSkip | sleepNew => exact .inl rfl
  | run | popped | stale | registered | sleepAgain | sleepFirst | resume | pending => exact .inl rfl
  | retired | forgot => exact .inl rfl
  | spawn _ _ _ hpush =>
    obtain ⟨q, -, rfl⟩ := hpush
    exact .inr ⟨_, rfl, by simp, by simp⟩
  | wake hpush =>
    obtain ⟨q, -, rfl⟩ := hpush
    exact .inr ⟨_, rfl, by simp, by simp⟩
  | sweepWake _ _ _ hpush =>
    obtain ⟨q, -, rfl⟩ := hpush
    exact .inr ⟨_, rfl, by simp, by simp⟩
  | swept | sleepReady | ready => exact .inr ⟨_, rfl, by simp, by simp⟩
  | drained hpc hempty =>
    refine .inr ⟨_, rfl, fun _ id hid => ?_, by simp⟩
    rcases h.owed id ((h.tracked.live id).mpr (.inl hid)) with hs | hqueue | hd
    · exact hs
    · simp [hempty] at hqueue
    · simp [hpc] at hd
  | polled hpc hlive =>
    refine .inr ⟨_, rfl, by simp, fun id hid => ?_⟩
    cases hid
    exact (((h.tracked.live _).mp hlive).resolve_right (by simp [hpc])).2

theorem cached_step (hcached : Cached s) (hm : Move s e t) : Cached t := by
  have hleave : (∀ id, s.pc ≠ .forget id) → ∀ id ∈ s.wakerCache, id ∈ s.tasks :=
    fun hpc id hid => (hcached id hid).resolve_right (hpc id)
  cases hm with
  | newTask | tick | sweep | swept | sweepSkip | sleepNew | sleepReady => exact hcached
  | spawn _ _ _ hpush =>
    obtain ⟨q, -, rfl⟩ := hpush
    exact fun id hid => (hcached id hid).imp_left (Finset.mem_insert_of_mem ·)
  | wake hpush =>
    obtain ⟨q, -, rfl⟩ := hpush
    exact hcached
  | sweepWake _ _ _ hpush =>
    obtain ⟨q, -, rfl⟩ := hpush
    exact hcached
  | run hpc | popped hpc | drained hpc | stale hpc | registered hpc | sleepAgain hpc | sleepFirst hpc
  | resume hpc => exact fun id hid => .inl (hleave (by simp [hpc]) id hid)
  | pending hid | ready hid =>
    have hpc : ∀ id, s.pc ≠ .forget id := fun id hpc => by simp [Core.polled, hpc] at hid
    exact fun id hid => .inl (hleave hpc id hid)
  | polled hpc hlive =>
    intro id hid
    rcases Finset.mem_insert.mp hid with rfl | hid
    · exact .inl hlive
    · exact .inl (hleave (by simp [hpc]) id hid)
  | @retired id hpc =>
    intro j hj
    by_cases he : j = id
    · exact .inr (by rw [he])
    · exact .inl (Finset.mem_erase.mpr ⟨he, hleave (by simp [hpc]) j hj⟩)
  | @forgot id hpc =>
    intro j hj
    obtain ⟨hne, hj⟩ := Finset.mem_erase.mp hj
    refine .inl ((hcached j hj).resolve_right fun he => ?_)
    exact hne (Pc.forget.inj (he.symm.trans hpc))

theorem drains_step (s : Core) (e : Event) (t : Core) (h : Drains s) (hs : Step s e t) : Drains t := by
  have hm := move_of_step hs
  have htracked := tracked_step h.tracked hm
  have howed := owed_step h.owed hm
  have hcached := cached_step h.cached hm
  rcases log_step h hm with hlog | ⟨x, hlog, hdrained, hpolled⟩
  · exact ⟨htracked, howed, hcached, hlog ▸ h.drained, hlog ▸ h.ended⟩
  · exact ⟨htracked, howed, hcached, hlog ▸ h.drained.cons hdrained, hlog ▸ h.ended.cons hpolled⟩

theorem drains_init (uptimeTicks : Nat) : Drains (Core.init uptimeTicks) := by
  refine ⟨⟨?_, ?_, ?_, ?_, ?_, ?_⟩, ?_, ?_, everywhere_nil _, everywhere_nil _⟩
  · simp [Core.init, Live]
  · simp [Core.init]
  · simp [Core.init]
  · simp [Core.init]
  · simp [Core.init]
  · simp [Core.init, Core.inPoll]
  · simp [Core.init, Owed]
  · simp [Core.init, Cached]

end Drains

/- The task's last poll has returned `Ready` and its two removals are not both done. -/
def Core.Retiring (s : Core) (id : TaskId) : Prop := s.pc = .retire id ∨ s.pc = .forget id

/-- In every run: whenever `run_ready_tasks` has found its queue empty, every task that was
live then had been polled after each of its wakes and its spawn; no task is polled once it
has returned `Ready`; and the waker cache holds ids of live tasks, and beside them at most
the id of the task that is just being removed. -/
theorem drain_serves_every_wake (uptimeTicks : Nat) (s : Core)
    (hs : Reachable Step (Core.init uptimeTicks) s) :
    (∀ later earlier, s.log = later ++ .drained :: earlier →
      ∀ id, Live earlier id → Served earlier id) ∧
    (∀ later earlier id, s.log = later ++ .finished id :: earlier → .polled id ∉ later) ∧
    ∀ id ∈ s.wakerCache, id ∈ s.tasks ∧ Live s.log id ∨ s.Retiring id := by
  have h := hs.invariant drains_step (drains_init uptimeTicks)
  refine ⟨fun later earlier he => h.drained later _ earlier he rfl,
    fun later earlier id he => h.ended later _ earlier he id rfl, fun id hid => ?_⟩
  rcases h.cached id hid with htask | hforget
  · rcases (h.tracked.live id).mp htask with hlive | hretire
    · exact .inl ⟨htask, hlive⟩
    · exact .inr (.inl hretire)
  · exact .inr (.inr hforget)

/- A task that is `Ready` at its first poll, up to its removal from `tasks`. -/
private def retired : List Event :=
  [.newTask, .spawn 0, .run, .advance, .advance, .ready, .advance]

theorem cache_outlives_task :
    ∃ s, Reachable Step (Core.init 0) s ∧ 0 ∈ s.wakerCache ∧ 0 ∉ s.tasks ∧ ¬Live s.log 0 := by
  have hrun : (exec Core.step (Core.init 0) retired).any
      (fun s => 0 ∈ s.wakerCache ∧ 0 ∉ s.tasks ∧ .finished 0 ∈ s.log) = true := by decide
  obtain ⟨s, hreach, hend⟩ := reachable_of_exec hrun
  obtain ⟨hcache, htask, hfinished⟩ : 0 ∈ s.wakerCache ∧ 0 ∉ s.tasks ∧ .finished 0 ∈ s.log := by
    simpa using hend
  exact ⟨s, hreach, hcache, htask, fun hlive => hlive.2 hfinished⟩

/- A task that is woken while it is being polled for the first time. -/
private def rewoken : List Event :=
  [.newTask, .spawn 0, .run, .advance, .advance, .wake 0, .pending, .advance, .advance, .pending, .advance]

private def rewokenLog : List Record := [.polled 0, .woken 0, .polled 0, .spawned 0]

theorem drain_serves_every_wake_rewoken :
    ∃ s, Reachable Step (Core.init 0) s ∧ s.log = .drained :: rewokenLog ∧ Served rewokenLog 0 := by
  have hrun : (exec Core.step (Core.init 0) rewoken).any (fun s => s.log = .drained :: rewokenLog) =
      true := by decide
  obtain ⟨s, hreach, hlog⟩ := reachable_of_exec hrun
  have hlog : s.log = .drained :: rewokenLog := by simpa using hlog
  have hlive : Live rewokenLog 0 := by simp [Live, rewokenLog]
  exact ⟨s, hreach, hlog, (drain_serves_every_wake 0 s hreach).1 [] rewokenLog hlog 0 hlive⟩

end MoltOS.Tasks
