import MoltOS.ExecutorDrain

/-! Sleeping tasks: a `Sleep` that has returned `Pending` is in `SLEEPERS` until it is due and
its task is on the way to the next poll. -/
namespace MoltOS.Tasks
open MoltOS.Rust MoltOS.Transition
open MoltOS.Task (TaskId Sleep queueSize)

/- The tasks that await their sleeps directly: as long as one is there, polling the task
   polls it, and a `Pending` from it is the task's own. -/
def Awaits (s : Core) : Event → Prop
  | .sleepNew _ _ | .pending => match s.pc with
    | .poll id => s.sleep id = none
    | _ => True
  | .ready => match s.pc with
    | .poll id => s.sleep id = none
    | _ => False
  | .resume => False
  | _ => True

instance (s : Core) (e : Event) : Decidable (Awaits s e) := by
  unfold Awaits
  split <;> (try split) <;> infer_instance

def Core.Polling (s : Core) (id : TaskId) : Prop := s.pc = .dispatch id ∨ s.inPoll = some id

def early (now : Nat) (l : List (Nat × TaskId)) : List (Nat × TaskId) := l.filter (now < ·.1)
def due (now : Nat) (l : List (Nat × TaskId)) : List (Nat × TaskId) := l.filter (·.1 ≤ now)

def Record.Right : Record → Prop
  | .slept target now => target ≤ now
  | .swept now before after hit => after = early now before ∧ hit = due now before
  | _ => True

def Sweep.Halfway (w : Sweep) (sleepers : List (Nat × TaskId)) : Prop :=
  ∃ done, w.before = done ++ sleepers.drop w.i ∧ sleepers.take w.i = early w.now done ∧
    w.woken = due w.now done

section Loop
variable {w : Sweep} {sleepers : List (Nat × TaskId)} {target : Nat} {id : TaskId}

theorem halfway_start (now : Nat) (sleepers : List (Nat × TaskId)) :
    Sweep.Halfway ⟨now, 0, sleepers, []⟩ sleepers := ⟨[], rfl, rfl, rfl⟩

theorem halfway_end (h : w.Halfway sleepers) (hlast : sleepers[w.i]? = none) :
    sleepers = early w.now w.before ∧ w.woken = due w.now w.before := by
  obtain ⟨done, hbefore, hkept, hwoken⟩ := h
  have hle : sleepers.length ≤ w.i := List.getElem?_eq_none_iff.mp hlast
  rw [List.drop_of_length_le hle, List.append_nil] at hbefore
  rw [List.take_of_length_le hle] at hkept
  rw [hbefore]
  exact ⟨hkept, hwoken⟩

theorem drop_of_entry (hentry : sleepers[w.i]? = some (target, id)) :
    sleepers.drop w.i = (target, id) :: sleepers.drop (w.i + 1) := by
  obtain ⟨hlt, he⟩ := List.getElem?_eq_some_iff.mp hentry
  rw [List.drop_eq_getElem_cons hlt, he]

theorem halfway_skip (h : w.Halfway sleepers) (hentry : sleepers[w.i]? = some (target, id))
    (hearly : w.now < target) : Sweep.Halfway { w with i := w.i + 1 } sleepers := by
  obtain ⟨done, hbefore, hkept, hwoken⟩ := h
  obtain ⟨hlt, he⟩ := List.getElem?_eq_some_iff.mp hentry
  refine ⟨done ++ [(target, id)], ?_, ?_, ?_⟩
  · rw [hbefore, drop_of_entry hentry, List.append_assoc]
    rfl
  · rw [List.take_succ_eq_append_getElem hlt, hkept, he]
    simp [early, hearly]
  · rw [hwoken]
    simp [due, hearly]

/- The entry after the removed one moves into its place, and `i` stays. -/
theorem halfway_wake (h : w.Halfway sleepers) (hentry : sleepers[w.i]? = some (target, id))
    (hdue : target ≤ w.now) :
    Sweep.Halfway { w with woken := w.woken ++ [(target, id)] } (sleepers.eraseIdx w.i) := by
  obtain ⟨done, hbefore, hkept, hwoken⟩ := h
  obtain ⟨hlt, he⟩ := List.getElem?_eq_some_iff.mp hentry
  have hlen : (sleepers.take w.i).length = w.i := by
    rw [List.length_take]
    omega
  refine ⟨done ++ [(target, id)], ?_, ?_, ?_⟩
  · rw [hbefore, drop_of_entry hentry, List.eraseIdx_eq_take_drop_succ, List.drop_left' hlen,
      List.append_assoc]
    rfl
  · rw [List.eraseIdx_eq_take_drop_succ, List.take_left' hlen, hkept]
    simp [early, hdue]
  · rw [hwoken]
    simp [due, hdue]

end Loop

/- A registered `Sleep` of a live task that is no longer in the list is due, and its task is
   in the queue, or taken from it and not yet at the `Sleep`. -/
def Kept (s : Core) : Prop :=
  ∀ id x, id ∈ s.tasks → s.sleep id = some x → x.registered = true →
    (x.targetTick, id) ∈ s.sleepers ∨
      x.targetTick ≤ s.uptimeTicks ∧
        (id ∈ s.taskQueue.items ∨ s.pc = .dispatch id ∨ s.pc = .poll id)

structure Sleeps (s : Core) : Prop where
  clock : ∀ w, s.sweep = some w → w.now ≤ s.uptimeTicks
  sweeping : ∀ w, s.sweep = some w → w.Halfway s.sleepers
  kept : Kept s
  right : ∀ r ∈ s.log, r.Right

section Kept
variable {s t : Core} {e : Event}

theorem Kept.quiet (h : Kept s) (htasks : t.tasks = s.tasks) (hsleep : t.sleep = s.sleep)
    (hsleepers : t.sleepers = s.sleepers) (huptime : s.uptimeTicks ≤ t.uptimeTicks)
    (hqueue : t.taskQueue = s.taskQueue)
    (hpc : ∀ id, s.pc = .dispatch id ∨ s.pc = .poll id → t.pc = .dispatch id ∨ t.pc = .poll id) :
    Kept t := by
  intro id x hid hx hreg
  rw [htasks] at hid
  rw [hsleep] at hx
  rw [hsleepers, hqueue]
  refine (h id x hid hx hreg).imp_right fun ⟨hdue, hwhere⟩ => ⟨hdue.trans huptime, ?_⟩
  exact hwhere.imp_right (hpc id)

/-- A task gives up its `Sleep` for one that was not polled yet, or for none. -/
theorem Kept.replace (h : Kept s) {id : TaskId} {y : Option Sleep} {log : List Record}
    (hy : ∀ x, y = some x → x.registered = false) :
    Kept { s with sleep := Function.update s.sleep id y, log := log } := by
  intro j x hj hx hreg
  by_cases he : j = id
  · have hfresh := hy x (by simpa [he] using hx)
    simp [hfresh] at hreg
  · exact h j x hj (by simpa [he] using hx) hreg

/-- The executor leaves the code of a task whose registered `Sleep`, if it has one, is not
due. -/
theorem Kept.leave (h : Kept s) {tasks wakerCache : Finset TaskId} {pc : Pc} {log : List Record}
    (htasks : tasks ⊆ s.tasks) (hdispatch : ∀ j, s.pc ≠ .dispatch j)
    (hearly : ∀ j x, s.pc = .poll j → s.sleep j = some x → x.registered = true →
      s.uptimeTicks < x.targetTick) :
    Kept { s with tasks := tasks, wakerCache := wakerCache, pc := pc, log := log } := by
  intro j x hj hx hreg
  rcases h j x (htasks hj) hx hreg with hmem | ⟨hpast, hqueue | hd | hp⟩
  · exact .inl hmem
  · exact .inr ⟨hpast, .inl hqueue⟩
  · exact absurd hd (hdispatch j)
  · exact absurd hpast (Nat.not_le.mpr (hearly j x hp hx hreg))

theorem not_due {id j : TaskId} {x y : Sleep} (hpc : s.pc = .poll id) (hsleep : s.sleep id = some y)
    (hearly : s.uptimeTicks < y.targetTick) (hj : s.pc = .poll j) (hx : s.sleep j = some x) :
    s.uptimeTicks < x.targetTick := by
  obtain rfl : id = j := Pc.poll.inj (hpc.symm.trans hj)
  obtain rfl : y = x := Option.some.inj (hsleep.symm.trans hx)
  exact hearly

/-- A push, for a task that may be new and then awaits nothing. -/
theorem Kept.push (h : Kept s) {q : ArrayQueue TaskId queueSize} {id : TaskId}
    (hq : q.items = s.taskQueue.items ++ [id])
    (hsleep : ∀ j ∈ t.tasks, ∀ x, t.sleep j = some x → j ∈ s.tasks ∧ s.sleep j = some x)
    (hsleepers : t.sleepers = s.sleepers) (huptime : t.uptimeTicks = s.uptimeTicks)
    (hqueue : t.taskQueue = q) (hpc : t.pc = s.pc) : Kept t := by
  intro j x hj hx hreg
  obtain ⟨hj, hx⟩ := hsleep j hj x hx
  rw [hsleepers, huptime, hqueue, hq, hpc]
  refine (h j x hj hx hreg).imp_right fun ⟨hdue, hwhere⟩ => ⟨hdue, ?_⟩
  exact hwhere.imp_left (List.mem_append_left _)

/-- An entry that `wake_sleepers` takes out is due, and its task is in the queue. -/
theorem Kept.sweepWake (h : Kept s) {w : Sweep} {target : Nat} {id : TaskId}
    {q : ArrayQueue TaskId queueSize} (hnow : w.now ≤ s.uptimeTicks)
    (hentry : s.sleepers[w.i]? = some (target, id)) (hdue : target ≤ w.now)
    (hq : q.items = s.taskQueue.items ++ [id]) (htasks : t.tasks = s.tasks)
    (hsleep : t.sleep = s.sleep) (hsleepers : t.sleepers = s.sleepers.eraseIdx w.i)
    (huptime : t.uptimeTicks = s.uptimeTicks) (hqueue : t.taskQueue = q) (hpc : t.pc = s.pc) :
    Kept t := by
  intro j x hj hx hreg
  rw [htasks] at hj
  rw [hsleep] at hx
  rw [hsleepers, huptime, hqueue, hq, hpc]
  obtain ⟨hlt, he⟩ := List.getElem?_eq_some_iff.mp hentry
  rcases h j x hj hx hreg with hmem | ⟨hpast, hwhere⟩
  · have hperm := (List.getElem_cons_eraseIdx_perm hlt).mem_iff.mpr hmem
    rcases List.mem_cons.mp hperm with hthis | hrest
    · rw [he] at hthis
      cases hthis
      exact .inr ⟨hdue.trans hnow, .inl (List.mem_append_right _ (List.mem_singleton_self _))⟩
    · exact .inl hrest
  · exact .inr ⟨hpast, hwhere.imp_left (List.mem_append_left _)⟩

theorem kept_step (h : Sleeps s) (hm : Move s e t) (ha : Awaits s e) : Kept t := by
  have hkept := h.kept
  cases hm with
  | newTask | sweep | swept | sweepSkip => exact hkept.quiet rfl rfl rfl le_rfl rfl fun _ => id
  | tick hle => exact hkept.quiet rfl rfl rfl hle rfl fun _ => id
  | @spawn id _ _ _ hnew hpush =>
    obtain ⟨q, hq, rfl⟩ := hpush
    refine hkept.push hq (fun j hj x hx => ?_) rfl rfl rfl rfl
    have hne : j ≠ id := fun he => by simp [he] at hx
    exact ⟨(Finset.mem_insert.mp hj).resolve_left hne, by simpa [hne] using hx⟩
  | wake hpush =>
    obtain ⟨q, hq, rfl⟩ := hpush
    exact hkept.push hq (fun j hj x hx => ⟨hj, hx⟩) rfl rfl rfl rfl
  | sweepWake hlock hentry hdue hpush =>
    obtain ⟨q, hq, rfl⟩ := hpush
    exact hkept.sweepWake (h.clock _ hlock) hentry hdue hq rfl rfl rfl rfl rfl rfl
  | run hpc | drained hpc => exact hkept.quiet rfl rfl rfl le_rfl rfl (by simp [hpc])
  | @popped id q hpc hhead =>
    intro j x hj hx hreg
    rcases hkept j x hj hx hreg with hmem | ⟨hpast, hqueue | hd | hd⟩
    · exact .inl hmem
    · rw [hhead] at hqueue
      rcases List.mem_cons.mp hqueue with rfl | hqueue
      · exact .inr ⟨hpast, .inr (.inl rfl)⟩
      · exact .inr ⟨hpast, .inl hqueue⟩
    · simp [hpc] at hd
    · simp [hpc] at hd
  | @polled id hpc hlive =>
    refine hkept.quiet rfl rfl rfl le_rfl rfl fun j hj => ?_
    rcases hj with hj | hj
    · rw [hpc] at hj
      cases hj
      exact .inr rfl
    · simp [hpc] at hj
  | @stale id hpc hdead =>
    intro j x hj hx hreg
    refine (hkept j x hj hx hreg).imp_right fun ⟨hpast, hwhere⟩ => ⟨hpast, .inl ?_⟩
    rcases hwhere with hqueue | hd | hd
    · exact hqueue
    · rw [hpc] at hd
      cases hd
      exact absurd hj hdead
    · simp [hpc] at hd
  | @registered id y hpc hfree hsleep =>
    intro j x hj hx hreg
    by_cases he : j = id
    · subst he
      simp only [Function.update_self, Option.some.injEq] at hx
      exact .inl (List.mem_append_right _ (by simp [← hx]))
    · have hx : s.sleep j = some x := by simpa [he] using hx
      rcases hkept j x hj hx hreg with hmem | ⟨hpast, hqueue | hd | hd⟩
      · exact .inl (List.mem_append_left _ hmem)
      · exact .inr ⟨hpast, .inl hqueue⟩
      · simp [hpc] at hd
      · simp [hpc] at hd
  | sleepNew => exact hkept.replace (by simp [Sleep.new])
  | sleepReady => exact hkept.replace (by simp)
  | sleepAgain hpc hsleep hearly | sleepFirst hpc hsleep hearly =>
    exact hkept.leave (Finset.Subset.refl _) (by simp [hpc]) fun j x hj hx _ =>
      not_due hpc hsleep hearly hj hx
  | resume => exact ha.elim
  | retired hpc => exact hkept.leave (Finset.erase_subset _ _) (by simp [hpc]) (by simp [hpc])
  | forgot hpc => exact hkept.leave (Finset.Subset.refl _) (by simp [hpc]) (by simp [hpc])
  | pending hpolled | ready hpolled =>
    refine hkept.leave (Finset.Subset.refl _) (fun j hj => ?_) fun j x hj hx _ => ?_
    · simp [Core.polled, hj] at hpolled
    · simp only [Awaits, hj, hx] at ha
      cases ha

end Kept

section Sleeps
variable {s t : Core} {e : Event}

/-- Only the steps of `wake_sleepers` change the list while it is locked. -/
theorem sweep_step (h : Sleeps s) (hm : Move s e t) :
    ∀ w, t.sweep = some w → w.now ≤ t.uptimeTicks ∧ w.Halfway t.sleepers := by
  have hold : ∀ w, s.sweep = some w → w.now ≤ s.uptimeTicks ∧ w.Halfway s.sleepers :=
    fun w hw => ⟨h.clock w hw, h.sweeping w hw⟩
  cases hm with
  | spawn _ _ _ hpush =>
    obtain ⟨q, -, rfl⟩ := hpush
    exact hold
  | wake hpush =>
    obtain ⟨q, -, rfl⟩ := hpush
    exact hold
  | tick hle => exact fun w hw => ⟨(hold w hw).1.trans hle, (hold w hw).2⟩
  | sweep hfree hle =>
    intro w hw
    cases hw
    exact ⟨hle, halfway_start _ _⟩
  | swept => exact fun w hw => by simp at hw
  | sweepWake hlock hentry hdue hpush =>
    obtain ⟨q, -, rfl⟩ := hpush
    intro w hw
    cases hw
    exact ⟨(hold _ hlock).1, halfway_wake (hold _ hlock).2 hentry hdue⟩
  | sweepSkip hlock hentry hearly =>
    intro w hw
    cases hw
    exact ⟨(hold _ hlock).1, halfway_skip (hold _ hlock).2 hentry hearly⟩
  | registered _ hfree => exact fun w hw => by simp [hfree] at hw
  | _ => exact hold

theorem right_step (h : Sleeps s) (hm : Move s e t) : ∀ r ∈ t.log, r.Right := by
  have hright := h.right
  have hcons : ∀ x : Record, x.Right → ∀ r ∈ x :: s.log, r.Right :=
    fun x hx => List.forall_mem_cons.mpr ⟨hx, hright⟩
  cases hm with
  | spawn _ _ _ hpush =>
    obtain ⟨q, -, rfl⟩ := hpush
    exact hcons _ trivial
  | wake hpush =>
    obtain ⟨q, -, rfl⟩ := hpush
    exact hcons _ trivial
  | sweepWake _ _ _ hpush =>
    obtain ⟨q, -, rfl⟩ := hpush
    exact hcons _ trivial
  | swept hlock hlast => exact hcons _ (halfway_end (h.sweeping _ hlock) hlast)
  | sleepReady _ _ hdue => exact hcons _ hdue
  | drained | polled | ready => exact hcons _ trivial
  | _ => exact hright

theorem sleeps_step (s : Core) (e : Event) (t : Core) (h : Sleeps s)
    (hs : Restrict Step Awaits s e t) : Sleeps t := by
  have hm := move_of_step hs.1
  have hsweep := sweep_step h hm
  exact ⟨fun w hw => (hsweep w hw).1, fun w hw => (hsweep w hw).2, kept_step h hm hs.2, right_step h hm⟩

theorem sleeps_init (uptimeTicks : Nat) : Sleeps (Core.init uptimeTicks) := by
  refine ⟨?_, ?_, ?_, ?_⟩
  · simp [Core.init]
  · simp [Core.init]
  · simp [Core.init, Kept]
  · simp [Core.init]

end Sleeps

/-- In every run of tasks that await their sleeps: a `Sleep` is `Ready` at its target or
later; one that has returned `Pending` is in `SLEEPERS`, or is due and its task queued or
being polled; and every finished call of `wake_sleepers` has woken the entries that were due,
in their order, and kept the others in theirs. -/
theorem sleep_neither_early_nor_lost (uptimeTicks : Nat) (s : Core)
    (hs : Reachable (Restrict Step Awaits) (Core.init uptimeTicks) s) :
    (∀ target now, .slept target now ∈ s.log → target ≤ now) ∧
    (∀ id x, id ∈ s.tasks → s.sleep id = some x → x.registered = true →
      (x.targetTick, id) ∈ s.sleepers ∨
        x.targetTick ≤ s.uptimeTicks ∧ (id ∈ s.taskQueue.items ∨ s.Polling id)) ∧
    (∀ now before after hit, .swept now before after hit ∈ s.log →
      after = before.filter (now < ·.1) ∧ hit = before.filter (·.1 ≤ now)) := by
  have h := hs.invariant sleeps_step (sleeps_init uptimeTicks)
  refine ⟨fun target now hr => h.right _ hr, fun id x hid hx hreg => ?_,
    fun now before after hit hr => h.right _ hr⟩
  refine (h.kept id x hid hx hreg).imp_right fun ⟨hdue, hwhere⟩ => ⟨hdue, ?_⟩
  rcases hwhere with hqueue | hd | hp
  · exact .inl hqueue
  · exact .inr (.inl hd)
  · exact .inr (.inr (by simp [Core.inPoll, hp]))

/- The clock passes the target between its reading and the registration. -/
private def lateRegistration : List Event :=
  [.newTask, .spawn 0, .run, .advance, .advance, .sleepNew 0 5, .sleepPoll, .tick 7, .advance, .pending,
    .sweep 7, .sweepNext, .sweepNext]

theorem sleep_neither_early_nor_lost_late :
    ∃ s, Reachable (Restrict Step Awaits) (Core.init 0) s ∧ s.sleep 0 = some ⟨5, true⟩ ∧
      s.sleepers = [] ∧ 5 ≤ s.uptimeTicks ∧ (0 ∈ s.taskQueue.items ∨ s.Polling 0) := by
  have hrun : (exec (checked Core.step Awaits) (Core.init 0) lateRegistration).any
      (fun s => 0 ∈ s.tasks ∧ s.sleep 0 = some ⟨5, true⟩ ∧ s.sleepers = []) = true := by decide
  obtain ⟨s, hreach, hend⟩ := reachable_of_checked hrun
  obtain ⟨hlive, hsleep, hnil⟩ : 0 ∈ s.tasks ∧ s.sleep 0 = some ⟨5, true⟩ ∧ s.sleepers = [] := by
    simpa using hend
  rcases (sleep_neither_early_nor_lost 0 s hreach).2.1 0 _ hlive hsleep rfl with hmem | hdue
  · rw [hnil] at hmem
    cases hmem
  · exact ⟨s, hreach, hsleep, hnil, hdue⟩

end MoltOS.Tasks
