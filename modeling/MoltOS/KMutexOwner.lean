import Mathlib.Data.List.ModifyLast
import MoltOS.KernelMove
import MoltOS.Replay

/-! Ownership of a sleeping mutex, from a successful compare-exchange to the store in the
guard drop, and the data it protects. Nothing is assumed about how the flows interleave,
how many mutexes there are or how lock calls nest. -/
namespace MoltOS.Kernel
open MoltOS.Rust MoltOS.Eevdf MoltOS.Transition

variable {μ α R : Type} {s t : Core μ α R} {data : μ → α}

structure Owned (data : μ → α) (s : Core μ α R) : Prop where
  locked : ∀ m, (s.mutexes m).locked = true ↔ ∃ f, m ∈ s.guards f
  unique : ∀ m f g, m ∈ s.guards f → m ∈ s.guards g → f = g
  nodup : ∀ f, (s.guards f).Nodup
  copy : ∀ f m v, s.pc f = .update m v → m ∈ s.guards f ∧ v = (s.mutexes m).data
  last : ∀ m f, m ∈ s.guards f → ∃ ts us, s.history m = ts ++ [⟨f, us⟩]
  data : ∀ m, (s.mutexes m).data = replay (data m) (s.history m)

theorem Owned.init (data : μ → α) (r : R) : Owned data (Core.init data r) := by
  constructor <;> simp [Core.init, KMutex.new, replay]

/-- A step that leaves flags, guards and data alone and starts no update. -/
theorem Owned.frame (h : Owned data s) (hg : t.guards = s.guards) (hh : t.history = s.history)
    (hl : ∀ m, (t.mutexes m).locked = (s.mutexes m).locked)
    (hd : ∀ m, (t.mutexes m).data = (s.mutexes m).data)
    (hpc : ∀ f m v, t.pc f = .update m v → s.pc f = .update m v) : Owned data t := by
  refine ⟨?_, ?_, ?_, ?_, ?_, ?_⟩
  · intro m
    rw [hl, hg]
    exact h.locked m
  · rw [hg]
    exact h.unique
  · rw [hg]
    exact h.nodup
  · intro f m v hf
    rw [hg, hd]
    exact h.copy f m v (hpc f m v hf)
  · rw [hg, hh]
    exact h.last
  · intro m
    rw [hd, hh]
    exact h.data m

/- Where a flow moves to is no update unless it is about to write. -/
theorem goto_update {u : Core μ α R} {k : Pc μ α R} (hk : ∀ m v, k ≠ .update m v) {f : Flow} {m : μ}
    {v : α} (h : (u.goto k).pc f = .update m v) : f ≠ u.running ∧ u.pc f = .update m v := by
  by_cases hf : f = u.running
  · subst hf
    simp only [Core.goto, Function.update_self] at h
    exact absurd h (hk m v)
  · exact ⟨hf, by simpa [Core.goto, hf] using h⟩

theorem Cont.pc_ne_update (k : Cont μ) (m : μ) (v : α) : (k.pc : Pc μ α R) ≠ .update m v := by
  cases k <;> simp [Cont.pc]

theorem haltPc_ne_update (c : Call μ R) (m : μ) (v : α) : (haltPc c : Pc μ α R) ≠ .update m v := by
  cases c <;> simp [haltPc]

theorem Acquires.ne_update {m : μ} {k k' : Pc μ α R} (h : Acquires m k k') (n : μ) (v : α) :
    k' ≠ .update n v := by
  cases h <;> simp

theorem afterSwitch_ne_update {c : Call μ R} {k : Pc μ α R} (h : Core.afterSwitch c = some k)
    (m : μ) (v : α) : k ≠ .update m v := by
  cases c <;> cases h <;> simp

/-- A frame step that ends in a move of the running flow. -/
theorem Owned.goto (h : Owned data s) {u : Core μ α R} {k : Pc μ α R} (hg : u.guards = s.guards)
    (hh : u.history = s.history) (hl : ∀ m, (u.mutexes m).locked = (s.mutexes m).locked)
    (hd : ∀ m, (u.mutexes m).data = (s.mutexes m).data) (hpc : u.pc = s.pc)
    (hk : ∀ m v, k ≠ .update m v) : Owned data (u.goto k) :=
  h.frame hg hh hl hd fun _ _ _ hf => hpc ▸ (goto_update hk hf).2

variable [DecidableEq μ]

theorem Owned.own (h : Owned data s) {m : μ} {k : Pc μ α R} (hl : (s.mutexes m).locked = false)
    (hk : ∀ n v, k ≠ .update n v) : Owned data ((s.own m).goto k) := by
  have hfree (f : Flow) : m ∉ s.guards f := by
    intro hf
    have hlock := (h.locked m).mpr ⟨f, hf⟩
    rw [hl] at hlock
    cases hlock
  have hmem (n : μ) (f : Flow) : n ∈ ((s.own m).goto k).guards f ↔
      (n = m ∧ f = s.running) ∨ n ∈ s.guards f := by
    by_cases hf : f = s.running
    · subst hf
      simp [Core.goto, Core.own, Core.setMutex]
    · simp [Core.goto, Core.own, Core.setMutex, hf]
  have hmutex (n : μ) (hn : n ≠ m) : ((s.own m).goto k).mutexes n = s.mutexes n := by
    simp [Core.goto, Core.own, Core.setMutex, hn]
  have hself : ((s.own m).goto k).mutexes m = { s.mutexes m with locked := true } := by
    simp [Core.goto, Core.own, Core.setMutex]
  have hdata (n : μ) : (((s.own m).goto k).mutexes n).data = (s.mutexes n).data := by
    by_cases hn : n = m
    · rw [hn, hself]
    · rw [hmutex n hn]
  refine ⟨?_, ?_, ?_, ?_, ?_, ?_⟩
  · intro n
    by_cases hn : n = m
    · subst hn
      rw [hself]
      exact ⟨fun _ => ⟨s.running, (hmem n _).mpr (Or.inl ⟨rfl, rfl⟩)⟩, fun _ => rfl⟩
    · rw [hmutex n hn, h.locked n]
      simp [hmem, hn]
  · intro n f g hf hg
    by_cases hn : n = m
    · subst hn
      simp only [hmem, hfree, or_false, true_and] at hf hg
      rw [hf, hg]
    · simp only [hmem, hn, false_and, false_or] at hf hg
      exact h.unique n f g hf hg
  · intro f
    by_cases hf : f = s.running
    · subst hf
      simpa [Core.goto, Core.own, Core.setMutex, hfree] using h.nodup s.running
    · simpa [Core.goto, Core.own, Core.setMutex, hf] using h.nodup f
  · intro f n v hf
    obtain ⟨hn, hv⟩ := h.copy f n v (goto_update hk hf).2
    rw [hdata]
    exact ⟨(hmem n f).mpr (Or.inr hn), hv⟩
  · intro n f hf
    by_cases hn : n = m
    · subst hn
      simp only [hmem, hfree, or_false, true_and] at hf
      exact ⟨s.history n, [], by simp [Core.goto, Core.own, hf]⟩
    · simp only [hmem, hn, false_and, false_or] at hf
      simpa [Core.goto, Core.own, hn] using h.last n f hf
  · intro n
    rw [hdata, h.data n]
    by_cases hn : n = m
    · subst hn
      simp [Core.goto, Core.own, replay_snoc, applyAll]
    · simp [Core.goto, Core.own, hn]

theorem Owned.disown (h : Owned data s) {m : μ} {k : Pc μ α R} (hm : m ∈ s.guards s.running)
    (hk : ∀ n v, k ≠ .update n v) : Owned data ((s.disown m).goto k) := by
  have hmem (n : μ) (f : Flow) : n ∈ ((s.disown m).goto k).guards f ↔ n ≠ m ∧ n ∈ s.guards f := by
    by_cases hf : f = s.running
    · subst hf
      simp [Core.goto, Core.disown, Core.setMutex, (h.nodup s.running).mem_erase_iff]
    · have hno : m ∉ s.guards f := fun hmf => hf (h.unique m f s.running hmf hm)
      simp only [Core.goto, Core.disown, Core.setMutex, Function.update_of_ne hf]
      exact ⟨fun hn => ⟨fun he => hno (he ▸ hn), hn⟩, fun hn => hn.2⟩
  have hmutex (n : μ) (hn : n ≠ m) : ((s.disown m).goto k).mutexes n = s.mutexes n := by
    simp [Core.goto, Core.disown, Core.setMutex, hn]
  have hself : ((s.disown m).goto k).mutexes m = { s.mutexes m with locked := false } := by
    simp [Core.goto, Core.disown, Core.setMutex]
  have hdata (n : μ) : (((s.disown m).goto k).mutexes n).data = (s.mutexes n).data := by
    by_cases hn : n = m
    · rw [hn, hself]
    · rw [hmutex n hn]
  refine ⟨?_, ?_, ?_, ?_, ?_, ?_⟩
  · intro n
    by_cases hn : n = m
    · subst hn
      rw [hself]
      simp [hmem]
    · rw [hmutex n hn, h.locked n]
      simp [hmem, hn]
  · intro n f g hf hg
    exact h.unique n f g ((hmem n f).mp hf).2 ((hmem n g).mp hg).2
  · intro f
    by_cases hf : f = s.running
    · subst hf
      simpa [Core.goto, Core.disown, Core.setMutex] using (h.nodup s.running).erase m
    · simpa [Core.goto, Core.disown, Core.setMutex, hf] using h.nodup f
  · intro f n v hf
    obtain ⟨hne, hpc⟩ := goto_update hk hf
    obtain ⟨hn, hv⟩ := h.copy f n v hpc
    rw [hdata]
    have hnm : n ≠ m := fun he => hne (h.unique m f s.running (he ▸ hn) hm)
    exact ⟨(hmem n f).mpr ⟨hnm, hn⟩, hv⟩
  · intro n f hf
    exact h.last n f ((hmem n f).mp hf).2
  · intro n
    rw [hdata]
    exact h.data n

theorem Owned.store (h : Owned data s) {m : μ} {v : α} {f : α → α} {k : Pc μ α R}
    (hpc : s.pc s.running = .update m v) (hk : ∀ n v, k ≠ .update n v) :
    Owned data ((s.store m f v).goto k) := by
  obtain ⟨hm, hv⟩ := h.copy s.running m v hpc
  obtain ⟨ts, us, hlast⟩ := h.last m s.running hm
  have hmutex (n : μ) (hn : n ≠ m) : ((s.store m f v).goto k).mutexes n = s.mutexes n := by
    simp [Core.goto, Core.store, Core.setMutex, hn]
  have hself : ((s.store m f v).goto k).mutexes m = { s.mutexes m with data := f v } := by
    simp [Core.goto, Core.store, Core.setMutex]
  have hhist : ((s.store m f v).goto k).history m = ts ++ [⟨s.running, us ++ [f]⟩] := by
    simp [Core.goto, Core.store, hlast, List.modifyLast_concat]
  have hother (n : μ) (hn : n ≠ m) : ((s.store m f v).goto k).history n = s.history n := by
    simp [Core.goto, Core.store, hn]
  refine ⟨?_, h.unique, h.nodup, ?_, ?_, ?_⟩
  · intro n
    by_cases hn : n = m
    · subst hn
      rw [hself]
      exact h.locked n
    · rw [hmutex n hn]
      exact h.locked n
  · intro g n w hg
    obtain ⟨hne, hg⟩ := goto_update hk hg
    obtain ⟨hn, hw⟩ := h.copy g n w hg
    have hnm : n ≠ m := fun he => hne (h.unique m g s.running (he ▸ hn) hm)
    rw [hmutex n hnm]
    exact ⟨hn, hw⟩
  · intro n g hg
    by_cases hn : n = m
    · subst hn
      obtain rfl := h.unique n g s.running hg hm
      exact ⟨ts, _, hhist⟩
    · rw [hother n hn]
      exact h.last n g hg
  · intro n
    by_cases hn : n = m
    · subst hn
      have hd := h.data n
      rw [hlast, replay_snoc] at hd
      rw [hself, hhist, replay_snoc, applyAll_snoc, ← hd, hv]
    · rw [hmutex n hn, hother n hn]
      exact h.data n

variable {p : Profile} {e : Event μ α R}

omit [DecidableEq μ] in
theorem Owned.jump (h : Owned data s) {k : Pc μ α R} (hj : Jump s e (s.pc s.running) k) :
    Owned data (s.goto k) := by
  have plain (hk : ∀ m v, k ≠ .update m v) : Owned data (s.goto k) :=
    h.goto rfl rfl (fun _ => rfl) (fun _ => rfl) rfl hk
  generalize hpc : s.pc s.running = k₀ at hj
  cases hj with
  | read m hm =>
    refine ⟨h.locked, h.unique, h.nodup, ?_, h.last, h.data⟩
    intro f n v hf
    by_cases hr : f = s.running
    · subst hr
      simp only [goto_pc_self, Pc.update.injEq] at hf
      obtain ⟨rfl, rfl⟩ := hf
      exact ⟨hm, rfl⟩
    · rw [goto_pc_other s _ hr] at hf
      exact h.copy f n v hf
  | resume c k hk => exact plain (afterSwitch_ne_update hk)
  | lock | enter | yield | unblock | contend | flag | wait | retry | wake | popNone =>
    exact plain (by simp)

theorem Owned.step (h : Owned data s) (hs : Step p s e t) : Owned data t := by
  have plain {u : Core μ α R} {k : Pc μ α R} (hg : u.guards = s.guards)
      (hh : u.history = s.history) (hu : u.mutexes = s.mutexes) (hpc : u.pc = s.pc)
      (hk : ∀ m v, k ≠ .update m v) : Owned data (u.goto k) :=
    h.goto hg hh (fun _ => by rw [hu]) (fun _ => by rw [hu]) hpc hk
  -- the machine state around the flows moves only
  have same {u : Core μ α R} (hg : u.guards = s.guards) (hh : u.history = s.history)
      (hu : u.mutexes = s.mutexes) (hpc : u.pc = s.pc) : Owned data u :=
    h.frame hg hh (fun _ => by rw [hu]) (fun _ => by rw [hu]) fun _ _ _ hf => hpc ▸ hf
  cases hs.move with
  | jump hm hj => exact h.jump hj
  | compute r hm hpc => exact same rfl rfl rfl rfl
  | setInterrupts b hm hpc => exact same rfl rfl rfl rfl
  | newThread weight entry hm hpc => exact plain rfl rfl rfl rfl (by simp)
  | drop m hm hpc hg => exact h.disown hg (by simp)
  | write m v f hm hpc => exact h.store hpc (by simp)
  | own m k hm hl hk => exact h.own hl hk.ne_update
  | disable c w hm hpc => exact plain rfl rfl rfl rfl (by simp)
  | take c w hm hpc hh => exact plain rfl rfl rfl rfl (by simp)
  | tick w sched sw hm hpc hsched => exact plain rfl rfl rfl rfl (by simp)
  | block w sched sw hm hpc hsched => exact plain rfl rfl rfl rfl (by simp)
  | enqueue m id sched sw hm hpc hw hsched =>
    exact h.goto rfl rfl (setWaiters_locked s m _) (setWaiters_data s m _) rfl (by simp)
  | unblock id k w sched hm hpc hsched => exact plain rfl rfl rfl rfl (by simp)
  | spawn thread weight entry w hm hpc => exact plain rfl rfl rfl rfl (by simp)
  | unlock w k hm hpc => exact plain rfl rfl rfl rfl (by simp)
  | restore w k hm hpc => exact plain rfl rfl rfl rfl (Cont.pc_ne_update k)
  | release c sw hm hpc => exact plain rfl rfl rfl rfl (by simp)
  | save c fromCtx toCtx hm hpc => exact plain rfl rfl rfl rfl (by simp)
  | halt c hm hpc => exact plain rfl rfl rfl rfl (haltPc_ne_update c)
  | dropLock m hm hpc hw =>
    exact h.goto rfl rfl (setWaitersHeld_locked s m _) (setWaitersHeld_data s m _) rfl (by simp)
  | pop m id rest hm hpc hw =>
    exact h.goto rfl rfl (setWaiters_locked s m _) (setWaiters_data s m _) rfl (by simp)
  | dropUnlock m hm hpc =>
    exact h.goto rfl rfl (setWaitersHeld_locked s m _) (setWaitersHeld_data s m _) rfl (by simp)
  | irq k hm hi => exact same rfl rfl rfl rfl
  | irqTick frame sched sw hm hh hsched => exact same rfl rfl rfl rfl
  | irqReturn frame sw hm hsw => exact same rfl rfl rfl rfl
  | irqSave frame fromCtx toCtx hne hm => exact same rfl rfl rfl rfl
  | load toCtx f r hm hc => exact same rfl rfl rfl rfl

theorem reachable_owned {r₀ : R} (h : Reachable (Step p) (Core.init data r₀) s) : Owned data s :=
  h.invariant (fun _ _ _ hi hs => hi.step hs) (Owned.init data r₀)

def Core.completed (s : Core μ α R) (m : μ) : List (Tenure α) :=
  if (s.mutexes m).locked then (s.history m).dropLast else s.history m

def Core.openUpdates (s : Core μ α R) (m : μ) : List (α → α) :=
  if (s.mutexes m).locked then ((s.history m).getLast?.map (·.updates)).getD [] else []

omit [DecidableEq μ] in
theorem Owned.data_eq (h : Owned data s) (m : μ) :
    (s.mutexes m).data = applyAll (s.openUpdates m) (replay (data m) (s.completed m)) := by
  rw [h.data m]
  cases hl : (s.mutexes m).locked with
  | false => simp [Core.openUpdates, Core.completed, hl, applyAll]
  | true =>
    obtain ⟨f, hf⟩ := (h.locked m).mp hl
    obtain ⟨ts, us, hlast⟩ := h.last m f hf
    simp [Core.openUpdates, Core.completed, hl, hlast, replay_snoc]

/-- Mutual exclusion and no lost update. In every reachable state a mutex has at most one
owner, its flag is set exactly when it has one, and its data are the completed tenures
replayed in acquisition order, followed by what the present owner has written. When `k`
flows have each completed `n` tenures that make one update `f`, `f` has been applied
exactly `k * n` times. -/
theorem mutual_exclusion (data : μ → α) (r₀ : R) (s : Core μ α R)
    (h : Reachable (Step p) (Core.init data r₀) s) (m : μ) :
    (∀ f g, m ∈ s.guards f → m ∈ s.guards g → f = g) ∧
    ((s.mutexes m).locked = true ↔ ∃ f, m ∈ s.guards f) ∧
    (s.mutexes m).data = applyAll (s.openUpdates m) (replay (data m) (s.completed m)) ∧
    (∀ f, m ∈ s.guards f → ∃ us, s.history m = s.completed m ++ [⟨f, us⟩]) ∧
    ∀ (f : α → α) (owners : Finset Flow) (n : Nat), (s.mutexes m).locked = false →
      (∀ t ∈ s.completed m, t.updates = [f] ∧ t.owner ∈ owners) →
      (∀ g ∈ owners, ((s.completed m).map (·.owner)).count g = n) →
      (s.mutexes m).data = f^[owners.card * n] (data m) := by
  have hinv := reachable_owned h
  refine ⟨hinv.unique m, hinv.locked m, hinv.data_eq m, ?_, ?_⟩
  · intro f hf
    obtain ⟨ts, us, hlast⟩ := hinv.last m f hf
    have hl := (hinv.locked m).mpr ⟨f, hf⟩
    exact ⟨us, by simp [Core.completed, hl, hlast]⟩
  · intro f owners n hl hts hn
    have hlen := length_of_owners (fun t ht => (hts t ht).2) hn
    rw [hinv.data_eq m, replay_uniform (data m) _ fun t ht => (hts t ht).1, hlen]
    simp [Core.openUpdates, hl, applyAll]

/- Two threads increment once each. The first is preempted between its read and its
   write, the second sleeps until it has dropped its guard. -/
def incrementEvents : List (Event Unit Nat Unit) :=
  let steps (n : Nat) : List (Event Unit Nat Unit) := List.replicate n .advance
  bootEvents 2 ++ [.lock ()] ++ steps 1 ++ [.read (), .irq .timer] ++ steps 3 ++
    [.lock ()] ++ steps 9 ++ [.write (· + 1), .drop ()] ++ steps 9 ++
    [.irq .timer] ++ steps 2 ++ [.irq .timer] ++ steps 5 ++
    [.read (), .write (· + 1), .drop ()] ++ steps 3

theorem two_threads_increment : ∃ s : Core Unit Nat Unit,
    Reachable (Step .dev) (Core.init (fun _ => 0) ()) s ∧ (s.mutexes ()).data = 2 ∧
      (s.mutexes ()).data = applyAll (s.openUpdates ()) (replay 0 (s.completed ())) ∧
      (s.completed ()).map (·.owner) = [.thread 0, .thread 1] := by
  have hrun : ((exec (Core.step .dev) (Core.init (fun _ => 0) ()) incrementEvents).any fun s =>
      decide ((s.mutexes ()).data = 2) &&
        decide ((s.completed ()).map (·.owner) = [.thread 0, .thread 1])) = true := by
    decide +kernel
  obtain ⟨s, hreach, hp⟩ := reachable_of_exec hrun
  simp only [Bool.and_eq_true, decide_eq_true_eq] at hp
  exact ⟨s, hreach, hp.1, (mutual_exclusion _ _ s hreach ()).2.2.1, hp.2⟩

end MoltOS.Kernel
