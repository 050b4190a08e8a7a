import Mathlib.Data.List.Nodup
import Mathlib.Data.List.Perm.Subperm
import Mathlib.Data.List.ReduceOption
import MoltOS.Eevdf

/-! The round-robin scheduler: threads in the order they were spawned, the next one picked
modulo however many there are at that tick. -/
namespace MoltOS.RoundRobin
open MoltOS.Eevdf (CtxPtr Switch Thread)

/- `current` is only ever set to a position of the vector, which never shrinks; so
   `threads[p]` does not panic and `i + 1` is at most the length of a vector. -/
structure RoundRobinScheduler where
  threads : List Thread
  current : Option Nat
  running : ∀ i, current = some i → i < threads.length

namespace RoundRobinScheduler

def new : RoundRobinScheduler := ⟨[], none, fun _ h => nomatch h⟩

def spawn (s : RoundRobinScheduler) (thread : Thread) : RoundRobinScheduler where
  threads := s.threads ++ [thread]
  current := s.current
  running i h := by
    rw [List.length_append]
    exact Nat.lt_add_right _ (s.running i h)

def spawnWithWeight (s : RoundRobinScheduler) (thread : Thread) (_weight : Nat) :
    RoundRobinScheduler := s.spawn thread

def len (s : RoundRobinScheduler) : Nat := s.threads.length

def fromCtx (s : RoundRobinScheduler) : CtxPtr :=
  match s.current with
  | none => .bootstrap
  | some p => .thread p

def next (s : RoundRobinScheduler) : Nat :=
  match s.current with
  | none => 0
  | some i => (i + 1) % s.len

theorem next_lt (s : RoundRobinScheduler) (h : s.len ≠ 0) : s.next < s.len := by
  unfold next
  split
  · exact Nat.pos_of_ne_zero h
  · exact Nat.mod_lt _ (Nat.pos_of_ne_zero h)

def select (s : RoundRobinScheduler) (h : s.len ≠ 0) : RoundRobinScheduler where
  threads := s.threads
  current := some s.next
  running i hi := by
    cases hi
    exact s.next_lt h

def tickPrepare (s : RoundRobinScheduler) (_currentTick : Nat) :
    Option Switch × RoundRobinScheduler :=
  if h : s.len = 0 then (none, s)
  else (some (s.fromCtx, .thread s.next), s.select h)

end RoundRobinScheduler
open RoundRobinScheduler

inductive Op where
  | spawn (thread : Thread)
  | spawnWithWeight (thread : Thread) (weight : Nat)
  | tick (currentTick : Nat)

def Op.isTick : Op → Bool
  | .tick _ => true
  | _ => false

def run : RoundRobinScheduler → List Op → List (Option Switch) × RoundRobinScheduler
  | s, [] => ([], s)
  | s, .spawn t :: ops => run (s.spawn t) ops
  | s, .spawnWithWeight t w :: ops => run (s.spawnWithWeight t w) ops
  | s, .tick now :: ops =>
    ((s.tickPrepare now).1 :: (run (s.tickPrepare now).2 ops).1, (run (s.tickPrepare now).2 ops).2)

section Runs
variable {s : RoundRobinScheduler} {ops : List Op}

theorem tickPrepare_eq (now : Nat) (h : s.len ≠ 0) :
    s.tickPrepare now = (some (s.fromCtx, .thread s.next), s.select h) := dif_neg h

theorem run_tick (now : Nat) (h : s.len ≠ 0) : run s (.tick now :: ops) =
    (some (s.fromCtx, .thread s.next) :: (run (s.select h) ops).1, (run (s.select h) ops).2) := by
  rw [run, tickPrepare_eq now h]

theorem tickPrepare_threads (s : RoundRobinScheduler) (now : Nat) :
    (s.tickPrepare now).2.threads = s.threads := by
  unfold tickPrepare
  split <;> rfl

/-- Threads keep their places, whatever is spawned after them. -/
theorem run_threads (s : RoundRobinScheduler) (ops : List Op) :
    s.threads <+: (run s ops).2.threads := by
  induction ops generalizing s with
  | nil => exact List.prefix_refl _
  | cons op ops ih =>
    cases op with
    | spawn t => exact (List.prefix_append _ _).trans (ih (s.spawn t))
    | spawnWithWeight t w => exact (List.prefix_append _ _).trans (ih (s.spawn t))
    | tick now =>
      have h := ih (s.tickPrepare now).2
      rwa [tickPrepare_threads] at h

theorem run_len (s : RoundRobinScheduler) (ops : List Op) : s.len ≤ (run s ops).2.len :=
  (run_threads s ops).length_le

theorem spawn_len_ne_zero (t : Thread) : (s.spawn t).len ≠ 0 := by simp [spawn, len]

def ticksUntil (n t : Nat) : Option Nat → Nat
  | none => t + 1
  | some i => if i < t then t - i else n - i + t

theorem ticksUntil_le {n t : Nat} (ht : t < n) (c : Option Nat) : ticksUntil n t c ≤ n := by
  cases c with
  | none => exact ht
  | some i =>
    simp only [ticksUntil]
    split <;> omega

theorem ticksUntil_pos {n t : Nat} {c : Option Nat} (hc : ∀ i, c = some i → i < n) :
    0 < ticksUntil n t c := by
  cases c with
  | none => exact Nat.succ_pos t
  | some i =>
    have hi := hc i rfl
    simp only [ticksUntil]
    split <;> omega

/-- A tick that does not select `t` brings it one tick nearer, also across the wrap-around. -/
theorem ticksUntil_select {n t : Nat} (hn : s.len ≤ n) (ht : t < s.len) (hne : s.next ≠ t) :
    ticksUntil n t (some s.next) + 1 ≤ ticksUntil n t s.current := by
  unfold next at hne ⊢
  cases hc : s.current with
  | none =>
    simp only [hc] at hne ⊢
    simp only [ticksUntil]
    split <;> omega
  | some i =>
    simp only [hc] at hne ⊢
    have hi : i < s.len := s.running i hc
    by_cases hw : i + 1 < s.len
    · rw [Nat.mod_eq_of_lt hw] at hne ⊢
      simp only [ticksUntil]
      split <;> split <;> omega
    · have hz : (i + 1) % s.len = 0 := by
        rw [show i + 1 = s.len by omega]
        exact Nat.mod_self _
      rw [hz] at hne ⊢
      simp only [ticksUntil]
      split <;> split <;> omega

theorem run_selects {n t : Nat} (ht : t < s.len) (hn : (run s ops).2.len = n)
    (hticks : ticksUntil n t s.current ≤ ops.countP Op.isTick) :
    ∃ f, some (f, CtxPtr.thread t) ∈ (run s ops).1 := by
  induction ops generalizing s with
  | nil =>
    have hpos : 0 < ticksUntil n t s.current :=
      ticksUntil_pos fun i hi => (s.running i hi).trans_le (run_len s [] |>.trans hn.le)
    simp only [List.countP_nil] at hticks
    omega
  | cons op ops ih =>
    cases op with
    | spawn u => exact ih (ht.trans_le (run_len s [.spawn u])) hn hticks
    | spawnWithWeight u w => exact ih (ht.trans_le (run_len s [.spawn u])) hn hticks
    | tick now =>
      have h0 : s.len ≠ 0 := by omega
      have hle : s.len ≤ n := (run_len s _).trans hn.le
      rw [run_tick now h0] at hn ⊢
      by_cases hsel : s.next = t
      · exact ⟨s.fromCtx, by simp [hsel]⟩
      · have hcloser := ticksUntil_select hle ht hsel
        have hcount : (Op.tick now :: ops).countP Op.isTick = ops.countP Op.isTick + 1 :=
          List.countP_cons_of_pos rfl
        obtain ⟨f, hf⟩ := ih (s := s.select h0) ht hn (by
          rw [hcount] at hticks
          exact Nat.le_of_succ_le_succ (hcloser.trans hticks))
        exact ⟨f, List.mem_cons_of_mem _ hf⟩

def switches (s : RoundRobinScheduler) (ops : List Op) : List Switch := (run s ops).1.reduceOption

theorem switches_tick (now : Nat) (h : s.len ≠ 0) : switches s (.tick now :: ops) =
    (s.fromCtx, .thread s.next) :: switches (s.select h) ops := by
  unfold switches
  rw [run_tick now h]
  exact List.reduceOption_cons_of_some _ _

/-- With a thread to run, no tick returns `None`. -/
theorem run_eq_map_some (s : RoundRobinScheduler) (ops : List Op) (h : s.len ≠ 0) :
    (run s ops).1 = (switches s ops).map some ∧
      (switches s ops).length = ops.countP Op.isTick := by
  induction ops generalizing s with
  | nil => exact ⟨rfl, rfl⟩
  | cons op ops ih =>
    cases op with
    | spawn t => exact ih (s.spawn t) (spawn_len_ne_zero t)
    | spawnWithWeight t w => exact ih (s.spawn t) (spawn_len_ne_zero t)
    | tick now =>
      obtain ⟨hres, hlen⟩ := ih (s.select h) h
      rw [switches_tick now h, run_tick now h, hres]
      refine ⟨rfl, ?_⟩
      rw [List.length_cons, hlen]
      exact (List.countP_cons_of_pos rfl).symm

/-- Each switch leaves the thread the last one went to. -/
theorem switches_from (s : RoundRobinScheduler) (ops : List Op) :
    (switches s ops).map Prod.fst = (s.fromCtx :: (switches s ops).map Prod.snd).dropLast := by
  induction ops generalizing s with
  | nil => rfl
  | cons op ops ih =>
    cases op with
    | spawn t => exact ih (s.spawn t)
    | spawnWithWeight t w => exact ih (s.spawn t)
    | tick now =>
      by_cases h : s.len = 0
      · have hskip : switches s (.tick now :: ops) = switches s ops := by
          simp [switches, run, tickPrepare, h, List.reduceOption_cons_of_none]
        rw [hskip]
        exact ih s
      · rw [switches_tick now h, List.map_cons, ih (s.select h), List.map_cons,
          List.dropLast_cons_cons]
        rfl

theorem ticks_len (s : RoundRobinScheduler) (h : ∀ op ∈ ops, op.isTick) :
    (run s ops).2.len = s.len := by
  induction ops generalizing s with
  | nil => rfl
  | cons op ops ih =>
    have hop := h op List.mem_cons_self
    cases op with
    | tick now =>
      have hrest := ih (s.tickPrepare now).2 fun o ho => h o (List.mem_cons_of_mem _ ho)
      exact hrest.trans (congrArg List.length (tickPrepare_threads s now))
    | _ => cases hop

theorem switches_selects {t : Nat} (ht : t < s.len)
    (hticks : (run s ops).2.len ≤ ops.countP Op.isTick) :
    CtxPtr.thread t ∈ (switches s ops).map Prod.snd := by
  have hle : t < (run s ops).2.len := ht.trans_le (run_len s ops)
  obtain ⟨f, hf⟩ := run_selects ht rfl ((ticksUntil_le hle s.current).trans hticks)
  exact List.mem_map.mpr ⟨_, List.reduceOption_mem_iff.mpr hf, rfl⟩

/-- As many ticks as threads select each thread once: no position is left over for a second
turn. -/
theorem switches_count {t : Nat} (ht : t < s.len) (hops : ∀ op ∈ ops, op.isTick)
    (hlen : ops.length = s.len) : ((switches s ops).map Prod.snd).count (.thread t) = 1 := by
  have hcount : ops.countP Op.isTick = s.len := by
    rw [List.countP_eq_length.mpr hops, hlen]
  have hinj : Function.Injective CtxPtr.thread := fun i j hij => by injection hij
  have hnodup : ((List.range s.len).map CtxPtr.thread).Nodup := List.nodup_range.map hinj
  have hall : ((List.range s.len).map CtxPtr.thread).Subperm ((switches s ops).map Prod.snd) := by
    refine List.subperm_of_subset hnodup fun c hc => ?_
    obtain ⟨i, hi, rfl⟩ := List.mem_map.mp hc
    refine switches_selects (List.mem_range.mp hi) ?_
    rw [ticks_len s hops, hcount]
  have hperm := hall.perm_of_length_le (by
    rw [List.length_map, (run_eq_map_some s ops (by omega)).2, hcount]
    simp)
  rw [← hperm.count_eq]
  exact List.count_eq_one_of_mem hnodup (List.mem_map.mpr ⟨t, List.mem_range.mpr ht, rfl⟩)

/-- Whatever is spawned in between, as many ticks as there are threads in the end reach every
thread there was in the beginning. Without spawns a round of ticks selects each thread
exactly once, and every switch leaves the thread selected before it. -/
theorem round_robin_never_skips (s : RoundRobinScheduler) (hn : s.len ≠ 0) (ops : List Op) :
    (run s ops).1 = (switches s ops).map some ∧
    ((run s ops).2.len ≤ ops.countP Op.isTick → ∀ t thread, s.threads[t]? = some thread →
      (run s ops).2.threads[t]? = some thread ∧
        CtxPtr.thread t ∈ (switches s ops).map Prod.snd) ∧
    ((∀ op ∈ ops, op.isTick) → ops.length = s.len →
      ∀ t < s.len, ((switches s ops).map Prod.snd).count (.thread t) = 1) ∧
    (switches s ops).map Prod.fst = (s.fromCtx :: (switches s ops).map Prod.snd).dropLast ∧
    ∀ calls, (switches new calls).map Prod.fst =
      (CtxPtr.bootstrap :: (switches new calls).map Prod.snd).dropLast := by
  refine ⟨(run_eq_map_some s ops hn).1, fun hticks t thread ht => ?_, fun hops hlen t ht => ?_,
    switches_from s ops, switches_from new⟩
  · obtain ⟨hlt, -⟩ := List.getElem?_eq_some_iff.mp ht
    refine ⟨?_, switches_selects hlt hticks⟩
    obtain ⟨later, hlater⟩ := run_threads s ops
    rw [← hlater, List.getElem?_append_left hlt, ht]
  · exact switches_count ht hops hlen

def lateSpawn : RoundRobinScheduler := ⟨[⟨0⟩, ⟨1⟩], some 1, by decide⟩

theorem lateSpawn_reaches_all :
    lateSpawn.len ≠ 0 ∧
    CtxPtr.thread 1 ∈
      (switches lateSpawn [.spawn ⟨2⟩, .tick 5, .tick 6, .tick 7]).map Prod.snd :=
  ⟨by decide, ((round_robin_never_skips lateSpawn (by decide) _).2.1 (by decide) 1 ⟨1⟩ rfl).2⟩

end Runs
end MoltOS.RoundRobin
