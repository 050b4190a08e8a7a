import MoltOS.EevdfBounds
import MoltOS.EevdfFair

/-! An envelope in which the scheduler's u64 arithmetic is exact: the charged slices
telescope over the switches, so a vruntime is at most the total weight times the last
switch tick plus the number of charging calls, scaled by 1024. -/
namespace MoltOS.Eevdf
open MoltOS.Rust MoltOS.Transition

def Op.weight : Op → Nat
  | .spawn _ => defaultWeight
  | .spawnWithWeight _ weight => max weight 1
  | _ => 0

def spawnedWeight (ops : List Op) : Nat := (ops.map Op.weight).sum

def ticks (ops : List Op) : List Nat := ops.filterMap Op.tick?

namespace EevdfScheduler

def applyAll (p : Profile) : EevdfScheduler → List Op → Except Panic EevdfScheduler
  | s, [] => .ok s
  | s, op :: ops => do
    let r ← s.apply p op
    applyAll p r.1 ops

variable {s s' : EevdfScheduler} {p : Profile} {b : CtxPtr} {t : Nat} {r : Option Switch}

theorem extends_virtualDeadline (p : Profile) (m : ThreadMeta) (ts w : Nat) :
    Extends (m.virtualDeadline .dev ts w) (m.virtualDeadline p ts w) := by
  unfold ThreadMeta.virtualDeadline
  by_cases hw : m.weight = 0
  · rw [if_pos hw, if_pos hw]
    exact Extends.refl _
  · rw [if_neg hw, if_neg hw]
    exact extends_bind (extends_fit p _) fun _ => extends_bind (extends_fit p _) fun _ =>
      extends_fit p _

theorem extends_sumWeights (p : Profile) (ms : List ThreadMeta) :
    Extends (sumWeights .dev ms) (sumWeights p ms) :=
  extends_foldlM (fun a b => extends_fit p (a + b)) _ 0

theorem extends_charge (p : Profile) (s : EevdfScheduler) (ts : Nat) :
    Extends (s.charge .dev ts) (s.charge p ts) := by
  unfold charge
  cases s.current with
  | none => exact Extends.refl _
  | some prev =>
    refine extends_bind (extends_sumWeights p _) fun total => ?_
    by_cases ht : total = 0
    · rw [if_pos ht, if_pos ht]
      exact Extends.refl _
    · rw [if_neg ht, if_neg ht]
      exact extends_bind (Extends.refl _) fun _ => extends_bind (extends_fit p _) fun _ =>
        extends_bind (extends_fit p _) fun _ => extends_bind (extends_fit p _) fun _ =>
        Extends.refl _

theorem extends_nextIdx (p : Profile) (s : EevdfScheduler) (ts : Nat) :
    Extends (s.nextIdx .dev ts) (s.nextIdx p ts) := by
  refine extends_bind (extends_bind (extends_sumWeights p _) fun total => ?_)
    fun _ => Extends.refl _
  exact extends_bind (extends_minBy
    (fun e : ThreadMeta × Nat => extends_virtualDeadline p e.1 ts total) _)
    fun _ => Extends.refl _

theorem extends_tickPrepare (p : Profile) (s : EevdfScheduler) (b : CtxPtr) (t : Nat) :
    Extends (s.tickPrepare .dev b t) (s.tickPrepare p b t) := by
  unfold EevdfScheduler.tickPrepare
  by_cases he : s.threads = []
  · rw [if_pos he, if_pos he]
    exact Extends.refl _
  · rw [if_neg he, if_neg he]
    exact extends_bind (extends_charge p s _) fun _ => extends_bind (extends_nextIdx p _ _)
      fun _ => Extends.refl _

/-- A call that passes its overflow checks computes the same in a release build. -/
theorem extends_apply (p : Profile) (s : EevdfScheduler) (op : Op) :
    Extends (s.apply .dev op) (s.apply p op) := by
  cases op with
  | spawn | spawnWithWeight | unblockThread => exact Extends.refl _
  | tickPrepare t => exact extends_tickPrepare p s _ t
  | blockCurrentAndPrepareSwitch t =>
    exact extends_bind (Extends.refl _) fun marked => extends_tickPrepare p marked _ t

theorem extends_applyAll (p : Profile) (s : EevdfScheduler) (ops : List Op) :
    Extends (s.applyAll .dev ops) (s.applyAll p ops) := by
  induction ops generalizing s with
  | nil => exact Extends.refl _
  | cons op ops ih => exact extends_bind (extends_apply p s op) fun r => ih r.1

/- The slices charged so far, after `n` calls: the ticks up to the last switch, and one
   for each call but the first. Before the first switch nothing has been charged. -/
def spent (s : EevdfScheduler) (n : Nat) : Nat :=
  if s.current.isSome then s.lastSwitchTick + (n - 1) else 0

def chargedSlice (s : EevdfScheduler) (t : Nat) : Nat :=
  if s.current.isSome then s.timeSlice t else 0

def weightSum (s : EevdfScheduler) : Nat := (s.metadata.map (·.weight)).sum

/-- The telescoped budget after `n` calls, the last one at tick `now`. -/
structure Budget (W now n : Nat) (s : EevdfScheduler) : Prop where
  valid : s.Valid
  last : s.lastSwitchTick ≤ now
  called : s.current.isSome → 1 ≤ n
  paid : ∀ m ∈ s.metadata, m.vruntime ≤ 1024 * W * s.spent n

variable {W T now n : Nat}

/-- The slice of a call, counted twice when it is charged, stays inside the envelope. -/
theorem Budget.slice_le (hb : Budget W now n s) (hnow : now ≤ t) (hT : t ≤ T) :
    s.spent n + s.chargedSlice t + s.timeSlice t ≤ 2 * T + (n + 1) := by
  have hlast := hb.last
  unfold spent chargedSlice timeSlice saturatingSub minTimeSlice
  by_cases hc : s.current.isSome
  · have hn := hb.called hc
    simp only [hc, if_true]
    omega
  · simp only [hc, Bool.false_eq_true, if_false]
    omega

theorem totalWeight_le_weightSum (s : EevdfScheduler) : totalWeight s.metadata ≤ s.weightSum := by
  have hsub : (runnable s.metadata).Sublist s.metadata := List.filter_sublist
  exact (hsub.map (·.weight)).sum_le_sum fun _ _ => Nat.zero_le _

theorem weight_le_weightSum {m : ThreadMeta} (hm : m ∈ s.metadata) : m.weight ≤ s.weightSum :=
  List.le_sum_of_mem (List.mem_map_of_mem hm)

/-- One charge costs at most the total weight for each tick of the slice. -/
theorem charge_vruntime_le {m : ThreadMeta} (ts total : Nat) (hw : m.weight ≤ W) :
    (m.charge ts total).vruntime ≤ m.vruntime + 1024 * W * ts := by
  have hmul : ts * m.weight * 1024 ≤ 1024 * W * ts := by
    calc ts * m.weight * 1024 ≤ ts * W * 1024 :=
          Nat.mul_le_mul_right 1024 (Nat.mul_le_mul_left ts hw)
      _ = 1024 * W * ts := by ring
  exact Nat.add_le_add_left ((Nat.div_le_self _ _).trans hmul) _

theorem Budget.charged (hb : Budget W now n s) (hw : s.weightSum ≤ W) {m : ThreadMeta}
    (hm : m ∈ s.chargedMeta (s.timeSlice t)) :
    m.vruntime ≤ 1024 * W * (s.spent n + s.chargedSlice t) := by
  obtain ⟨i, hi⟩ := List.mem_iff_getElem?.mp hm
  obtain ⟨m₀, hm₀, hcase⟩ := chargedMeta_getElem? hi
  have hmem := List.mem_of_getElem? hm₀
  have hpaid := hb.paid m₀ hmem
  rw [Nat.mul_add]
  obtain rfl | ⟨hcur, rfl⟩ := hcase
  · omega
  · have hle := charge_vruntime_le (s.timeSlice t) (totalWeight s.metadata)
      ((weight_le_weightSum hmem).trans hw)
    simp only [chargedSlice, hcur, Option.isSome_some, if_true]
    omega

theorem deadline_le {m : ThreadMeta} {total : Nat} (ts : Nat) (hw : total ≤ W) (hm : m.weight ≠ 0) :
    m.deadline ts total ≤ m.vruntime + 1024 * W * ts := by
  have hmul : ts * total * 1024 ≤ 1024 * W * ts := by
    calc ts * total * 1024 ≤ ts * W * 1024 :=
          Nat.mul_le_mul_right 1024 (Nat.mul_le_mul_left ts hw)
      _ = 1024 * W * ts := by ring
  rw [ThreadMeta.deadline, if_neg hm]
  exact Nat.add_le_add_left ((Nat.div_le_self _ _).trans hmul) _

/-- Inside the envelope a tick goes through. -/
theorem Budget.tickPrepare_ok (hb : Budget W now n s) (hw : s.weightSum ≤ W) (hnow : now ≤ t)
    (hT : t ≤ T) (henv : 1024 * W * (2 * T + (n + 1)) < 2 ^ 64) :
    ∃ s' r, s.tickPrepare .dev .bootstrap t = .ok (s', r) := by
  by_cases hne : s.threads = []
  · exact ⟨s, none, if_pos hne⟩
  have hslice := hb.slice_le hnow hT
  have hfit (k : Nat) (hk : k ≤ 2 * T + (n + 1)) : 1024 * W * k ≤ u64Max := by
    have hle := Nat.mul_le_mul_left (1024 * W) hk
    unfold u64Max
    omega
  have htot : totalWeight s.metadata ≤ W := (totalWeight_le_weightSum s).trans hw
  have hW : W ≤ u64Max := by
    have h1 := hfit 1 (by omega)
    omega
  have hprod (w : Nat) (hle : w ≤ W) : s.timeSlice t * w * 1024 ≤ u64Max := by
    calc s.timeSlice t * w * 1024 ≤ s.timeSlice t * W * 1024 :=
          Nat.mul_le_mul_right 1024 (Nat.mul_le_mul_left _ hle)
      _ = 1024 * W * s.timeSlice t := by ring
      _ ≤ u64Max := hfit _ (by omega)
  refine EevdfScheduler.tickPrepare_ok hb.valid hne (hprod _ htot) (htot.trans hW) ?_ ?_
  · intro i m hi hm
    have hmem := List.mem_of_getElem? hm
    have hle := charge_vruntime_le (s.timeSlice t) (totalWeight s.metadata)
      ((weight_le_weightSum hmem).trans hw)
    have hpaid := hb.paid m hmem
    have hsum := hfit (s.spent n + s.timeSlice t) (by omega)
    rw [Nat.mul_add] at hsum
    exact ⟨hprod _ ((weight_le_weightSum hmem).trans hw), by omega⟩
  · intro m hm
    have hv := hb.charged hw hm
    have hsum := hfit (s.spent n + s.chargedSlice t + s.timeSlice t) hslice
    rw [Nat.mul_add] at hsum
    by_cases hz : m.weight = 0
    · rw [ThreadMeta.deadline, if_pos hz]
    · have hd := deadline_le (s.timeSlice t) htot hz
      omega

theorem totalWeight_of_allBlocked {ms : List ThreadMeta} (h : AllBlocked ms) :
    totalWeight ms = 0 := by
  simp [totalWeight, runnable_of_allBlocked h]

theorem chargedMeta_of_allBlocked (h : AllBlocked s.metadata) (ts : Nat) :
    s.chargedMeta ts = s.metadata := by
  unfold chargedMeta
  rw [totalWeight_of_allBlocked h]
  cases s.current <;> simp

theorem allBlocked_of_shape {ms ms' : List ThreadMeta} (h : shape ms' = shape ms)
    (hall : AllBlocked ms') : AllBlocked ms := by
  rw [allBlocked_iff] at hall ⊢
  simpa only [runnableAt_of_shape h] using hall

/-- The budget pays for a tick: a switch moves the last switch tick to the end of the
charged slice, a kept thread is charged one tick, a tick with everybody blocked charges
nothing. -/
theorem Budget.tickPrepare (hb : Budget W now n s) (hw : s.weightSum ≤ W) (hnow : now ≤ t)
    (h : s.tickPrepare .dev b t = .ok (s', r)) : Budget W t (n + 1) s' := by
  have hlast := hb.last
  have hv' := hb.valid.tickPrepare h
  have hmul {k k' : Nat} (hk : k ≤ k') : 1024 * W * k ≤ 1024 * W * k' := Nat.mul_le_mul_left _ hk
  obtain ⟨_, rfl, _⟩ | ⟨_, c, hc, hch, ⟨hn, rfl, _⟩ | ⟨i, hn, ⟨hk, rfl, _⟩ | ⟨_, rfl, _⟩⟩⟩ :=
    tickPrepare_cases h
  · refine ⟨hv', by omega, fun _ => by omega, fun m hm => (hb.paid m hm).trans (hmul ?_)⟩
    unfold spent
    split <;> omega
  · refine ⟨hv', ?_, fun _ => by omega, ?_⟩
    · rw [hch.lastSwitchTick]
      omega
    · intro m hm
      have hall := allBlocked_of_shape hch.shape (nextIdx_none hn)
      have hmeta : c.updateMin.metadata = s.metadata :=
        (charge_dev hc).trans (chargedMeta_of_allBlocked hall _)
      refine (hb.paid m (hmeta ▸ hm)).trans (hmul ?_)
      unfold spent
      rw [hch.current, hch.lastSwitchTick]
      split <;> omega
  · refine ⟨hv', ?_, fun _ => by omega, ?_⟩
    · rw [hch.lastSwitchTick]
      omega
    · intro m hm
      have hcharge : m ∈ s.chargedMeta (s.timeSlice t) := charge_dev hc ▸ hm
      refine (hb.charged hw hcharge).trans (hmul ?_)
      have hsome : s.current.isSome := by simp [hk.1]
      have hcall := hb.called hsome
      have hle := hk.2.2
      unfold spent chargedSlice timeSlice saturatingSub minTimeSlice
      rw [hch.current, hch.lastSwitchTick]
      simp only [hsome, if_true]
      omega
  · refine ⟨hv', le_rfl, fun _ => by omega, ?_⟩
    intro m hm
    have hcharge : m ∈ s.chargedMeta (s.timeSlice t) := charge_dev hc ▸ hm
    refine (hb.charged hw hcharge).trans (hmul ?_)
    unfold spent chargedSlice timeSlice saturatingSub minTimeSlice
    by_cases hsome : s.current.isSome
    · have hcall := hb.called hsome
      simp only [hsome, Option.isSome_some, if_true]
      omega
    · simp only [hsome, Bool.false_eq_true, if_false]
      omega

theorem Budget.push (hb : Budget W now n s) (thread : Thread) (m : ThreadMeta)
    (hm : 1 ≤ m.weight) (hz : m.vruntime = 0) :
    Budget W now n { s with threads := s.threads ++ [thread], metadata := s.metadata ++ [m] } := by
  refine ⟨hb.valid.push thread m hm, hb.last, hb.called, ?_⟩
  intro x hx
  obtain hx | hx := List.mem_append.mp hx
  · exact hb.paid x hx
  · rw [List.mem_singleton.mp hx, hz]
    exact Nat.zero_le _

theorem Budget.set (hb : Budget W now n s) {i : Nat} {m : ThreadMeta}
    (hi : s.metadata[i]? = some m) (x : Bool) :
    Budget W now n { s with metadata := s.metadata.set i { m with blocked := x } } := by
  refine ⟨hb.valid.set hi x, hb.last, hb.called, ?_⟩
  intro y hy
  obtain hy | rfl := List.mem_or_eq_of_mem_set hy
  · exact hb.paid y hy
  · exact hb.paid m (List.mem_of_getElem? hi)

theorem weightSum_set {i : Nat} {m : ThreadMeta} (hi : s.metadata[i]? = some m) (x : Bool) :
    weightSum { s with metadata := s.metadata.set i { m with blocked := x } } = s.weightSum := by
  have hmap : (s.metadata.set i { m with blocked := x }).map (·.weight) =
      s.metadata.map (·.weight) := by
    obtain ⟨hlt, hget⟩ := List.getElem?_eq_some_iff.mp hi
    have hlt' : i < (s.metadata.map (·.weight)).length := by simpa using hlt
    have hw : m.weight = (s.metadata.map (·.weight))[i] := by simp [hget]
    rw [List.map_set, hw, List.set_getElem_self]
  simp only [weightSum, hmap]

theorem weightSum_of_shape (h : shape s'.metadata = shape s.metadata) :
    s'.weightSum = s.weightSum := by
  have hw (l : List ThreadMeta) : l.map (·.weight) = (shape l).map (·.1) := by
    simp [shape]
  rw [weightSum, weightSum, hw, hw, h]

theorem Valid.unblock_ok (hv : s.Valid) (id : ThreadId) : ∃ s', s.unblockThread id = .ok s' := by
  unfold unblockThread
  cases hf : s.threads.findIdx? (fun t => t.id == id) with
  | none => exact ⟨s, rfl⟩
  | some i =>
    obtain ⟨hlt, _⟩ := List.findIdx?_eq_some_iff_getElem.mp hf
    rw [hv.lengths] at hlt
    have hidx : index s.metadata i = .ok s.metadata[i] := index_eq_ok.mpr (by simp [hlt])
    exact ⟨_, bind_eq_ok.mpr ⟨_, hidx, rfl⟩⟩

/-- One operation inside the envelope goes through, and the budget pays for it. -/
theorem Budget.apply_ok {op : Op} (hb : Budget W now n s) (hw : s.weightSum + op.weight ≤ W)
    (hnow : ∀ t ∈ op.tick?, now ≤ t ∧ t ≤ T)
    (henv : 1024 * W * (2 * T + (n + op.tick?.toList.length)) < 2 ^ 64) :
    ∃ s' r, s.apply .dev op = .ok (s', r) ∧ s'.weightSum = s.weightSum + op.weight ∧
      Budget W (op.tick?.getD now) (n + op.tick?.toList.length) s' := by
  cases op with
  | spawn thread =>
    exact ⟨_, none, rfl, by simp [weightSum, EevdfScheduler.spawn, ThreadMeta.new, Op.weight],
      hb.push thread _ (by simp [ThreadMeta.new, defaultWeight]) rfl⟩
  | spawnWithWeight thread weight =>
    exact ⟨_, none, rfl, by simp [weightSum, EevdfScheduler.spawnWithWeight, Op.weight],
      hb.push thread _ (le_max_right weight 1) rfl⟩
  | unblockThread id =>
    obtain ⟨s', hu⟩ := hb.valid.unblock_ok id
    refine ⟨s', none, bind_eq_ok.mpr ⟨s', hu, rfl⟩, ?_⟩
    obtain ⟨rfl, _⟩ | ⟨i, _, m, _, _, hi, rfl⟩ := unblockThread_ok hu
    · exact ⟨rfl, hb⟩
    · exact ⟨weightSum_set hi false, hb.set hi false⟩
  | tickPrepare t =>
    obtain ⟨hle, hT⟩ := hnow t rfl
    obtain ⟨s', r, hs⟩ := hb.tickPrepare_ok hw hle hT henv
    exact ⟨s', r, hs, weightSum_of_shape (tickPrepare_shape hs).2.1, hb.tickPrepare hw hle hs⟩
  | blockCurrentAndPrepareSwitch t =>
    obtain ⟨hle, hT⟩ := hnow t rfl
    have hmarked : ∃ s₀, s.markCurrentBlocked = .ok s₀ ∧ Budget W now n s₀ ∧
        s₀.weightSum = s.weightSum := by
      unfold markCurrentBlocked
      cases hc : s.current with
      | none => exact ⟨s, rfl, hb, rfl⟩
      | some i =>
        obtain ⟨m, hm⟩ := hb.valid.index_metadata hc
        have hi := index_eq_ok.mp hm
        exact ⟨_, bind_eq_ok.mpr ⟨m, hm, rfl⟩, hb.set hi true, weightSum_set hi true⟩
    obtain ⟨s₀, hmark, hb₀, hsum⟩ := hmarked
    have hw₀ : s₀.weightSum ≤ W := by
      rw [hsum]
      exact hw
    obtain ⟨s', r, hs⟩ := hb₀.tickPrepare_ok hw₀ hle hT henv
    exact ⟨s', r, bind_eq_ok.mpr ⟨s₀, hmark, hs⟩,
      (weightSum_of_shape (tickPrepare_shape hs).2.1).trans hsum, hb₀.tickPrepare hw₀ hle hs⟩

theorem ticks_cons (op : Op) (ops : List Op) : ticks (op :: ops) = op.tick?.toList ++ ticks ops := by
  unfold ticks
  cases h : op.tick? with
  | none => simp [h]
  | some t => simp [h]

/-- The budget along a whole run. -/
theorem Budget.applyAll_ok (ops : List Op) (hb : Budget W now n s)
    (hw : s.weightSum + spawnedWeight ops ≤ W) (hmono : (now :: ticks ops).Pairwise (· ≤ ·))
    (hT : ∀ t ∈ ticks ops, t ≤ T)
    (henv : 1024 * W * (2 * T + (n + (ticks ops).length)) < 2 ^ 64) :
    ∃ s', s.applyAll .dev ops = .ok s' ∧ s'.Valid := by
  induction ops generalizing s now n with
  | nil => exact ⟨s, rfl, hb.valid⟩
  | cons op ops ih =>
    have hsum : spawnedWeight (op :: ops) = op.weight + spawnedWeight ops := rfl
    rw [hsum] at hw
    rw [ticks_cons, List.length_append] at henv
    rw [ticks_cons] at hmono hT
    have hnow : ∀ t ∈ op.tick?, now ≤ t ∧ t ≤ T := by
      intro t ht
      have hmem : t ∈ op.tick?.toList ++ ticks ops := by simp [Option.mem_def.mp ht]
      exact ⟨(List.pairwise_cons.mp hmono).1 t hmem, hT t hmem⟩
    have hle : 1024 * W * (2 * T + (n + op.tick?.toList.length)) ≤
        1024 * W * (2 * T + (n + (op.tick?.toList.length + (ticks ops).length))) :=
      Nat.mul_le_mul_left _ (by omega)
    obtain ⟨s', r, hs, hws, hb'⟩ := hb.apply_ok (by omega) hnow (hle.trans_lt henv)
    have hmono' : (op.tick?.getD now :: ticks ops).Pairwise (· ≤ ·) := by
      cases ht : op.tick? with
      | none => simpa [ht] using hmono
      | some t =>
        simp only [ht, Option.toList_some, List.singleton_append] at hmono
        exact (List.pairwise_cons.mp hmono).2
    obtain ⟨s'', hs'', hv⟩ := ih hb' (by omega) hmono'
      (fun t ht => hT t (List.mem_append_right _ ht)) (by rw [Nat.add_assoc n]; exact henv)
    exact ⟨s'', bind_eq_ok.mpr ⟨_, hs, hs''⟩, hv⟩

/-- The envelope. A run of scheduler operations with non-decreasing ticks up to `T`,
total spawned weight `W` and `n` scheduling calls, with `1024 * W * (2 * T + n)` below
`2 ^ 64`, passes every overflow check, so it computes the same with and without them;
and no weight, the divisor of the deadlines, is zero. -/
theorem run_within_envelope (ops : List Op) (T : Nat) (hmono : (ticks ops).Pairwise (· ≤ ·))
    (hT : ∀ t ∈ ticks ops, t ≤ T)
    (henv : 1024 * spawnedWeight ops * (2 * T + (ticks ops).length) < 2 ^ 64) :
    ∃ s, (∀ p, EevdfScheduler.new.applyAll p ops = .ok s) ∧ ∀ m ∈ s.metadata, m.weight ≠ 0 := by
  have hb : Budget (spawnedWeight ops) 0 0 EevdfScheduler.new :=
    ⟨Valid.new, le_rfl, by simp [EevdfScheduler.new], by simp [EevdfScheduler.new]⟩
  have hmono' : (0 :: ticks ops).Pairwise (· ≤ ·) :=
    List.pairwise_cons.mpr ⟨fun t _ => Nat.zero_le t, hmono⟩
  obtain ⟨s, hs, hv⟩ := hb.applyAll_ok ops (by simp [weightSum, EevdfScheduler.new]) hmono' hT
    (by rw [Nat.zero_add]; exact henv)
  refine ⟨s, fun p => extends_applyAll p _ ops s hs, ?_⟩
  intro m hm
  have hw := hv.weights m hm
  omega

def envelopeOps : List Op :=
  [.spawn ⟨7⟩, .spawnWithWeight ⟨8⟩ 0, .tickPrepare 3, .blockCurrentAndPrepareSwitch 5,
    .unblockThread 7, .spawnWithWeight ⟨9⟩ 2000, .tickPrepare 5, .tickPrepare 90]

theorem envelopeOps_exact :
    ∃ s, (∀ p, EevdfScheduler.new.applyAll p envelopeOps = .ok s) ∧
      ∀ m ∈ s.metadata, m.weight ≠ 0 :=
  run_within_envelope envelopeOps 90 (by decide) (by decide) (by decide)

end EevdfScheduler
end MoltOS.Eevdf
