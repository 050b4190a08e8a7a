import MoltOS.MallocKernel

/-! The C heap as its client sees it: objects that hold bytes. The allocation functions and the
client's own writes are steps of this store, whatever the heap below does with its memory. -/
namespace MoltOS.Malloc
open MoltOS.Allocator MoltOS.RawMemory MoltOS.Transition

structure Object where
  user : User
  bytes : List UInt8
  sized : bytes.length = user.size

@[ext]
theorem Object.ext {x y : Object} (huser : x.user = y.user) (hbytes : x.bytes = y.bytes) : x = y := by
  obtain ⟨user, bytes, _⟩ := x
  obtain ⟨user', bytes', _⟩ := y
  obtain rfl : user = user' := huser
  obtain rfl : bytes = bytes' := hbytes
  rfl

/- What a call that asks for a new object may find in it. A string is copied from an object; one
   that lies elsewhere is not the store's. -/
def Fills (o : Multiset Object) (x : Object) : Op → Prop
  | .malloc size => x.user.size = size
  | .calloc nmemb size => x.user.size = nmemb * size ∧ x.bytes = List.replicate (nmemb * size) 0
  | .strdup src len => x.user.size = len + 1 ∧ ∀ y ∈ o, y.user.ptr ≤ src →
      src + len < y.user.ptr + y.user.size →
        x.bytes = (y.bytes.drop (src - y.user.ptr)).take (len + 1)
  | .realloc none size => x.user.size = size
  | _ => False

def Op.MayFail : Op → Prop
  | .malloc _ | .calloc _ _ | .strdup _ _ => True
  | .realloc old size => old = none ∨ size ≠ 0
  | .free old => old = none
  | .store _ _ _ => False

inductive StoreStep (o : Multiset Object) : Op → Multiset Object → Prop where
  | nothing {op : Op} (h : op.MayFail) : StoreStep o op o
  | fresh {op : Op} (x : Object) (h : Fills o x op) : StoreStep o op (x ::ₘ o)
  | moved (x y : Object) {size : Nat} (hsize : size ≠ 0) (hy : y.user.size = size)
      (hkept : y.bytes.take (min x.user.size size) = x.bytes.take (min x.user.size size))
      {o' : Multiset Object} (ho : o = x ::ₘ o') :
      StoreStep o (.realloc (some x.user) size) (y ::ₘ o')
  | gone (x : Object) {op : Op} (hop : op = .free (some x.user) ∨ op = .realloc (some x.user) 0)
      {o' : Multiset Object} (ho : o = x ::ₘ o') : StoreStep o op o'
  | stored (x y : Object) (offset : Nat) (bytes : List UInt8) (hy : y.user = x.user)
      (hbytes : y.bytes = x.bytes.take offset ++ (bytes ++ x.bytes.drop (offset + bytes.length)))
      {o' : Multiset Object} (ho : o = x ::ₘ o') :
      StoreStep o (.store x.user offset bytes) (y ::ₘ o')

def objectAt (m : Mem) (u : User) : Object := ⟨u, read m u.ptr u.size, read_length m u.ptr u.size⟩

def System.objects {H : Type*} (s : System H) : Multiset Object := s.live.map (objectAt s.state.mem)

theorem objects_mk {H : Type*} (t : State H) (live : Multiset User) :
    System.objects ⟨t, live⟩ = live.map (objectAt t.mem) := rfl

variable {H : Type*} {heap : GlobalHeap H} {Sound : H → Mem → Prop}

section Frame
variable {others : Multiset Block} {s t : State H} {live : Multiset User} {u : User} {m m' : Mem}

theorem own_subset (h : u.Placed) : span u.ptr u.size ⊆ (raw u).region :=
  (span_subset (le_stored u.size)).trans (user_subset h)

theorem objectAt_congr (h : Set.EqOn m' m (span u.ptr u.size)) : objectAt m' u = objectAt m u :=
  Object.ext rfl (read_congr h)

/-- Blocks that were not touched hold the same objects. -/
theorem objects_congr (hplaced : ∀ u ∈ live, u.Placed) (h : Untouched m m' live) :
    live.map (objectAt m') = live.map (objectAt m) :=
  Multiset.map_congr rfl fun u hu => objectAt_congr ((h u hu).mono (own_subset (hplaced u hu)))

theorem objects_cons_erase (m : Mem) (hu : u ∈ live) :
    live.map (objectAt m) = objectAt m u ::ₘ (live.erase u).map (objectAt m) := by
  rw [← Multiset.map_cons, Multiset.cons_erase hu]

end Frame

section Calls
variable {others : Multiset Block} {s : State H} {live : Multiset User} {u : User} {size : Nat}

/-- A `realloc` leaves the other blocks alone. -/
theorem realloc_untouched (h : Held heap Sound others s live) (hc : heap.Serves Sound) (hu : u ∈ live)
    {newSize : Nat} (hnew : newSize ≠ 0) (hfits : stored newSize + mallocHdr + 16 ≤ 2 ^ 63) {p : Nat}
    {t : State H} (hcall : realloc heap u.ptr newSize s = .ok (p, t)) :
    Untouched s.mem t.mem (live.erase u) ∧ (p = 0 → Untouched s.mem t.mem live) := by
  have hplaced := h.placed u hu
  have hlow := hplaced.low
  have hptr : u.ptr ≠ 0 := by omega
  have hold : readWord s.mem (header u.ptr) = stored u.size := by
    rw [header_eq hplaced]
    exact h.header u hu
  have herase : ∀ {v}, v ∈ live.erase u → v ∈ live := Multiset.mem_of_mem_erase
  obtain ⟨q, a, hmalloc, huntouched, ⟨hq, -⟩ | ⟨hq, hheld⟩⟩ := malloc_spec h hc hfits
  · simp only [realloc, if_neg hptr, if_neg hnew, hmalloc, bind, Except.bind, hq, if_true] at hcall
    obtain ⟨-, rfl⟩ := Prod.mk.inj (Except.ok.inj hcall)
    exact ⟨fun v hv => huntouched v (herase hv), fun _ => huntouched⟩
  · obtain ⟨hcopied, hcopy⟩ := fill_spec hheld hc
      (read a.mem u.ptr (if stored u.size < newSize then stored u.size else newSize)) (by
        rw [read_length]
        have := le_stored newSize
        simp only
        split <;> omega)
    obtain ⟨b, hfree, -, -, hrest⟩ := free_spec hcopied hc (Multiset.mem_cons_of_mem hu)
    simp only [realloc, if_neg hptr, if_neg hnew, hmalloc, bind, Except.bind, if_neg hq, hold, memcpy,
      hfree] at hcall
    obtain ⟨rfl, rfl⟩ := Prod.mk.inj (Except.ok.inj hcall)
    refine ⟨fun v hv => ?_, fun h0 => absurd h0 hq⟩
    have hmem : v ∈ ((⟨q, newSize⟩ : User) ::ₘ live).erase u := by
      rw [Multiset.erase_cons_tail_of_mem hu]
      exact Multiset.mem_cons_of_mem hv
    exact ((hrest v hmem).trans (hcopy v (herase hv))).trans (huntouched v (herase hv))

end Calls

section Simulation
variable {others : Multiset Block} {s : System H} {op : Op} {p : Nat} {t : State H}

/- The client holds the new block, or nothing new if there is none. -/
theorem store_fresh (h : Held heap Sound others s.state s.live) (hkept : Untouched s.state.mem t.mem s.live)
    (htrack : op.track s.live p = if p = 0 then s.live else ⟨p, op.bytes⟩ ::ₘ s.live)
    (hfail : op.MayFail) (hfills : p ≠ 0 → Fills s.objects (objectAt t.mem ⟨p, op.bytes⟩) op) :
    StoreStep s.objects op (System.objects ⟨t, op.track s.live p⟩) := by
  have hsame : s.live.map (objectAt t.mem) = s.objects := objects_congr h.placed hkept
  simp only [System.objects, htrack]
  by_cases hp : p = 0
  · rw [if_pos hp, hsame]
    exact .nothing hfail
  · rw [if_neg hp, Multiset.map_cons, hsame]
    exact .fresh _ (hfills hp)

/-- What is left of the store when one object is taken out of it. -/
theorem objects_erase (h : Held heap Sound others s.state s.live) {u : User} (hu : u ∈ s.live)
    (hkept : Untouched s.state.mem t.mem (s.live.erase u)) :
    s.objects = objectAt s.state.mem u ::ₘ (s.live.erase u).map (objectAt t.mem) := by
  have hplaced : ∀ v ∈ s.live.erase u, v.Placed := fun v hv => h.placed v (Multiset.mem_of_mem_erase hv)
  rw [objects_congr hplaced hkept]
  exact objects_cons_erase s.state.mem hu

/-- The string that `strdup` finds after its `malloc`, if it lies in a block of the client. -/
theorem read_in_object {m : Mem} (h : Held heap Sound others s.state s.live)
    (hkept : Untouched s.state.mem m s.live) {y : Object} (hy : y ∈ s.objects) {src len : Nat}
    (hlow : y.user.ptr ≤ src) (hhigh : src + len < y.user.ptr + y.user.size) :
    read m src (len + 1) = (y.bytes.drop (src - y.user.ptr)).take (len + 1) := by
  obtain ⟨u, hu, rfl⟩ := Multiset.mem_map.mp hy
  simp only [objectAt] at hlow hhigh ⊢
  have hinside : span src (len + 1) ⊆ span u.ptr u.size :=
    Set.Ico_subset_Ico hlow (by omega)
  rw [read_congr ((hkept u hu).mono (hinside.trans (own_subset (h.placed u hu)))),
    drop_read _ _ (by omega), take_read _ _ (by omega), Nat.add_sub_cancel' hlow]

theorem store_realloc (h : Held heap Sound others s.state s.live) (hc : heap.Serves Sound) {u : User}
    (hu : u ∈ s.live) {size : Nat} (hfits : stored size + mallocHdr + 16 ≤ 2 ^ 63)
    (hcall : realloc heap u.ptr size s.state = .ok (p, t)) :
    StoreStep s.objects (.realloc (some u) size)
      (System.objects ⟨t, (Op.realloc (some u) size).track s.live p⟩) := by
  have hptr : u.ptr ≠ 0 := by
    have := (h.placed u hu).low
    omega
  by_cases hzero : size = 0
  · subst hzero
    obtain ⟨t', hfree, -, -, hkept⟩ := free_spec h hc hu
    simp only [realloc, if_neg hptr, hfree, bind, Except.bind, if_true] at hcall
    obtain ⟨rfl, rfl⟩ := Prod.mk.inj (Except.ok.inj hcall)
    have htrack : (Op.realloc (some u) 0).track s.live 0 = s.live.erase u := by
      simp [Op.track, address, hptr, Op.forget]
    rw [htrack]
    exact .gone (objectAt s.state.mem u) (.inr rfl) (objects_erase h hu hkept)
  · obtain ⟨hkept, hnull⟩ := realloc_untouched h hc hu hzero hfits hcall
    obtain ⟨p', t', hcall', ⟨-, hmoved⟩, -⟩ := realloc_spec h hc hu hzero hfits
    obtain ⟨rfl, rfl⟩ := Prod.mk.inj (Except.ok.inj (hcall.symm.trans hcall'))
    by_cases hp : p = 0
    · have htrack : (Op.realloc (some u) size).track s.live p = s.live := by
        simp [Op.track, hzero, hp]
      rw [htrack, objects_mk t, objects_congr h.placed (hnull hp)]
      exact .nothing (.inr hzero)
    · have htrack : (Op.realloc (some u) size).track s.live p = ⟨p, size⟩ ::ₘ s.live.erase u := by
        simp [Op.track, hzero, hp, Op.forget]
      rw [htrack, objects_mk t, Multiset.map_cons]
      refine .moved (objectAt s.state.mem u) _ hzero rfl ?_ (objects_erase h hu hkept)
      simp only [objectAt]
      rw [take_read _ _ (Nat.min_le_right _ _), take_read _ _ (Nat.min_le_left _ _)]
      exact List.map_congr_left fun i hi => (hmoved hp).2 i (List.mem_range.mp hi)

/-- Each call is a step of the store. -/
theorem call_store (h : Held heap Sound others s.state s.live) (hc : heap.Serves Sound)
    (hlegal : op.Legal s) (hfits : stored op.bytes + mallocHdr + 16 ≤ 2 ^ 63)
    (hcall : op.call heap s.state = .ok (p, t)) :
    StoreStep s.objects op (System.objects ⟨t, op.track s.live p⟩) := by
  cases op with
  | malloc size =>
    obtain ⟨p', t', hcall', hkept, -⟩ := malloc_spec h hc hfits
    obtain ⟨rfl, rfl⟩ := Prod.mk.inj (Except.ok.inj (hcall.symm.trans hcall'))
    exact store_fresh h hkept rfl trivial fun _ => rfl
  | calloc nmemb size =>
    have hword : word (nmemb * size) = nmemb * size := Nat.mod_eq_of_lt (by
      have := le_stored (nmemb * size)
      simp only [Op.bytes] at hfits
      omega)
    obtain ⟨p', t', hcall', -, hkept, hfilled⟩ := malloc_then_write h hc hfits
      (fun _ => List.replicate (nmemb * size) 0) (fun _ => by rw [List.length_replicate]; exact le_stored _)
    simp only [Op.call, calloc, hword, memset] at hcall
    obtain ⟨rfl, rfl⟩ := Prod.mk.inj (Except.ok.inj (hcall.symm.trans hcall'))
    refine store_fresh h hkept rfl trivial fun hp => ⟨rfl, ?_⟩
    obtain ⟨m, -, hm⟩ := hfilled hp
    have hread := read_write m p (List.replicate (nmemb * size) 0)
    rw [List.length_replicate] at hread
    rw [hm]
    exact hread
  | strdup src len =>
    have hword : word (len + 1) = len + 1 := Nat.mod_eq_of_lt (by
      have := le_stored (len + 1)
      simp only [Op.bytes] at hfits
      omega)
    obtain ⟨p', t', hcall', -, hkept, hfilled⟩ := malloc_then_write h hc hfits
      (fun m => read m src (len + 1)) (fun _ => by rw [read_length]; exact le_stored _)
    simp only [Op.call, strdup, hword, memcpy] at hcall
    obtain ⟨rfl, rfl⟩ := Prod.mk.inj (Except.ok.inj (hcall.symm.trans hcall'))
    refine store_fresh h hkept rfl trivial fun hp => ⟨rfl, fun y hy hlow hhigh => ?_⟩
    obtain ⟨m, hm, hwritten⟩ := hfilled hp
    have hread := read_write m p (read m src (len + 1))
    rw [read_length] at hread
    rw [hwritten, ← read_in_object h hm hy hlow hhigh]
    exact hread
  | realloc old size =>
    cases old with
    | none =>
      obtain ⟨p', t', hcall', hkept, -⟩ := malloc_spec h hc hfits
      obtain ⟨rfl, rfl⟩ := Prod.mk.inj (Except.ok.inj (hcall.symm.trans hcall'))
      exact store_fresh h hkept (by simp [Op.track, address, Op.forget, Op.bytes]) (.inl rfl)
        fun _ => rfl
    | some u => exact store_realloc h hc (hlegal.2 u rfl) hfits hcall
  | free old =>
    cases old with
    | none =>
      obtain ⟨rfl, rfl⟩ := Prod.mk.inj (Except.ok.inj hcall)
      exact .nothing rfl
    | some u =>
      have hu := hlegal u rfl
      obtain ⟨t', hfree, -, -, hkept⟩ := free_spec h hc hu
      simp only [Op.call, address, Option.map_some, Option.getD_some, hfree] at hcall
      obtain ⟨rfl, rfl⟩ := Prod.mk.inj (Except.ok.inj hcall)
      exact .gone (objectAt s.state.mem u) (.inl rfl) (objects_erase h hu hkept)
  | store u offset bytes =>
    obtain ⟨hu, hlen⟩ := hlegal
    obtain ⟨rfl, rfl⟩ := Prod.mk.inj (Except.ok.inj hcall)
    have hle := le_stored u.size
    have hsub : span (u.ptr + offset) bytes.length ⊆ span u.ptr (stored u.size) :=
      Set.Ico_subset_Ico (by omega) (by omega)
    have hkept := (h.write hc hu ((write_eqOn s.state.mem (u.ptr + offset) bytes).mono
      (Set.compl_subset_compl.mpr hsub))).2
    let m := RawMemory.write s.state.mem (u.ptr + offset) bytes
    have hafter : System.objects ⟨⟨s.state.heap, m⟩, s.live⟩ =
        objectAt m u ::ₘ (s.live.erase u).map (objectAt m) := objects_cons_erase m hu
    have hbefore := objects_erase (t := ⟨s.state.heap, m⟩) h hu hkept
    have hstep : StoreStep s.objects (.store u offset bytes)
        (objectAt m u ::ₘ (s.live.erase u).map (objectAt m)) :=
      .stored (objectAt s.state.mem u) (objectAt m u) offset bytes rfl
        (read_write_within s.state.mem u.ptr hlen) hbefore
    exact hafter ▸ hstep

theorem store_step (hc : heap.Serves Sound) (s : System H) (op : Op) (t : System H)
    (h : Held heap Sound others s.state s.live)
    (hs : Restrict (Step heap) (fun _ op => op.NoWrap) s op t) :
    Held heap Sound others t.state t.live ∧ StoreStep s.objects op t.objects := by
  refine ⟨held_step hc s op t h hs, ?_⟩
  obtain ⟨⟨hlegal, p, u, hcall, rfl⟩, hwrap⟩ := hs
  by_cases hfits : stored op.bytes + mallocHdr + 16 ≤ 2 ^ 63
  · exact call_store h hc hlegal hfits hcall
  · rw [call_big hwrap (by omega)] at hcall
    cases hcall

end Simulation

def Op.Names (u : User) : Op → Prop
  | .free (some v) | .realloc (some v) _ | .store v _ _ => v = u
  | _ => False

theorem StoreStep.keeps {o o' : Multiset Object} {op : Op} {x : Object} (h : StoreStep o op o')
    (hx : x ∈ o) (hop : ¬ op.Names x.user) : x ∈ o' := by
  have hother : ∀ {y : Object} {rest : Multiset Object}, o = y ::ₘ rest → y.user ≠ x.user → x ∈ rest := by
    rintro y rest rfl hne
    obtain rfl | hmem := Multiset.mem_cons.mp hx
    · exact absurd rfl hne
    · exact hmem
  cases h with
  | nothing => exact hx
  | fresh y => exact Multiset.mem_cons_of_mem hx
  | moved y z hsize hy hkept ho => exact Multiset.mem_cons_of_mem (hother ho hop)
  | gone y hcase ho =>
    refine hother ho fun he => hop ?_
    rcases hcase with rfl | rfl <;> exact he
  | stored y z offset bytes hy hbytes ho => exact Multiset.mem_cons_of_mem (hother ho hop)

theorem StoreStep.run_keeps {o o' : Multiset Object} {ops : List Op} {x : Object}
    (h : Run StoreStep o ops o') (hx : x ∈ o) (hops : ∀ op ∈ ops, ¬ op.Names x.user) : x ∈ o' := by
  induction h with
  | nil o => exact hx
  | cons k _ ih =>
    exact ih (k.keeps hx (hops _ List.mem_cons_self)) fun op hop => hops op (List.mem_cons_of_mem _ hop)

namespace Records
variable {f : Fallback H} {h : H} {m : Mem}

def overBump : GlobalHeap (Records RawSystem.Bump) := fixedSizeBlock RawSystem.bump

def fresh : System (Records RawSystem.Bump) := ⟨⟨new ⟨heapStart, 0⟩, fun _ => 0⟩, 0⟩

def zeroed : System (Records RawSystem.Bump) := next overBump fresh (.calloc 2 4)

def second : System (Records RawSystem.Bump) := next overBump zeroed (.malloc 5)

def grown : System (Records RawSystem.Bump) :=
  next overBump second (.realloc (some ⟨heapStart + 16, 8⟩) 100)

theorem fresh_to_second :
    Run (Restrict (Step overBump) fun _ op => op.NoWrap) fresh [.calloc 2 4, .malloc 5] second := by
  have hzeroed : Step overBump fresh (.calloc 2 4) zeroed :=
    step_next ⟨by decide, by decide⟩ (by decide +kernel)
  have hsecond : Step overBump zeroed (.malloc 5) second :=
    step_next (show 5 < 2 ^ 64 by decide) (by decide +kernel)
  exact .cons ⟨hzeroed, show 8 + 16 < 2 ^ 64 by decide⟩
    (.cons ⟨hsecond, show 5 + 16 < 2 ^ 64 by decide⟩ (.nil _))

theorem second_to_grown : Run (Restrict (Step overBump) fun _ op => op.NoWrap) second
    [.realloc (some ⟨heapStart + 16, 8⟩) 100] grown := by
  have hlegal : (Op.realloc (some ⟨heapStart + 16, 8⟩) 100).Legal second := by
    refine ⟨by decide, fun u hu => ?_⟩
    cases hu
    decide +kernel
  exact .cons ⟨step_next hlegal (by decide +kernel), show 100 + 16 < 2 ^ 64 by decide⟩ (.nil _)

/-- A block that the calls of a run do not name is still out after it, with the same bytes. -/
theorem unnamed_block_lasts (hc : f.Contract Sound) (hsound : Sound h m) (hempty : f.grants h = 0)
    {s : System (Records H)}
    (hs : Reachable (Restrict (Step (fixedSizeBlock f)) fun _ op => op.NoWrap) ⟨⟨new h, m⟩, 0⟩ s)
    {ops : List Op} {t : System (Records H)}
    (hrun : Run (Restrict (Step (fixedSizeBlock f)) fun _ op => op.NoWrap) s ops t) {u : User}
    (hu : u ∈ s.live) (hops : ∀ op ∈ ops, ¬ op.Names u) :
    u ∈ t.live ∧ read t.state.mem u.ptr u.size = read s.state.mem u.ptr u.size := by
  have hserves := fixedSizeBlock_serves hc
  have hheld : Held (fixedSizeBlock f) (Lists f Sound) 0 s.state s.live :=
    hs.invariant (held_step hserves) (held_init (new_lists hsound hempty))
  have hstore : Run StoreStep s.objects ops t.objects := (hrun.simulate (store_step hserves) hheld).2
  have hmem : objectAt s.state.mem u ∈ t.objects :=
    StoreStep.run_keeps hstore (Multiset.mem_map_of_mem _ hu) hops
  obtain ⟨v, hv, he⟩ := Multiset.mem_map.mp hmem
  obtain rfl : v = u := congrArg Object.user he
  exact ⟨hv, congrArg Object.bytes he⟩

theorem neighbour_lasts : (⟨heapStart + 48, 5⟩ : User) ∈ second.live ∧
    (⟨heapStart + 48, 5⟩ : User) ∈ grown.live ∧
    read grown.state.mem (heapStart + 48) 5 = read second.state.mem (heapStart + 48) 5 := by
  have hmem : (⟨heapStart + 48, 5⟩ : User) ∈ second.live := by decide +kernel
  refine ⟨hmem, unnamed_block_lasts RawSystem.bump_contract
    ⟨le_refl _, fun b hb => absurd hb (Multiset.notMem_zero b)⟩ rfl ⟨_, fresh_to_second⟩
    second_to_grown hmem ?_⟩
  intro op hop
  rw [List.mem_singleton.mp hop]
  exact show (⟨heapStart + 16, 8⟩ : User) ≠ ⟨heapStart + 48, 5⟩ by decide

end Records
end MoltOS.Malloc
