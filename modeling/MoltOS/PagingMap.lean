import MoltOS.Paging

/-! What the boot asks of `map_to`. The tables form a tree and the allocator hands out no frame
that is in it; `map_to` maps its page, moves no other, and adds to the tree only what it has got
from the allocator. -/
namespace MoltOS.Paging
open MoltOS.Rust MoltOS.Frames MoltOS.NodeTree

def IsTable (cr3 : PhysFrame) (m : Tables) (t : PhysFrame) : Prop :=
  ∃ q : List Nat, q.length ≤ 3 ∧ walk softwareNext m 0 cr3 q = .ok t

def State.usable (s : State) : List PhysFrame := usableFrames s.frames.memoryMap

/-- The page tables, the frame allocator and the frames given to data: no table is reached twice,
an entry that is not present is zero, and neither the frames still to come nor those of the data
are tables. -/
structure Sound (cr3 : PhysFrame) (data : List PhysFrame) (s : State) : Prop where
  tree : Tree softwareNext s.tables cr3 3
  blank : ∀ t i, IsTable cr3 s.tables t → Entry.contains (s.tables t i) present = false →
    s.tables t i = 0
  regions : WellFormed s.frames.memoryMap
  addressable : Addressable s.frames.memoryMap
  fresh : ∀ t k, IsTable cr3 s.tables t → s.frames.next ≤ k → s.usable[k]? ≠ some t
  handed : data.Sublist (s.usable.take s.frames.next)
  apart : ∀ t, IsTable cr3 s.tables t → t ∉ data

structure SameWalk (cr3 : PhysFrame) (m m' : Tables) (l : List Nat) : Prop where
  kernel : walk softwareNext m' 0 cr3 l = walk softwareNext m 0 cr3 l
  processor : walk hardwareNext m' 0 cr3 l = walk hardwareNext m 0 cr3 l

structure MapsTo (cr3 : PhysFrame) (m : Tables) (l : List Nat) (f : PhysFrame) : Prop where
  kernel : walk softwareNext m 0 cr3 l = .ok f
  processor : walk hardwareNext m 0 cr3 l = .ok f

section Basic
variable {cr3 : PhysFrame} {m m' m'' : Tables} {l : List Nat} {f : PhysFrame}

theorem SameWalk.refl (cr3 : PhysFrame) (m : Tables) (l : List Nat) : SameWalk cr3 m m l := ⟨rfl, rfl⟩

theorem SameWalk.trans (h : SameWalk cr3 m m' l) (h' : SameWalk cr3 m' m'' l) :
    SameWalk cr3 m m'' l :=
  ⟨h'.kernel.trans h.kernel, h'.processor.trans h.processor⟩

theorem MapsTo.same (h : MapsTo cr3 m l f) (hs : SameWalk cr3 m m' l) : MapsTo cr3 m' l f :=
  ⟨hs.kernel.trans h.kernel, hs.processor.trans h.processor⟩

end Basic

section Allocate
variable {p : Profile} {cr3 : PhysFrame} {data : List PhysFrame} {s : State}

theorem Sound.nodup (h : Sound cr3 data s) : s.usable.Nodup := usableFrames_nodup h.regions

theorem Sound.frame (h : Sound cr3 data s) {k : Nat} {f : PhysFrame} (hf : s.usable[k]? = some f) :
    Frame f := by
  have husable := (mem_usableFrames h.regions).mp (List.mem_of_getElem? hf)
  obtain ⟨hdvd, r, hr, htype, _, hend⟩ := husable
  have hbound := h.addressable r hr htype
  unfold frameSize at hend
  exact ⟨hdvd, by omega⟩

/-- The frames that have been handed out do not come again. -/
theorem Sound.later_ne (h : Sound cr3 data s) {j k : Nat} {f : PhysFrame}
    (hf : s.usable[j]? = some f) (hjk : j < k) : s.usable[k]? ≠ some f := by
  intro hk
  have hlt := (List.getElem?_eq_some_iff.mp hf).1
  have := (List.getElem?_inj hlt h.nodup).mp (hf.trans hk.symm)
  omega

theorem Sound.next_notMem_data (h : Sound cr3 data s) {f : PhysFrame}
    (hf : s.usable[s.frames.next]? = some f) : f ∉ data := by
  intro hmem
  obtain ⟨k, hk⟩ := List.mem_iff_getElem?.mp (h.handed.subset hmem)
  have hlt : k < s.frames.next := by
    have := (List.getElem?_eq_some_iff.mp hk).1
    rw [List.length_take] at this
    omega
  rw [List.getElem?_take_of_lt hlt] at hk
  exact h.later_ne hk hlt hf

/-- A call of the frame allocator that changes no table. -/
theorem Sound.skip (h : Sound cr3 data s) :
    Sound cr3 data ⟨s.tables, ⟨s.frames.memoryMap, s.frames.next + 1⟩⟩ where
  tree := h.tree
  blank := h.blank
  regions := h.regions
  addressable := h.addressable
  fresh := fun t k ht hk => h.fresh t k ht (Nat.le_of_succ_le hk)
  handed := h.handed.trans (List.take_sublist_take_left (Nat.le_succ _))
  apart := h.apart

end Allocate

/-- What calls of `map_to` have done, besides the pages themselves: at most `calls` frames were
taken, and every other page is where it was. -/
structure Mapped (cr3 : PhysFrame) (data : List PhysFrame) (calls : Nat) (pages : List VirtAddr)
    (s t : State) : Prop where
  sound : Sound cr3 data t
  memoryMap : t.frames.memoryMap = s.frames.memoryMap
  later : s.frames.next ≤ t.frames.next
  taken : t.frames.next ≤ s.frames.next + calls
  same : ∀ l : List Nat, l.length = 4 → l ∉ pages.map VirtAddr.tableIndexes →
    SameWalk cr3 s.tables t.tables l

section Mapped
variable {cr3 : PhysFrame} {data data' : List PhysFrame} {s t u : State}
  {pages pages' : List VirtAddr} {m n : Nat}

theorem Mapped.refl (h : Sound cr3 data s) : Mapped cr3 data 0 [] s s :=
  ⟨h, rfl, Nat.le_refl _, Nat.le_refl _, fun l _ _ => .refl cr3 s.tables l⟩

theorem Mapped.trans (h : Mapped cr3 data m pages s t) (h' : Mapped cr3 data' n pages' t u) :
    Mapped cr3 data' (m + n) (pages ++ pages') s u where
  sound := h'.sound
  memoryMap := h'.memoryMap.trans h.memoryMap
  later := h.later.trans h'.later
  taken := by
    have h1 := h.taken
    have h2 := h'.taken
    omega
  same := fun l hl hne => by
    rw [List.map_append, List.mem_append, not_or] at hne
    exact (h.same l hl hne.1).trans (h'.same l hl hne.2)

theorem Mapped.mono (h : Mapped cr3 data m pages s t) (hmn : m ≤ n) (hsub : pages ⊆ pages') :
    Mapped cr3 data n pages' s t :=
  ⟨h.sound, h.memoryMap, h.later, h.taken.trans (by omega),
    fun l hl hne => h.same l hl fun hmem => hne (List.map_subset _ hsub hmem)⟩

theorem Mapped.usable (h : Mapped cr3 data m pages s t) : t.usable = s.usable := by
  rw [State.usable, h.memoryMap, State.usable]

end Mapped

end MoltOS.Paging
