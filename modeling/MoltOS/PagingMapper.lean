import MoltOS.PagingMap

/-! A mapper that keeps the laws of `map_to`: it goes down the tables, hangs a blank one where
there is none, and writes the entry of the page. -/
namespace MoltOS.Paging
open MoltOS.Rust MoltOS.Frames MoltOS.NodeTree

namespace Linker

end Linker

section Reading
variable {cr3 t : PhysFrame} {m : Tables} {q : List Nat} {ε : Type}
  {next : Nat → Entry → Except ε PhysFrame} {absent : ε}

theorem Reading.walk_table (hr : Reading next absent) (hq : q.length ≤ 3) :
    walk next m 0 cr3 q = .ok t ↔ walk softwareNext m 0 cr3 q = .ok t := by
  constructor
  · exact walk_ok_of_reading 3 (fun d e c hd h => (hr.tables d e c hd).mp h) (by omega)
  · exact walk_ok_of_reading 3 (fun d e c hd h => (hr.tables d e c hd).mpr h) (by omega)

theorem Reading.tree (hr : Reading next absent) (h : Tree softwareNext m cr3 3) :
    Tree next m cr3 3 :=
  fun p q n hp hq hpn hqn => h p q n hp hq ((hr.walk_table hp).mp hpn) ((hr.walk_table hq).mp hqn)

/-- What holds for every reading holds for the kernel's and the processor's. -/
theorem SameWalk.of_reading {m' : Tables} {l : List Nat}
    (h : ∀ {ε : Type} {next : Nat → Entry → Except ε PhysFrame} {absent : ε}, Reading next absent →
      walk next m' 0 cr3 l = walk next m 0 cr3 l) : SameWalk cr3 m m' l :=
  ⟨h software_reading, h hardware_reading⟩

end Reading

section Create
variable {p : Profile} {cr3 table : PhysFrame} {data : List PhysFrame} {s t u : State}
  {q : List Nat} {i m n : Nat}

/-- The new table of a frame that the allocator hands out. -/
theorem Sound.links (h : Sound cr3 data s) (hq : walk softwareNext s.tables 0 cr3 q = .ok table)
    (hlen : q.length < 3) (hunused : s.tables table i = 0) {f : PhysFrame}
    (hf : s.usable[s.frames.next]? = some f) {ε : Type} {next : Nat → Entry → Except ε PhysFrame}
    {absent : ε} (hr : Reading next absent) :
    Links next s.tables cr3 3 q table i (Entry.setFrame f mapFlags) f 0 absent where
  tree := hr.tree h.tree
  parent := (hr.walk_table hlen.le).mpr hq
  short := hlen
  unlinked := by rw [hunused, hr.blank]
  linked := hr.framed _ f (h.frame hf)
  blank := hr.blank
  fresh := fun p hp hwalk =>
    h.fresh f s.frames.next ⟨p, hp, (hr.walk_table hp).mp hwalk⟩ (Nat.le_refl _) hf

theorem Sound.linked (h : Sound cr3 data s) (hq : walk softwareNext s.tables 0 cr3 q = .ok table)
    (hlen : q.length < 3) (hunused : s.tables table i = 0) {f : PhysFrame}
    (hf : s.usable[s.frames.next]? = some f) :
    Mapped cr3 data 1 [] s ⟨link s.tables table i (Entry.setFrame f mapFlags) f 0,
      ⟨s.frames.memoryMap, s.frames.next + 1⟩⟩ := by
  have hlinks := h.links hq hlen hunused hf software_reading
  have htables (t : PhysFrame)
      (ht : IsTable cr3 (link s.tables table i (Entry.setFrame f mapFlags) f 0) t) :
      t = f ∨ IsTable cr3 s.tables t := by
    obtain ⟨q', hq', hwalk⟩ := ht
    obtain ⟨-, rfl⟩ | ⟨-, hold⟩ := hlinks.walk_ok hq' hwalk
    · exact .inl rfl
    · exact .inr ⟨q', hq', hold⟩
  refine ⟨⟨hlinks.tree_link, ?_, h.regions, h.addressable, ?_, h.skip.handed, ?_⟩, rfl,
    Nat.le_succ _, Nat.le_refl _, ?_⟩
  · intro t j ht hj
    by_cases htf : t = f
    · simp [htf, link, clear]
    · by_cases hentry : t = table ∧ j = i
      · obtain ⟨rfl, rfl⟩ := hentry
        have hset : link s.tables t j (Entry.setFrame f mapFlags) f 0 t j =
            Entry.setFrame f mapFlags := by
          rw [link, clear, Function.update_of_ne htf, set_same]
        simp only [hset] at hj
        rw [Entry.setFrame, or_mapFlags_present] at hj
        cases hj
      · have hsame : link s.tables table i (Entry.setFrame f mapFlags) f 0 t j = s.tables t j :=
          link_other htf fun ht' hj' => hentry ⟨ht', hj'⟩
        simp only [hsame] at hj ⊢
        exact h.blank t j ((htables t ht).resolve_left htf) hj
  · intro t k ht hk
    obtain rfl | hold := htables t ht
    · exact h.later_ne hf hk
    · exact h.fresh t k hold (Nat.le_of_succ_le hk)
  · intro t ht
    obtain rfl | hold := htables t ht
    · exact h.next_notMem_data hf
    · exact h.apart t hold
  · intro l hl _
    refine .of_reading fun hr => (h.links hq hlen hunused hf hr).walk_eq (by omega) fun he => ?_
    rw [he, List.length_append, List.length_singleton] at hl
    omega

/-- A written entry that is present and leaves the tables where they are. -/
theorem Sound.write (h : Sound cr3 data s) {e : Entry}
    (hpresent : Entry.contains e present = true)
    (hshort : ∀ l : List Nat, l.length ≤ 3 →
      walk softwareNext (set s.tables table i e) 0 cr3 l = walk softwareNext s.tables 0 cr3 l) :
    Sound cr3 data ⟨set s.tables table i e, s.frames⟩ := by
  have htables (t : PhysFrame) (ht : IsTable cr3 (set s.tables table i e) t) :
      IsTable cr3 s.tables t := by
    obtain ⟨q', hq', hw⟩ := ht
    exact ⟨q', hq', (hshort q' hq').symm.trans hw⟩
  refine ⟨?_, ?_, h.regions, h.addressable, fun t k ht => h.fresh t k (htables t ht), h.handed,
    fun t ht => h.apart t (htables t ht)⟩
  · intro a b n ha hb hwa hwb
    rw [hshort a ha] at hwa
    rw [hshort b hb] at hwb
    exact h.tree a b n ha hb hwa hwb
  · intro t j ht hj
    by_cases hentry : t = table ∧ j = i
    · obtain ⟨rfl, rfl⟩ := hentry
      simp only [set_same, hpresent] at hj
      cases hj
    · have hsame : set s.tables table i e t j = s.tables t j :=
        set_other s.tables e fun ht' hj' => hentry ⟨ht', hj'⟩
      simp only [hsame] at hj ⊢
      exact h.blank t j (htables t ht) hj

end Create

section MapTo
variable {p : Profile} {cr3 : PhysFrame} {data : List PhysFrame} {s t : State} {frame : PhysFrame}

end MapTo

end MoltOS.Paging
