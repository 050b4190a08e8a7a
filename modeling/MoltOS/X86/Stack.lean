import MoltOS.X86.Machine

/-! Runs of pushes, pops, loads and stores. Each is described once, for any list of
registers, by what it leaves in the registers and on the stack. -/
namespace MoltOS.X86

variable {m : Machine}

def Stacked (mem : Mem) (sp : Word) : List Word → Prop
  | [] => True
  | w :: l => load64 mem sp = w ∧ Stacked mem (sp + 8) l

theorem Stacked.congr {mem mem' : Mem} {sp : Word} {l : List Word} (h : Stacked mem sp l)
    (hlen : 8 * l.length ≤ 2 ^ 64) (hm : Set.EqOn mem' mem (region sp (8 * l.length))) :
    Stacked mem' sp l := by
  induction l generalizing sp with
  | nil => trivial
  | cons w l ih =>
    rw [List.length_cons] at hlen hm
    refine ⟨?_, ih h.2 (by omega) (hm.mono (region_subset (by bv_omega)))⟩
    rw [load64_congr (hm.mono (region_subset (by bv_omega)))]
    exact h.1

theorem Stacked.get {mem : Mem} {sp w : Word} {l : List Word} {j : Nat} (h : Stacked mem sp l)
    (hj : l[j]? = some w) : load64 mem (sp + BitVec.ofNat 64 (8 * j)) = w := by
  induction l generalizing sp j with
  | nil => simp at hj
  | cons v l ih =>
    cases j with
    | zero =>
      cases hj
      rw [Nat.mul_zero, BitVec.add_zero]
      exact h.1
    | succ j =>
      have hnext : sp + BitVec.ofNat 64 (8 * (j + 1)) = sp + 8 + BitVec.ofNat 64 (8 * j) := by
        bv_omega
      rw [hnext]
      exact ih h.2 hj

@[simp] theorem set_self (m : Machine) (r : Reg) (v : Word) : (m.set r v).regs r = v := by
  simp [Machine.set]

theorem set_other (m : Machine) (v : Word) {r q : Reg} (h : q ≠ r) :
    (m.set r v).regs q = m.regs q := by
  simp [Machine.set, h]

@[simp] theorem pushWord_rsp (m : Machine) (v : Word) :
    (m.pushWord v).regs .rsp = m.regs .rsp - 8 := set_self m .rsp _

theorem pushWord_other (m : Machine) (v : Word) {r : Reg} (h : r ≠ .rsp) :
    (m.pushWord v).regs r = m.regs r := set_other m _ h

theorem Stacked.push {l : List Word} (h : Stacked m.mem (m.regs .rsp) l)
    (hlen : 8 * (l.length + 1) ≤ 2 ^ 64) (v : Word) :
    Stacked (m.pushWord v).mem ((m.pushWord v).regs .rsp) (v :: l) := by
  rw [pushWord_rsp]
  refine ⟨load64_store64 m.mem _ v, ?_⟩
  rw [BitVec.sub_add_cancel]
  exact h.congr (by omega) (store64_eqOn_of_disjoint m.mem v (below_disjoint (by omega)))

theorem pushAll_stacked (ws : List Word) {l : List Word} (h : Stacked m.mem (m.regs .rsp) l)
    (hlen : 8 * (ws.length + l.length) ≤ 2 ^ 64) :
    Stacked (m.pushAll ws).mem ((m.pushAll ws).regs .rsp) (ws.reverse ++ l) := by
  induction ws generalizing m l with
  | nil => exact h
  | cons w ws ih =>
    rw [List.length_cons] at hlen
    rw [List.reverse_cons, List.append_assoc]
    exact ih (h.push (by omega) w) (by rw [List.singleton_append, List.length_cons]; omega)

theorem pushAll_rsp (ws : List Word) :
    (m.pushAll ws).regs .rsp = m.regs .rsp - BitVec.ofNat 64 (8 * ws.length) := by
  induction ws generalizing m with
  | nil => exact (BitVec.sub_zero _).symm
  | cons w ws ih =>
    have hrest := ih (m := m.pushWord w)
    rw [pushWord_rsp] at hrest
    refine hrest.trans ?_
    rw [List.length_cons]
    bv_omega

theorem pushAll_other (ws : List Word) {r : Reg} (h : r ≠ .rsp) :
    (m.pushAll ws).regs r = m.regs r := by
  induction ws generalizing m with
  | nil => rfl
  | cons w ws ih => exact ih.trans (pushWord_other m w h)

/-- Pushes write below the stack pointer they start from. -/
theorem pushAll_eqOn (ws : List Word) (hlen : 8 * ws.length ≤ 2 ^ 64) :
    Set.EqOn (m.pushAll ws).mem m.mem
      (region (m.regs .rsp - BitVec.ofNat 64 (8 * ws.length)) (8 * ws.length))ᶜ := by
  induction ws generalizing m with
  | nil => exact Set.eqOn_refl _ _
  | cons w ws ih =>
    rw [List.length_cons] at *
    have hrest := ih (m := m.pushWord w) (by omega)
    rw [pushWord_rsp] at hrest
    have hsub : region (m.regs .rsp - 8 - BitVec.ofNat 64 (8 * ws.length)) (8 * ws.length) ⊆
        region (m.regs .rsp - BitVec.ofNat 64 (8 * (ws.length + 1))) (8 * (ws.length + 1)) :=
      region_subset (by bv_omega)
    have htop : region (m.regs .rsp - 8) 8 ⊆
        region (m.regs .rsp - BitVec.ofNat 64 (8 * (ws.length + 1))) (8 * (ws.length + 1)) :=
      region_subset (by bv_omega)
    exact (hrest.mono (Set.compl_subset_compl.mpr hsub)).trans
      ((store64_eqOn m.mem _ w).mono (Set.compl_subset_compl.mpr htop))

theorem run_append (is js : List Instr) : m.run (is ++ js) = (m.run is).run js :=
  List.foldl_append

theorem run_push (rs : List Reg) (h : .rsp ∉ rs) :
    m.run (rs.map .push) = m.pushAll (rs.map m.regs) := by
  induction rs generalizing m with
  | nil => rfl
  | cons r rs ih =>
    obtain ⟨hr, hrs⟩ := List.ne_and_not_mem_of_not_mem_cons h
    have hsame : rs.map (m.pushWord (m.regs r)).regs = rs.map m.regs :=
      List.map_congr_left fun q hq => pushWord_other m _ (fun he => hrs (he ▸ hq))
    have hrest : (m.pushWord (m.regs r)).run (rs.map .push) =
        (m.pushWord (m.regs r)).pushAll (rs.map (m.pushWord (m.regs r)).regs) := ih hrs
    rw [hsame] at hrest
    exact hrest

theorem drop_rsp (m : Machine) : m.drop.regs .rsp = m.regs .rsp + 8 := set_self m .rsp _

theorem pop_rsp (m : Machine) {r : Reg} (h : r ≠ .rsp) :
    (m.exec (.pop r)).regs .rsp = m.regs .rsp + 8 :=
  (set_other m.drop _ h.symm).trans (drop_rsp m)

/-- A run of pops takes the words on the stack into the registers, in their order. -/
theorem run_pop (rs : List Reg) (h : .rsp ∉ rs) {f : Reg → Word} {l : List Word}
    (hs : Stacked m.mem (m.regs .rsp) (rs.map f ++ l)) :
    (m.run (rs.map .pop)).mem = m.mem ∧
    Stacked m.mem ((m.run (rs.map .pop)).regs .rsp) l ∧
    (∀ r ∈ rs, (m.run (rs.map .pop)).regs r = f r) ∧
    ∀ r, r ∉ rs → r ≠ .rsp → (m.run (rs.map .pop)).regs r = m.regs r := by
  induction rs generalizing m with
  | nil => exact ⟨rfl, hs, fun _ hr => absurd hr List.not_mem_nil, fun _ _ _ => rfl⟩
  | cons r rs ih =>
    obtain ⟨hr, hrs⟩ := List.ne_and_not_mem_of_not_mem_cons h
    have hne : r ≠ .rsp := fun he => hr he.symm
    obtain ⟨htop, hrest⟩ := hs
    have hs' : Stacked (m.exec (.pop r)).mem ((m.exec (.pop r)).regs .rsp) (rs.map f ++ l) := by
      rw [pop_rsp m hne]
      exact hrest
    obtain ⟨hmem, hstack, hin, hout⟩ := ih hrs hs'
    refine ⟨hmem, hstack, fun q hq => ?_, fun q hq hsp => ?_⟩
    · by_cases hqs : q ∈ rs
      · exact hin q hqs
      · have hqr : q = r := (List.mem_cons.mp hq).resolve_right hqs
        subst hqr
        exact (hout q hqs hne).trans ((set_self m.drop q _).trans htop)
    · obtain ⟨hqr, hq⟩ := List.ne_and_not_mem_of_not_mem_cons hq
      exact (hout q hq hsp).trans ((set_other m.drop _ hqr).trans (set_other m _ hsp))

/-- A run of loads through one base register. -/
theorem run_load (base : Reg) (l : List (Reg × Nat)) (h : base ∉ l.map (·.1))
    (hl : (l.map (·.1)).Nodup) :
    (m.run (l.map fun p => .load p.1 base p.2)).mem = m.mem ∧
    (∀ p ∈ l, (m.run (l.map fun p => .load p.1 base p.2)).regs p.1 =
      load64 m.mem (m.address base p.2)) ∧
    ∀ r, r ∉ l.map (·.1) → (m.run (l.map fun p => .load p.1 base p.2)).regs r = m.regs r := by
  induction l generalizing m with
  | nil => exact ⟨rfl, fun _ hp => absurd hp List.not_mem_nil, fun _ _ => rfl⟩
  | cons p l ih =>
    rw [List.map_cons] at h hl
    obtain ⟨hb, hbl⟩ := List.ne_and_not_mem_of_not_mem_cons h
    obtain ⟨hp, hl⟩ := List.nodup_cons.mp hl
    obtain ⟨hmem, hin, hout⟩ := ih (m := m.exec (.load p.1 base p.2)) hbl hl
    have haddr (d : Nat) : (m.exec (.load p.1 base p.2)).address base d = m.address base d := by
      rw [Machine.address, Machine.address]
      exact congrArg (· + BitVec.ofNat 64 d) (set_other m _ hb)
    refine ⟨hmem, fun q hq => ?_, fun r hr => ?_⟩
    · cases List.mem_cons.mp hq with
      | inl he =>
        subst he
        exact (hout q.1 hp).trans (set_self m q.1 _)
      | inr hq => exact (hin q hq).trans (by rw [haddr]; rfl)
    · rw [List.map_cons] at hr
      obtain ⟨hrp, hr⟩ := List.ne_and_not_mem_of_not_mem_cons hr
      exact (hout r hr).trans (set_other m _ hrp)

/-- A run of stores through one base register. -/
theorem run_store (base : Reg) (l : List (Nat × Reg)) :
    m.run (l.map fun p => .store base p.1 p.2) =
      { m with mem := storeAll (m.regs base) (l.map fun p => (p.1, m.regs p.2)) m.mem } := by
  induction l generalizing m with
  | nil => rfl
  | cons p l ih => exact ih

end MoltOS.X86
