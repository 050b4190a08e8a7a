import MoltOS.IrqFrame

/-! What `irq_preempt` saves, and what the stub restores when the inner handler returns. -/
namespace MoltOS.Interrupts
open MoltOS.Rust MoltOS.X86 MoltOS.Context

variable {i : Machine} {mem : Mem} {ctx : Word} {p : Profile}

def preemptWords (i : Machine) : List (Nat × Word) :=
  preemptCopies.map fun q => (q.1.offset, q.2.value i)

theorem preemptWords_offset (i : Machine) : ∀ q ∈ preemptWords i, q.1 + 8 ≤ 144 := by
  intro q hq
  obtain ⟨c, _, rfl⟩ := List.mem_map.mp hq
  exact offset_le c.1

theorem preemptWords_apart (i : Machine) :
    (preemptWords i).Pairwise fun q r => Apart q.1 r.1 := by
  have hne : preemptCopies.Pairwise fun q r => q.1 ≠ r.1 := by decide
  exact List.pairwise_map.mpr (hne.imp fun h => offset_apart h)

/- Every register but rsp is among them, and so are the flags. -/
theorem preemptWords_reg (i : Machine) {r : Reg} (h : r ≠ .rsp) :
    ((regField r).offset, i.regs r) ∈ preemptWords i := by
  cases r <;>
    first
      | exact absurd rfl h
      | simp [preemptWords, preemptCopies, regField, Field.offset, FrameField.value]

theorem preemptWords_rflags (i : Machine) :
    (Field.rflags.offset, i.rflags.bits) ∈ preemptWords i := by
  simp [preemptWords, preemptCopies, Field.offset, FrameField.value]

theorem frameOffset_le (f : FrameField) : f.offset + 8 ≤ 160 := by
  cases f <;> decide

/- What must not be in the context: the frame, the resume slot, and the word below it that
   a restore sends the flags through. -/
def liveBytes (i : Machine) : Set Word :=
  frameBytes (frameOf i) ∪ region (i.regs .rsp - 16) 16

def copied (i : Machine) (ctx : Word) (mem : Mem) : Mem := storeAll ctx (preemptWords i) mem

def slotted (i : Machine) (ctx : Word) (mem : Mem) : Mem :=
  store64 (copied i ctx mem) (i.regs .rsp - 8) i.rip

def preempted (i : Machine) (ctx : Word) (mem : Mem) : Mem :=
  store64 (slotted i ctx mem) (ctx + BitVec.ofNat 64 Field.rsp.offset) (i.regs .rsp - 8)

theorem copied_eqOn (i : Machine) (ctx : Word) (mem : Mem) :
    Set.EqOn (copied i ctx mem) mem (bytes ctx)ᶜ :=
  storeAll_eqOn (preemptWords i) mem (by decide) (preemptWords_offset i)

theorem copyAll_eq_copied (hf : Stacked mem (frameOf i) (frameWords i))
    (hctx : Disjoint (bytes ctx) (liveBytes i)) :
    copyAll ctx (frameOf i) (preemptCopies.map fun q => (q.1.offset, q.2.offset)) mem =
      copied i ctx mem := by
  have hdisj : Disjoint (region ctx 144) (region (frameOf i) 160) :=
    hctx.mono_right Set.subset_union_left
  rw [copyAll_eq_storeAll _ mem (by decide) (by decide) hdisj, List.map_map, copied, preemptWords]
  · refine congrArg (fun l => storeAll ctx l mem) (List.map_congr_left fun q _ => ?_)
    exact congrArg (Prod.mk q.1.offset) (frameField_of_stacked hf q.2)
  · intro q hq
    obtain ⟨c, _, rfl⟩ := List.mem_map.mp hq
    exact ⟨offset_le c.1, frameOffset_le c.2⟩

/- What follows the assignments, from the memory that they leave. -/
theorem irqPreempt_of_copied {frame v : Word} {m₁ : Mem}
    (hcopy : copyAll ctx frame (preemptCopies.map fun q => (q.1.offset, q.2.offset)) mem = m₁)
    (hrsp : frameField m₁ frame .rsp = v) (hv : 8 ≤ v.toNat) :
    irqPreempt p ctx frame mem = .ok
      (store64 (store64 m₁ (v - 8) (frameField m₁ frame .rip))
        (ctx + BitVec.ofNat 64 Field.rsp.offset) (v - 8)) := by
  have hsub : subWord p v 8 = .ok (v - 8) := if_pos hv
  rw [irqPreempt, hcopy]
  simp only [hrsp, hsub]
  rfl

/-- `irq_preempt` on the frame of `i` does not panic, and this is the memory it leaves. -/
theorem irqPreempt_eq (hf : Stacked mem (frameOf i) (frameWords i))
    (hctx : Disjoint (bytes ctx) (liveBytes i)) (hsp : 8 ≤ (i.regs .rsp).toNat) :
    irqPreempt p ctx (frameOf i) mem = .ok (preempted i ctx mem) := by
  have hkept : Stacked (copied i ctx mem) (frameOf i) (frameWords i) := by
    refine hf.congr (by simp [frameWords, gprs]) ((copied_eqOn i ctx mem).mono ?_)
    exact (hctx.mono_right Set.subset_union_left).subset_compl_left
  have hrip : frameField (copied i ctx mem) (frameOf i) .rip = i.rip :=
    frameField_of_stacked hkept .rip
  rw [irqPreempt_of_copied (copyAll_eq_copied hf hctx) (frameField_of_stacked hkept .rsp) hsp, hrip]
  rfl

theorem slot_subset (i : Machine) : region (i.regs .rsp - 8) 8 ⊆ region (i.regs .rsp - 16) 16 :=
  region_subset (by bv_omega)

theorem slot_live (i : Machine) : region (i.regs .rsp - 8) 8 ⊆ liveBytes i :=
  (slot_subset i).trans Set.subset_union_right

theorem preempted_eqOn (i : Machine) (ctx : Word) (mem : Mem) :
    Set.EqOn (preempted i ctx mem) mem (bytes ctx ∪ region (i.regs .rsp - 8) 8)ᶜ := by
  rw [Set.compl_union]
  have hrsp : Set.EqOn (preempted i ctx mem) (slotted i ctx mem) (bytes ctx)ᶜ :=
    (store64_eqOn _ _ _).mono (Set.compl_subset_compl.mpr (field_bytes ctx .rsp))
  have hslot : Set.EqOn (slotted i ctx mem) (copied i ctx mem) (region (i.regs .rsp - 8) 8)ᶜ :=
    store64_eqOn _ _ _
  exact ((hrsp.mono Set.inter_subset_left).trans (hslot.mono Set.inter_subset_right)).trans
    ((copied_eqOn i ctx mem).mono Set.inter_subset_left)

theorem preempted_rsp (i : Machine) (ctx : Word) (mem : Mem) :
    field (preempted i ctx mem) ctx .rsp = i.regs .rsp - 8 :=
  load64_store64 _ _ _

theorem preempted_field (hctx : Disjoint (bytes ctx) (liveBytes i)) {f : Field} {v : Word}
    (hf : f ≠ .rsp) (h : (f.offset, v) ∈ preemptWords i) :
    field (preempted i ctx mem) ctx f = v := by
  have happ : Disjoint (region (ctx + BitVec.ofNat 64 Field.rsp.offset) 8)
      (region (ctx + BitVec.ofNat 64 f.offset) 8) :=
    field_disjoint (offset_apart hf.symm) (by decide) ((offset_le f).trans (by decide))
  have hslot : Disjoint (region (i.regs .rsp - 8) 8) (region (ctx + BitVec.ofNat 64 f.offset) 8) :=
    (hctx.mono (field_bytes ctx f) (slot_live i)).symm
  have hcopy : load64 (copied i ctx mem) (ctx + BitVec.ofNat 64 f.offset) = v :=
    load64_storeAll (p := (f.offset, v)) (preemptWords i) mem
      (fun q hq => (preemptWords_offset i q hq).trans (by decide)) (preemptWords_apart i) h
  rw [field, preempted, load64_store64_of_disjoint _ _ happ, slotted,
    load64_store64_of_disjoint _ _ hslot]
  exact hcopy

/-- The context saved by `irq_preempt` stands for the point that was interrupted. -/
theorem preempted_point (hctx : Disjoint (bytes ctx) (liveBytes i))
    (hif : i.rflags.interrupts = true) : resumePoint (preempted i ctx mem) ctx = point i := by
  have hrip : load64 (preempted i ctx mem) (i.regs .rsp - 8) = i.rip := by
    have hdisj : Disjoint (region (ctx + BitVec.ofNat 64 Field.rsp.offset) 8)
        (region (i.regs .rsp - 8) 8) := hctx.mono (field_bytes ctx .rsp) (slot_live i)
    calc load64 (preempted i ctx mem) (i.regs .rsp - 8)
        = load64 (slotted i ctx mem) (i.regs .rsp - 8) := load64_store64_of_disjoint _ _ hdisj
      _ = i.rip := load64_store64 _ _ _
  have hflags : field (preempted i ctx mem) ctx .rflags = i.rflags.bits :=
    preempted_field hctx (by decide) (preemptWords_rflags i)
  ext1
  · funext r
    by_cases hr : r = .rsp
    · subst hr
      simp only [resumePoint, preempted_rsp, if_true, BitVec.sub_add_cancel]
      rfl
    · simp only [resumePoint, hr, if_false]
      have hfield : regField r ≠ .rsp := by
        cases r <;> first | exact absurd rfl hr | decide
      exact preempted_field hctx hfield (preemptWords_reg i hr)
  · simp only [resumePoint, hflags, Rflags.ofImage_bits]
    exact Rflags.setInterrupts_of_interrupts hif
  · simp only [resumePoint, preempted_rsp]
    exact hrip

def laterCopies : List (Nat × Nat) :=
  (preemptCopies.drop 2).map fun q => (q.1.offset, q.2.offset)

theorem preemptCopies_eq :
    preemptCopies.map (fun q => (q.1.offset, q.2.offset)) = (8, 120) :: (64, 0) :: laterCopies :=
  rfl

/-- A context that overlaps the frame is not saved: one that starts a word below it has
its rip on the rax of the frame, which is read after rip is written. -/
theorem overlap_rax (hf : Stacked mem (frameOf i) (frameWords i))
    (hsp : 8 ≤ (i.regs .rsp).toNat) :
    ∃ mem₂, irqPreempt p (frameOf i - 8) (frameOf i) mem = .ok mem₂ ∧
      field mem₂ (frameOf i - 8) .rsp = i.regs .rsp - 8 ∧
      field mem₂ (frameOf i - 8) .rax = i.rip := by
  have halign := align_toNat (i.regs .rsp)
  have hshift : frameOf i + BitVec.ofNat 64 0 = frameOf i - 8 + BitVec.ofNat 64 8 := by bv_omega
  have hrip : load64 mem (frameOf i + BitVec.ofNat 64 120) = i.rip := frameField_of_stacked hf .rip
  have hcopies : copyAll (frameOf i - 8) (frameOf i)
      (preemptCopies.map fun q => (q.1.offset, q.2.offset)) mem =
        copyAll (frameOf i - 8) (frameOf i) laterCopies
          (store64 (store64 mem (frameOf i - 8 + BitVec.ofNat 64 8) i.rip)
            (frameOf i - 8 + BitVec.ofNat 64 64) i.rip) := by
    rw [preemptCopies_eq, copyAll_cons, copyAll_cons, hrip, hshift, load64_store64]
  have hrax : load64 (copyAll (frameOf i - 8) (frameOf i)
      (preemptCopies.map fun q => (q.1.offset, q.2.offset)) mem)
        (frameOf i - 8 + BitVec.ofNat 64 64) = i.rip := by
    rw [hcopies, load64_copyAll_apart _ _ (by decide) (by decide), load64_store64]
  have hkeep : Set.EqOn (copyAll (frameOf i - 8) (frameOf i)
      (preemptCopies.map fun q => (q.1.offset, q.2.offset)) mem) mem (bytes (frameOf i - 8))ᶜ :=
    copyAll_eqOn _ mem (by decide) (by decide)
  generalize hcopy : copyAll (frameOf i - 8) (frameOf i)
    (preemptCopies.map fun q => (q.1.offset, q.2.offset)) mem = m₁ at hrax hkeep
  have hfrsp : frameField m₁ (frameOf i) .rsp = i.regs .rsp := by
    have hout : Disjoint (bytes (frameOf i - 8)) (region (frameOf i + BitVec.ofNat 64 144) 8) :=
      region_disjoint (by bv_omega) (by bv_omega)
    exact (load64_congr (hkeep.mono hout.subset_compl_left)).trans (frameField_of_stacked hf .rsp)
  have hslot : Disjoint (region (i.regs .rsp - 8) 8)
      (region (frameOf i - 8 + BitVec.ofNat 64 64) 8) := by
    rw [frameOf]
    exact (region_disjoint (by bv_omega) (by bv_omega)).symm
  have happ : Disjoint (region (frameOf i - 8 + BitVec.ofNat 64 Field.rsp.offset) 8)
      (region (frameOf i - 8 + BitVec.ofNat 64 64) 8) :=
    field_disjoint (Or.inl (by decide)) (by decide) (by decide)
  refine ⟨_, irqPreempt_of_copied hcopy hfrsp hsp, load64_store64 _ _ _, ?_⟩
  change load64 _ (frameOf i - 8 + BitVec.ofNat 64 64) = i.rip
  rw [load64_store64_of_disjoint _ _ happ, load64_store64_of_disjoint _ _ hslot]
  exact hrax

/-- If the inner handler returns with the frame as it was, the stub gives back everything. -/
theorem leave_point {u : Machine} (hrsp : u.regs .rsp = frameOf i)
    (hf : Stacked u.mem (frameOf i) (frameWords i)) (inner next : Word) :
    point (u.run (interruptEntry inner next).leave) = point i ∧
    (u.run (interruptEntry inner next).leave).cs = i.cs ∧
    (u.run (interruptEntry inner next).leave).ss = i.ss ∧
    (u.run (interruptEntry inner next).leave).mem = u.mem := by
  rw [← hrsp] at hf
  obtain ⟨hmem, hs, hin, _⟩ := run_pop (m := u) gprs (by decide) hf
  rw [leave_eq, run_append]
  generalize u.run (gprs.map .pop) = t at hmem hs hin
  rw [← hmem] at hs
  have hgpr (r : Reg) (hr : r ≠ .rsp) : t.regs r = i.regs r :=
    hin r (by cases r <;> first | exact absurd rfl hr | decide)
  have hflags : load64 t.mem (t.address .rsp 16) = i.rflags.bits := hs.get (j := 2) rfl
  refine ⟨?_, hs.get (j := 1) rfl, hs.get (j := 4) rfl, hmem⟩
  ext1
  · funext r
    by_cases hr : r = .rsp
    · subst hr
      exact (set_self t .rsp _).trans (hs.get (j := 3) rfl)
    · exact (set_other t _ hr).trans (hgpr r hr)
  · change Rflags.ofImage (load64 t.mem (t.address .rsp 16)) = i.rflags
    rw [hflags, Rflags.ofImage_bits]
  · exact hs.get (j := 0) rfl

end MoltOS.Interrupts
