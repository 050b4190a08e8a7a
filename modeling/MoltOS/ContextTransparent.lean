import MoltOS.ContextResume
import MoltOS.IrqPreempt

/-! Saving and resuming a flow is transparent to it, whichever way it is suspended and
whichever way it is resumed. -/
namespace MoltOS.Interrupts
open MoltOS.Rust MoltOS.X86 MoltOS.Context

variable {i : Machine} {ctx : Word} {p : Profile}

def above (i : Machine) : Set Word := {x | (i.regs .rsp).toNat ≤ x.toNat}

/- With room for the frame, the stack does not reach around the end of the address space. -/
theorem above_stub (h : 176 ≤ (i.regs .rsp).toNat) : above i ⊆ (stubBytes i)ᶜ := by
  intro x hx hstub
  have halign := align_toNat (i.regs .rsp)
  rw [stubBytes, mem_region, frameOf] at hstub
  change (i.regs .rsp).toNat ≤ x.toNat at hx
  bv_omega

theorem above_slot (h : 176 ≤ (i.regs .rsp).toNat) :
    above i ⊆ (region (i.regs .rsp - 16) 16)ᶜ := by
  intro x hx hslot
  rw [mem_region] at hslot
  change (i.regs .rsp).toNat ≤ x.toNat at hx
  bv_omega

/- Both stubs have the code of `interruptEntry`. -/
theorem stub_eq {stub : Stub} {inner next : Word}
    (h : stub = timerInterruptEntry inner next ∨ stub = keyboardInterruptEntry inner next) :
    stub = interruptEntry inner next := by
  cases h with
  | inl h => exact h
  | inr h => exact h

/-- Preemption in an interrupt, up to the save. The handler may do what it likes between
the stub and `irq_preempt`, as long as it leaves the frame alone. -/
theorem irq_save (hsp : 176 ≤ (i.regs .rsp).toNat) (hctx : Disjoint (bytes ctx) (liveBytes i))
    {mem : Mem} (hmem : Stacked mem (frameOf i) (frameWords i)) :
    irqPreempt p ctx (frameOf i) mem = .ok (preempted i ctx mem) ∧
      Set.EqOn (preempted i ctx mem) mem (above i \ bytes ctx) := by
  refine ⟨irqPreempt_eq hmem hctx (le_trans (by decide) hsp), ?_⟩
  refine (preempted_eqOn i ctx mem).mono ?_
  rw [Set.compl_union]
  refine Set.subset_inter (fun x hx => hx.2) fun x hx => ?_
  exact fun hslot => above_slot hsp hx.1 (slot_subset i hslot)

/-- The restore of a preempted flow. -/
theorem irq_restore (hif : i.rflags.interrupts = true) (hsp : 176 ≤ (i.regs .rsp).toNat)
    (hctx : Disjoint (bytes ctx) (liveBytes i)) {mem : Mem} {s t : Machine} {W : Set Word}
    (hs : Set.EqOn s.mem (preempted i ctx mem) (bytes ctx ∪ region (i.regs .rsp - 8) 8))
    (h : Resumes ctx s t W) : point t = point i ∧ Set.EqOn t.mem s.mem (above i \ W) := by
  have hbytes := hs.mono Set.subset_union_left
  have hrsp : field s.mem ctx .rsp = i.regs .rsp - 8 :=
    (field_congr hbytes .rsp).trans (preempted_rsp i ctx mem)
  have hslot : Set.EqOn s.mem (preempted i ctx mem)
      (region (field (preempted i ctx mem) ctx .rsp) 8) := by
    rw [preempted_rsp]
    exact hs.mono Set.subset_union_right
  have himage : imageSlot s.mem ctx ⊆ region (i.regs .rsp - 16) 16 := by
    rw [imageSlot, hrsp]
    exact region_subset (by bv_omega)
  have hlive : Disjoint (bytes ctx) (imageSlot s.mem ctx) :=
    hctx.mono_right (himage.trans Set.subset_union_right)
  constructor
  · calc point t
        = resumePoint s.mem ctx := h.resumes_point hlive.symm
      _ = resumePoint (preempted i ctx mem) ctx := resumePoint_congr hbytes hslot
      _ = point i := preempted_point hctx hif
  · refine h.eqOn.mono ?_
    rw [Set.compl_union]
    refine Set.subset_inter (fun x hx => hx.2) fun x hx => ?_
    exact fun hi => above_slot hsp hx.1 (himage hi)

/-- Context save and restore are transparent. A flow interrupted with IF set, whose frame
is built by either stub and saved by `irq_preempt`, resumes by either routine at the
interrupted point; the memory at or above its rsp keeps its contents, except for the
contexts saved into and the scratch word of `pushfq` below the stack pointer of the flow
that calls `context_switch`. A flow saved by `context_switch` returns to its call. And a
handler that returns goes back through `iretq` to the interrupted point. -/
theorem save_restore_transparent :
    (∀ (p : Profile) (i : Machine) (stub : Stub) (handler inner next ctx : Word),
      (stub = timerInterruptEntry inner next ∨ stub = keyboardInterruptEntry inner next) →
      i.rflags.interrupts = true → 176 ≤ (i.regs .rsp).toNat →
      let e := (i.interrupt handler).run stub.enter
      Disjoint (bytes ctx) (frameBytes (e.regs .rdi) ∪ region (i.regs .rsp - 16) 16) →
      Set.EqOn e.mem i.mem (above i) ∧
      ∀ mem₁, Set.EqOn mem₁ e.mem (frameBytes (e.regs .rdi)) →
        ∃ mem₂, irqPreempt p ctx (e.regs .rdi) mem₁ = .ok mem₂ ∧
          Set.EqOn mem₂ mem₁ (above i \ bytes ctx) ∧
          ∀ s t W, Set.EqOn s.mem mem₂ (bytes ctx ∪ region (i.regs .rsp - 8) 8) →
            Resumes ctx s t W → point t = point i ∧ Set.EqOn t.mem s.mem (above i \ W)) ∧
    (∀ (s u t : Machine) (W : Set Word),
      Disjoint (bytes (s.regs .rdi)) (region (s.regs .rsp - 8) 16) →
      Set.EqOn u.mem (s.run contextSave).mem (bytes (s.regs .rdi) ∪ region (s.regs .rsp) 8) →
      Resumes (s.regs .rdi) u t W →
      (∀ r ∈ calleeSaved, t.regs r = s.regs r) ∧ t.regs .rsp = s.regs .rsp + 8 ∧
        t.rip = load64 s.mem (s.regs .rsp) ∧ t.rflags.interrupts = true) ∧
    ∀ (i u : Machine) (stub : Stub) (handler inner next : Word),
      (stub = timerInterruptEntry inner next ∨ stub = keyboardInterruptEntry inner next) →
      let e := (i.interrupt handler).run stub.enter
      u.regs .rsp = e.regs .rdi → Set.EqOn u.mem e.mem (frameBytes (e.regs .rdi)) →
      point (u.run stub.leave) = point i ∧ (u.run stub.leave).cs = i.cs ∧
        (u.run stub.leave).ss = i.ss ∧ (u.run stub.leave).mem = u.mem := by
  have hstack (i : Machine) (handler inner next : Word) {mem : Mem}
      (hmem : Set.EqOn mem ((i.interrupt handler).run (interruptEntry inner next).enter).mem
        (frameBytes (frameOf i))) : Stacked mem (frameOf i) (frameWords i) :=
    (enter_stacked i handler inner next).congr (by simp [frameWords, gprs]) hmem
  refine ⟨?_, ?_, ?_⟩
  · intro p i stub handler inner next ctx hstub hif hsp e hctx
    obtain rfl := stub_eq hstub
    rw [enter_rdi] at hctx
    refine ⟨(enter_eqOn i handler inner next).mono (above_stub hsp), fun mem₁ hmem => ?_⟩
    rw [enter_rdi] at hmem ⊢
    obtain ⟨hok, hkeep⟩ := irq_save (p := p) hsp hctx (hstack i handler inner next hmem)
    exact ⟨_, hok, hkeep, fun s t W hs h => irq_restore hif hsp hctx hs h⟩
  · intro s u t W hold hu h
    obtain ⟨hcallee, hrsp, hrip, hflags⟩ := Resumes.returns hold hu h
    refine ⟨hcallee, hrsp, hrip, ?_⟩
    rw [hflags]
    exact Rflags.setInterrupts_interrupts s.rflags
  · intro i u stub handler inner next hstub e hrsp hmem
    obtain rfl := stub_eq hstub
    rw [enter_rdi] at hrsp hmem
    exact leave_point hrsp (hstack i handler inner next hmem) inner next

/- A flow interrupted on its own stack, with a context elsewhere, and another flow that
   switches to that context from a stack further up. -/
def interrupted : Machine where
  regs r := if r = .rsp then 0x10000 else 0
  rflags := .ofImage 0x202
  rip := 0x1000
  cs := 8
  ss := 0
  mem _ := 0

def fromContext : Word := 0x40000

def switching (mem : Mem) : Machine where
  regs r :=
    match r with
    | .rsp => 0x20000
    | .rdi => 0x50000
    | .rsi => fromContext
    | _ => 0
  rflags := .ofImage 2
  rip := 0
  cs := 8
  ss := 0
  mem := mem

theorem fromContext_disjoint : Disjoint (bytes fromContext) (liveBytes interrupted) := by
  have hframe : Disjoint (frameBytes (frameOf interrupted)) (bytes fromContext) :=
    region_disjoint (by decide) (by decide)
  have hslot : Disjoint (region (0x10000 - 16) 16) (bytes fromContext) :=
    region_disjoint (by decide) (by decide)
  exact Set.disjoint_union_right.mpr ⟨hframe.symm, hslot.symm⟩

def timerEntered (i : Machine) : Machine := (i.interrupt 0).run (timerInterruptEntry 0 0).enter

theorem timerEntered_rdi (i : Machine) : (timerEntered i).regs .rdi = frameOf i := enter_rdi i 0 0 0

theorem timerEntered_stacked (i : Machine) :
    Stacked (timerEntered i).mem (frameOf i) (frameWords i) := enter_stacked i 0 0 0

def saved : Mem := preempted interrupted fromContext (timerEntered interrupted).mem

theorem saved_eq : irqPreempt .dev fromContext ((timerEntered interrupted).regs .rdi)
    (timerEntered interrupted).mem = .ok saved := by
  rw [timerEntered_rdi]
  exact irqPreempt_eq (timerEntered_stacked interrupted) fromContext_disjoint (by decide)

/- The saving half of `context_switch` leaves the context and its resume slot alone. -/
theorem switching_disjoint : Disjoint (bytes 0x50000 ∪ scratch (switching saved))
    (bytes fromContext ∪ resumeSlot saved fromContext) := by
  have hslot : resumeSlot saved fromContext = region 0xfff8 8 :=
    congrArg (region · 8) (preempted_rsp interrupted fromContext _)
  have hold : Disjoint (bytes fromContext) (bytes 0x50000) :=
    region_disjoint (by decide) (by decide)
  have hscratch : Disjoint (region 0x1fff8 8) (bytes fromContext) :=
    region_disjoint (by decide) (by decide)
  have holdSlot : Disjoint (region 0xfff8 8) (bytes 0x50000) :=
    region_disjoint (by decide) (by decide)
  have hscratchSlot : Disjoint (region 0xfff8 8) (region 0x1fff8 8) :=
    region_disjoint (by decide) (by decide)
  rw [hslot]
  exact Set.disjoint_union_left.mpr
    ⟨Set.disjoint_union_right.mpr ⟨hold.symm, holdSlot.symm⟩,
      Set.disjoint_union_right.mpr ⟨hscratch, hscratchSlot.symm⟩⟩

theorem interrupted_resumes : ∃ mem₂,
    irqPreempt .dev fromContext ((timerEntered interrupted).regs .rdi)
        (timerEntered interrupted).mem = .ok mem₂ ∧
      point ((switching mem₂).run contextSwitch) = point interrupted := by
  have hlive : Disjoint (bytes fromContext)
      (frameBytes ((timerEntered interrupted).regs .rdi) ∪
        region (interrupted.regs .rsp - 16) 16) := by
    rw [timerEntered_rdi]
    exact fromContext_disjoint
  obtain ⟨_, hsave⟩ := save_restore_transparent.1 .dev interrupted (timerInterruptEntry 0 0) 0 0 0
    fromContext (Or.inl rfl) (by decide) (by decide) hlive
  obtain ⟨mem₂, hok, _, hresume⟩ := hsave _ (Set.eqOn_refl _ _)
  obtain rfl : saved = mem₂ := Except.ok.inj (saved_eq.symm.trans hok)
  have hswitch : Resumes fromContext (switching saved) _ _ := .switch rfl switching_disjoint
  exact ⟨saved, hok, (hresume _ _ _ (Set.eqOn_refl _ _) hswitch).1⟩

/- A byte of the scratch word, before and after. -/
theorem saved_scratch : saved 0x1fff8 = 0 := by
  have hctx : (0x1fff8 : Word) ∉ region fromContext 144 := by decide
  have hslot : (0x1fff8 : Word) ∉ region (0x10000 - 8) 8 := by decide
  have hstub : (0x1fff8 : Word) ∉ region (frameOf interrupted - 8) 168 := by decide
  have hsave := preempted_eqOn interrupted fromContext (timerEntered interrupted).mem
    (fun hx => hx.elim hctx hslot)
  have henter := enter_eqOn interrupted 0 0 0 hstub
  exact hsave.trans henter

theorem switching_scratch {mem : Mem} (hdisj : Disjoint (bytes 0x50000 ∪ scratch (switching mem))
      (bytes fromContext ∪ resumeSlot mem fromContext))
    (himage : 0x1fff8 ∉ imageSlot mem fromContext) :
    ((switching mem).run contextSwitch).mem 0x1fff8 = 2 := by
  have hold : (0x1fff8 : Word) ∉ region 0x50000 144 := by decide
  have hrsp : (switching mem).regs .rsp - 8 = 0x1fff8 :=
    (by decide : (0x20000 - 8 : Word) = 0x1fff8)
  have hflags : (switching mem).rflags.bits = 2 :=
    (by decide : (Rflags.ofImage 2).bits = 2)
  have hbyte := store64_byte mem 0x1fff8 2 (k := 0) (by decide)
  rw [BitVec.add_zero] at hbyte
  have hscratch := contextSwitch_scratch (s := switching mem) rfl hdisj hold himage
  rw [hrsp, hflags] at hscratch
  exact hscratch.trans hbyte

def resuming (mem : Mem) : Machine :=
  { switching mem with regs := fun _ => frameOf interrupted - 8 }

def cramped : Machine :=
  { interrupted with regs := fun r => if r = .rsp then 128 else 1 }

theorem resuming_rax {mem : Mem} (hrsp : field mem (frameOf interrupted - 8) .rsp = 0x10000 - 8)
    (hrax : field mem (frameOf interrupted - 8) .rax = 0x1000) :
    point ((resuming mem).run contextSwitchTo) ≠ point interrupted := by
  have himage : Disjoint (bytes (frameOf interrupted - 8)) (region (0x10000 - 8 - 8) 8) :=
    region_disjoint (by decide) (by decide)
  have hslot : Disjoint (imageSlot mem (frameOf interrupted - 8)) (bytes (frameOf interrupted - 8)) := by
    rw [imageSlot, hrsp]
    exact himage.symm
  have hpoint : point ((resuming mem).run contextSwitchTo) =
      resumePoint mem (frameOf interrupted - 8) := contextSwitchTo_point (resuming mem) rfl hslot
  rw [hpoint]
  intro he
  have hreg := congrFun (congrArg Point.regs he) .rax
  have hzero : field mem (frameOf interrupted - 8) .rax = 0 := hreg
  rw [hrax] at hzero
  exact absurd hzero (by decide)

theorem cramped_wraps : ¬ Set.EqOn (timerEntered cramped).mem cramped.mem (above cramped) := by
  intro h
  have hsub : region (frameOf cramped) 8 ⊆ above cramped := by
    intro x hx
    change (x - (frameOf cramped)).toNat < 8 at hx
    rw [show frameOf cramped = 0xffffffffffffffe0 from by decide] at hx
    change (128 : Word).toNat ≤ x.toNat
    bv_omega
  have hrax : load64 (timerEntered cramped).mem (frameOf cramped) = 1 :=
    (timerEntered_stacked cramped).1
  rw [load64_congr (h.mono hsub)] at hrax
  exact absurd hrax (by decide)

/-- What keeps a restore from being transparent to all memory above the interrupted rsp:
`pushfq` in `context_switch` overwrites a word below the stack pointer of its caller, which
may lie there and is in no context. A context on the frame is not saved as it should be,
and a frame that does not fit below rsp goes around to the end of the address space. -/
theorem transparency_limits :
    (∃ (i s : Machine) (ctx x : Word), i.rflags.interrupts = true ∧ 176 ≤ (i.regs .rsp).toNat ∧
      irqPreempt .dev ctx ((timerEntered i).regs .rdi) (timerEntered i).mem = .ok s.mem ∧
      Disjoint (bytes ctx ∪ bytes (s.regs .rdi))
        (frameBytes (frameOf i) ∪ region (i.regs .rsp - 16) 16) ∧
      Resumes ctx s (s.run contextSwitch) (bytes (s.regs .rdi) ∪ scratch s) ∧
      x ∈ above i ∧ x ∉ bytes ctx ∧ x ∉ bytes (s.regs .rdi) ∧
      (s.run contextSwitch).mem x ≠ s.mem x) ∧
    (∃ (i s : Machine) (ctx : Word), i.rflags.interrupts = true ∧ 176 ≤ (i.regs .rsp).toNat ∧
      irqPreempt .dev ctx ((timerEntered i).regs .rdi) (timerEntered i).mem = .ok s.mem ∧
      Disjoint (bytes ctx) (region (i.regs .rsp - 16) 16) ∧ s.regs .rdi = ctx ∧
      point (s.run contextSwitchTo) ≠ point i) ∧
    ∃ i : Machine, i.rflags.interrupts = true ∧
      ¬ Set.EqOn (timerEntered i).mem i.mem (above i) := by
  refine ⟨?_, ?_, cramped, by decide, cramped_wraps⟩
  · have hctx : (0x1fff8 : Word) ∉ region fromContext 144 := by decide
    have hold : (0x1fff8 : Word) ∉ region 0x50000 144 := by decide
    have hframe : Disjoint (frameBytes (frameOf interrupted)) (bytes 0x50000) :=
      region_disjoint (by decide) (by decide)
    have hbelow : Disjoint (region (0x10000 - 16) 16) (bytes 0x50000) :=
      region_disjoint (by decide) (by decide)
    have himage : 0x1fff8 ∉ imageSlot saved fromContext := by
      rw [imageSlot, saved, preempted_rsp]
      decide
    have hmem : (switching saved).mem = saved := rfl
    refine ⟨interrupted, switching saved, fromContext, 0x1fff8, by decide, by decide, saved_eq, ?_,
      .switch rfl switching_disjoint, ?_, hctx, hold, ?_⟩
    · exact Set.disjoint_union_left.mpr ⟨fromContext_disjoint,
        Set.disjoint_union_right.mpr ⟨hframe.symm, hbelow.symm⟩⟩
    · change (0x10000 : Word).toNat ≤ (0x1fff8 : Word).toNat
      decide
    · rw [switching_scratch switching_disjoint himage, hmem, saved_scratch]
      decide
  · obtain ⟨mem₂, hok, hrsp, hrax⟩ := overlap_rax (p := .dev) (timerEntered_stacked interrupted)
      (by decide)
    have hslot : Disjoint (bytes (frameOf interrupted - 8)) (region (0x10000 - 16) 16) :=
      region_disjoint (by decide) (by decide)
    refine ⟨interrupted, resuming mem₂, frameOf interrupted - 8, by decide, by decide, ?_, hslot,
      rfl, resuming_rax hrsp hrax⟩
    rw [timerEntered_rdi]
    exact hok

end MoltOS.Interrupts
