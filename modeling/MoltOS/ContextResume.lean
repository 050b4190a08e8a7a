import MoltOS.Context

/-! Resuming a saved context, by `context_switch_to` or as the `new` of `context_switch`. -/
namespace MoltOS.Context
open MoltOS.X86

variable {ctx : Word} {s t : Machine} {W : Set Word}

def resumeSlot (mem : Mem) (ctx : Word) : Set Word := region (field mem ctx .rsp) 8

def imageSlot (mem : Mem) (ctx : Word) : Set Word := region (field mem ctx .rsp - 8) 8

/- `s` is at the entry of a routine that resumes the context at `ctx`, and `t` is where
   that leads. `W` is what `context_switch` writes to save its caller; it must not be the
   context to resume. -/
inductive Resumes (ctx : Word) (s : Machine) : Machine → Set Word → Prop where
  | switchTo (h : s.regs .rdi = ctx) : Resumes ctx s (s.run contextSwitchTo) ∅
  | switch (h : s.regs .rsi = ctx)
      (hdisj : Disjoint (bytes (s.regs .rdi) ∪ scratch s) (bytes ctx ∪ resumeSlot s.mem ctx)) :
      Resumes ctx s (s.run contextSwitch) (bytes (s.regs .rdi) ∪ scratch s)

/- The second half of `context_switch` is `context_switch_to` on the saved machine. -/
def toNew (s : Machine) : Machine := (s.run contextSave).exec (.mov .rdi .rsi)

theorem run_contextSwitch (s : Machine) : s.run contextSwitch = (toNew s).run contextSwitchTo := by
  rw [contextSwitch_eq, run_append]
  rfl

theorem toNew_rdi (s : Machine) : (toNew s).regs .rdi = s.regs .rsi := by
  have hrsi : (s.run contextSave).regs .rsi = s.regs .rsi := by simp [contextSave_run]
  exact (set_self _ .rdi _).trans hrsi

theorem toNew_eqOn (s : Machine) :
    Set.EqOn (toNew s).mem s.mem (bytes (s.regs .rdi) ∪ scratch s)ᶜ :=
  contextSave_eqOn s

theorem toNew_kept
    (hdisj : Disjoint (bytes (s.regs .rdi) ∪ scratch s) (bytes ctx ∪ resumeSlot s.mem ctx)) :
    field (toNew s).mem ctx .rsp = field s.mem ctx .rsp ∧
      resumePoint (toNew s).mem ctx = resumePoint s.mem ctx := by
  have hkeep := (toNew_eqOn s).mono hdisj.subset_compl_left
  have hctx := hkeep.mono Set.subset_union_left
  exact ⟨field_congr hctx .rsp, resumePoint_congr hctx (hkeep.mono Set.subset_union_right)⟩

/-- Either way the machine goes on from the point that the context stands for. -/
theorem Resumes.resumes_point (h : Resumes ctx s t W)
    (himage : Disjoint (imageSlot s.mem ctx) (bytes ctx)) : point t = resumePoint s.mem ctx := by
  cases h with
  | switchTo hctx => exact contextSwitchTo_point s hctx himage
  | switch hctx hdisj =>
    obtain ⟨hrsp, hpoint⟩ := toNew_kept hdisj
    rw [run_contextSwitch, ← hpoint]
    refine contextSwitchTo_point (toNew s) ((toNew_rdi s).trans hctx) ?_
    rw [hrsp]
    exact himage

theorem Resumes.eqOn (h : Resumes ctx s t W) :
    Set.EqOn t.mem s.mem (W ∪ imageSlot s.mem ctx)ᶜ := by
  cases h with
  | switchTo hctx =>
    rw [Set.empty_union]
    exact contextSwitchTo_eqOn s hctx
  | switch hctx hdisj =>
    rw [run_contextSwitch, Set.compl_union]
    have hrestore := contextSwitchTo_eqOn (toNew s) ((toNew_rdi s).trans hctx)
    rw [(toNew_kept hdisj).1] at hrestore
    exact (hrestore.mono Set.inter_subset_right).trans
      ((toNew_eqOn s).mono Set.inter_subset_left)

/- Outside the saved context and the flags image of the new flow, `context_switch` leaves
   the memory as `pushfq` has left it. -/
theorem contextSwitch_scratch (hctx : s.regs .rsi = ctx)
    (hdisj : Disjoint (bytes (s.regs .rdi) ∪ scratch s) (bytes ctx ∪ resumeSlot s.mem ctx))
    {x : Word} (hold : x ∉ bytes (s.regs .rdi)) (himage : x ∉ imageSlot s.mem ctx) :
    (s.run contextSwitch).mem x = store64 s.mem (s.regs .rsp - 8) s.rflags.bits x := by
  have hrestore := contextSwitchTo_eqOn (toNew s) ((toNew_rdi s).trans hctx)
  rw [(toNew_kept hdisj).1] at hrestore
  rw [run_contextSwitch]
  exact (hrestore himage).trans (contextSave_scratch s hold)

def calleeSaved : List Reg := [.rbx, .rbp, .r12, .r13, .r14, .r15]

/-- A context saved as the `old` of `context_switch` returns to the call, with interrupts
on. -/
theorem Resumes.returns {u : Machine}
    (hold : Disjoint (bytes (s.regs .rdi)) (region (s.regs .rsp - 8) 16))
    (hu : Set.EqOn u.mem (s.run contextSave).mem
      (bytes (s.regs .rdi) ∪ region (s.regs .rsp) 8))
    (h : Resumes (s.regs .rdi) u t W) :
    (∀ r ∈ calleeSaved, t.regs r = s.regs r) ∧ t.regs .rsp = s.regs .rsp + 8 ∧
      t.rip = load64 s.mem (s.regs .rsp) ∧ t.rflags = s.rflags.setInterrupts true := by
  obtain ⟨hrsp, hsaved⟩ := contextSave_point s hold
  have hctx := hu.mono Set.subset_union_left
  have hslot : Set.EqOn u.mem (s.run contextSave).mem
      (region (field (s.run contextSave).mem (s.regs .rdi) .rsp) 8) := by
    rw [hrsp]
    exact hu.mono Set.subset_union_right
  have himage : Disjoint (imageSlot u.mem (s.regs .rdi)) (bytes (s.regs .rdi)) := by
    rw [imageSlot, field_congr hctx .rsp, hrsp]
    exact (hold.mono_right (region_subset (by simp))).symm
  have hpoint : point t = _ :=
    (h.resumes_point himage).trans ((resumePoint_congr hctx hslot).trans hsaved)
  have hregs (r : Reg) := congrFun (congrArg Point.regs hpoint) r
  refine ⟨fun r hr => ?_, hregs .rsp, congrArg Point.rip hpoint, congrArg Point.rflags hpoint⟩
  have hne : r ≠ .rsp := fun he => absurd (he ▸ hr) (by decide)
  refine (hregs r).trans ?_
  simp only [hne, if_false]
  exact if_pos hr

end MoltOS.Context
