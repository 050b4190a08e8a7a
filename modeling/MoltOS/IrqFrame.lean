import MoltOS.Context
import MoltOS.Rust

/-! `interrupts.rs`: the frame that the naked entry stubs build, the save of a preempted
thread by `irq_preempt`, and the way back through `iretq`. -/
namespace MoltOS.Interrupts
open MoltOS.Rust MoltOS.X86 MoltOS.Context

inductive FrameField where
  | rax | rcx | rdx | rbx | rbp | rsi | rdi | r8 | r9 | r10 | r11 | r12 | r13 | r14 | r15
  | rip | cs | rflags | rsp | ss
deriving DecidableEq, Repr

namespace FrameField

def offset : FrameField → Nat
  | .rax => 0
  | .rcx => 8
  | .rdx => 16
  | .rbx => 24
  | .rbp => 32
  | .rsi => 40
  | .rdi => 48
  | .r8 => 56
  | .r9 => 64
  | .r10 => 72
  | .r11 => 80
  | .r12 => 88
  | .r13 => 96
  | .r14 => 104
  | .r15 => 112
  | .rip => 120
  | .cs => 128
  | .rflags => 136
  | .rsp => 144
  | .ss => 152

def value (i : Machine) : FrameField → Word
  | .rax => i.regs .rax
  | .rcx => i.regs .rcx
  | .rdx => i.regs .rdx
  | .rbx => i.regs .rbx
  | .rbp => i.regs .rbp
  | .rsi => i.regs .rsi
  | .rdi => i.regs .rdi
  | .r8 => i.regs .r8
  | .r9 => i.regs .r9
  | .r10 => i.regs .r10
  | .r11 => i.regs .r11
  | .r12 => i.regs .r12
  | .r13 => i.regs .r13
  | .r14 => i.regs .r14
  | .r15 => i.regs .r15
  | .rip => i.rip
  | .cs => i.cs
  | .rflags => i.rflags.bits
  | .rsp => i.regs .rsp
  | .ss => i.ss

end FrameField

def frameBytes (frame : Word) : Set Word := region frame 160

def frameField (mem : Mem) (frame : Word) (f : FrameField) : Word :=
  load64 mem (frame + BitVec.ofNat 64 f.offset)

/- A naked stub: the code up to the call of the inner handler, and the code after it. -/
structure Stub where
  enter : List Instr
  leave : List Instr

/- The two stubs differ in the handler they call; `next` is the return address. -/
def interruptEntry (inner next : Word) : Stub where
  enter :=
    [.push .r15, .push .r14, .push .r13, .push .r12, .push .r11, .push .r10, .push .r9, .push .r8,
      .push .rdi, .push .rsi, .push .rbp, .push .rbx, .push .rdx, .push .rcx, .push .rax,
      .mov .rdi .rsp, .call inner next]
  leave :=
    [.pop .rax, .pop .rcx, .pop .rdx, .pop .rbx, .pop .rbp, .pop .rsi, .pop .rdi, .pop .r8,
      .pop .r9, .pop .r10, .pop .r11, .pop .r12, .pop .r13, .pop .r14, .pop .r15, .iretq]

def timerInterruptEntry (timerInterruptInner next : Word) : Stub :=
  interruptEntry timerInterruptInner next

def keyboardInterruptEntry (keyboardInterruptInner next : Word) : Stub :=
  interruptEntry keyboardInterruptInner next

def preemptCopies : List (Field × FrameField) :=
  [(.rip, .rip), (.rax, .rax), (.rcx, .rcx), (.rdx, .rdx), (.rbx, .rbx), (.rbp, .rbp),
    (.rsi, .rsi), (.rdi, .rdi), (.r8, .r8), (.r9, .r9), (.r10, .r10), (.r11, .r11), (.r12, .r12),
    (.r13, .r13), (.r14, .r14), (.r15, .r15), (.rflags, .rflags)]

def subWord (p : Profile) (a b : Word) : Except Panic Word :=
  if b.toNat ≤ a.toNat then .ok (a - b) else
    match p with
    | .dev => .error .overflow
    | .release => .ok (a - b)

/- `irq_preempt` up to the end of interrupt and `context_switch_to(to_ctx)`: the full
   save, with the resume slot written one word below the interrupted rsp. -/
def irqPreempt (p : Profile) (fromCtx frame : Word) (mem : Mem) : Except Panic Mem := do
  let mem := copyAll fromCtx frame (preemptCopies.map fun q => (q.1.offset, q.2.offset)) mem
  let resumeRsp ← subWord p (frameField mem frame .rsp) 8
  let mem := store64 mem resumeRsp (frameField mem frame .rip)
  pure (store64 mem (fromCtx + BitVec.ofNat 64 Field.rsp.offset) resumeRsp)

def gprs : List Reg :=
  [.rax, .rcx, .rdx, .rbx, .rbp, .rsi, .rdi, .r8, .r9, .r10, .r11, .r12, .r13, .r14, .r15]

def frameWords (i : Machine) : List Word :=
  gprs.map i.regs ++ [i.rip, i.cs, i.rflags.bits, i.regs .rsp, i.ss]

theorem enter_eq (inner next : Word) : (interruptEntry inner next).enter =
    gprs.reverse.map .push ++ [.mov .rdi .rsp, .call inner next] := rfl

theorem leave_eq (inner next : Word) :
    (interruptEntry inner next).leave = gprs.map .pop ++ [.iretq] := rfl

theorem frameField_of_stacked {i : Machine} {mem : Mem} {frame : Word}
    (h : Stacked mem frame (frameWords i)) (f : FrameField) :
    frameField mem frame f = f.value i := by
  cases f with
  | rax => exact h.get (j := 0) rfl
  | rcx => exact h.get (j := 1) rfl
  | rdx => exact h.get (j := 2) rfl
  | rbx => exact h.get (j := 3) rfl
  | rbp => exact h.get (j := 4) rfl
  | rsi => exact h.get (j := 5) rfl
  | rdi => exact h.get (j := 6) rfl
  | r8 => exact h.get (j := 7) rfl
  | r9 => exact h.get (j := 8) rfl
  | r10 => exact h.get (j := 9) rfl
  | r11 => exact h.get (j := 10) rfl
  | r12 => exact h.get (j := 11) rfl
  | r13 => exact h.get (j := 12) rfl
  | r14 => exact h.get (j := 13) rfl
  | r15 => exact h.get (j := 14) rfl
  | rip => exact h.get (j := 15) rfl
  | cs => exact h.get (j := 16) rfl
  | rflags => exact h.get (j := 17) rfl
  | rsp => exact h.get (j := 18) rfl
  | ss => exact h.get (j := 19) rfl

def frameOf (i : Machine) : Word := (i.regs .rsp &&& ~~~15) - 160

def cpuWords (i : Machine) : List Word := [i.ss, i.regs .rsp, i.rflags.bits, i.cs, i.rip]

def aligned (i : Machine) : Machine := i.set .rsp (i.regs .rsp &&& ~~~15)

theorem interrupt_mem (i : Machine) (handler : Word) :
    (i.interrupt handler).mem = ((aligned i).pushAll (cpuWords i)).mem := rfl

theorem interrupt_regs (i : Machine) (handler : Word) :
    (i.interrupt handler).regs = ((aligned i).pushAll (cpuWords i)).regs := rfl

theorem interrupt_other (i : Machine) (handler : Word) {r : Reg} (h : r ≠ .rsp) :
    (i.interrupt handler).regs r = i.regs r := by
  rw [interrupt_regs, pushAll_other _ h, aligned, set_other i _ h]

theorem interrupt_rsp (i : Machine) (handler : Word) :
    (i.interrupt handler).regs .rsp = (i.regs .rsp &&& ~~~15) - 40 := by
  rw [interrupt_regs, pushAll_rsp, aligned, set_self]
  rfl

theorem interrupt_stacked (i : Machine) (handler : Word) :
    Stacked (i.interrupt handler).mem ((i.interrupt handler).regs .rsp)
      [i.rip, i.cs, i.rflags.bits, i.regs .rsp, i.ss] := by
  rw [interrupt_mem, interrupt_regs]
  exact pushAll_stacked (cpuWords i) (l := []) trivial (by simp [cpuWords])

def framed (i : Machine) (handler : Word) : Machine :=
  (i.interrupt handler).pushAll (gprs.reverse.map i.regs)

theorem run_enter (i : Machine) (handler inner next : Word) :
    (i.interrupt handler).run (interruptEntry inner next).enter =
      { ((framed i handler).set .rdi ((framed i handler).regs .rsp)).pushWord next with
        rip := inner } := by
  have hregs : gprs.reverse.map (i.interrupt handler).regs = gprs.reverse.map i.regs :=
    List.map_congr_left fun r hr => interrupt_other i handler fun he => by
      rw [he] at hr
      exact absurd hr (by decide)
  rw [enter_eq, run_append, run_push gprs.reverse (by decide), hregs]
  rfl

theorem framed_rsp (i : Machine) (handler : Word) :
    (framed i handler).regs .rsp = frameOf i := by
  rw [framed, pushAll_rsp, interrupt_rsp, frameOf, List.length_map, List.length_reverse]
  change _ - 40 - BitVec.ofNat 64 (8 * 15) = _
  bv_omega

theorem framed_stacked (i : Machine) (handler : Word) :
    Stacked (framed i handler).mem ((framed i handler).regs .rsp) (frameWords i) := by
  have h := pushAll_stacked (gprs.reverse.map i.regs) (interrupt_stacked i handler)
    (by simp [gprs])
  rw [← List.map_reverse, List.reverse_reverse] at h
  exact h

/-- At the call of the inner handler rdi points to the frame of the interrupted machine. -/
theorem enter_rdi (i : Machine) (handler inner next : Word) :
    ((i.interrupt handler).run (interruptEntry inner next).enter).regs .rdi = frameOf i := by
  rw [run_enter]
  change (((framed i handler).set .rdi ((framed i handler).regs .rsp)).pushWord next).regs .rdi = _
  rw [pushWord_other _ _ (by decide), set_self, framed_rsp]

theorem enter_stacked (i : Machine) (handler inner next : Word) :
    Stacked ((i.interrupt handler).run (interruptEntry inner next).enter).mem (frameOf i)
      (frameWords i) := by
  rw [run_enter]
  have hrsp : ((framed i handler).set .rdi ((framed i handler).regs .rsp)).regs .rsp =
      frameOf i := by
    rw [set_other _ _ (by decide), framed_rsp]
  have hbase : Stacked ((framed i handler).set .rdi ((framed i handler).regs .rsp)).mem
      (((framed i handler).set .rdi ((framed i handler).regs .rsp)).regs .rsp) (frameWords i) := by
    rw [set_other _ _ (by decide)]
    exact framed_stacked i handler
  have h := (hbase.push (by simp [frameWords, gprs]) next).2
  rw [pushWord_rsp, BitVec.sub_add_cancel, hrsp] at h
  exact h

def stubBytes (i : Machine) : Set Word := region (frameOf i - 8) 168

theorem align_toNat (a : Word) : (a - (a &&& ~~~15)).toNat = a.toNat % 16 := by
  have hor : (a &&& 15) ||| (a &&& ~~~15) = a := by
    rw [← BitVec.and_or_distrib_left, BitVec.or_not_self, BitVec.and_allOnes]
  have hand : (a &&& 15) &&& (a &&& ~~~15) = 0#64 := by
    refine BitVec.eq_of_getLsbD_eq fun k hk => ?_
    simp only [BitVec.getLsbD_and, BitVec.getLsbD_not, BitVec.getLsbD_zero]
    cases (15 : Word).getLsbD k <;> simp
  have hadd := BitVec.add_eq_or_of_and_eq_zero (a &&& 15) (a &&& ~~~15) hand
  rw [hor] at hadd
  have hlow : a - (a &&& ~~~15) = a &&& 15 := by bv_omega
  rw [hlow, BitVec.toNat_and]
  exact Nat.and_two_pow_sub_one_eq_mod a.toNat 4

/-- Delivery and stub write below the interrupted rsp only. -/
theorem enter_eqOn (i : Machine) (handler inner next : Word) :
    Set.EqOn ((i.interrupt handler).run (interruptEntry inner next).enter).mem i.mem
      (stubBytes i)ᶜ := by
  have hcpu : Set.EqOn (i.interrupt handler).mem i.mem (stubBytes i)ᶜ := by
    have hsub : region ((aligned i).regs .rsp - BitVec.ofNat 64 (8 * (cpuWords i).length))
        (8 * (cpuWords i).length) ⊆ stubBytes i := by
      refine region_subset ?_
      rw [aligned, set_self, frameOf]
      simp only [cpuWords, List.length_cons, List.length_nil]
      bv_omega
    exact (pushAll_eqOn (m := aligned i) (cpuWords i) (by simp [cpuWords])).mono
      (Set.compl_subset_compl.mpr hsub)
  have hgpr : Set.EqOn (framed i handler).mem (i.interrupt handler).mem
      (stubBytes i)ᶜ := by
    have hsub : region ((i.interrupt handler).regs .rsp -
        BitVec.ofNat 64 (8 * (gprs.reverse.map i.regs).length))
        (8 * (gprs.reverse.map i.regs).length) ⊆ stubBytes i := by
      refine region_subset ?_
      rw [interrupt_rsp, frameOf]
      simp only [List.length_map, List.length_reverse, gprs, List.length_cons, List.length_nil]
      bv_omega
    exact (pushAll_eqOn (gprs.reverse.map i.regs) (by simp [gprs])).mono
      (Set.compl_subset_compl.mpr hsub)
  have hcall : Set.EqOn (store64 (framed i handler).mem (frameOf i - 8) next)
      (framed i handler).mem (stubBytes i)ᶜ :=
    (store64_eqOn _ _ _).mono
      (Set.compl_subset_compl.mpr (region_subset (by rw [BitVec.sub_self]; decide)))
  have hmem : ((i.interrupt handler).run (interruptEntry inner next).enter).mem =
      store64 (framed i handler).mem (frameOf i - 8) next := by
    rw [run_enter, ← framed_rsp i handler]
    change store64 (framed i handler).mem _ next = _
    rw [set_other _ _ (by decide)]
  rw [hmem]
  exact (hcall.trans hgpr).trans hcpu

end MoltOS.Interrupts
