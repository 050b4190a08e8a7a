import Mathlib.Logic.Function.Basic
import MoltOS.X86.Memory

/-! The x86-64 core in kernel mode, as far as straight-line stack and move code needs it.
A block is a list of instructions; `rip` is written by what transfers control only. -/
namespace MoltOS.X86

inductive Reg where
  | rax | rcx | rdx | rbx | rsp | rbp | rsi | rdi
  | r8 | r9 | r10 | r11 | r12 | r13 | r14 | r15
deriving DecidableEq, Repr

/- CF PF AF ZF SF TF IF DF OF IOPL NT AC ID. Bit 1 reads as one and every other bit as
   zero: RF, VM, VIF and VIP are not in use. -/
def Rflags.writable : Word := 0x247FD5

@[ext] structure Rflags where
  bits : Word
  fixed : bits &&& Rflags.writable ||| 2 = bits

namespace Rflags

/- What `popfq` and `iretq` at ring 0 make of a flags image. -/
def ofImage (v : Word) : Rflags where
  bits := v &&& writable ||| 2
  fixed := by
    refine BitVec.eq_of_getLsbD_eq fun i hi => ?_
    simp only [BitVec.getLsbD_or, BitVec.getLsbD_and]
    cases v.getLsbD i <;> cases writable.getLsbD i <;> simp

def write (f : Rflags) (i : Nat) (b : Bool) : Rflags :=
  ofImage (if b then f.bits ||| (1#64 <<< i) else f.bits &&& ~~~(1#64 <<< i))

def interrupts (f : Rflags) : Bool := f.bits.getLsbD 9

def setInterrupts (f : Rflags) (b : Bool) : Rflags := f.write 9 b

@[simp] theorem ofImage_bits (f : Rflags) : ofImage f.bits = f := Rflags.ext f.fixed

theorem ofImage_getLsbD (v : Word) (i : Nat) :
    (ofImage v).bits.getLsbD i = (v.getLsbD i && writable.getLsbD i || (2 : Word).getLsbD i) := by
  simp [ofImage]

theorem ext_getLsbD {f g : Rflags} (h : ∀ i < 64, f.bits.getLsbD i = g.bits.getLsbD i) : f = g :=
  Rflags.ext (BitVec.eq_of_getLsbD_eq h)

theorem bit_getLsbD {i k : Nat} (hi : i < 64) : (1#64 <<< k).getLsbD i = decide (i = k) := by
  by_cases h : i = k
  · subst h
    simp [hi]
  · by_cases hlt : i < k
    · simp [hlt, h]
    · have hne : i - k ≠ 0 := by omega
      simp [hlt, h, hi, hne]

theorem write_getLsbD (f : Rflags) (k : Nat) (b : Bool) {i : Nat} (hi : i < 64) :
    (f.write k b).bits.getLsbD i =
      ((if i = k then b else f.bits.getLsbD i) && writable.getLsbD i || (2 : Word).getLsbD i) := by
  have hbit : (if b then f.bits ||| (1#64 <<< k) else f.bits &&& ~~~(1#64 <<< k)).getLsbD i =
      if i = k then b else f.bits.getLsbD i := by
    cases b with
    | false =>
      rw [if_neg (by decide), BitVec.getLsbD_and, BitVec.getLsbD_not, bit_getLsbD hi]
      by_cases h : i = k
      · simp only [h, decide_true, Bool.not_true, Bool.and_false, if_true]
      · simp only [h, hi, decide_true, decide_false, Bool.not_false, Bool.and_true, if_false]
    | true =>
      rw [if_pos rfl, BitVec.getLsbD_or, bit_getLsbD hi]
      by_cases h : i = k
      · simp only [h, decide_true, Bool.or_true, if_true]
      · simp only [h, decide_false, Bool.or_false, if_false]
  rw [write, ofImage_getLsbD, hbit]

theorem setInterrupts_interrupts (f : Rflags) : (f.setInterrupts true).interrupts = true := by
  rw [interrupts, setInterrupts, write_getLsbD f 9 true (by decide), if_pos rfl]
  decide

theorem setInterrupts_of_interrupts {f : Rflags} (h : f.interrupts = true) :
    f.setInterrupts true = f := by
  refine ext_getLsbD fun i hi => ?_
  have hfix : f.bits.getLsbD i =
      (f.bits.getLsbD i && writable.getLsbD i || (2 : Word).getLsbD i) := by
    rw [← ofImage_getLsbD, ofImage_bits]
  rw [setInterrupts, write_getLsbD f 9 true hi]
  by_cases h9 : i = 9
  · subst h9
    rw [show f.bits.getLsbD 9 = true from h]
    decide
  · rw [if_neg h9]
    exact hfix.symm

/-- `btr` on bit 9 of the image and `sti` after `popfq`: the other flags are the image's. -/
theorem setInterrupts_ofImage_btr (v : Word) :
    (ofImage (v &&& ~~~(1#64 <<< 9))).setInterrupts true = (ofImage v).setInterrupts true := by
  refine ext_getLsbD fun i hi => ?_
  rw [setInterrupts, setInterrupts, write_getLsbD _ 9 true hi, write_getLsbD _ 9 true hi]
  by_cases h9 : i = 9
  · rw [if_pos h9, if_pos h9]
  · rw [if_neg h9, if_neg h9, ofImage_getLsbD, ofImage_getLsbD]
    simp only [BitVec.getLsbD_and, BitVec.getLsbD_not, bit_getLsbD hi, h9, hi, decide_true,
      decide_false, Bool.not_false, Bool.and_true]

end Rflags

structure Machine where
  regs : Reg → Word
  rflags : Rflags
  rip : Word
  cs : Word
  ss : Word
  mem : Mem

inductive Instr where
  | mov (dst src : Reg)
  | load (dst base : Reg) (disp : Nat)
  | store (base : Reg) (disp : Nat) (src : Reg)
  | push (src : Reg)
  | pop (dst : Reg)
  | pushMem (base : Reg) (disp : Nat)
  | popMem (base : Reg) (disp : Nat)
  | btrMem (base : Reg) (disp bit : Nat)
  | pushfq
  | popfq
  | cli
  | sti
  | call (target next : Word)
  | ret
  | iretq

namespace Machine

def set (m : Machine) (r : Reg) (v : Word) : Machine :=
  { m with regs := Function.update m.regs r v }

def address (m : Machine) (base : Reg) (disp : Nat) : Word :=
  m.regs base + BitVec.ofNat 64 disp

def pushWord (m : Machine) (v : Word) : Machine :=
  { m.set .rsp (m.regs .rsp - 8) with mem := store64 m.mem (m.regs .rsp - 8) v }

def top (m : Machine) : Word := load64 m.mem (m.regs .rsp)

def drop (m : Machine) : Machine := m.set .rsp (m.regs .rsp + 8)

/- `pop` into memory computes its address after it has moved `rsp`. -/
def exec (m : Machine) : Instr → Machine
  | .mov dst src => m.set dst (m.regs src)
  | .load dst base disp => m.set dst (load64 m.mem (m.address base disp))
  | .store base disp src => { m with mem := store64 m.mem (m.address base disp) (m.regs src) }
  | .push src => m.pushWord (m.regs src)
  | .pop dst => m.drop.set dst m.top
  | .pushMem base disp => m.pushWord (load64 m.mem (m.address base disp))
  | .popMem base disp => { m.drop with mem := store64 m.mem (m.drop.address base disp) m.top }
  | .btrMem base disp bit =>
    let v := load64 m.mem (m.address base disp)
    { m with
      mem := store64 m.mem (m.address base disp) (v &&& ~~~(1#64 <<< bit))
      rflags := m.rflags.write 0 (v.getLsbD bit) }
  | .pushfq => m.pushWord m.rflags.bits
  | .popfq => { m.drop with rflags := .ofImage m.top }
  | .cli => { m with rflags := m.rflags.setInterrupts false }
  | .sti => { m with rflags := m.rflags.setInterrupts true }
  | .call target next => { m.pushWord next with rip := target }
  | .ret => { m.drop with rip := m.top }
  | .iretq =>
    { m.set .rsp (load64 m.mem (m.address .rsp 24)) with
      rip := load64 m.mem (m.address .rsp 0)
      cs := load64 m.mem (m.address .rsp 8)
      rflags := .ofImage (load64 m.mem (m.address .rsp 16))
      ss := load64 m.mem (m.address .rsp 32) }

def run (m : Machine) (is : List Instr) : Machine := is.foldl exec m

def pushAll (m : Machine) (ws : List Word) : Machine := ws.foldl pushWord m

/- A maskable interrupt through an interrupt gate, at the same privilege: the stack is
   aligned to 16 bytes, ss, rsp, rflags, cs and rip are pushed, and IF, TF and NT cleared. -/
def interrupt (m : Machine) (handler : Word) : Machine :=
  { (m.set .rsp (m.regs .rsp &&& ~~~15)).pushAll
      [m.ss, m.regs .rsp, m.rflags.bits, m.cs, m.rip] with
    rflags := ((m.rflags.setInterrupts false).write 8 false).write 14 false
    rip := handler }

end Machine

end MoltOS.X86
