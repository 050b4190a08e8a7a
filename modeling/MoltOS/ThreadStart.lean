import MoltOS.Context
import MoltOS.Rust

/-! `thread/stack.rs` and the creation of a thread: where `top` lies in the storage of a
stack, and the point at which a new thread starts when it is first switched to. -/
namespace MoltOS.ThreadStart
open MoltOS.X86 MoltOS.Context MoltOS.Rust

def stackSize : Nat := 16 * 1024
def stackAlign : Nat := 16
def canary : Word := 0xDEADC0DEDEADC0DE

structure KernelStack where
  base : Nat
  len : Nat
  fits : base + len < 2 ^ 64

namespace KernelStack

def storage (s : KernelStack) : Set Word := region (BitVec.ofNat 64 s.base) s.len

def writeCanary (s : KernelStack) (mem : Mem) : Mem :=
  if s.len ≥ 8 then store64 mem (BitVec.ofNat 64 s.base) canary else mem

def checkCanary (s : KernelStack) (mem : Mem) : Bool :=
  if s.len < 8 then true else load64 mem (BitVec.ofNat 64 s.base) = canary

/- The memory with the storage zeroed by `vec!` and the canary written. -/
def withSize (s : KernelStack) (mem : Mem) : Mem :=
  s.writeCanary fun x => if (x - BitVec.ofNat 64 s.base).toNat < s.len then 0 else mem x

/- `(end & !(STACK_ALIGN as u64)) - 16` -/
def top (p : Profile) (s : KernelStack) : Except Panic Nat := do
  let last ← add p s.base s.len
  sub p (last &&& (u64Max - stackAlign)) 16

end KernelStack

def setFields (ctx : Word) (l : List (Field × Word)) (mem : Mem) : Mem :=
  storeAll ctx (l.map fun p => (p.1.offset, p.2)) mem

def defaultFields : List (Field × Word) :=
  [(.rsp, 0), (.rip, 0), (.rbx, 0), (.rbp, 0), (.r12, 0), (.r13, 0), (.r14, 0), (.r15, 0),
    (.rax, 0), (.rcx, 0), (.rdx, 0), (.rsi, 0), (.rdi, 0), (.r8, 0), (.r9, 0), (.r10, 0),
    (.r11, 0), (.rflags, 0x202)]

def startFields (top entryPoint : Word) : List (Field × Word) :=
  [(.rsp, top), (.rip, entryPoint), (.rbx, 0), (.rbp, 0), (.r12, 0), (.r13, 0), (.r14, 0),
    (.r15, 0)]

def KernelStack.initContext (p : Profile) (s : KernelStack) (ctx entryPoint : Word) (mem : Mem) :
    Except Panic Mem := do
  let top ← s.top p
  let mem := store64 mem (BitVec.ofNat 64 top) entryPoint
  pure (setFields ctx (startFields (BitVec.ofNat 64 top) entryPoint) mem)

/- The two boxes of a thread are two allocations. -/
structure Thread where
  stack : KernelStack
  context : Word
  apart : Disjoint stack.storage (bytes context)

def Thread.withStackSize (p : Profile) (t : Thread) (entryPoint : Word) (mem : Mem) :
    Except Panic Mem :=
  t.stack.initContext p t.context entryPoint
    (setFields t.context defaultFields (t.stack.withSize mem))

/-- Clearing bit 4. -/
theorem and_not_sixteen {n : Nat} (h : n < 2 ^ 64) :
    n &&& (u64Max - stackAlign) = 32 * (n / 32) + n % 16 := by
  have hlow : (n &&& (u64Max - stackAlign)) % 2 ^ 4 = n % 2 ^ 4 := by
    rw [Nat.and_mod_two_pow]
    exact Nat.and_two_pow_sub_one_of_lt_two_pow (n := 4) (Nat.mod_lt _ (by decide))
  have hbit : (n &&& (u64Max - stackAlign)) / 2 ^ 4 % 2 ^ 1 = 0 := by
    rw [Nat.and_div_two_pow, Nat.and_mod_two_pow]
    exact Nat.and_zero _
  have hhigh : (n &&& (u64Max - stackAlign)) / 2 ^ 5 = n / 2 ^ 5 := by
    rw [Nat.and_div_two_pow]
    exact Nat.and_two_pow_sub_one_of_lt_two_pow (n := 59) (by omega)
  generalize n &&& (u64Max - stackAlign) = k at *
  omega

section Top
variable {p : Profile} {s : KernelStack}

theorem top_eq (h : 32 ≤ s.base + s.len) :
    s.top p = .ok (32 * ((s.base + s.len) / 32) + (s.base + s.len) % 16 - 16) := by
  have hfits := s.fits
  have hadd : add p s.base s.len = .ok (s.base + s.len) := fit_of_le p (by unfold u64Max; omega)
  simp only [KernelStack.top, hadd, bind, Except.bind, and_not_sixteen hfits]
  exact sub_of_le p (by omega)

/-- `top` lies between the canary and the end of the storage, and is aligned exactly when
the storage ends on a multiple of 16. -/
theorem top_bounds (hlen : 64 ≤ s.len) : ∃ top, s.top p = .ok top ∧ s.base + 32 ≤ top ∧
    top + 16 ≤ s.base + s.len ∧ top % 16 = (s.base + s.len) % 16 :=
  ⟨_, top_eq (by omega), by omega, by omega, by omega⟩

/-- Eight bytes of the storage, by their distance from its start. -/
theorem region_storage {a : Nat} (h : s.base ≤ a) (h' : a + 8 ≤ s.base + s.len) :
    region (BitVec.ofNat 64 a) 8 ⊆ s.storage := by
  have hfits := s.fits
  refine region_subset ?_
  rw [BitVec.toNat_sub, BitVec.toNat_ofNat, BitVec.toNat_ofNat]
  omega

theorem canary_disjoint {a : Nat} (h : s.base + 8 ≤ a) (h' : a + 8 ≤ s.base + s.len) :
    Disjoint (region (BitVec.ofNat 64 a) 8) (region (BitVec.ofNat 64 s.base) 8) := by
  have hfits := s.fits
  refine (region_disjoint ?_ ?_).symm <;>
    rw [BitVec.toNat_sub, BitVec.toNat_ofNat, BitVec.toNat_ofNat] <;> omega

theorem withSize_eqOn (hlen : 8 ≤ s.len) (mem : Mem) :
    Set.EqOn (s.withSize mem) mem s.storageᶜ := by
  intro x hx
  have hcanary : x ∉ region (BitVec.ofNat 64 s.base) 8 :=
    fun h => hx (region_storage le_rfl (by omega) h)
  unfold KernelStack.withSize KernelStack.writeCanary
  rw [if_pos hlen, store64_eqOn _ _ _ hcanary]
  exact if_neg hx

theorem withSize_canary (hlen : 8 ≤ s.len) (mem : Mem) :
    load64 (s.withSize mem) (BitVec.ofNat 64 s.base) = canary := by
  unfold KernelStack.withSize KernelStack.writeCanary
  rw [if_pos hlen, load64_store64]

end Top

section Fields
variable {ctx : Word} {l : List (Field × Word)} {mem : Mem} {f : Field} {v : Word}

theorem setFields_eqOn (ctx : Word) (l : List (Field × Word)) (mem : Mem) :
    Set.EqOn (setFields ctx l mem) mem (bytes ctx)ᶜ := by
  refine storeAll_eqOn _ mem (by decide) fun p hp => ?_
  obtain ⟨q, _, rfl⟩ := List.mem_map.mp hp
  exact offset_le q.1

theorem offset_fits (p : Nat × Word) (hp : p ∈ l.map fun p => (p.1.offset, p.2)) :
    p.1 + 8 ≤ 2 ^ 64 := by
  obtain ⟨q, _, rfl⟩ := List.mem_map.mp hp
  exact (offset_le q.1).trans (by decide)

theorem field_setFields (hl : (l.map Prod.fst).Nodup) (h : (f, v) ∈ l) :
    field (setFields ctx l mem) ctx f = v := by
  refine load64_storeAll (p := (f.offset, v)) _ mem offset_fits ?_ (List.mem_map.mpr ⟨_, h, rfl⟩)
  exact List.pairwise_map.mpr ((List.pairwise_map.mp hl).imp offset_apart)

theorem field_setFields_of_notMem (h : f ∉ l.map Prod.fst) :
    field (setFields ctx l mem) ctx f = field mem ctx f := by
  refine load64_storeAll_apart _ mem ((offset_le f).trans (by decide)) fun p hp => ?_
  refine ⟨offset_fits p hp, ?_⟩
  obtain ⟨q, hq, rfl⟩ := List.mem_map.mp hp
  exact offset_apart fun he => h (he ▸ List.mem_map_of_mem hq)

end Fields

section Start
variable {p : Profile} {t : Thread} {entryPoint : Word} {mem mem' : Mem}

def startPoint (rsp entryPoint : Word) : Point where
  regs r := if r = .rsp then rsp else 0
  rflags := (Rflags.ofImage 0x202).setInterrupts true
  rip := entryPoint

def cleared : List Field := [.rbx, .rbp, .r12, .r13, .r14, .r15]

theorem startFields_eq (top entryPoint : Word) : startFields top entryPoint =
    (.rsp, top) :: (.rip, entryPoint) :: cleared.map fun f => (f, 0) := rfl

theorem startFields_fst (top entryPoint : Word) : (startFields top entryPoint).map Prod.fst =
    .rsp :: .rip :: cleared := rfl

theorem reg_default {r : Reg} : (regField r, 0) ∈ defaultFields := by
  cases r <;> decide

theorem reg_not_started {r : Reg} (hr : r ≠ .rsp) (h : regField r ∉ cleared) :
    regField r ∉ .rsp :: .rip :: cleared := by
  revert hr h
  cases r <;> decide

def Thread.stored (t : Thread) (top entryPoint : Word) (mem : Mem) : Mem :=
  store64 (setFields t.context defaultFields (t.stack.withSize mem)) top entryPoint

def Thread.created (t : Thread) (top entryPoint : Word) (mem : Mem) : Mem :=
  setFields t.context (startFields top entryPoint) (t.stored top entryPoint mem)

theorem startFields_nodup (top entryPoint : Word) :
    ((startFields top entryPoint).map Prod.fst).Nodup := by
  rw [startFields_fst]
  decide

theorem created_rsp (top : Word) (mem : Mem) :
    field (t.created top entryPoint mem) t.context .rsp = top :=
  field_setFields (startFields_nodup top entryPoint) (List.mem_cons_self ..)

theorem created_eqOn_stored (top : Word) (mem : Mem) :
    Set.EqOn (t.created top entryPoint mem) (t.stored top entryPoint mem) (bytes t.context)ᶜ :=
  setFields_eqOn _ _ _

section Slot
variable {top : Word} (hslot : region top 8 ⊆ t.stack.storage)
include hslot

theorem created_eqOn (hlen : 8 ≤ t.stack.len) (mem : Mem) :
    Set.EqOn (t.created top entryPoint mem) mem (t.stack.storage ∪ bytes t.context)ᶜ := by
  intro x hx
  have hx₁ : x ∉ t.stack.storage := fun h => hx (Or.inl h)
  have hx₂ : x ∉ bytes t.context := fun h => hx (Or.inr h)
  rw [created_eqOn_stored top mem hx₂, Thread.stored, store64_eqOn _ _ _ fun h => hx₁ (hslot h),
    setFields_eqOn _ _ _ hx₂, withSize_eqOn hlen mem hx₁]

/-- The fields that `init_context` leaves alone are those of the default context. -/
theorem created_default {f : Field} {v : Word} (hf : (f, v) ∈ defaultFields)
    (hn : f ∉ .rsp :: .rip :: cleared) (mem : Mem) :
    field (t.created top entryPoint mem) t.context f = v := by
  rw [← startFields_fst top entryPoint] at hn
  have hstored : Set.EqOn (t.stored top entryPoint mem)
      (setFields t.context defaultFields (t.stack.withSize mem)) (region top 8)ᶜ :=
    store64_eqOn _ _ _
  rw [Thread.created, field_setFields_of_notMem hn,
    field_congr (hstored.mono (t.apart.mono_left hslot).subset_compl_left)]
  exact field_setFields (by decide) hf

/-- The context stands for the start of `entryPoint`. -/
theorem created_point (mem : Mem) :
    resumePoint (t.created top entryPoint mem) t.context = startPoint (top + 8) entryPoint := by
  ext1
  · funext r
    simp only [resumePoint, startPoint, created_rsp]
    split
    · rfl
    next hr =>
      by_cases hmem : regField r ∈ cleared
      · refine field_setFields (startFields_nodup top entryPoint) ?_
        rw [startFields_eq]
        exact List.mem_cons_of_mem _ (List.mem_cons_of_mem _ (List.mem_map_of_mem hmem))
      · exact created_default hslot reg_default (reg_not_started hr hmem) mem
  · simp only [resumePoint, startPoint]
    rw [created_default (v := 0x202) hslot (by decide) (by decide)]
  · simp only [resumePoint, startPoint, created_rsp]
    have hstorage := hslot.trans t.apart.subset_compl_right
    rw [load64_congr ((created_eqOn_stored top mem).mono hstorage)]
    exact load64_store64 _ _ entryPoint

end Slot

theorem created_canary {top : Nat} (hlow : t.stack.base + 8 ≤ top)
    (hhigh : top + 8 ≤ t.stack.base + t.stack.len) (mem : Mem) :
    t.stack.checkCanary (t.created (BitVec.ofNat 64 top) entryPoint mem) = true := by
  have hbase : region (BitVec.ofNat 64 t.stack.base) 8 ⊆ t.stack.storage :=
    region_storage le_rfl (by omega)
  have hstorage := hbase.trans t.apart.subset_compl_right
  have hdefault : Set.EqOn (setFields t.context defaultFields (t.stack.withSize mem))
      (t.stack.withSize mem) (bytes t.context)ᶜ := setFields_eqOn _ _ _
  have hcanary : load64 (t.created (BitVec.ofNat 64 top) entryPoint mem)
      (BitVec.ofNat 64 t.stack.base) = canary := by
    rw [load64_congr ((created_eqOn_stored _ mem).mono hstorage), Thread.stored,
      load64_store64_of_disjoint _ entryPoint (canary_disjoint hlow (by omega)),
      load64_congr (hdefault.mono hstorage)]
    exact withSize_canary (by omega) mem
  unfold KernelStack.checkCanary
  rw [if_neg (by omega), decide_eq_true hcanary]

/-- The memory after the creation of a thread: outside of its two boxes as it was, with the
canary in place, and with a context that stands for the start of `entryPoint`. -/
theorem withStackSize_ok (hlen : 64 ≤ t.stack.len) (mem : Mem) : ∃ top mem',
    t.stack.top p = .ok top ∧ t.withStackSize p entryPoint mem = .ok mem' ∧
    Set.EqOn mem' mem (t.stack.storage ∪ bytes t.context)ᶜ ∧
    t.stack.checkCanary mem' = true ∧ field mem' t.context .rsp = BitVec.ofNat 64 top ∧
    resumePoint mem' t.context = startPoint (BitVec.ofNat 64 top + 8) entryPoint := by
  obtain ⟨top, htop, hlow, hhigh, _⟩ := top_bounds (p := p) hlen
  have hslot : region (BitVec.ofNat 64 top) 8 ⊆ t.stack.storage :=
    region_storage (by omega) (by omega)
  refine ⟨top, t.created (BitVec.ofNat 64 top) entryPoint mem, htop, ?_,
    created_eqOn hslot (by omega) mem, created_canary (by omega) (by omega) mem, created_rsp _ mem,
    created_point hslot mem⟩
  simp only [Thread.withStackSize, KernelStack.initContext, htop, bind, Except.bind, pure,
    Except.pure]
  rfl

end Start

/-- A new thread's first instruction runs with its stack pointer inside its own storage and
the canary intact, whatever address and length of at least 64 the storage has. The pointer
is aligned as the ABI wants it exactly when the storage ends on a multiple of 16. -/
theorem new_thread_aligned_iff (p : Profile) (t : Thread) (hlen : 64 ≤ t.stack.len)
    (entryPoint : Word) (mem : Mem) :
    ∃ top mem', t.stack.top p = .ok top ∧ t.withStackSize p entryPoint mem = .ok mem' ∧
      t.stack.base + 8 ≤ top ∧ top + 8 ≤ t.stack.base + t.stack.len ∧
      t.stack.checkCanary mem' = true ∧
      Set.EqOn mem' mem (t.stack.storage ∪ bytes t.context)ᶜ ∧
      (∀ s : Machine, s.mem = mem' → s.regs .rdi = t.context →
        (s.run contextSwitchTo).rip = entryPoint ∧
        ((s.run contextSwitchTo).regs .rsp).toNat = top + 8) ∧
      (top % 16 = 0 ↔ (t.stack.base + t.stack.len) % 16 = 0) ∧
      ((top + 8) % 16 = 8 ↔ (t.stack.base + t.stack.len) % 16 = 0) := by
  obtain ⟨top, mem', htop, hnew, heq, hcanary, hrsp, hpoint⟩ :=
    @withStackSize_ok p _ entryPoint hlen mem
  obtain ⟨top', htop', hlow, hhigh, hmod⟩ := top_bounds (p := p) hlen
  obtain rfl : top = top' := Except.ok.inj (htop.symm.trans htop')
  refine ⟨top, mem', htop, hnew, by omega, by omega, hcanary, heq, ?_, by omega, by omega⟩
  intro s hmem hrdi
  have hfits := t.stack.fits
  have hbelow : Disjoint (region (field s.mem t.context .rsp - 8) 8) (bytes t.context) := by
    have hword : BitVec.ofNat 64 top - 8 = BitVec.ofNat 64 (top - 8) := by bv_omega
    rw [hmem, hrsp, hword]
    exact t.apart.mono_left (region_storage (by omega) (by omega))
  have hrun := contextSwitchTo_point s hrdi hbelow
  rw [hmem, hpoint] at hrun
  have hregs := congrFun (congrArg Point.regs hrun) .rsp
  refine ⟨congrArg Point.rip hrun, ?_⟩
  rw [show (s.run contextSwitchTo).regs .rsp = BitVec.ofNat 64 top + 8 from hregs]
  bv_omega

def firstThread : Thread where
  stack := ⟨0x444444440000, stackSize, by decide⟩
  context := 0x444444444000
  apart := region_disjoint (by decide) (by decide)

theorem firstThread_aligned : ∃ top, firstThread.stack.top .dev = .ok top ∧ top % 16 = 0 := by
  obtain ⟨top, _, htop, _, _, _, _, _, _, haligned, _⟩ :=
    new_thread_aligned_iff .dev firstThread (by decide) 0x200000 fun _ => 0
  exact ⟨top, htop, haligned.mpr (by decide)⟩

def oddStack : KernelStack := ⟨0x444444440008, stackSize, by decide⟩

theorem oddStack_misaligned : 64 ≤ oddStack.len ∧ ∃ top, oddStack.top .dev = .ok top ∧
    top % 16 = 8 ∧ (top + 8) % 16 = 0 :=
  ⟨by decide, 0x444444443FF8, rfl, by decide, by decide⟩

end MoltOS.ThreadStart
