import Mathlib.Data.BitVec
import MoltOS.X86.Stack

/-! `thread/context.rs`: the layout of `ThreadContext` and the two naked routines that
switch between contexts, with the point of execution that a saved context stands for. -/
namespace MoltOS.Context
open MoltOS.X86

inductive Field where
  | rsp | rip | rbx | rbp | r12 | r13 | r14 | r15
  | rax | rcx | rdx | rsi | rdi | r8 | r9 | r10 | r11 | rflags
deriving DecidableEq, Repr

def Field.offset : Field → Nat
  | .rsp => 0
  | .rip => 8
  | .rbx => 16
  | .rbp => 24
  | .r12 => 32
  | .r13 => 40
  | .r14 => 48
  | .r15 => 56
  | .rax => 64
  | .rcx => 72
  | .rdx => 80
  | .rsi => 88
  | .rdi => 96
  | .r8 => 104
  | .r9 => 112
  | .r10 => 120
  | .r11 => 128
  | .rflags => 136

def bytes (ctx : Word) : Set Word := region ctx 144

def field (mem : Mem) (ctx : Word) (f : Field) : Word :=
  load64 mem (ctx + BitVec.ofNat 64 f.offset)

/- `old` arrives in rdi and `new` in rsi. -/
def contextSwitch : List Instr :=
  [.pushfq, .popMem .rdi 136, .cli,
    .store .rdi 0 .rsp, .load .rax .rsp 0, .store .rdi 8 .rax, .store .rdi 16 .rbx,
    .store .rdi 24 .rbp, .store .rdi 32 .r12, .store .rdi 40 .r13, .store .rdi 48 .r14,
    .store .rdi 56 .r15,
    .mov .rdi .rsi,
    .load .rsp .rdi 0, .load .rbx .rdi 16, .load .rbp .rdi 24, .load .r12 .rdi 32,
    .load .r13 .rdi 40, .load .r14 .rdi 48, .load .r15 .rdi 56, .load .rax .rdi 64,
    .load .rcx .rdi 72, .load .rdx .rdi 80, .load .rsi .rdi 88, .load .r8 .rdi 104,
    .load .r9 .rdi 112, .load .r10 .rdi 120, .load .r11 .rdi 128,
    .pushMem .rdi 136, .btrMem .rsp 0 9, .popfq, .load .rdi .rdi 96, .sti, .ret]

def contextSwitchTo : List Instr :=
  [.load .rsp .rdi 0, .load .rbx .rdi 16, .load .rbp .rdi 24, .load .r12 .rdi 32,
    .load .r13 .rdi 40, .load .r14 .rdi 48, .load .r15 .rdi 56, .load .rax .rdi 64,
    .load .rcx .rdi 72, .load .rdx .rdi 80, .load .rsi .rdi 88, .load .r8 .rdi 104,
    .load .r9 .rdi 112, .load .r10 .rdi 120, .load .r11 .rdi 128,
    .pushMem .rdi 136, .btrMem .rsp 0 9, .popfq, .load .rdi .rdi 96, .sti, .ret]

@[ext] structure Point where
  regs : Reg → Word
  rflags : Rflags
  rip : Word

def point (m : Machine) : Point := ⟨m.regs, m.rflags, m.rip⟩

def regField : Reg → Field
  | .rax => .rax
  | .rcx => .rcx
  | .rdx => .rdx
  | .rbx => .rbx
  | .rsp => .rsp
  | .rbp => .rbp
  | .rsi => .rsi
  | .rdi => .rdi
  | .r8 => .r8
  | .r9 => .r9
  | .r10 => .r10
  | .r11 => .r11
  | .r12 => .r12
  | .r13 => .r13
  | .r14 => .r14
  | .r15 => .r15

/- The point that the context at `ctx` stands for: its `ret` takes `rip` from the resume
   slot, the word that the saved rsp points to, and interrupts are on. -/
def resumePoint (mem : Mem) (ctx : Word) : Point where
  regs r := if r = .rsp then field mem ctx .rsp + 8 else field mem ctx (regField r)
  rflags := (Rflags.ofImage (field mem ctx .rflags)).setInterrupts true
  rip := load64 mem (field mem ctx .rsp)

theorem offset_le (f : Field) : f.offset + 8 ≤ 144 := by
  cases f <;> decide

theorem offset_apart {f g : Field} (h : f ≠ g) : Apart f.offset g.offset := by
  cases f <;> cases g <;> first | exact absurd rfl h | decide

theorem field_bytes (ctx : Word) (f : Field) :
    region (ctx + BitVec.ofNat 64 f.offset) 8 ⊆ bytes ctx :=
  field_subset (offset_le f) (by decide)

variable {mem mem' : Mem} {ctx : Word}

theorem field_congr (h : Set.EqOn mem' mem (bytes ctx)) (f : Field) :
    field mem' ctx f = field mem ctx f :=
  load64_congr (h.mono (field_bytes ctx f))

/-- A context whose bytes and resume slot are not written stands for the same point. -/
theorem resumePoint_congr (h : Set.EqOn mem' mem (bytes ctx))
    (hslot : Set.EqOn mem' mem (region (field mem ctx .rsp) 8)) :
    resumePoint mem' ctx = resumePoint mem ctx := by
  ext1
  · funext r
    simp only [resumePoint, field_congr h]
  · simp only [resumePoint, field_congr h]
  · simp only [resumePoint, field_congr h]
    exact load64_congr hslot

def restoreLoads : List (Reg × Nat) :=
  [(.rsp, 0), (.rbx, 16), (.rbp, 24), (.r12, 32), (.r13, 40), (.r14, 48), (.r15, 56), (.rax, 64),
    (.rcx, 72), (.rdx, 80), (.rsi, 88), (.r8, 104), (.r9, 112), (.r10, 120), (.r11, 128)]

def restoreTail : List Instr :=
  [.pushMem .rdi 136, .btrMem .rsp 0 9, .popfq, .load .rdi .rdi 96, .sti, .ret]

theorem contextSwitchTo_eq :
    contextSwitchTo = restoreLoads.map (fun p => .load p.1 .rdi p.2) ++ restoreTail := rfl

/- Every register but rdi has its load, from its own field. -/
theorem regField_mem {r : Reg} (h : r ≠ .rdi) : (r, (regField r).offset) ∈ restoreLoads := by
  cases r <;> first | exact absurd rfl h | decide

/- The flags image goes through the word below the stack pointer. -/
def imageStored (t : Machine) : Mem :=
  store64 (store64 t.mem (t.regs .rsp - 8) (load64 t.mem (t.address .rdi 136)))
    (t.regs .rsp - 8) (load64 t.mem (t.address .rdi 136) &&& ~~~(1#64 <<< 9))

theorem imageStored_eqOn (t : Machine) :
    Set.EqOn (imageStored t) t.mem (region (t.regs .rsp - 8) 8)ᶜ :=
  (store64_eqOn _ _ _).trans (store64_eqOn _ _ _)

theorem imageStored_load (t : Machine) {a : Word}
    (h : Disjoint (region (t.regs .rsp - 8) 8) (region a 8)) :
    load64 (imageStored t) a = load64 t.mem a :=
  load64_congr ((imageStored_eqOn t).mono h.subset_compl_left)

theorem restoreTail_run (t : Machine) : t.run restoreTail =
    { t with
      regs := Function.update (Function.update t.regs .rdi
        (load64 (imageStored t) (t.address .rdi 96))) .rsp (t.regs .rsp + 8)
      rflags := (Rflags.ofImage
        (load64 t.mem (t.address .rdi 136) &&& ~~~(1#64 <<< 9))).setInterrupts true
      rip := load64 (imageStored t) (t.regs .rsp)
      mem := imageStored t } := by
  simp [restoreTail, Machine.run, Machine.exec, Machine.pushWord, Machine.drop, Machine.top,
    Machine.set, Machine.address, imageStored]

theorem restoreTail_point (t : Machine)
    (h : Disjoint (region (t.regs .rsp - 8) 8) (region (t.address .rdi 96) 8)) :
    point (t.run restoreTail) =
      { regs := Function.update (Function.update t.regs .rdi
          (load64 t.mem (t.address .rdi 96))) .rsp (t.regs .rsp + 8)
        rflags := (Rflags.ofImage (load64 t.mem (t.address .rdi 136))).setInterrupts true
        rip := load64 t.mem (t.regs .rsp) } := by
  have hrdi := imageStored_load t h
  have hrip := imageStored_load t (below_disjoint (n := 8) (by decide))
  rw [restoreTail_run, point, hrdi, hrip, Rflags.setInterrupts_ofImage_btr]

/-- Both routines end in the same restore. It resumes the point that the context in rdi
stands for, if the flags image does not land in that context. -/
theorem contextSwitchTo_point (s : Machine) (hctx : s.regs .rdi = ctx)
    (h : Disjoint (region (field s.mem ctx .rsp - 8) 8) (bytes ctx)) :
    point (s.run contextSwitchTo) = resumePoint s.mem ctx := by
  obtain ⟨hmem, hin, hout⟩ := run_load (m := s) .rdi restoreLoads (by decide) (by decide)
  rw [contextSwitchTo_eq, run_append]
  generalize s.run (restoreLoads.map fun p => .load p.1 .rdi p.2) = t at hmem hin hout
  have hreg (r : Reg) (hr : r ≠ .rdi) : t.regs r = field s.mem ctx (regField r) := by
    rw [hin _ (regField_mem hr), Machine.address, hctx]
    rfl
  have hrdi : t.regs .rdi = ctx := (hout .rdi (by decide)).trans hctx
  have hrsp : t.regs .rsp = field s.mem ctx .rsp := hreg .rsp (by decide)
  have haddr (f : Field) : load64 t.mem (t.address .rdi f.offset) = field s.mem ctx f := by
    rw [Machine.address, hrdi, hmem]
    rfl
  have hdisj : Disjoint (region (t.regs .rsp - 8) 8) (region (t.address .rdi 96) 8) := by
    rw [hrsp, Machine.address, hrdi]
    exact h.mono_right (field_bytes ctx .rdi)
  rw [restoreTail_point t hdisj]
  ext1
  · funext r
    by_cases hsp : r = .rsp
    · subst hsp
      simp [resumePoint, hrsp]
    · by_cases hdi : r = .rdi
      · subst hdi
        simp only [resumePoint, ne_eq, reduceCtorEq, not_false_eq_true, Function.update_of_ne,
          Function.update_self, if_false]
        exact haddr .rdi
      · simp [resumePoint, hsp, hdi, hreg r hdi]
  · exact congrArg (fun v => (Rflags.ofImage v).setInterrupts true) (haddr .rflags)
  · change load64 t.mem (t.regs .rsp) = load64 s.mem (field s.mem ctx .rsp)
    rw [hrsp, hmem]

theorem contextSwitchTo_eqOn (s : Machine) (hctx : s.regs .rdi = ctx) :
    Set.EqOn (s.run contextSwitchTo).mem s.mem (region (field s.mem ctx .rsp - 8) 8)ᶜ := by
  obtain ⟨hmem, hin, _⟩ := run_load (m := s) .rdi restoreLoads (by decide) (by decide)
  rw [contextSwitchTo_eq, run_append, restoreTail_run]
  have hrsp := hin (.rsp, 0) (by decide)
  rw [Machine.address, hctx] at hrsp
  have htail := imageStored_eqOn (s.run (restoreLoads.map fun p => .load p.1 .rdi p.2))
  rw [hrsp, hmem] at htail
  exact htail

def contextSave : List Instr :=
  [.pushfq, .popMem .rdi 136, .cli, .store .rdi 0 .rsp, .load .rax .rsp 0] ++
    [(8, Reg.rax), (16, .rbx), (24, .rbp), (32, .r12), (40, .r13), (48, .r14), (56, .r15)].map
      fun p => .store .rdi p.1 p.2

theorem contextSwitch_eq : contextSwitch = contextSave ++ .mov .rdi .rsi :: contextSwitchTo := rfl

def scratch (s : Machine) : Set Word := region (s.regs .rsp - 8) 8

def pushed (s : Machine) : Mem :=
  storeAll (s.regs .rdi) [(136, s.rflags.bits), (0, s.regs .rsp)]
    (store64 s.mem (s.regs .rsp - 8) s.rflags.bits)

def savedWords (s : Machine) : List (Nat × Word) :=
  [(136, s.rflags.bits), (0, s.regs .rsp), (8, load64 (pushed s) (s.regs .rsp)),
    (16, s.regs .rbx), (24, s.regs .rbp), (32, s.regs .r12), (40, s.regs .r13),
    (48, s.regs .r14), (56, s.regs .r15)]

theorem contextSave_run (s : Machine) : s.run contextSave =
    { s with
      regs := Function.update s.regs .rax (load64 (pushed s) (s.regs .rsp))
      rflags := s.rflags.setInterrupts false
      mem := storeAll (s.regs .rdi) (savedWords s)
        (store64 s.mem (s.regs .rsp - 8) s.rflags.bits) } := by
  have hhead : s.run [.pushfq, .popMem .rdi 136, .cli, .store .rdi 0 .rsp, .load .rax .rsp 0] =
      { s with
        regs := Function.update s.regs .rax (load64 (pushed s) (s.regs .rsp))
        rflags := s.rflags.setInterrupts false
        mem := pushed s } := by
    simp [Machine.run, Machine.exec, Machine.pushWord, Machine.drop, Machine.top, Machine.set,
      Machine.address, pushed, storeAll]
  rw [contextSave, run_append, hhead, run_store]
  simp [savedWords, pushed, storeAll]

theorem savedWords_offset (s : Machine) : ∀ p ∈ savedWords s, p.1 + 8 ≤ 144 := by
  simp [savedWords]

theorem savedWords_apart (s : Machine) :
    (savedWords s).Pairwise fun p q => Apart p.1 q.1 := by
  simp [savedWords, Apart]

/- Outside `old` only the scratch word changes. -/
theorem contextSave_scratch (s : Machine) : Set.EqOn (s.run contextSave).mem
    (store64 s.mem (s.regs .rsp - 8) s.rflags.bits) (bytes (s.regs .rdi))ᶜ := by
  rw [contextSave_run]
  exact storeAll_eqOn (savedWords s) _ (by decide) (savedWords_offset s)

theorem contextSave_eqOn (s : Machine) :
    Set.EqOn (s.run contextSave).mem s.mem (bytes (s.regs .rdi) ∪ scratch s)ᶜ := by
  rw [Set.compl_union]
  exact ((contextSave_scratch s).mono Set.inter_subset_left).trans
    ((store64_eqOn s.mem _ _).mono Set.inter_subset_right)

/-- What the saving half leaves in `old`: the point after an ordinary return from
`context_switch`, as far as the callee-saved registers, rsp and rip go. -/
theorem contextSave_point (s : Machine)
    (h : Disjoint (bytes (s.regs .rdi)) (region (s.regs .rsp - 8) 16)) :
    field (s.run contextSave).mem (s.regs .rdi) .rsp = s.regs .rsp ∧
    resumePoint (s.run contextSave).mem (s.regs .rdi) =
      { regs := fun r =>
          if r = .rsp then s.regs .rsp + 8
          else if r ∈ [.rbx, .rbp, .r12, .r13, .r14, .r15] then s.regs r
          else field (s.run contextSave).mem (s.regs .rdi) (regField r)
        rflags := s.rflags.setInterrupts true
        rip := load64 s.mem (s.regs .rsp) } := by
  have hword {p : Nat × Word} (hp : p ∈ savedWords s) :
      load64 (s.run contextSave).mem (s.regs .rdi + BitVec.ofNat 64 p.1) = p.2 := by
    rw [contextSave_run]
    refine load64_storeAll (savedWords s) _ (fun q hq => ?_) (savedWords_apart s) hp
    exact (savedWords_offset s q hq).trans (by decide)
  have hrsp : field (s.run contextSave).mem (s.regs .rdi) .rsp = s.regs .rsp :=
    hword (p := (0, s.regs .rsp)) (by simp [savedWords])
  have hflags : field (s.run contextSave).mem (s.regs .rdi) .rflags = s.rflags.bits :=
    hword (p := (136, s.rflags.bits)) (by simp [savedWords])
  have hslot : Set.EqOn (s.run contextSave).mem s.mem (region (s.regs .rsp) 8) := by
    refine (contextSave_eqOn s).mono ?_
    rw [Set.compl_union]
    refine Set.subset_inter ?_ ?_
    · have hsub : region (s.regs .rsp) 8 ⊆ region (s.regs .rsp - 8) 16 :=
        region_subset (by bv_omega)
      exact (h.mono_right hsub).subset_compl_left
    · exact (below_disjoint (by decide)).subset_compl_left
  refine ⟨hrsp, ?_⟩
  ext1
  · funext r
    by_cases hr : r = .rsp
    · simp [resumePoint, hr, hrsp]
    · by_cases hc : r ∈ [.rbx, .rbp, .r12, .r13, .r14, .r15]
      · simp only [resumePoint, hr, hc, if_false, if_true]
        refine hword (p := ((regField r).offset, s.regs r)) ?_
        simp only [List.mem_cons, List.not_mem_nil, or_false] at hc
        rcases hc with rfl | rfl | rfl | rfl | rfl | rfl <;> simp [savedWords, regField, Field.offset]
      · simp only [resumePoint, hr, hc, if_false]
  · simp only [resumePoint, hflags, Rflags.ofImage_bits]
  · simp only [resumePoint, hrsp]
    exact load64_congr hslot

end MoltOS.Context
