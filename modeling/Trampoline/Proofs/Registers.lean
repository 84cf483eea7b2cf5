/-
Trampoline/Proofs/Registers.lean

Which registers the code of a trampoline names.

The code has registers of its own (`ownRegs`): the frame pointer, the stack
pointer, one that is free between arguments, and one for the address of a
callee.  A call names any other register only where it loads an argument into
it, and a prologue names only those that a parameter comes in.

No convention passes an argument in one of the code's own registers.  With the
laws of a plan this says that no argument is lost on the way to its callee:
`arguments_kept_apart`.
-/
import Mathlib
import Trampoline.Proofs.Classification
import Trampoline.Proofs.Amd64.Call
import Trampoline.Proofs.Ia32.Call

namespace Trampoline

/-! ### x86-64 -/

namespace Amd64

/-- The registers that an instruction names. -/
def Instr.regs : Instr → List Reg
  | arith _ _ dst _ | clear dst | movImm32 dst _ | movSigned dst _ | movImm64 dst _ => [.gpr dst]
  | mov _ dst src => [.gpr dst, .gpr src]
  | load _ dst base _ | loadZero _ dst base _ | lea dst base _ => [.gpr dst, .gpr base]
  | store _ src base _ => [.gpr src, .gpr base]
  | sseLoad _ x base _ | sseSpill x base _ => [.xmm x, .gpr base]
  | sseLoadRip _ dst _ => [.xmm dst]
  | pushMem base _ => [.gpr base]
  | push r | pop r | call r => [.gpr r]
  | pushImm _ | ret => []

/-- The registers that the code uses itself: the frame pointer, the stack pointer, the one that is
free between arguments, and the one that holds the address of a callee. -/
def ownRegs : List Reg := [.gpr .rbp, .gpr .rsp, .gpr .rax, .gpr .r11]

theorem regs_loadImm (w : Width) (dst : Gpr) (value : UInt64) :
    (Instr.loadImm w dst value).regs = [.gpr dst] := by
  rw [Instr.loadImm]
  split
  · rfl
  split
  · rfl
  split <;> rfl

theorem regs_adjustStack (op : Arith) (n : Nat) : ∀ i ∈ adjustStack op n, i.regs ⊆ ownRegs := by
  rw [adjustStack]
  split
  · exact List.forall_mem_nil _
  · exact List.forall_mem_singleton.mpr (show [Reg.gpr .rsp] ⊆ ownRegs by decide)

theorem regs_countVectors (abi : Abi) (count : Nat) :
    ∀ i ∈ countVectors abi count, i.regs ⊆ ownRegs := by
  rw [countVectors]
  split
  · rw [List.forall_mem_singleton, regs_loadImm]
    decide
  · exact List.forall_mem_nil _

theorem regs_pushOperand {frame : Frame} {a : Operand} {is : List Instr}
    (h : pushOperand frame a = .ok is) : ∀ i ∈ is, i.regs ⊆ ownRegs := by
  rw [pushOperand] at h
  cases hsource : a.source with
  | literal =>
      rw [hsource] at h
      obtain rfl := Except.ok.inj h
      split
      · exact List.forall_mem_singleton.mpr (List.nil_subset _)
      · rw [List.forall_mem_cons, List.forall_mem_singleton, regs_loadImm]
        decide
  | forwarded index =>
      rw [hsource] at h
      obtain ⟨d, -, rfl⟩ := map_eq_ok.mp h
      rw [List.forall_mem_singleton]
      show [Reg.gpr .rbp] ⊆ ownRegs
      decide
  | scratch index =>
      rw [hsource] at h
      obtain ⟨d, -, rfl⟩ := map_eq_ok.mp h
      rw [List.forall_mem_cons, List.forall_mem_singleton]
      show [Reg.gpr .rax, .gpr .rbp] ⊆ ownRegs ∧ [Reg.gpr .rax] ⊆ ownRegs
      decide

/-- The load of an argument names the argument's register, and the frame pointer when the argument
lies in the frame. -/
theorem regs_loadOperand {frame : Frame} {dst : Reg} {a : Operand} {line : Line}
    (h : loadOperand frame dst a = .ok line) : line.toInstr.regs ⊆ [dst, .gpr .rbp] := by
  unfold loadOperand at h
  cases hsource : a.source with
  | literal =>
      rw [hsource] at h
      cases dst with
      | gpr r =>
          obtain rfl := Except.ok.inj h
          rw [Line.toInstr, regs_loadImm]
          simp
      | xmm x =>
          obtain rfl := Except.ok.inj h
          simp [Line.toInstr, Instr.regs]
  | forwarded index =>
      rw [hsource] at h
      cases dst with
      | gpr r =>
          obtain ⟨d, -, rfl⟩ := map_eq_ok.mp h
          cases a.type <;> exact List.Subset.refl _
      | xmm x =>
          obtain ⟨d, -, rfl⟩ := map_eq_ok.mp h
          exact List.Subset.refl _
  | scratch index =>
      rw [hsource] at h
      cases dst with
      | gpr r =>
          obtain ⟨d, -, rfl⟩ := map_eq_ok.mp h
          exact List.Subset.refl _
      | xmm x => cases h

/-- A call names registers of its own, and the register of an argument where it loads it. -/
theorem regs_callLines {abi : Abi} {frame : Frame} {site : CallSite} {lines : List Line}
    (h : callLines abi frame site = .ok lines) {line : Line} (hline : line ∈ lines) {r : Reg}
    (hr : r ∈ line.toInstr.regs) :
    r ∈ ownRegs ∨ ∃ a, (r, a) ∈ (abi.classify site.types).registerLoads site.args ∧
      loadOperand frame r a = .ok line := by
  obtain ⟨pushes, loads, hpushes, hloads, rfl⟩ := callLines_eq_ok.mp h
  have hpush : ∀ i ∈ pushes.flatten, i.regs ⊆ ownRegs :=
    forall_mem_flatten_of_forall₂ regs_pushOperand hpushes
  rw [List.mem_append, List.mem_append, List.mem_map, List.mem_map] at hline
  rcases hline with ⟨i, hi, rfl⟩ | hload | ⟨i, hi, rfl⟩
  · left
    rw [List.mem_append, List.mem_append] at hi
    rcases hi with hi | hi | hi
    · exact regs_adjustStack _ _ i hi hr
    · exact hpush i hi hr
    · exact regs_adjustStack _ _ i hi hr
  · obtain ⟨x, hx, hload⟩ := exists_of_forall₂ hloads hload
    rcases List.mem_pair.mp (regs_loadOperand hload hr) with rfl | rfl
    · exact .inr ⟨x.2, hx, hload⟩
    · exact .inl (by decide)
  · left
    rw [List.mem_append, List.mem_append, List.mem_singleton, List.mem_cons] at hi
    rcases hi with hi | rfl | rfl | hi
    · exact regs_countVectors _ _ i hi hr
    · rw [Line.toInstr, regs_loadImm, List.mem_singleton] at hr
      rw [hr]
      decide
    · obtain rfl := List.mem_singleton.mp hr
      decide
    · exact regs_adjustStack _ _ i hi hr

/-- Storing the parameters names registers of the code, and those that parameters come in. -/
theorem regs_homeFrom (abi : Abi) (k : Nat) (l : List (HomeSlot × Placement Reg)) :
    ∀ i ∈ homeFrom abi k l, ∀ r ∈ i.regs, r ∈ ownRegs ∨ ∃ slot, (slot, .reg r) ∈ l := by
  induction l generalizing k with
  | nil => exact List.forall_mem_nil _
  | cons x l ih =>
      have hlater : ∀ k, ∀ i ∈ homeFrom abi k l, ∀ r ∈ i.regs,
          r ∈ ownRegs ∨ ∃ slot, (slot, .reg r) ∈ x :: l := by
        intro k i hi r hr
        refine (ih k i hi r hr).imp_right ?_
        rintro ⟨slot, hslot⟩
        exact ⟨slot, List.mem_cons_of_mem _ hslot⟩
      have hframe : Reg.gpr .rbp ∈ ownRegs := by decide
      obtain ⟨slot, place⟩ := x
      rcases place with (r | x) | -
      · refine List.forall_mem_cons.mpr ⟨?_, hlater k⟩
        show ∀ q ∈ [Reg.gpr r, .gpr .rbp], _
        rw [List.forall_mem_cons, List.forall_mem_singleton]
        exact ⟨.inr ⟨slot, List.mem_cons_self⟩, .inl hframe⟩
      · refine List.forall_mem_cons.mpr ⟨?_, hlater k⟩
        show ∀ q ∈ [Reg.xmm x, .gpr .rbp], _
        rw [List.forall_mem_cons, List.forall_mem_singleton]
        exact ⟨.inr ⟨slot, List.mem_cons_self⟩, .inl hframe⟩
      · have hown : ∀ q ∈ [Reg.gpr .rax, .gpr .rbp], q ∈ ownRegs := by decide
        refine List.forall_mem_cons.mpr ⟨fun q hq => .inl (hown q hq), ?_⟩
        exact List.forall_mem_cons.mpr ⟨fun q hq => .inl (hown q hq), hlater (k + 1)⟩

theorem regs_prologue {abi : Abi} {frame : Frame} {i : Instr} (hi : i ∈ prologue abi frame)
    {r : Reg} (hr : r ∈ i.regs) : r ∈ ownRegs ∨ ∃ slot, (slot, .reg r) ∈ homes abi frame := by
  have hopen : ∀ i ∈ [Instr.push .rbp, .mov .w64 .rbp .rsp], i.regs ⊆ ownRegs := by decide
  rw [prologue, List.mem_append, List.mem_append] at hi
  rcases hi with (hi | hi) | hi
  · exact .inl (hopen i hi hr)
  · exact .inl (regs_adjustStack _ _ i hi hr)
  · exact regs_homeFrom abi 0 _ i hi r hr

theorem regs_epilogue (frame : Frame) : ∀ i ∈ epilogue frame, i.regs ⊆ ownRegs := by
  rw [epilogue, List.forall_mem_append]
  exact ⟨regs_adjustStack _ _, by decide⟩

end Amd64

/-! ### IA-32 -/

namespace Ia32

/-- The general-purpose registers that an instruction names. -/
def Instr.regs : Instr → List Gpr
  | arith _ dst _ | clear dst | movImm dst _ => [dst]
  | mov dst src => [dst, src]
  | load dst base _ | loadZero _ dst base _ | lea dst base _ => [dst, base]
  | store src base _ => [src, base]
  | sseLoad _ _ base _ | sseStore _ _ base _ | pushMem base _ => [base]
  | push r | pop r | call r => [r]
  | pushImm _ | pushCs | ret => []

/-- The registers that the code uses itself: the frame pointer, the stack pointer, and the one that
is free between arguments and then holds the address of a callee. -/
def ownRegs : List Gpr := [.ebp, .esp, .eax]

theorem regs_loadImm (dst : Gpr) (value : UInt32) : (Instr.loadImm dst value).regs = [dst] := by
  rw [Instr.loadImm]
  split <;> rfl

theorem regs_adjustStack (op : Arith) (n : Nat) : ∀ i ∈ adjustStack op n, i.regs ⊆ ownRegs := by
  rw [adjustStack]
  split
  · exact List.forall_mem_nil _
  · exact List.forall_mem_singleton.mpr (show [Gpr.esp] ⊆ ownRegs by decide)

theorem regs_homeSlot (slot : HomeSlot) (source : Int32) :
    ∀ i ∈ homeSlot slot source, i.regs ⊆ ownRegs := by
  have hframe : [Gpr.ebp] ⊆ ownRegs := by decide
  have hfree : [Gpr.eax, .ebp] ⊆ ownRegs := by decide
  rw [homeSlot]
  split
  · exact List.forall_mem_cons.mpr ⟨hframe, List.forall_mem_singleton.mpr hframe⟩
  have hpart : ∀ s d : Int32, ∀ i ∈ [Instr.load .eax .ebp s, .store .eax .ebp d],
      i.regs ⊆ ownRegs := fun _ _ =>
    List.forall_mem_cons.mpr ⟨hfree, List.forall_mem_singleton.mpr hfree⟩
  split
  · exact List.forall_mem_append.mpr ⟨hpart _ _, hpart _ _⟩
  · exact hpart _ _

theorem regs_prologue (frame : Frame) : ∀ i ∈ prologue frame, i.regs ⊆ ownRegs := by
  rw [prologue, List.forall_mem_append, List.forall_mem_append]
  refine ⟨⟨by decide, regs_adjustStack _ _⟩, ?_⟩
  intro i hi
  obtain ⟨x, -, hi⟩ := List.mem_flatMap.mp hi
  exact regs_homeSlot x.1 x.2 i hi

theorem regs_epilogue (frame : Frame) : ∀ i ∈ epilogue frame, i.regs ⊆ ownRegs := by
  rw [epilogue, List.forall_mem_append]
  exact ⟨regs_adjustStack _ _, by decide⟩

theorem regs_pushOperand {frame : Frame} {a : Operand} {is : List Instr}
    (h : pushOperand frame a = .ok is) : ∀ i ∈ is, i.regs ⊆ ownRegs := by
  rw [pushOperand] at h
  cases hsource : a.source with
  | literal =>
      rw [hsource] at h
      obtain rfl := Except.ok.inj h
      have himm : ∀ imm, (Instr.pushImm imm).regs ⊆ ownRegs := fun _ => List.nil_subset _
      split
      · exact List.forall_mem_cons.mpr ⟨himm _, List.forall_mem_singleton.mpr (himm _)⟩
      · exact List.forall_mem_singleton.mpr (himm _)
  | forwarded index =>
      rw [hsource] at h
      obtain ⟨d, -, rfl⟩ := map_eq_ok.mp h
      have hframe : [Gpr.ebp] ⊆ ownRegs := by decide
      show ∀ i ∈ (if isLong a.type then _ else _), _
      split
      · exact List.forall_mem_cons.mpr ⟨hframe, List.forall_mem_singleton.mpr hframe⟩
      · exact List.forall_mem_singleton.mpr hframe
  | scratch index =>
      rw [hsource] at h
      obtain ⟨d, -, rfl⟩ := map_eq_ok.mp h
      rw [List.forall_mem_cons, List.forall_mem_singleton]
      show [Gpr.eax, .ebp] ⊆ ownRegs ∧ [Gpr.eax] ⊆ ownRegs
      decide

/-- The load of an argument names the argument's register, and the frame pointer when the argument
lies in the frame. -/
theorem regs_loadOperand {frame : Frame} {dst : Gpr} {a : Operand} {i : Instr}
    (h : loadOperand frame dst a = .ok i) : i.regs ⊆ [dst, .ebp] := by
  rw [loadOperand] at h
  cases hsource : a.source with
  | literal =>
      rw [hsource] at h
      obtain rfl := Except.ok.inj h
      rw [regs_loadImm]
      simp
  | forwarded index =>
      rw [hsource] at h
      obtain ⟨d, -, rfl⟩ := map_eq_ok.mp h
      cases a.type <;> exact List.Subset.refl _
  | scratch index =>
      rw [hsource] at h
      obtain ⟨d, -, rfl⟩ := map_eq_ok.mp h
      exact List.Subset.refl _

theorem regs_segment (site : CallSite) : ∀ i ∈ segment site, i.regs ⊆ ownRegs := by
  rw [segment]
  split
  · rw [List.forall_mem_cons, List.forall_mem_singleton, regs_loadImm]
    decide
  · exact List.forall_mem_nil _

/-- A call names registers of its own, and the register of an argument where it loads it. -/
theorem regs_callInstrs {frame : Frame} {site : CallSite} {is : List Instr}
    (h : callInstrs frame site = .ok is) {i : Instr} (hi : i ∈ is) {r : Gpr} (hr : r ∈ i.regs) :
    r ∈ ownRegs ∨
      ∃ a, (r, a) ∈ (classify site.convention site.types).registerLoads site.args ∧
        loadOperand frame r a = .ok i := by
  obtain ⟨pushes, loads, hpushes, hloads, rfl⟩ := callInstrs_eq_ok h
  have hpush : ∀ i ∈ pushes.flatten, i.regs ⊆ ownRegs :=
    forall_mem_flatten_of_forall₂ regs_pushOperand hpushes
  rw [readying, List.mem_append, List.mem_append, List.mem_append, List.mem_append, List.mem_append,
    List.mem_cons] at hi
  rcases hi with (hi | hi | hload | hi) | hi | rfl | hi
  · exact .inl (regs_adjustStack _ _ i hi hr)
  · exact .inl (hpush i hi hr)
  · obtain ⟨x, hx, hload⟩ := exists_of_forall₂ hloads hload
    rcases List.mem_pair.mp (regs_loadOperand hload hr) with rfl | rfl
    · exact .inr ⟨x.2, hx, hload⟩
    · exact .inl (by decide)
  · split at hi
    · cases hi
    · obtain rfl := List.mem_singleton.mp hi
      rw [regs_loadImm, List.mem_singleton] at hr
      rw [hr]
      exact .inl (by decide)
  · exact .inl (regs_segment site i hi hr)
  · obtain rfl := List.mem_singleton.mp hr
    exact .inl (by decide)
  · exact .inl (regs_adjustStack _ _ i hi hr)

end Ia32

/-! ### Arguments apart from the code -/

/-- What a convention does so that the code of a trampoline and its arguments do not meet in a
register. -/
structure Amd64.Abi.KeepsApart (abi : Amd64.Abi) : Prop where
  /-- No register is listed twice. -/
  nodup : (abi.budget.ints ++ abi.budget.floats).Nodup
  notMem_ownRegs : ∀ r ∈ abi.budget.ints ++ abi.budget.floats, r ∉ Amd64.ownRegs
  prologue : ∀ {frame : Frame} {i : Instr}, i ∈ Amd64.prologue abi frame → ∀ r ∈ i.regs,
    r ∈ Amd64.ownRegs ∨ ∃ slot, (slot, .reg r) ∈ Amd64.homes abi frame
  call : ∀ {frame : Frame} {site : CallSite} {lines : List Line},
    Amd64.callLines abi frame site = .ok lines → ∀ line ∈ lines, ∀ r ∈ line.toInstr.regs,
      r ∈ Amd64.ownRegs ∨ ∃ a, (r, a) ∈ (abi.classify site.types).registerLoads site.args ∧
        Amd64.loadOperand frame r a = .ok line
  epilogue : ∀ frame : Frame, ∀ i ∈ Amd64.epilogue frame, i.regs ⊆ Amd64.ownRegs

/-- What a convention does so that the code of a call and its arguments do not meet in a
register. -/
structure Ia32.KeepsApart (c : Convention) : Prop where
  /-- No register is listed twice. -/
  nodup : ((budget c).ints ++ (budget c).floats).Nodup
  notMem_ownRegs : ∀ r ∈ (budget c).ints ++ (budget c).floats, r ∉ ownRegs
  prologue : ∀ frame : Frame, ∀ i ∈ Ia32.prologue frame, i.regs ⊆ ownRegs
  call : ∀ {frame : Frame} {site : CallSite} {is : List Instr}, site.convention = c →
    callInstrs frame site = .ok is → ∀ i ∈ is, ∀ r ∈ i.regs,
      r ∈ ownRegs ∨ ∃ a, (r, a) ∈ (classify c site.types).registerLoads site.args ∧
        loadOperand frame r a = .ok i
  epilogue : ∀ frame : Frame, ∀ i ∈ Ia32.epilogue frame, i.regs ⊆ ownRegs

theorem Amd64.keepsApart {abi : Abi} (habi : abi ∈ [Abi.systemV, Abi.microsoft]) :
    abi.KeepsApart where
  nodup := by revert abi; decide
  notMem_ownRegs := by revert abi; decide
  prologue hi _ hr := regs_prologue hi hr
  call h _ hline _ hr := regs_callLines h hline hr
  epilogue := regs_epilogue

theorem Ia32.keepsApart (c : Convention) : KeepsApart c where
  nodup := by cases c <;> decide
  notMem_ownRegs := by cases c <;> decide
  prologue := regs_prologue
  call := by
    rintro frame site is rfl h i hi r hr
    exact regs_callInstrs h hi hr
  epilogue := regs_epilogue

/-- **No argument is lost, doubled, or put where another one is**, as long as no register is listed
twice.  The conventions in use list each register once and leave the code its own, so a call names
the register of an argument only where it loads the argument. -/
theorem arguments_kept_apart :
    (∀ {R : Type} [DecidableEq R] (b : Budget R) (eligible : ValueType → Bool)
      (types : List ValueType), (b.ints ++ b.floats).Nodup →
      (b.classify eligible types).Accounts b types) ∧
    (∀ abi ∈ [Amd64.Abi.systemV, Amd64.Abi.microsoft], abi.KeepsApart) ∧
    ∀ c : Convention, Ia32.KeepsApart c := by
  refine ⟨?_, ?_, Ia32.keepsApart⟩
  · intro R _ b eligible types hnd
    exact b.accounts_classify hnd eligible types
  · intro abi habi
    exact Amd64.keepsApart habi

/-- Six arguments under the positional rule, two of them past the registers.  The register of the
first one is named only where it is loaded. -/
theorem arguments_kept_apart_six :
    let site : CallSite := ⟨[.literal .dword 1, .literal .float 2, .literal .qword 3,
      .literal .double 4, .literal .byte 5, .literal .float 6], 4096, .cdecl, false⟩
    (Amd64.Abi.microsoft.budget.ints ++ Amd64.Abi.microsoft.budget.floats).Nodup ∧
      (Amd64.Abi.microsoft.classify site.types).Accounts Amd64.Abi.microsoft.budget site.types ∧
      ∃ lines, Amd64.callLines .microsoft {} site = .ok lines ∧
        ∀ line ∈ lines, .gpr .rcx ∈ line.toInstr.regs →
          ∃ a, Amd64.loadOperand {} (.gpr .rcx) a = .ok line := by
  intro site
  obtain ⟨lines, hlines⟩ := Amd64.exists_callLines Amd64.Abi.lawful_microsoft
    (show ∀ a ∈ site.args, a.ValidIn {} by decide)
  refine ⟨by decide, arguments_kept_apart.1 _ _ _ (by decide), lines, hlines, ?_⟩
  intro line hline hrcx
  have hcall := (arguments_kept_apart.2.1 .microsoft (by decide)).call hlines line hline _ hrcx
  rcases hcall with hown | ⟨a, -, ha⟩
  · exact absurd hown (by decide)
  · exact ⟨a, ha⟩

end Trampoline
