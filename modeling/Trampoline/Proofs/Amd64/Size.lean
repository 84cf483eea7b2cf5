/-
Trampoline/Proofs/Amd64/Size.lean

How long the code of a call can be.

A load reaches its literal as long as code and literals together are shorter
than 2^31 bytes.  One argument on the stack takes at most thirteen bytes of code,
the arguments in registers are few whatever the call, and the rest is a handful
of instructions.  So the literals of one call can always be placed, for as many
arguments as the stack below the frame has room for.
-/
import Mathlib
import Trampoline.Proofs.Amd64.Call

namespace Trampoline.Amd64

/-! ### Instructions -/

theorem length_loadImm (w : Width) (dst : Gpr) (value : UInt64) :
    (Instr.loadImm w dst value).encode.length ≤ 12 := by
  rw [Instr.loadImm]
  split
  · exact (length_direct _ _ _).2.trans (by decide)
  · split
    · have h := (length_opcode (.movImm dst.low3) 0 dst.code).2
      rw [Instr.encode, List.length_append, Code.length_ofUInt32]
      omega
    · split
      · have h := (length_direct (Opcode.movSignedImm.withWide true) (.digit 0) (.gpr dst)).2
        rw [Instr.encode, List.length_append, Code.length_ofInt32]
        omega
      · have h := (length_opcode ((Opcode.movImm dst.low3).withWide true) 0 dst.code).2
        rw [Instr.encode, List.length_append, Code.length_ofUInt64]
        omega

theorem length_pushImm (imm : Int32) : (Instr.pushImm imm).encode.length ≤ 5 := by
  rw [Instr.encode]
  split
  · exact Nat.le_of_ble_eq_true rfl
  · rw [List.length_cons, Code.length_ofInt32]

theorem length_encodeAll_le (is : List Instr) : (encodeAll is).length ≤ 15 * is.length := by
  induction is with
  | nil => exact le_refl _
  | cons i is ih =>
      have h : i.encode.length ≤ 15 := (length_encode i).2
      rw [encodeAll_cons, List.length_append, List.length_cons]
      omega

/-! ### Arguments -/

/-- An argument on the stack takes few bytes of code. -/
theorem length_pushOperand {frame : Frame} {a : Operand} {is : List Instr}
    (h : pushOperand frame a = .ok is) : (encodeAll is).length ≤ 13 := by
  have hpush : (Instr.push .rax).encode.length = 1 := by decide
  rw [pushOperand] at h
  cases hsource : a.source with
  | literal =>
      rw [hsource] at h
      obtain rfl := Except.ok.inj h
      split
      · have himm := length_pushImm (Instr.lowSigned a.value)
        rw [encodeAll_cons, List.length_append]
        exact Nat.le_trans (Nat.add_le_add_right himm _) (by decide)
      · have himm := length_loadImm .w64 .rax a.value
        rw [encodeAll_cons, encodeAll_cons, List.length_append, List.length_append, hpush]
        exact Nat.add_le_add_right himm _
  | forwarded index =>
      rw [hsource] at h
      obtain ⟨d, -, rfl⟩ := map_eq_ok.mp h
      have hmem := (length_memory .indirect (.digit pushDigit) (.gpr .rbp) (-d)).2
      rw [encodeAll_cons, List.length_append]
      exact Nat.le_trans (Nat.add_le_add_right hmem _) (by decide)
  | scratch index =>
      rw [hsource] at h
      obtain ⟨d, -, rfl⟩ := map_eq_ok.mp h
      have hmem := (length_memory (Opcode.lea.withWide true) (Instr.gprField .rax) (.gpr .rbp) (-d)).2
      rw [encodeAll_cons, encodeAll_cons, List.length_append, List.length_append, hpush]
      exact Nat.le_trans (Nat.add_le_add_right hmem _) (by decide)

theorem length_pushes {frame : Frame} {ops : List Operand} {pushes : List (List Instr)}
    (h : List.Forall₂ (fun a is => pushOperand frame a = .ok is) ops pushes) :
    (encodeAll pushes.flatten).length ≤ 13 * ops.length := by
  induction h with
  | nil => exact le_refl _
  | cons hpush _ ih =>
      have hone := length_pushOperand hpush
      rw [List.flatten_cons, encodeAll_append, List.length_append, List.length_cons]
      omega

/-- The bytes of lines, with those of their literals. -/
def extent (lines : List Line) : Nat :=
  (draft lines).code.length + (Fragment.literalBytes (draft lines).literals).length

theorem extent_append (ls ms : List Line) : extent (ls ++ ms) = extent ls + extent ms := by
  rw [extent, extent, extent, draft_append, Fragment.code_append, Fragment.literals_append,
    Fragment.literalBytes_append, Fragment.literalBytes_shift, List.length_append,
    List.length_append]
  omega

theorem extent_map_instr (is : List Instr) : extent (is.map .instr) = (encodeAll is).length := by
  rw [extent, draft_map_instr]
  rfl

theorem extent_loadOperand {frame : Frame} {dst : Reg} {a : Operand} {line : Line}
    (h : loadOperand frame dst a = .ok line) : extent [line] ≤ 23 := by
  have hinstr : ∀ i : Instr, extent [.instr i] ≤ 23 := by
    intro i
    have hi : i.encode.length ≤ 15 := (length_encode i).2
    have hone := extent_map_instr [i]
    rw [encodeAll_cons, List.length_append] at hone
    rw [show ([.instr i] : List Line) = [i].map .instr from rfl, hone]
    exact Nat.le_trans (Nat.add_le_add_right hi _) (by decide)
  -- only a literal for an SSE register has bytes behind the code
  have hliteral : ∀ p x, extent [.literal p x a.literalBytes] ≤ 23 := by
    intro p x
    have hload : (Instr.sseLoadRip p x 0).encode.length ≤ 15 := (length_encode _).2
    have hsize := a.type.size_le
    have hbytes := Operand.length_literalBytes a
    have heq : extent [.literal p x a.literalBytes]
        = (Instr.sseLoadRip p x 0).encode.length + a.literalBytes.length := by
      simp [extent, draft, Line.toInstr, Line.deferred, Fragment.code_append,
        Fragment.literals_append, Fragment.literalBytes]
    omega
  unfold loadOperand at h
  split at h
  · obtain rfl := Except.ok.inj h
    exact hliteral _ _
  · obtain rfl := Except.ok.inj h
    exact hinstr _
  · obtain ⟨d, -, rfl⟩ := map_eq_ok.mp h
    exact hinstr _
  · obtain ⟨d, -, rfl⟩ := map_eq_ok.mp h
    exact hinstr _
  · obtain ⟨d, -, rfl⟩ := map_eq_ok.mp h
    exact hinstr _
  · cases h

theorem extent_loads {frame : Frame} {xs : List (Reg × Operand)} {loads : List Line}
    (h : List.Forall₂ (fun x line => loadOperand frame x.1 x.2 = .ok line) xs loads) :
    extent loads ≤ 23 * xs.length := by
  induction h with
  | nil => exact le_refl _
  | @cons x line xs loads hload _ ih =>
      have hone := extent_loadOperand hload
      have happend := extent_append [line] loads
      rw [List.singleton_append] at happend
      rw [happend, List.length_cons]
      omega

/-! ### Calls -/

/-- No more arguments are in registers than there are registers for them. -/
theorem length_registerLoads_le {abi : Abi} (hlaw : abi.Lawful) (args : List Operand) :
    ((abi.classify (args.map (·.type))).registerLoads args).length
      ≤ (abi.budget.ints ++ abi.budget.floats).length := by
  have hnodup : (((abi.classify (args.map (·.type))).registerLoads args).map (·.1)).Nodup :=
    Plan.registerLoads_nodup hlaw.nodup _ _
  have hsub : ((abi.classify (args.map (·.type))).registerLoads args).map (·.1)
      ⊆ abi.budget.ints ++ abi.budget.floats := by
    intro r hr
    obtain ⟨x, hx, rfl⟩ := List.mem_map.mp hr
    obtain ⟨i, ha, hp⟩ := Plan.exists_of_mem_registerLoads hx
    rw [abi.placements_classify, abi.getElem?_places, List.getElem?_map, ha] at hp
    have hmem := Budget.mem_of_place_eq_reg (Option.some.inj hp)
    rw [List.mem_append]
    split at hmem
    · exact .inr hmem
    · exact .inl hmem
  have hle := (hnodup.subperm hsub).length_le
  rwa [List.length_map] at hle

theorem length_adjustStack (op : Arith) (bytes : Nat) :
    (encodeAll (adjustStack op bytes)).length ≤ 15 := by
  refine (length_encodeAll_le _).trans ?_
  rw [adjustStack]
  split <;> exact Nat.le_of_ble_eq_true rfl

theorem length_countVectors (abi : Abi) (count : Nat) :
    (encodeAll (countVectors abi count)).length ≤ 15 := by
  refine (length_encodeAll_le _).trans ?_
  rw [countVectors]
  split <;> exact Nat.le_of_ble_eq_true rfl

/-- The code of a call takes at most thirteen bytes for each argument on the stack, and some for
the rest. -/
theorem extent_callLines {abi : Abi} (hlaw : abi.Lawful) {frame : Frame} {site : CallSite}
    {lines : List Line} (h : callLines abi frame site = .ok lines) :
    extent lines ≤ 13 * site.args.length
      + 23 * (abi.budget.ints ++ abi.budget.floats).length + 90 := by
  obtain ⟨pushes, loads, hpushes, hloads, rfl⟩ := callLines_eq_ok.mp h
  have hpush := length_pushes hpushes
  have hload := extent_loads hloads
  have hregs : ((abi.classify site.types).registerLoads site.args).length
      ≤ (abi.budget.ints ++ abi.budget.floats).length := length_registerLoads_le hlaw site.args
  have hstack : ((abi.classify site.types).stackOperands site.args).length ≤ site.args.length := by
    have hle := abi.stacked_le site.types
    rw [CallSite.types, ← abi.length_stackOperands, List.length_map] at hle
    exact hle
  have hpad := length_adjustStack .sub (callPad frame (abi.classify site.types))
  have hshadow := length_adjustStack .sub abi.shadowSpace
  have hcount := length_countVectors abi ((abi.classify site.types).floatRegCount site.args)
  have hafter := length_adjustStack .add (callDepth abi frame site)
  have htarget := length_loadImm .w64 .r11 site.callee
  have hcall : (Instr.call .r11).encode.length ≤ 15 := by decide
  rw [List.length_reverse] at hpush
  rw [List.length_append] at hregs
  rw [extent_append, extent_append, extent_map_instr, extent_map_instr]
  simp only [encodeAll_append, encodeAll_cons, List.length_append, List.cons_append,
    List.nil_append]
  omega

/-- The literals of a call can be placed. -/
theorem exists_resolve_call {target : Target} {abi : Abi} (htarget : target.abi? = some abi)
    {frame : Frame} {site : CallSite} (hargs : site.args.length < 2 ^ 27) {lines : List Line}
    (h : callLines abi frame site = .ok lines) :
    ∃ g placed, (draft lines).resolve = .ok (g, placed) := by
  have hextent := extent_callLines (Abi.lawful_of_target htarget) h
  have hbudget : (abi.budget.ints ++ abi.budget.floats).length ≤ 14 := by
    cases target with
    | systemV =>
        cases htarget
        decide
    | microsoft =>
        cases htarget
        decide
    | ia32 => cases htarget
  refine Fragment.exists_resolve (closed_draft lines) ?_
  rw [extent] at hextent
  omega

end Trampoline.Amd64
