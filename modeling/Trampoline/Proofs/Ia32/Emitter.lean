/-
Trampoline/Proofs/Ia32/Emitter.lean

Whatever is asked of the emitter can be read off the bytes, on IA-32.

Requests name an instruction by its operands and are written one after the other
to a buffer that may hold code already.  What was written is decoded into one
instruction for each request (`decodeAll_written`).  A register gets a number in one
of two forms: zero by exclusive or of the register with itself, and any other
number as an immediate.
-/
import Mathlib
import Trampoline.Proofs.Ia32.Decode

namespace Trampoline.Ia32

/-! ### Requests -/

/-- An instruction asked for by its operands. -/
inductive Request
  | arith (op : Arith) (dst : Gpr) (imm : Int32)
  | mov (dst src : Gpr)
  /-- A number for a register. -/
  | number (dst : Gpr) (value : UInt32)
  | load (dst base : Gpr) (disp : Int32)
  | loadZero (narrow : Narrow) (dst base : Gpr) (disp : Int32)
  | store (src base : Gpr) (disp : Int32)
  | lea (dst base : Gpr) (disp : Int32)
  | sseLoad (precision : Precision) (dst : Xmm) (base : Gpr) (disp : Int32)
  | sseStore (precision : Precision) (src : Xmm) (base : Gpr) (disp : Int32)
  | push (src : Gpr)
  | pop (dst : Gpr)
  | pushImm (imm : Int32)
  | pushMem (base : Gpr) (disp : Int32)
  | pushCs
  | call (target : Gpr)
  | ret
  deriving DecidableEq, Repr

namespace Request

/-- The instruction that is written for a request. -/
def instr : Request → Except Fault Instr
  | arith op dst imm => .ok (.arith op dst imm)
  | mov dst src => .ok (.mov dst src)
  | number dst value => .ok (.loadImm dst value)
  | load dst base disp => .ok (.load dst base disp)
  | loadZero n dst base disp => .ok (.loadZero n dst base disp)
  | store src base disp => .ok (.store src base disp)
  | lea dst base disp => .ok (.lea dst base disp)
  | sseLoad p dst base disp => Instr.ofSseLoad p (.xmm dst) (.gpr base) disp
  | sseStore p src base disp => Instr.ofSseStore p (.xmm src) (.gpr base) disp
  | push src => .ok (.push src)
  | pop dst => .ok (.pop dst)
  | pushImm imm => .ok (.pushImm imm)
  | pushMem base disp => .ok (.pushMem base disp)
  | pushCs => .ok .pushCs
  | call target => .ok (.call target)
  | ret => .ok .ret

/-- Writes one instruction behind `code`. -/
def write (code : Code) (r : Request) : Except Fault Code := r.instr.map (code ++ ·.encode)

/-- Whether an instruction is what a request is for: the same operation, registers, displacement
and immediate. -/
def Asks : Request → Instr → Prop
  | arith op dst imm, i => i = .arith op dst imm
  | mov dst src, i => i = .mov dst src
  | number dst value, i => value = 0 ∧ i = .clear dst ∨ value ≠ 0 ∧ i = .movImm dst value
  | load dst base disp, i => i = .load dst base disp
  | loadZero n dst base disp, i => i = .loadZero n dst base disp
  | store src base disp, i => i = .store src base disp
  | lea dst base disp, i => i = .lea dst base disp
  | sseLoad p dst base disp, i => i = .sseLoad p dst base disp
  | sseStore p src base disp, i => i = .sseStore p src base disp
  | push src, i => i = .push src
  | pop dst, i => i = .pop dst
  | pushImm imm, i => i = .pushImm imm
  | pushMem base disp, i => i = .pushMem base disp
  | pushCs, i => i = .pushCs
  | call target, i => i = .call target
  | ret, i => i = .ret

theorem exists_instr (r : Request) : ∃ i, r.instr = .ok i ∧ r.Asks i := by
  cases r with
  | number dst value =>
      refine ⟨_, rfl, ?_⟩
      show value = 0 ∧ Instr.loadImm dst value = _ ∨ value ≠ 0 ∧ Instr.loadImm dst value = _
      rw [Instr.loadImm]
      by_cases hzero : value = 0
      · exact .inl ⟨hzero, if_pos hzero⟩
      · exact .inr ⟨hzero, if_neg hzero⟩
  | _ => exact ⟨_, rfl, rfl⟩

end Request

/-! ### The round trip -/

/-- Writing requests one after the other appends the bytes of one instruction for each. -/
theorem foldlM_write (rs : List Request) (front : Code) :
    ∃ is, rs.foldlM Request.write front = .ok (front ++ encodeAll is) ∧
      List.Forall₂ Request.Asks rs is := by
  induction rs generalizing front with
  | nil => exact ⟨[], by simp [encodeAll, pure, Except.pure], .nil⟩
  | cons r rs ih =>
      obtain ⟨i, hi, hasks⟩ := r.exists_instr
      obtain ⟨is, hrest, hall⟩ := ih (front ++ i.encode)
      refine ⟨i :: is, ?_, .cons hasks hall⟩
      rw [List.foldlM_cons, Request.write, hi, encodeAll_cons, ← List.append_assoc]
      exact hrest

/-- Writing never fails, and what was written is decoded into the instructions that were asked for,
one for each request, with no byte left over. -/
theorem decodeAll_written (front : Code) (rs : List Request) :
    ∃ code is, rs.foldlM Request.write front = .ok (front ++ code) ∧
      decodeAll code = some is ∧ List.Forall₂ Request.Asks rs is := by
  obtain ⟨is, hwrite, hall⟩ := foldlM_write rs front
  exact ⟨encodeAll is, is, hwrite, decodeAll_encodeAll is, hall⟩

end Trampoline.Ia32
