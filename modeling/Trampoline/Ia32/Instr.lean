/-
Trampoline/Ia32/Instr.lean

The IA-32 instructions that trampolines are made of, and their bytes.  The
opcodes are those of x86-64 without a REX byte, and all general-purpose operands
have 32 bits.
-/
import Trampoline.Isa.Opcode
import Trampoline.Isa.ModRm
import Trampoline.Ia32.Register

namespace Trampoline.Ia32

/-! ### Opcodes with operands -/

/-- An opcode with its marker and its escape.  There are no wide operands. -/
def opcode (op : Opcode) : Code := op.markerBytes ++ op.tailBytes

/-- An opcode with a register operand.  The field is a register number or a digit. -/
def direct (op : Opcode) (field : UInt8) (rm : Reg) : Code :=
  opcode op ++ [ModRm.direct field rm.code]

/-- An opcode with a memory operand at a base register. -/
def memory (op : Opcode) (field : UInt8) (base : Reg) (offset : Int32) : Code :=
  opcode op ++ ModRm.memory field base.code offset

/-! ### Instructions -/

/-- An instruction. -/
inductive Instr
  /-- Adds an immediate to a register, or subtracts it. -/
  | arith (op : Arith) (dst : Gpr) (imm : Int32)
  /-- Moves a register to a register. -/
  | mov (dst src : Gpr)
  /-- Clears a register by exclusive or with itself. -/
  | clear (dst : Gpr)
  /-- Moves an immediate to a register. -/
  | movImm (dst : Gpr) (imm : UInt32)
  /-- Loads a register from memory. -/
  | load (dst base : Gpr) (disp : Int32)
  /-- Loads a narrow value and fills the register up with zeros. -/
  | loadZero (narrow : Narrow) (dst base : Gpr) (disp : Int32)
  /-- Stores a register to memory. -/
  | store (src base : Gpr) (disp : Int32)
  /-- Loads the address of a memory operand. -/
  | lea (dst base : Gpr) (disp : Int32)
  /-- Loads a scalar floating value. -/
  | sseLoad (precision : Precision) (dst : Xmm) (base : Gpr) (disp : Int32)
  /-- Stores a scalar floating value. -/
  | sseStore (precision : Precision) (src : Xmm) (base : Gpr) (disp : Int32)
  | push (src : Gpr)
  | pop (dst : Gpr)
  /-- Pushes a sign-extended immediate. -/
  | pushImm (imm : Int32)
  /-- Pushes four bytes of memory. -/
  | pushMem (base : Gpr) (disp : Int32)
  /-- Pushes the code segment, which makes the next call look far to its callee. -/
  | pushCs
  /-- Calls the address that a register holds. -/
  | call (target : Gpr)
  | ret
  deriving DecidableEq, Repr

namespace Instr

/-- The bytes of an instruction.  An immediate takes one byte where one byte holds it. -/
def encode : Instr → Code
  | arith op dst imm =>
      if Displacement.fitsByte imm then
        direct .arithImm8 op.digit (.gpr dst) ++ [imm.toInt8.toUInt8]
      else
        direct .arithImm32 op.digit (.gpr dst) ++ Code.ofInt32 imm
  | mov dst src => direct .movStore src.code (.gpr dst)
  | clear dst => direct .xorReg dst.code (.gpr dst)
  | movImm dst imm => opcode (.movImm dst.code) ++ Code.ofUInt32 imm
  | load dst base disp => memory .movLoad dst.code (.gpr base) disp
  | loadZero n dst base disp => memory n.opcode dst.code (.gpr base) disp
  | store src base disp => memory .movStore src.code (.gpr base) disp
  | lea dst base disp => memory .lea dst.code (.gpr base) disp
  | sseLoad p dst base disp => memory (.sseLoad p) dst.code (.gpr base) disp
  | sseStore p src base disp => memory (.sseStore p) src.code (.gpr base) disp
  | push src => opcode (.push src.code)
  | pop dst => opcode (.pop dst.code)
  | pushImm imm =>
      if Displacement.fitsByte imm then [0x6A, imm.toInt8.toUInt8]
      else 0x68 :: Code.ofInt32 imm
  | pushMem base disp => memory .indirect pushDigit (.gpr base) disp
  | pushCs => [0x0E]
  | call target => direct .indirect callDigit (.gpr target)
  | ret => [0xC3]

/-- The instruction that puts a number into a register. -/
def loadImm (dst : Gpr) (value : UInt32) : Instr :=
  if value = 0 then clear dst else movImm dst value

/-! ### Constructors that take a register of either file -/

/-- A scalar load; the destination has to be an SSE register. -/
def ofSseLoad (p : Precision) (dst base : Reg) (disp : Int32) : Except Fault Instr :=
  match dst with
  | .xmm x => .ok (sseLoad p x base.general disp)
  | r => .error (.sseLoad r.spelling)

/-- A scalar store; the source has to be an SSE register. -/
def ofSseStore (p : Precision) (src base : Reg) (disp : Int32) : Except Fault Instr :=
  match src with
  | .xmm x => .ok (sseStore p x base.general disp)
  | r => .error (.sseStore r.spelling)

end Instr

/-- The bytes of a sequence of instructions. -/
def encodeAll (is : List Instr) : Code := is.flatMap Instr.encode

end Trampoline.Ia32
