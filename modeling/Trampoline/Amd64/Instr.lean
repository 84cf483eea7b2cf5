/-
Trampoline/Amd64/Instr.lean

The x86-64 instructions that trampolines are made of, and their bytes.

An instruction is data: `Instr.encode` gives its bytes, and what it does to a
machine is said elsewhere.  Operands are typed by register file, so no
instruction has a general-purpose register where an SSE register belongs.  The
constructors that take a register of either file are at the end: a number in a
general-purpose position means the general-purpose register of that number, and
a general-purpose register in an SSE position is a fault.
-/
import Trampoline.Isa.Opcode
import Trampoline.Isa.ModRm
import Trampoline.Amd64.Register

namespace Trampoline.Amd64

/-! ### Opcodes with operands -/

/-- The middle field of an operand byte: a register number or a digit of the opcode.  Of a
register number the operand byte takes three bits; a digit goes there as it is. -/
inductive Field
  | reg (code : UInt8)
  | digit (value : UInt8)
  deriving DecidableEq, Repr

namespace Field

/-- The number that the REX byte extends. -/
def number : Field → UInt8
  | reg code => code
  | digit value => value

/-- The bits that go to the operand byte. -/
def bits : Field → UInt8
  | reg code => code &&& 7
  | digit value => value

end Field

/-- The REX byte, if anything calls for one: wide operands, or a register number of eight and
more in the middle or in the low field. -/
def rex (wide : Bool) (r rm : UInt8) : Code :=
  let flags : UInt8 :=
    (if wide then 8 else 0) ||| (if 8 ≤ r then 4 else 0) ||| (if 8 ≤ rm then 1 else 0)
  if flags = 0 then [] else [0x40 ||| flags]

/-- An opcode with its marker, its REX byte for the two register numbers and its escape. -/
def opcode (op : Opcode) (r rm : UInt8) : Code :=
  op.markerBytes ++ rex op.wide r rm ++ op.tailBytes

/-- An opcode with a register operand. -/
def direct (op : Opcode) (field : Field) (rm : Reg) : Code :=
  opcode op field.number rm.code ++ [ModRm.direct field.bits rm.low3]

/-- An opcode with a memory operand at a base register. -/
def memory (op : Opcode) (field : Field) (base : Reg) (offset : Int32) : Code :=
  opcode op field.number base.code ++ ModRm.memory field.bits base.low3 offset

/-- An opcode with a memory operand relative to the end of the instruction. -/
def ripRelative (op : Opcode) (field : Field) (offset : Int32) : Code :=
  opcode op field.number 0 ++ ((field.bits <<< 3) ||| 5) :: Code.ofInt32 offset

/-- Where the displacement of a `ripRelative` operand starts, counted from the instruction's
first byte. -/
def ripField (op : Opcode) (field : Field) : Nat := (opcode op field.number 0).length + 1

/-! ### Instructions -/

/-- The width of general-purpose operands. -/
inductive Width
  | w32
  | w64
  deriving DecidableEq, Repr

/-- Whether operands are 64 bits wide. -/
def Width.isWide : Width → Bool
  | w32 => false
  | w64 => true

/-- The width that a flag for 64-bit operands selects. -/
def Width.ofWide : Bool → Width
  | false => w32
  | true => w64

/-- An instruction. -/
inductive Instr
  /-- Adds an immediate to a register, or subtracts it. -/
  | arith (op : Arith) (width : Width) (dst : Gpr) (imm : Int32)
  /-- Moves a register to a register. -/
  | mov (width : Width) (dst src : Gpr)
  /-- Clears a register by exclusive or with itself, on 32 bits. -/
  | clear (dst : Gpr)
  /-- Moves 32 bits to a register and clears its upper half. -/
  | movImm32 (dst : Gpr) (imm : UInt32)
  /-- Moves a sign-extended immediate to a 64-bit register. -/
  | movSigned (dst : Gpr) (imm : Int32)
  /-- Moves 64 bits to a register. -/
  | movImm64 (dst : Gpr) (imm : UInt64)
  /-- Loads a register from memory. -/
  | load (width : Width) (dst base : Gpr) (disp : Int32)
  /-- Loads a narrow value and fills the register up with zeros. -/
  | loadZero (narrow : Narrow) (dst base : Gpr) (disp : Int32)
  /-- Stores a register to memory. -/
  | store (width : Width) (src base : Gpr) (disp : Int32)
  /-- Loads the address of a memory operand. -/
  | lea (dst base : Gpr) (disp : Int32)
  /-- Loads a scalar floating value. -/
  | sseLoad (precision : Precision) (dst : Xmm) (base : Gpr) (disp : Int32)
  /-- Loads a scalar floating value that stands at a distance from the instruction's end. -/
  | sseLoadRip (precision : Precision) (dst : Xmm) (disp : Int32)
  /-- Stores a whole SSE register. -/
  | sseSpill (src : Xmm) (base : Gpr) (disp : Int32)
  | push (src : Gpr)
  | pop (dst : Gpr)
  /-- Pushes a sign-extended immediate. -/
  | pushImm (imm : Int32)
  /-- Pushes eight bytes of memory. -/
  | pushMem (base : Gpr) (disp : Int32)
  /-- Calls the address that a register holds. -/
  | call (target : Gpr)
  | ret
  deriving DecidableEq, Repr

namespace Instr

/-- The middle field for a general-purpose register. -/
def gprField (r : Gpr) : Field := .reg r.code

/-- The middle field for an SSE register. -/
def xmmField (x : Xmm) : Field := .reg x.code

/-- The bytes of an instruction.  An immediate takes one byte where one byte holds it. -/
def encode : Instr → Code
  | arith op w dst imm =>
      if Displacement.fitsByte imm then
        direct (Opcode.arithImm8.withWide w.isWide) (.digit op.digit) (.gpr dst) ++
          [imm.toInt8.toUInt8]
      else
        direct (Opcode.arithImm32.withWide w.isWide) (.digit op.digit) (.gpr dst) ++
          Code.ofInt32 imm
  | mov w dst src => direct (Opcode.movStore.withWide w.isWide) (gprField src) (.gpr dst)
  | clear dst => direct .xorReg (gprField dst) (.gpr dst)
  | movImm32 dst imm => opcode (.movImm dst.low3) 0 dst.code ++ Code.ofUInt32 imm
  | movSigned dst imm =>
      direct (Opcode.movSignedImm.withWide true) (.digit 0) (.gpr dst) ++ Code.ofInt32 imm
  | movImm64 dst imm =>
      opcode ((Opcode.movImm dst.low3).withWide true) 0 dst.code ++ Code.ofUInt64 imm
  | load w dst base disp =>
      memory (Opcode.movLoad.withWide w.isWide) (gprField dst) (.gpr base) disp
  | loadZero n dst base disp => memory n.opcode (gprField dst) (.gpr base) disp
  | store w src base disp =>
      memory (Opcode.movStore.withWide w.isWide) (gprField src) (.gpr base) disp
  | lea dst base disp => memory (Opcode.lea.withWide true) (gprField dst) (.gpr base) disp
  | sseLoad p dst base disp => memory (.sseLoad p) (xmmField dst) (.gpr base) disp
  | sseLoadRip p dst disp => ripRelative (.sseLoad p) (xmmField dst) disp
  | sseSpill src base disp => memory .sseSpill (xmmField src) (.gpr base) disp
  | push src => opcode (.push src.low3) 0 src.code
  | pop dst => opcode (.pop dst.low3) 0 dst.code
  | pushImm imm =>
      if Displacement.fitsByte imm then [0x6A, imm.toInt8.toUInt8]
      else 0x68 :: Code.ofInt32 imm
  | pushMem base disp => memory .indirect (.digit pushDigit) (.gpr base) disp
  | call target => direct .indirect (.digit callDigit) (.gpr target)
  | ret => [0xC3]

/-- Whether a 64-bit number is the sign extension of its low 32 bits. -/
def fitsSigned (value : UInt64) : Bool := -0x80000000 ≤ value.toInt64 && value.toInt64 ≤ 0x7FFFFFFF

/-- The low 32 bits of a number as a signed immediate. -/
def lowSigned (value : UInt64) : Int32 := value.toUInt32.toInt32

/-- The instruction that puts a number into a register.  With 32-bit operands only its low half
counts, unless it is zero as a whole. -/
def loadImm (width : Width) (dst : Gpr) (value : UInt64) : Instr :=
  if value = 0 then clear dst
  else if width = .w32 ∨ value ≤ 0xFFFFFFFF then movImm32 dst value.toUInt32
  else if fitsSigned value then movSigned dst (lowSigned value)
  else movImm64 dst value

/-! ### Constructors that take a register of either file -/

/-- A scalar load; the destination has to be an SSE register. -/
def ofSseLoad (p : Precision) (dst base : Reg) (disp : Int32) : Except Fault Instr :=
  match dst with
  | .xmm x => .ok (sseLoad p x base.general disp)
  | r => .error (.sseLoad r.spelling)

/-- A scalar load relative to the instruction's end; the destination has to be an SSE register. -/
def ofSseLoadRip (p : Precision) (dst : Reg) (disp : Int32) : Except Fault Instr :=
  match dst with
  | .xmm x => .ok (sseLoadRip p x disp)
  | r => .error (.sseLoad r.spelling)

/-- A full-width spill; the source has to be an SSE register. -/
def ofSseSpill (src base : Reg) (disp : Int32) : Except Fault Instr :=
  match src with
  | .xmm x => .ok (sseSpill x base.general disp)
  | r => .error (.sseSpill r.spelling)

end Instr

/-- The bytes of a sequence of instructions. -/
def encodeAll (is : List Instr) : Code := is.flatMap Instr.encode

end Trampoline.Amd64
