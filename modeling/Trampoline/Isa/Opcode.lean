/-
Trampoline/Isa/Opcode.lean

Opcodes of the two instruction sets.  An opcode is one byte, perhaps behind the
escape byte `0F`, perhaps with a mandatory marker in front (`F3` for single, `F2`
for double precision), and on x86-64 it may ask for 64-bit operands.  The opcode
map is shared; IA-32 code never asks for wide operands.
-/
import Trampoline.Operand

namespace Trampoline

/-- The precision of a scalar floating operation. -/
inductive Precision
  | single
  | double
  deriving DecidableEq, Repr

/-- The marker byte in front of a scalar floating opcode. -/
def Precision.marker : Precision → UInt8
  | single => 0xF3
  | double => 0xF2

/-- The bytes of a scalar floating value. -/
def Precision.bytes : Precision → Nat
  | single => 4
  | double => 8

/-- The precision in which values of a type are moved. -/
def Precision.ofType (type : ValueType) : Precision := if type = .double then double else single

/-- An opcode with what belongs to it. -/
structure Opcode where
  byte : UInt8
  escaped : Bool := false
  wide : Bool := false
  precision : Option Precision := none
  deriving DecidableEq, Repr

namespace Opcode

/-- Reads an opcode word: the low byte is the opcode, bit 8 the escape, bit 12 the wide operands,
bits 17 and 18 the markers.  The single-precision marker wins over the other. -/
def ofWord (w : UInt32) : Opcode where
  byte := w.toUInt8
  escaped := w &&& 0x100 != 0
  wide := w &&& 0x1000 != 0
  precision :=
    if w &&& 0x20000 != 0 then some .single
    else if w &&& 0x40000 != 0 then some .double
    else none

/-- The same opcode for operands of the given width. -/
def withWide (op : Opcode) (wide : Bool) : Opcode := { op with wide := wide }

/-- The opcode of a scalar floating operation. -/
def scalar (p : Precision) (byte : UInt8) : Opcode :=
  { byte := byte, escaped := true, precision := some p }

/-- The marker, if there is one. -/
def markerBytes (op : Opcode) : Code :=
  match op.precision with
  | some p => [p.marker]
  | none => []

/-- The escape byte, if there is one, and the opcode byte. -/
def tailBytes (op : Opcode) : Code := if op.escaped then [0x0F, op.byte] else [op.byte]

/-! ### The opcodes in use -/

/-- Arithmetic on a register with an immediate byte; the digit selects the operation. -/
def arithImm8 : Opcode := { byte := 0x83 }

/-- Arithmetic on a register with an immediate of 32 bits. -/
def arithImm32 : Opcode := { byte := 0x81 }

/-- Moves a register to a register or to memory. -/
def movStore : Opcode := { byte := 0x89 }

/-- Moves memory to a register. -/
def movLoad : Opcode := { byte := 0x8B }

/-- Moves a sign-extended immediate to a register. -/
def movSignedImm : Opcode := { byte := 0xC7 }

/-- Moves an immediate to the register number `low`. -/
def movImm (low : UInt8) : Opcode := { byte := 0xB8 + low }

/-- Exclusive or of two registers. -/
def xorReg : Opcode := { byte := 0x31 }

/-- Loads a byte and fills up with zeros. -/
def movZeroByte : Opcode := { byte := 0xB6, escaped := true }

/-- Loads a 16-bit word and fills up with zeros. -/
def movZeroWord : Opcode := { byte := 0xB7, escaped := true }

/-- Loads a scalar floating value. -/
def sseLoad (p : Precision) : Opcode := scalar p 0x10

/-- Stores a scalar floating value. -/
def sseStore (p : Precision) : Opcode := scalar p 0x11

/-- Stores a whole SSE register at any address. -/
def sseSpill : Opcode := { byte := 0x11, escaped := true }

/-- Loads the address of a memory operand. -/
def lea : Opcode := { byte := 0x8D }

/-- Calls and pushes through a register or memory; the digit selects the operation. -/
def indirect : Opcode := { byte := 0xFF }

/-- Pushes the register number `low`. -/
def push (low : UInt8) : Opcode := { byte := 0x50 + low }

/-- Pops to the register number `low`. -/
def pop (low : UInt8) : Opcode := { byte := 0x58 + low }

end Opcode

/-- Arithmetic on the stack pointer: a frame is opened and closed with it. -/
inductive Arith
  | add
  | sub
  deriving DecidableEq, Repr

/-- The digit that selects an arithmetic operation. -/
def Arith.digit : Arith → UInt8
  | add => 0
  | sub => 5

/-- The result of an arithmetic operation on words. -/
def Arith.apply {w : Nat} : Arith → BitVec w → BitVec w → BitVec w
  | add, a, b => a + b
  | sub, a, b => a - b

/-- The digit of an indirect call. -/
def callDigit : UInt8 := 2

/-- The digit of a push from memory. -/
def pushDigit : UInt8 := 6

/-- The width of a load that fills up with zeros. -/
inductive Narrow
  | byte
  | word
  deriving DecidableEq, Repr

/-- The bytes of a narrow value. -/
def Narrow.bytes : Narrow → Nat
  | byte => 1
  | word => 2

/-- The opcode of a load that fills up with zeros. -/
def Narrow.opcode : Narrow → Opcode
  | byte => .movZeroByte
  | word => .movZeroWord

end Trampoline
