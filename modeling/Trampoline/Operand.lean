/-
Trampoline/Operand.lean

The arguments of a call.  An argument has a value type, which decides its width
and the register file that may hold it, and a source: a literal, an entry
parameter of the trampoline passed on, or the address of a scratch buffer.
-/
import Trampoline.Code

namespace Trampoline

/-! ### Value types -/

/-- The type of an argument or of an entry parameter. -/
inductive ValueType
  | byte
  | word
  | dword
  | qword
  | pointer
  | scratch
  | float
  | double
  deriving DecidableEq, Repr

namespace ValueType

/-- All value types. -/
def all : List ValueType := [byte, word, dword, qword, pointer, scratch, float, double]

/-- The name of a type. -/
def name : ValueType → String
  | byte => "byte"
  | word => "word"
  | dword => "dword"
  | qword => "qword"
  | pointer => "ptr"
  | scratch => "scratch"
  | float => "float"
  | double => "double"

/-- The spelling of a type inside a logged argument. -/
def spelling : ValueType → String
  | byte => "Byte"
  | word => "Word"
  | dword => "DWord"
  | qword => "QWord"
  | pointer => "Pointer"
  | scratch => "ScratchAddress"
  | float => "Float"
  | double => "Double"

/-- The type with a given name. -/
def ofName? (s : String) : Option ValueType := all.find? (·.name == s)

/-- The width of a value in bytes. -/
def size : ValueType → Nat
  | byte => 1
  | word => 2
  | dword | float => 4
  | qword | pointer | scratch | double => 8

/-- Whether values of this type travel in SSE registers. -/
def isFloat : ValueType → Bool
  | float | double => true
  | _ => false

/-- The bytes of a home slot.  A floating parameter gets a whole SSE register's worth. -/
def homeSize (t : ValueType) : UInt64 := if t.isFloat then 16 else 8

/-- The bytes that a value of this type takes on the stack of an IA-32 call. -/
def stackSize32 : ValueType → Nat
  | qword | double => 8
  | _ => 4

end ValueType

/-! ### Arguments -/

/-- Where the value of an argument comes from. -/
inductive Source
  | literal
  | forwarded (index : UInt8)
  | scratch (index : UInt8)
  deriving DecidableEq, Repr

/-- An argument of a call.  The value is the bit pattern of a literal. -/
structure Operand where
  type : ValueType
  source : Source
  value : UInt64
  deriving DecidableEq, Repr

namespace Operand

/-- A literal of a given type; the value is kept as it is. -/
def literal (type : ValueType) (value : UInt64) : Operand := ⟨type, .literal, value⟩

/-- The entry parameter `index` passed on as a value of type `type`. -/
def forwarded (type : ValueType) (index : UInt8) : Operand := ⟨type, .forwarded index, 0⟩

/-- The address of the scratch buffer `index`. -/
def scratch (index : UInt8) : Operand := ⟨.scratch, .scratch index, index.toUInt64⟩

/-- Whether the argument travels in an SSE register. -/
def isFloat (a : Operand) : Bool := a.type.isFloat

/-- The bytes of a literal, as many as its type is wide. -/
def literalBytes (a : Operand) : Code := littleEndian a.type.size a.value.toNat

@[simp] theorem length_literalBytes (a : Operand) : a.literalBytes.length = a.type.size :=
  length_littleEndian _ _

/-- The spelling of an argument in log records. -/
def spelling (a : Operand) : String :=
  let source := match a.source with
    | .literal => "Literal"
    | .forwarded index => s!"Forwarded({index})"
    | .scratch index => s!"Scratch({index})"
  s!"Arg \x7b ty: {a.type.spelling}, source: {source}, value: {a.value} \x7d"

end Operand

/-! ### Literals -/

/-- A literal as a caller gives it.  Floating values are given by their bit patterns. -/
inductive Literal
  | byte (value : UInt8)
  | word (value : UInt16)
  | dword (value : UInt32)
  | qword (value : UInt64)
  | pointer (address : UInt64)
  /-- An unsigned number of the width of a pointer. -/
  | native (value : UInt64)
  /-- A signed number of the width of a pointer. -/
  | signedNative (value : Int64)
  | float (bits : UInt32)
  | double (bits : UInt64)
  deriving DecidableEq, Repr

/-- An unsigned number of pointer width, for pointers of `pointerSize` bytes. -/
def Operand.native (pointerSize : Nat) (value : UInt64) : Operand :=
  if pointerSize = 4 then .literal .dword value.toUInt32.toUInt64 else .literal .qword value

/-- The argument that passes a literal, for pointers of `pointerSize` bytes. -/
def Literal.operand (pointerSize : Nat) : Literal → Operand
  | byte v => .literal .byte v.toUInt64
  | word v => .literal .word v.toUInt64
  | dword v => .literal .dword v.toUInt64
  | qword v => .literal .qword v
  | pointer a => .literal .pointer a
  | native v => .native pointerSize v
  | signedNative v => .native pointerSize v.toUInt64
  | float bits => .literal .float bits.toUInt64
  | double bits => .literal .double bits

end Trampoline
