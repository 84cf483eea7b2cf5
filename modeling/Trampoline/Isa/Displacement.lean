/-
Trampoline/Isa/Displacement.lean

The signed displacement of a memory operand.  It takes one byte where one byte
holds it and four bytes otherwise, and it fixes the addressing mode, the top two
bits of the operand byte.
-/
import Trampoline.Code

namespace Trampoline

/-- A displacement in one of its two encoded widths. -/
inductive Displacement
  | disp8 (value : Int8)
  | disp32 (value : Int32)
  deriving DecidableEq, Repr

namespace Displacement

/-- Whether a signed byte holds `v`. -/
def fitsByte (v : Int32) : Bool := -128 ≤ v && v ≤ 127

/-- The shortest displacement for `offset`. -/
def shortest (offset : Int32) : Displacement :=
  if fitsByte offset then .disp8 offset.toInt8 else .disp32 offset

/-- The four-byte displacement for `offset`, also where one byte would hold it. -/
def wide (offset : Int32) : Displacement := .disp32 offset

/-- The offset that a displacement stands for. -/
def value : Displacement → Int32
  | disp8 v => v.toInt32
  | disp32 v => v

/-- The number of encoded bytes. -/
def size : Displacement → Nat
  | disp8 _ => 1
  | disp32 _ => 4

/-- The addressing-mode bits of an operand byte that this displacement follows. -/
def mode : Displacement → UInt8
  | disp8 _ => 0x40
  | disp32 _ => 0x80

/-- The encoded bytes. -/
def bytes : Displacement → Code
  | disp8 v => [v.toUInt8]
  | disp32 v => Code.ofInt32 v

@[simp] theorem length_bytes (d : Displacement) : d.bytes.length = d.size := by
  cases d <;> simp [bytes, size]

end Displacement

end Trampoline
