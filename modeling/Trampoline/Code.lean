/-
Trampoline/Code.lean

Machine code as a list of bytes, numbers as little-endian bytes, and the two
operations on a 32-bit field inside code: reading it and overwriting it.

Positions are natural numbers, but the machine that builds the code counts in
64-bit words.  So the end of a field is checked first: a field that would end
beyond the last address is a fault of its own, whatever the code is.
-/
import Trampoline.Fault

namespace Trampoline

/-- Machine code: bytes in address order. -/
abbrev Code := List UInt8

/-! ### Little-endian numbers -/

/-- The `width` little-endian bytes of `n`; what lies above them is dropped. -/
def littleEndian : Nat → Nat → Code
  | 0, _ => []
  | width + 1, n => UInt8.ofNat n :: littleEndian width (n / 256)

/-- The number with the given little-endian bytes. -/
def ofLittleEndian : Code → Nat
  | [] => 0
  | b :: bs => b.toNat + 256 * ofLittleEndian bs

@[simp] theorem length_littleEndian (width n : Nat) : (littleEndian width n).length = width := by
  induction width generalizing n with
  | zero => rfl
  | succ width ih => simp [littleEndian, ih]

namespace Code

/-- The two bytes of a 16-bit number. -/
def ofUInt16 (v : UInt16) : Code := littleEndian 2 v.toNat

/-- The four bytes of a 32-bit number. -/
def ofUInt32 (v : UInt32) : Code := littleEndian 4 v.toNat

/-- The eight bytes of a 64-bit number. -/
def ofUInt64 (v : UInt64) : Code := littleEndian 8 v.toNat

/-- The four bytes of a signed 32-bit number, in two's complement. -/
def ofInt32 (v : Int32) : Code := ofUInt32 v.toUInt32

@[simp] theorem length_ofUInt16 (v : UInt16) : (ofUInt16 v).length = 2 := length_littleEndian 2 _

@[simp] theorem length_ofUInt32 (v : UInt32) : (ofUInt32 v).length = 4 := length_littleEndian 4 _

@[simp] theorem length_ofUInt64 (v : UInt64) : (ofUInt64 v).length = 8 := length_littleEndian 8 _

@[simp] theorem length_ofInt32 (v : Int32) : (ofInt32 v).length = 4 := length_ofUInt32 _

/-! ### Fields inside code -/

/-- The number of positions that a 64-bit word can name. -/
def addressSpace : Nat := 0x10000000000000000

/-- The end of the four-byte field at `offset`, if a 64-bit word can name it. -/
def fieldEnd (offset : Nat) : Except Fault Nat :=
  if offset + 4 < addressSpace then .ok (offset + 4) else .error .positionOverflow

/-- The code with the four bytes at `offset` replaced by `value`. -/
def patch32 (code : Code) (offset : Nat) (value : UInt32) : Except Fault Code := do
  let stop ← fieldEnd offset
  if stop ≤ code.length then
    return code.take offset ++ ofUInt32 value ++ code.drop stop
  else throw .patchPastEnd

/-- The 32-bit number whose bytes stand at `offset`. -/
def read32 (code : Code) (offset : Nat) : Except Fault UInt32 := do
  let stop ← fieldEnd offset
  if stop ≤ code.length then
    return UInt32.ofNat (ofLittleEndian ((code.drop offset).take 4))
  else throw .readPastEnd

end Code

end Trampoline
