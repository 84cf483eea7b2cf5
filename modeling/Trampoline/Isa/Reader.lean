/-
Trampoline/Isa/Reader.lean

Reading code from the front: numbers, and the operand byte with what follows it.
A reader gives what it read and the code after it, or nothing when the code is
too short or has a form that is not read here.  The decoders of both instruction
sets are built from these.
-/
import Trampoline.Isa.Opcode

namespace Trampoline.Reader

/-! ### Numbers -/

/-- Reads `width` bytes as a little-endian number. -/
def number (width : Nat) (c : Code) : Option (Nat × Code) :=
  if width ≤ c.length then some (ofLittleEndian (c.take width), c.drop width) else none

/-- Reads a 32-bit number. -/
def uint32 (c : Code) : Option (UInt32 × Code) :=
  (number 4 c).map fun (n, rest) => (UInt32.ofNat n, rest)

/-- Reads a 64-bit number. -/
def uint64 (c : Code) : Option (UInt64 × Code) :=
  (number 8 c).map fun (n, rest) => (UInt64.ofNat n, rest)

/-- Reads a signed 32-bit number. -/
def int32 (c : Code) : Option (Int32 × Code) := (uint32 c).map fun (n, rest) => (n.toInt32, rest)

/-- Reads a byte as a signed number. -/
def int8 : Code → Option (Int32 × Code)
  | [] => none
  | b :: rest => some (b.toInt8.toInt32, rest)

/-! ### Opcodes -/

/-- Reads the marker in front of a scalar floating opcode, if there is one. -/
def marker : Code → Option Precision × Code
  | 0xF3 :: rest => (some .single, rest)
  | 0xF2 :: rest => (some .double, rest)
  | c => (none, c)

/-! ### Operands -/

/-- Three bits of a byte, from bit `shift` on. -/
def bits3 (b shift : UInt8) : UInt8 := (b >>> shift) &&& 7

/-- The operand that the low field of an operand byte stands for.  Register numbers have three
bits here. -/
inductive Low
  | register (number : UInt8)
  | memory (base : UInt8) (disp : Int32)
  /-- A displacement without a base. -/
  | absolute (disp : Int32)
  deriving DecidableEq, Repr

/-- The register that a low field names as a base: in the first addressing mode the number 5
names none. -/
def baseOf (mode low : UInt8) : Option UInt8 := if mode = 0 ∧ low = 5 then none else some low

/-- Reads the base of a memory operand.  A scale-index-base byte follows the low field 4, and only
one with a base and without an index is read. -/
def base (mode low : UInt8) (c : Code) : Option (Option UInt8 × Code) :=
  if low = 4 then
    match c with
    | sib :: rest =>
        if bits3 sib 3 = 4 then (baseOf mode (bits3 sib 0)).map fun base => (some base, rest)
        else none
    | [] => none
  else some (baseOf mode low, c)

/-- Reads the displacement of a memory operand. -/
def displacement (mode : UInt8) (hasBase : Bool) (c : Code) : Option (Int32 × Code) :=
  if mode = 1 then int8 c
  else if mode = 2 ∨ !hasBase then int32 c
  else some (0, c)

/-- Reads an operand byte with what follows it: the middle field, the operand and the rest. -/
def operands : Code → Option (UInt8 × Low × Code)
  | [] => none
  | b :: rest =>
      let mode := b >>> 6
      if mode = 3 then some (bits3 b 3, .register (bits3 b 0), rest)
      else do
        let (base, rest) ← base mode (bits3 b 0) rest
        let (disp, rest) ← displacement mode base.isSome rest
        match base with
        | some base => return (bits3 b 3, .memory base disp, rest)
        | none => return (bits3 b 3, .absolute disp, rest)

end Trampoline.Reader
