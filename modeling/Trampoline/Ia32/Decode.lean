/-
Trampoline/Ia32/Decode.lean

A decoder for the IA-32 instructions that trampolines are made of.  It reads the
format from the front, as the decoder for x86-64 does, but there is no REX byte
and a memory operand always has a base.
-/
import Trampoline.Isa.Reader
import Trampoline.Ia32.Instr

namespace Trampoline.Ia32

/-- The general-purpose register in the low bits of an opcode byte. -/
def opcodeReg (b : UInt8) : Gpr := Gpr.ofCode (Reader.bits3 b 0)

/-- Decodes arithmetic with an immediate. -/
def decodeArith (immediate : Code → Option (Int32 × Code)) (c : Code) :
    Option (Instr × Code) := do
  let (digit, rm, rest) ← Reader.operands c
  let (imm, rest) ← immediate rest
  match digit, rm with
  | 0, .register dst => return (.arith .add (Gpr.ofCode dst) imm, rest)
  | 5, .register dst => return (.arith .sub (Gpr.ofCode dst) imm, rest)
  | _, _ => none

/-- Decodes an instruction with a one-byte opcode. -/
def decodePlain (b : UInt8) (c : Code) : Option (Instr × Code) :=
  if 0x50 ≤ b ∧ b < 0x58 then some (.push (opcodeReg b), c)
  else if 0x58 ≤ b ∧ b < 0x60 then some (.pop (opcodeReg b), c)
  else if 0xB8 ≤ b ∧ b < 0xC0 then
    (Reader.uint32 c).map fun (imm, rest) => (.movImm (opcodeReg b) imm, rest)
  else match b with
    | 0x0E => some (.pushCs, c)
    | 0x31 => do
        match ← Reader.operands c with
        | (field, .register rm, rest) =>
            if field = rm then return (.clear (Gpr.ofCode rm), rest) else none
        | _ => none
    | 0x68 => (Reader.int32 c).map fun (imm, rest) => (.pushImm imm, rest)
    | 0x6A => (Reader.int8 c).map fun (imm, rest) => (.pushImm imm, rest)
    | 0x81 => decodeArith Reader.int32 c
    | 0x83 => decodeArith Reader.int8 c
    | 0x89 => do
        match ← Reader.operands c with
        | (field, .register rm, rest) =>
            return (.mov (Gpr.ofCode rm) (Gpr.ofCode field), rest)
        | (field, .memory base disp, rest) =>
            return (.store (Gpr.ofCode field) (Gpr.ofCode base) disp, rest)
        | _ => none
    | 0x8B => do
        match ← Reader.operands c with
        | (field, .memory base disp, rest) =>
            return (.load (Gpr.ofCode field) (Gpr.ofCode base) disp, rest)
        | _ => none
    | 0x8D => do
        match ← Reader.operands c with
        | (field, .memory base disp, rest) =>
            return (.lea (Gpr.ofCode field) (Gpr.ofCode base) disp, rest)
        | _ => none
    | 0xC3 => some (.ret, c)
    | 0xFF => do
        match ← Reader.operands c with
        | (2, .register target, rest) => return (.call (Gpr.ofCode target), rest)
        | (6, .memory base disp, rest) => return (.pushMem (Gpr.ofCode base) disp, rest)
        | _ => none
    | _ => none

/-- Decodes an instruction with an escaped opcode. -/
def decodeEscaped (marker : Option Precision) (b : UInt8) (c : Code) :
    Option (Instr × Code) := do
  let (field, rm, rest) ← Reader.operands c
  match marker, b, rm with
  | none, 0xB6, .memory base disp =>
      return (.loadZero .byte (Gpr.ofCode field) (Gpr.ofCode base) disp, rest)
  | none, 0xB7, .memory base disp =>
      return (.loadZero .word (Gpr.ofCode field) (Gpr.ofCode base) disp, rest)
  | some p, 0x10, .memory base disp =>
      return (.sseLoad p (Xmm.ofCode field) (Gpr.ofCode base) disp, rest)
  | some p, 0x11, .memory base disp =>
      return (.sseStore p (Xmm.ofCode field) (Gpr.ofCode base) disp, rest)
  | _, _, _ => none

/-- Decodes the first instruction of `c`, and gives the code after it. -/
def decode (c : Code) : Option (Instr × Code) :=
  match Reader.marker c with
  | (marker, 0x0F :: b :: rest) => decodeEscaped marker b rest
  | (none, b :: rest) => decodePlain b rest
  | _ => none

/-- Decodes code as a whole. -/
def decodeAll (c : Code) : Option (List Instr) :=
  if c = [] then some []
  else match decode c with
    | none => none
    | some (i, rest) =>
        if rest.length < c.length then (decodeAll rest).map (i :: ·) else none
termination_by c.length

end Trampoline.Ia32
