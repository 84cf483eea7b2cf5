/-
Trampoline/Amd64/Decode.lean

A decoder for the x86-64 instructions that trampolines are made of.  It reads the
format from the front: a mandatory marker, the REX byte, the escape, the opcode,
the operand byte with its scale-index-base byte and displacement, and the
immediate.  It says nothing about how code is written, so it can serve as a
witness of what code means.
-/
import Trampoline.Isa.Reader
import Trampoline.Amd64.Instr

namespace Trampoline.Amd64

/-! ### What comes before the opcode -/

/-- The flags of a REX byte.  Without a REX byte all are clear. -/
structure Rex where
  wide : Bool := false
  field : Bool := false
  index : Bool := false
  base : Bool := false
  deriving DecidableEq, Repr

/-- Reads a REX byte. -/
def readRex : Code → Rex × Code
  | [] => ({}, [])
  | b :: rest =>
      if b >>> 4 = 4 then
        ({ wide := b &&& 8 != 0, field := b &&& 4 != 0, index := b &&& 2 != 0,
           base := b &&& 1 != 0 }, rest)
      else ({}, b :: rest)

/-- A register number from its low bits and its bit in the REX byte. -/
def extend (high : Bool) (low : UInt8) : UInt8 := if high then 8 ||| low else low

/-! ### Operands -/

/-- An operand with whole register numbers. -/
inductive Rm
  | register (number : UInt8)
  | memory (base : UInt8) (disp : Int32)
  | ripRelative (disp : Int32)
  deriving DecidableEq, Repr

/-- Reads the operands of an instruction: the middle field with its REX bit, and the operand. -/
def readOperands (rex : Rex) (c : Code) : Option (UInt8 × Rm × Code) := do
  let (field, low, rest) ← Reader.operands c
  let rm : Rm := match low with
    | .register n => .register (extend rex.base n)
    | .memory base disp => .memory (extend rex.base base) disp
    | .absolute disp => .ripRelative disp
  return (extend rex.field field, rm, rest)

/-- The width of general-purpose operands. -/
def Rex.width (rex : Rex) : Width := .ofWide rex.wide

/-! ### Opcodes -/

/-- The general-purpose register in the low bits of an opcode byte. -/
def opcodeReg (rex : Rex) (b : UInt8) : Gpr := Gpr.ofCode (extend rex.base (Reader.bits3 b 0))

/-- Decodes arithmetic with an immediate. -/
def decodeArith (rex : Rex) (immediate : Code → Option (Int32 × Code)) (c : Code) :
    Option (Instr × Code) := do
  let (digit, rm, rest) ← readOperands rex c
  let (imm, rest) ← immediate rest
  match digit, rm with
  | 0, .register dst => return (.arith .add rex.width (Gpr.ofCode dst) imm, rest)
  | 5, .register dst => return (.arith .sub rex.width (Gpr.ofCode dst) imm, rest)
  | _, _ => none

/-- Decodes an instruction with a one-byte opcode. -/
def decodePlain (rex : Rex) (b : UInt8) (c : Code) : Option (Instr × Code) :=
  if 0x50 ≤ b ∧ b < 0x58 then some (.push (opcodeReg rex b), c)
  else if 0x58 ≤ b ∧ b < 0x60 then some (.pop (opcodeReg rex b), c)
  else if 0xB8 ≤ b ∧ b < 0xC0 then
    if rex.wide then
      (Reader.uint64 c).map fun (imm, rest) => (.movImm64 (opcodeReg rex b) imm, rest)
    else (Reader.uint32 c).map fun (imm, rest) => (.movImm32 (opcodeReg rex b) imm, rest)
  else match b with
    | 0x31 => do
        match ← readOperands rex c with
        | (field, .register rm, rest) =>
            if field = rm ∧ !rex.wide then return (.clear (Gpr.ofCode rm), rest) else none
        | _ => none
    | 0x68 => (Reader.int32 c).map fun (imm, rest) => (.pushImm imm, rest)
    | 0x6A => (Reader.int8 c).map fun (imm, rest) => (.pushImm imm, rest)
    | 0x81 => decodeArith rex Reader.int32 c
    | 0x83 => decodeArith rex Reader.int8 c
    | 0x89 => do
        match ← readOperands rex c with
        | (field, .register rm, rest) =>
            return (.mov rex.width (Gpr.ofCode rm) (Gpr.ofCode field), rest)
        | (field, .memory base disp, rest) =>
            return (.store rex.width (Gpr.ofCode field) (Gpr.ofCode base) disp, rest)
        | _ => none
    | 0x8B => do
        match ← readOperands rex c with
        | (field, .memory base disp, rest) =>
            return (.load rex.width (Gpr.ofCode field) (Gpr.ofCode base) disp, rest)
        | _ => none
    | 0x8D => do
        match ← readOperands rex c with
        | (field, .memory base disp, rest) =>
            if rex.wide then return (.lea (Gpr.ofCode field) (Gpr.ofCode base) disp, rest)
            else none
        | _ => none
    | 0xC3 => some (.ret, c)
    | 0xC7 => do
        let (digit, rm, rest) ← readOperands rex c
        let (imm, rest) ← Reader.int32 rest
        match digit, rm with
        | 0, .register dst =>
            if rex.wide then return (.movSigned (Gpr.ofCode dst) imm, rest) else none
        | _, _ => none
    | 0xFF => do
        match ← readOperands rex c with
        | (2, .register target, rest) => return (.call (Gpr.ofCode target), rest)
        | (6, .memory base disp, rest) => return (.pushMem (Gpr.ofCode base) disp, rest)
        | _ => none
    | _ => none

/-- Decodes an instruction with an escaped opcode. -/
def decodeEscaped (marker : Option Precision) (rex : Rex) (b : UInt8) (c : Code) :
    Option (Instr × Code) := do
  let (field, rm, rest) ← readOperands rex c
  match marker, b, rm with
  | none, 0xB6, .memory base disp =>
      if rex.wide then none
      else return (.loadZero .byte (Gpr.ofCode field) (Gpr.ofCode base) disp, rest)
  | none, 0xB7, .memory base disp =>
      if rex.wide then none
      else return (.loadZero .word (Gpr.ofCode field) (Gpr.ofCode base) disp, rest)
  | none, 0x11, .memory base disp =>
      return (.sseSpill (Xmm.ofCode field) (Gpr.ofCode base) disp, rest)
  | some p, 0x10, .memory base disp =>
      return (.sseLoad p (Xmm.ofCode field) (Gpr.ofCode base) disp, rest)
  | some p, 0x10, .ripRelative disp => return (.sseLoadRip p (Xmm.ofCode field) disp, rest)
  | _, _, _ => none

/-- Decodes the first instruction of `c`, and gives the code after it. -/
def decode (c : Code) : Option (Instr × Code) :=
  let (marker, c) := Reader.marker c
  let (rex, c) := readRex c
  if rex.index then none
  else match marker, c with
    | marker, 0x0F :: b :: rest => decodeEscaped marker rex b rest
    | none, b :: rest => decodePlain rex b rest
    | _, _ => none

/-- Decodes code as a whole. -/
def decodeAll (c : Code) : Option (List Instr) :=
  if c = [] then some []
  else match decode c with
    | none => none
    | some (i, rest) =>
        if rest.length < c.length then (decodeAll rest).map (i :: ·) else none
termination_by c.length

end Trampoline.Amd64
