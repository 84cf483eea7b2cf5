/-
Trampoline/Isa/ModRm.lean

The operand byte and what follows it.  Its middle field holds a register number
or a digit of the opcode; its low field holds the other register, or the base of
a memory operand.

Two bases are special.  Number 4 in the low field announces a scale-index-base
byte, so the stack pointer as a base is written with one.  Number 5 without a
displacement means something else, so the frame pointer as a base always has a
displacement, a zero byte if need be.
-/
import Trampoline.Isa.Displacement

namespace Trampoline.ModRm

/-- The operand byte for a register operand. -/
def direct (field rm : UInt8) : UInt8 := (0xC0 : UInt8) ||| (field <<< 3) ||| rm

/-- The scale-index-base byte of a plain base, where the base needs one. -/
def baseByte (base : UInt8) : Code := if base = 4 then [0x24] else []

/-- The operand byte for memory at a base, with what follows it.  `base` is the low three bits
of the register number. -/
def memory (field base : UInt8) (offset : Int32) : Code :=
  if offset = 0 ∧ base ≠ 5 then
    ((field <<< 3) ||| base) :: baseByte base
  else
    let disp := Displacement.shortest offset
    (disp.mode ||| (field <<< 3) ||| base) :: (baseByte base ++ disp.bytes)

end Trampoline.ModRm
