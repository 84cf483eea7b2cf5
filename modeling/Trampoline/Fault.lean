/-
Trampoline/Fault.lean

The ways in which building machine code can break off.  A fault is a broken
promise of the caller (a position outside the code, a slot that the frame does
not have), so no state survives it; what a caller may try and recover from is a
`Trampoline.Error`.  Registers appear by their spelling, since each instruction
set has registers of its own.
-/

namespace Trampoline

/-- A broken precondition of an operation on machine code. -/
inductive Fault
  /-- A position and the width of the field there add up past the address space. -/
  | positionOverflow
  /-- Two positions lie further apart than a signed word can tell. -/
  | distanceOverflow
  /-- A field to overwrite does not lie inside the code. -/
  | patchPastEnd
  /-- A field to read does not lie inside the code. -/
  | readPastEnd
  /-- A displacement field does not lie inside the instruction that holds it. -/
  | fieldPastInstruction
  /-- A literal lies too far from the instruction that loads it. -/
  | literalTooFar
  /-- A placement was asked for an argument that the plan does not have. -/
  | noPlacement (count index : Nat)
  /-- A scalar load into a register that is no SSE register. -/
  | sseLoad (register : String)
  /-- A full-width spill of a register that is no SSE register. -/
  | sseSpill (register : String)
  /-- A scalar store of a register that is no SSE register. -/
  | sseStore (register : String)
  /-- A forwarded parameter that the frame has no home slot for. -/
  | noHomeSlot (index : UInt8)
  /-- A scratch buffer that the frame has no slot for. -/
  | noScratchSlot (index : UInt8)
  /-- The address of a scratch buffer was to be passed in an SSE register. -/
  | scratchInSse (register : String)
  deriving DecidableEq, Repr

/-- The text reported for a fault. -/
def Fault.message : Fault → String
  | positionOverflow => "attempt to add with overflow"
  | distanceOverflow => "attempt to subtract with overflow"
  | patchPastEnd => "patch past end of code"
  | readPastEnd => "assertion failed: offset + 4 <= self.bytes.len()"
  | fieldPastInstruction => "assertion failed: patch_offset + 4 <= insn_end"
  | literalTooFar => "literal displacement out of i32 range"
  | noPlacement count index =>
      s!"index out of bounds: the len is {count} but the index is {index}"
  | sseLoad register => s!"sse load into {register}"
  | sseSpill register => s!"sse spill of {register}"
  | sseStore register => s!"sse store of {register}"
  | noHomeSlot index => s!"entry parameter {index} has no home slot"
  | noScratchSlot index => s!"scratch allocation {index} has no frame slot"
  | scratchInSse register => s!"scratch address classified into {register}"

end Trampoline
