/-
Trampoline/Demo.lean

The demonstration trampoline.  It takes a 32-bit number, a float and a double,
has one scratch buffer, and makes three calls: one with nine arguments of all
kinds, one that looks like a memory copy, and one with two floating arguments.
-/
import Trampoline.Builder

namespace Trampoline.Demo

/-- The addresses that the demonstration calls and passes. -/
structure Callees where
  /-- Takes nine arguments. -/
  sink : UInt64
  /-- Takes a destination, a source and a count. -/
  copy : UInt64
  /-- Takes a float and a double; its own address is also passed as the source of the copy. -/
  floats : UInt64
  deriving DecidableEq, Repr

/-- Addresses that stand for code which is not there. -/
def placeholder : Callees := ⟨0x555512345678, 0x555512345678, 0x555512345678⟩

/-- The operations that build the demonstration. -/
def operations (callees : Callees) : List Builder.Operation := [
  .declareParameters [.dword, .float, .double],
  .declareScratch 64,
  .start,
  .pushLiteral (.byte 0x12),
  .pushLiteral (.word 0x3456),
  .pushLiteral (.qword 0x0123456789ABCDEF),
  .pushForwarded 0,
  .pushScratch 0,
  .pushForwarded 1,
  .pushLiteral (.double 0x3FE0000000000000), -- one half
  .pushLiteral (.dword 42),
  .pushLiteral (.qword 0xFFFFFFFFFFFFFFFF),
  .call callees.sink .cdecl false,
  .pushScratch 0,
  .pushLiteral (.pointer callees.floats),
  .pushLiteral (.native 16),
  .call callees.copy .cdecl false,
  .pushForwarded 1,
  .pushForwarded 2,
  .call callees.floats .cdecl false,
  .finish]

/-- The builder that holds the demonstration for a target. -/
def build (target : Target) (callees : Callees) : Except Fault Builder :=
  (Builder.create target).run (operations callees)

end Trampoline.Demo
