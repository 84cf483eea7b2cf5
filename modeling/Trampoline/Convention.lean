/-
Trampoline/Convention.lean

Calling conventions of IA-32 code.  On x86-64 there is one convention per
operating system, and these have no effect there.
-/

namespace Trampoline

/-- A calling convention; C code uses the first. -/
inductive Convention
  | cdecl
  | stdcall
  | thiscall
  | fastcall
  deriving DecidableEq, Repr, Inhabited

namespace Convention

/-- Whether the callee removes its stack arguments. -/
def calleeCleanup : Convention → Bool
  | cdecl => false
  | stdcall | thiscall | fastcall => true

/-- The spelling of a convention in log records. -/
def spelling : Convention → String
  | cdecl => "CDecl"
  | stdcall => "StdCall"
  | thiscall => "ThisCall"
  | fastcall => "FastCall"

end Convention

end Trampoline
