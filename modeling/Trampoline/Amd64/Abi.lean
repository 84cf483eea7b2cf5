/-
Trampoline/Amd64/Abi.lean

The two native calling conventions of x86-64.  They differ in the argument
registers and in the rule that assigns them, in the shadow space that a caller
leaves above the return address, and in whether a caller says in `al` how many
SSE registers hold arguments.
-/
import Trampoline.Placement
import Trampoline.Amd64.Register

namespace Trampoline.Amd64

/-- A native calling convention. -/
structure Abi where
  name : String
  budget : Budget Reg
  /-- The bytes between the return address and the first stack argument. -/
  shadowSpace : Nat
  /-- Whether `al` holds the number of arguments in SSE registers. -/
  vectorCount : Bool
  deriving DecidableEq, Repr

namespace Abi

/-- The convention of Unix systems. -/
def systemV : Abi where
  name := "x86-64 System V"
  budget := {
    ints := [.gpr .rdi, .gpr .rsi, .gpr .rdx, .gpr .rcx, .gpr .r8, .gpr .r9]
    floats := [.xmm .xmm0, .xmm .xmm1, .xmm .xmm2, .xmm .xmm3, .xmm .xmm4, .xmm .xmm5,
      .xmm .xmm6, .xmm .xmm7]
    positional := false }
  shadowSpace := 0
  vectorCount := true

/-- The convention of Windows. -/
def microsoft : Abi where
  name := "x86-64 Microsoft"
  budget := {
    ints := [.gpr .rcx, .gpr .rdx, .gpr .r8, .gpr .r9]
    floats := [.xmm .xmm0, .xmm .xmm1, .xmm .xmm2, .xmm .xmm3]
    positional := true }
  shadowSpace := 32
  vectorCount := false

/-- The convention of the machine that this library runs on. -/
def host : Abi := systemV

/-- The plan of a call.  Every integer-like type may travel in a register. -/
def classify (abi : Abi) (types : List ValueType) : Plan Reg :=
  abi.budget.classify (fun _ => true) types

end Abi

end Trampoline.Amd64
