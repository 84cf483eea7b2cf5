/-
Trampoline/Placement.lean

Which arguments of a call travel in registers.  A `Budget` lists the registers
for integer-like and for floating arguments.  Two rules are in use.  In the
*cursor* rule each list has its own cursor: the k-th argument of a class takes
the k-th register of that class.  In the *positional* rule the k-th argument
takes the k-th register of its class, whatever the classes of the others.

An argument past the end of its list goes to the stack, and so does one that is
not eligible for an integer register; neither moves a cursor.  A `Plan` keeps
one placement per argument, in argument order.
-/
import Trampoline.Operand

namespace Trampoline

variable {R : Type}

/-- The place of an argument: a register, or the stack. -/
inductive Placement (R : Type)
  | reg (r : R)
  | stack
  deriving DecidableEq, Repr

/-- The register of a placement. -/
def Placement.reg? : Placement R → Option R
  | reg r => some r
  | stack => none

/-- Whether a placement is on the stack. -/
def Placement.isStack : Placement R → Bool
  | reg _ => false
  | stack => true

/-- The registers that arguments may take. -/
structure Budget (R : Type) where
  ints : List R
  floats : List R
  positional : Bool
  deriving DecidableEq, Repr

/-- The placements of the arguments of one call. -/
structure Plan (R : Type) where
  placements : List (Placement R)
  deriving DecidableEq, Repr

namespace Budget

/-- Placements of the arguments from number `index` on.  `nextInt` and `nextFloat` are the
cursors: how many registers of each list are taken.  A cursor stops at the end of its list. -/
def placeFrom (b : Budget R) (eligible : ValueType → Bool) (index nextInt nextFloat : Nat) :
    List ValueType → List (Placement R)
  | [] => []
  | t :: ts =>
      if t.isFloat then
        match b.floats[if b.positional then index else nextFloat]? with
        | some r => .reg r :: b.placeFrom eligible (index + 1) nextInt (nextFloat + 1) ts
        | none => .stack :: b.placeFrom eligible (index + 1) nextInt nextFloat ts
      else if eligible t then
        match b.ints[if b.positional then index else nextInt]? with
        | some r => .reg r :: b.placeFrom eligible (index + 1) (nextInt + 1) nextFloat ts
        | none => .stack :: b.placeFrom eligible (index + 1) nextInt nextFloat ts
      else
        .stack :: b.placeFrom eligible (index + 1) nextInt nextFloat ts

/-- The plan of a call with arguments of the given types. -/
def classify (b : Budget R) (eligible : ValueType → Bool) (types : List ValueType) : Plan R :=
  ⟨b.placeFrom eligible 0 0 0 types⟩

end Budget

namespace Plan

/-- The placement of the argument `index`, which has to be there. -/
def placement (p : Plan R) (index : Nat) : Except Fault (Placement R) :=
  match p.placements[index]? with
  | some place => .ok place
  | none => .error (.noPlacement p.placements.length index)

/-- The arguments in registers, each with its number, in argument order. -/
def registerArgs (p : Plan R) : List (Nat × R) :=
  p.placements.zipIdx.filterMap fun (place, index) => place.reg?.map (index, ·)

/-- The numbers of the arguments on the stack, in argument order. -/
def stackArgs (p : Plan R) : List Nat :=
  p.placements.zipIdx.filterMap fun (place, index) => if place.isStack then some index else none

/-- The numbers of the arguments on the stack, last one first: the order of their pushes. -/
def stackArgsRev (p : Plan R) : List Nat := p.stackArgs.reverse

/-- How many arguments are on the stack. -/
def stackCount (p : Plan R) : Nat := p.placements.countP (·.isStack)

/-- The arguments in registers: number, register and argument, in argument order. -/
def registerOperands (p : Plan R) (args : List Operand) : List (Nat × R × Operand) :=
  p.registerArgs.filterMap fun (index, r) => args[index]?.map fun a => (index, r, a)

/-- The arguments on the stack in the order of their pushes, last one first. -/
def stackOperandsRev (p : Plan R) (args : List Operand) : List Operand :=
  p.stackArgsRev.filterMap fun index => args[index]?

/-- How many of the arguments in registers are floating. -/
def floatRegCount (p : Plan R) (args : List Operand) : Nat :=
  (p.registerOperands args).countP fun (_, _, a) => a.isFloat

end Plan

end Trampoline
