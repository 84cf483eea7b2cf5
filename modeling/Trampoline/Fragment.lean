/-
Trampoline/Fragment.lean

Code together with the literals that its instructions still wait for.  An
instruction that loads a literal addresses it relative to its own end, so its
displacement field stays open until the literal has a place.  Literals are
placed behind the code, in the order in which they were deferred.

Positions count from the start of the fragment.  Appending one fragment to
another therefore shifts the positions of the second, and a fragment means the
same wherever it ends up.
-/
import Trampoline.Code

namespace Trampoline

/-- A literal that has no place yet. -/
structure Deferred where
  /-- The bytes to place. -/
  bytes : Code
  /-- Where the open displacement field starts. -/
  patchOffset : Nat
  /-- Where the instruction ends that loads the literal. -/
  insnEnd : Nat
  deriving DecidableEq, Repr

/-- The same literal once `start` bytes of code stand before it. -/
def Deferred.shift (d : Deferred) (start : Nat) : Deferred :=
  { d with patchOffset := start + d.patchOffset, insnEnd := start + d.insnEnd }

/-- A literal with its place, and the displacement that reaches it. -/
structure Resolved where
  offset : Nat
  width : Nat
  patchOffset : Nat
  displacement : Int32
  deriving DecidableEq, Repr

/-- Code with the literals that it waits for, first deferred first. -/
structure Fragment where
  code : Code := []
  literals : List Deferred := []
  deriving DecidableEq, Repr, Inhabited

namespace Fragment

/-- The fragment with `bytes` appended. -/
def emit (f : Fragment) (bytes : Code) : Fragment := { f with code := f.code ++ bytes }

/-- Records a literal for the instruction that ends at `insnEnd`, whose open field starts at
`patchOffset`.  The field has to lie inside the instruction. -/
def defer (f : Fragment) (bytes : Code) (patchOffset insnEnd : Nat) : Except Fault Fragment := do
  let stop ← Code.fieldEnd patchOffset
  if stop ≤ insnEnd then
    return { f with literals := f.literals ++ [⟨bytes, patchOffset, insnEnd⟩] }
  else throw .fieldPastInstruction

/-- One fragment after another. -/
def append (f g : Fragment) : Fragment :=
  ⟨f.code ++ g.code, f.literals ++ g.literals.map (·.shift f.code.length)⟩

instance : Append Fragment := ⟨append⟩

/-- The distance from the end of an instruction to a position in the code.  Positions are signed
words here, so an end in the upper half of the address space counts as negative. -/
def distance (offset insnEnd : Nat) : Except Fault Int :=
  let d := (offset : Int) - Int.bmod insnEnd Code.addressSpace
  if -0x8000000000000000 ≤ d ∧ d < 0x8000000000000000 then .ok d else .error .distanceOverflow

/-- The displacement that reaches `offset` from the end of an instruction. -/
def reach (offset insnEnd : Nat) : Except Fault Int32 := do
  let d ← distance offset insnEnd
  if -0x80000000 ≤ d ∧ d < 0x80000000 then return Int32.ofInt d else throw .literalTooFar

/-- Places one literal behind `code` and closes its field. -/
def placeLiteral (code : Code) (d : Deferred) : Except Fault (Code × Resolved) := do
  let disp ← reach code.length d.insnEnd
  let patched ← Code.patch32 (code ++ d.bytes) d.patchOffset disp.toUInt32
  return (patched, ⟨code.length, d.bytes.length, d.patchOffset, disp⟩)

/-- Places literals behind `code`, one after the other. -/
def placeLiterals (code : Code) : List Deferred → Except Fault (Code × List Resolved)
  | [] => .ok (code, [])
  | d :: ds => do
      let (code, first) ← placeLiteral code d
      let (code, rest) ← placeLiterals code ds
      return (code, first :: rest)

/-- Places every literal, and says where each one went. -/
def resolve (f : Fragment) : Except Fault (Fragment × List Resolved) := do
  let (code, placed) ← placeLiterals f.code f.literals
  return (⟨code, []⟩, placed)

end Fragment

end Trampoline
