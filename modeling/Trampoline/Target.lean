/-
Trampoline/Target.lean

The three targets: x86-64 with the System V or the Microsoft convention, and
IA-32.  A target turns a frame into the code of a prologue and of an epilogue,
and a call site into a fragment.  All of it depends on the frame and the call
site alone, so the code of a call is the same wherever it stands.
-/
import Trampoline.Event
import Trampoline.Amd64.Sequence
import Trampoline.Ia32.Sequence

namespace Trampoline

/-! ### Log records of the instruction sets -/

/-- What a prologue logs on x86-64. -/
def Amd64.prologueEvents (abi : Amd64.Abi) (frame : Frame) : List Event :=
  ((Amd64.homes abi frame).map fun (slot, place) => .homed64 slot.type slot.offset place) ++
    [.prologue64 abi.name frame.homes.length frame.size]

/-- What the call number `number` logs on x86-64. -/
def Amd64.callEvents (abi : Amd64.Abi) (site : CallSite) (number : Nat) : List Event :=
  let plan := abi.classify site.types
  let ignored : List Event :=
    if site.convention = .cdecl then [] else [.conventionIgnored abi.name site.convention]
  ignored ++
    ((plan.registerOperands site.args).map fun (index, r, a) => .placed64 index a.type r) ++
    [.called64 abi.name number site.callee site.args.length plan.stackCount]

/-- What a prologue logs on IA-32. -/
def Ia32.prologueEvents (frame : Frame) : List Event :=
  ((Ia32.homes frame).map fun (slot, source) => .homed32 slot.type slot.offset source) ++
    [.prologue32 frame.homes.length frame.size]

/-- What the call number `number` logs on IA-32. -/
def Ia32.callEvents (site : CallSite) (number : Nat) : List Event :=
  let plan := Ia32.classify site.convention site.types
  ((plan.registerOperands site.args).map fun (index, r, a) => .placed32 index a.type r) ++
    [.called32 site.convention number site.callee site.args.length
      (Ia32.stackBytes plan site.args)]

/-! ### Targets -/

/-- What code is built for. -/
inductive Target
  | systemV
  | microsoft
  | ia32
  deriving DecidableEq, Repr

namespace Target

/-- The target of the machine that this library runs on. -/
def host : Target := systemV

/-- The native convention of an x86-64 target. -/
def abi? : Target → Option Amd64.Abi
  | systemV => some .systemV
  | microsoft => some .microsoft
  | ia32 => none

/-- The name of a target. -/
def name (t : Target) : String :=
  match t.abi? with
  | some abi => abi.name
  | none => "x86"

/-- The bytes of a pointer. -/
def pointerSize (t : Target) : Nat := if t.abi?.isSome then 8 else 4

/-- The code of the prologue for a frame. -/
def prologueCode (t : Target) (frame : Frame) : Code :=
  match t.abi? with
  | some abi => Amd64.encodeAll (Amd64.prologue abi frame)
  | none => Ia32.encodeAll (Ia32.prologue frame)

/-- What the prologue for a frame logs. -/
def prologueEvents (t : Target) (frame : Frame) : List Event :=
  match t.abi? with
  | some abi => Amd64.prologueEvents abi frame
  | none => Ia32.prologueEvents frame

/-- The code of the epilogue for a frame. -/
def epilogueCode (t : Target) (frame : Frame) : Code :=
  match t.abi? with
  | some _ => Amd64.encodeAll (Amd64.epilogue frame)
  | none => Ia32.encodeAll (Ia32.epilogue frame)

/-- Why a target refuses a call site, if it does: far calls exist on IA-32 only. -/
def refusal? (t : Target) (site : CallSite) : Option Error :=
  if t.abi?.isSome ∧ site.far then some (.farCall "x86-64") else none

/-- The code of a call that the target does not refuse. -/
def callFragment (t : Target) (frame : Frame) (site : CallSite) : Except Fault Fragment :=
  match t.abi? with
  | some abi => Amd64.callFragment abi frame site
  | none => (Ia32.callInstrs frame site).map fun is => { code := Ia32.encodeAll is }

/-- What a call logs that is the `number`-th since the prologue. -/
def callEvents (t : Target) (site : CallSite) (number : Nat) : List Event :=
  match t.abi? with
  | some abi => Amd64.callEvents abi site number
  | none => Ia32.callEvents site number

end Target

end Trampoline
