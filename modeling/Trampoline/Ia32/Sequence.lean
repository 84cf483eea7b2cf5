/-
Trampoline/Ia32/Sequence.lean

The instructions of a trampoline on IA-32: the prologue, one call, and the
epilogue.

A trampoline is entered with all its parameters on the stack.  It may call with
any of the four conventions: they differ in the registers for the first
arguments and in who takes the stack arguments off again.  Floating arguments
and 64-bit integers never travel in registers, so no literal waits for a place.

The frame pointer is `ebp`; `eax` holds the address of a callee and is free
between arguments, and so is `xmm0` in the prologue.
-/
import Trampoline.CallSite
import Trampoline.Frame
import Trampoline.Placement
import Trampoline.Ia32.Instr

namespace Trampoline.Ia32

/-! ### Registers of a convention -/

/-- The argument registers of a convention. -/
def budget (c : Convention) : Budget Gpr where
  ints := match c with
    | .cdecl | .stdcall => []
    | .thiscall => [.ecx]
    | .fastcall => [.ecx, .edx]
  floats := []
  positional := false

/-- The plan of a call.  A 64-bit integer needs the stack. -/
def classify (c : Convention) (types : List ValueType) : Plan Gpr :=
  (budget c).classify (fun t => t != .qword) types

/-! ### The frame -/

/-- Moves the stack pointer by `bytes`, or does nothing when there are none. -/
def adjustStack (op : Arith) (bytes : Nat) : List Instr :=
  if bytes = 0 then [] else [.arith op .esp (Int32.ofNat bytes)]

/-- Whether a value of this type takes two stack words. -/
def isLong (type : ValueType) : Bool := type.stackSize32 == 8

/-- Copies one parameter from the caller's stack to its home slot. -/
def homeSlot (slot : HomeSlot) (source : Int32) : List Instr :=
  let home := -slot.offset
  if slot.type.isFloat then
    let p := Precision.ofType slot.type
    [.sseLoad p .xmm0 .ebp source, .sseStore p .xmm0 .ebp home]
  else
    let low : List Instr := [.load .eax .ebp source, .store .eax .ebp home]
    let high : List Instr := [.load .eax .ebp (source + 4), .store .eax .ebp (home + 4)]
    if isLong slot.type then low ++ high else low

/-- The home slots, each with the offset from the frame pointer where its parameter comes in.
The first one of the list comes in at `source`. -/
def homesFrom (source : Int32) : List HomeSlot → List (HomeSlot × Int32)
  | [] => []
  | slot :: rest =>
      (slot, source) :: homesFrom (source + Int32.ofNat slot.type.stackSize32) rest

/-- The home slots of a frame.  The saved frame pointer and the return address lie below the
first parameter. -/
def homes (frame : Frame) : List (HomeSlot × Int32) := homesFrom 8 frame.homes

/-- Opens the frame and stores the entry parameters. -/
def prologue (frame : Frame) : List Instr :=
  [.push .ebp, .mov .ebp .esp] ++ adjustStack .sub frame.size ++
    (homes frame).flatMap fun (slot, source) => homeSlot slot source

/-- Closes the frame and returns. -/
def epilogue (frame : Frame) : List Instr := adjustStack .add frame.size ++ [.pop .ebp, .ret]

/-! ### Arguments -/

/-- The low half of a literal as an immediate. -/
def lowWord (value : UInt64) : Int32 := value.toUInt32.toInt32

/-- The high half of a literal as an immediate. -/
def highWord (value : UInt64) : Int32 := (value >>> 32).toUInt32.toInt32

/-- Pushes one argument, the high half of a long one first. -/
def pushOperand (frame : Frame) (a : Operand) : Except Fault (List Instr) :=
  match a.source with
  | .literal =>
      let low : Instr := .pushImm (lowWord a.value)
      .ok (if isLong a.type then [.pushImm (highWord a.value), low] else [low])
  | .forwarded index =>
      (frame.homeOffset index).map fun offset =>
        let low : Instr := .pushMem .ebp (-offset)
        if isLong a.type then [.pushMem .ebp (-offset + 4), low] else [low]
  | .scratch index =>
      (frame.scratchOffset index).map fun offset => [.lea .eax .ebp (-offset), .push .eax]

/-- Loads a forwarded parameter into a register, as wide as its type. -/
def loadForwarded (type : ValueType) (dst : Gpr) (offset : Int32) : Instr :=
  match type with
  | .byte => .loadZero .byte dst .ebp offset
  | .word => .loadZero .word dst .ebp offset
  | _ => .load dst .ebp offset

/-- Loads one argument into its register. -/
def loadOperand (frame : Frame) (dst : Gpr) (a : Operand) : Except Fault Instr :=
  match a.source with
  | .literal => .ok (.loadImm dst a.value.toUInt32)
  | .forwarded index =>
      (frame.homeOffset index).map fun offset => loadForwarded a.type dst (-offset)
  | .scratch index => (frame.scratchOffset index).map fun offset => .lea dst .ebp (-offset)

/-! ### Calls -/

/-- The bytes that the stack arguments of a call take. -/
def stackBytes (plan : Plan Gpr) (args : List Operand) : Nat :=
  (plan.stackOperandsRev args).foldr (fun a n => a.type.stackSize32 + n) 0

/-- The bytes that a call leaves free above its stack arguments.  On entry the stack pointer is
four below a multiple of sixteen, and the saved frame pointer takes four more. -/
def callPad (frame : Frame) (stack : Nat) : Nat := alignPad (8 + frame.size + stack)

/-- The bytes that the caller takes off the stack after a call. -/
def cleanupBytes (c : Convention) (stack pad : Nat) : Nat :=
  if c.calleeCleanup then pad else stack + pad

/-- The instructions of one call. -/
def callInstrs (frame : Frame) (site : CallSite) : Except Fault (List Instr) := do
  let plan := classify site.convention site.types
  let stack := stackBytes plan site.args
  let pad := callPad frame stack
  let pushes ← (plan.stackOperandsRev site.args).mapM (pushOperand frame)
  let loads ← (plan.registerOperands site.args).mapM fun (_, r, a) => loadOperand frame r a
  let segment : List Instr := if site.far then [.pushCs] else []
  return adjustStack .sub pad ++ pushes.flatten ++ loads ++ segment ++
    [.loadImm .eax site.callee.toUInt32, .call .eax] ++
    adjustStack .add (cleanupBytes site.convention stack pad)

end Trampoline.Ia32
