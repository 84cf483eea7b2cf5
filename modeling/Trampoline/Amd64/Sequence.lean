/-
Trampoline/Amd64/Sequence.lean

The instructions of a trampoline on x86-64: the prologue, one call, and the
epilogue.

The frame pointer is `rbp`, the address of a callee goes through `r11`, and `rax`
is free between arguments.  The prologue leaves the stack pointer `frame.size`
bytes below the frame pointer; a call pads the stack to a multiple of sixteen,
pushes the stack arguments last one first, leaves the shadow space, loads the
register arguments, calls, and takes everything off the stack again.

A floating literal in an SSE register is loaded from behind the code, so a call
is a list of `Line`s: instructions, and loads whose literal has no place yet.
-/
import Trampoline.CallSite
import Trampoline.Fragment
import Trampoline.Frame
import Trampoline.Amd64.Abi
import Trampoline.Amd64.Instr

namespace Trampoline.Amd64

/-! ### Lines -/

/-- A line of code: an instruction, or the load of a literal that is placed later. -/
inductive Line
  | instr (i : Instr)
  | literal (precision : Precision) (dst : Xmm) (bytes : Code)
  deriving DecidableEq, Repr

/-- The instruction of a line; the displacement to a literal is still open. -/
def Line.toInstr : Line → Instr
  | instr i => i
  | literal p dst _ => .sseLoadRip p dst 0

/-- The code of one line. -/
def Line.fragment : Line → Except Fault Fragment
  | instr i => .ok { code := i.encode }
  | literal p dst bytes =>
      let load : Fragment := { code := (Instr.sseLoadRip p dst 0).encode }
      load.defer bytes (ripField (.sseLoad p) (Instr.xmmField dst)) load.code.length

/-- The code of lines one after the other. -/
def assemble : List Line → Except Fault Fragment
  | [] => .ok {}
  | line :: lines => do
      let first ← line.fragment
      let rest ← assemble lines
      return first ++ rest

/-! ### The frame -/

/-- Moves the stack pointer by `bytes`, or does nothing when there are none. -/
def adjustStack (op : Arith) (bytes : Nat) : List Instr :=
  if bytes = 0 then [] else [.arith op .w64 .rsp (Int32.ofNat bytes)]

/-- The offset from the frame pointer of the caller's stack argument number `k`: the saved frame
pointer and the return address lie below it, and then the shadow space. -/
def callerArg (abi : Abi) (k : Nat) : Int32 := Int32.ofNat (16 + abi.shadowSpace + 8 * k)

/-- Stores entry parameters in their home slots.  `k` of them came on the stack before. -/
def homeFrom (abi : Abi) (k : Nat) : List (HomeSlot × Placement Reg) → List Instr
  | [] => []
  | (slot, .reg (.xmm x)) :: rest =>
      .sseSpill x .rbp (-slot.offset) :: homeFrom abi k rest
  | (slot, .reg (.gpr r)) :: rest =>
      .store .w64 r .rbp (-slot.offset) :: homeFrom abi k rest
  | (slot, .stack) :: rest =>
      .load .w64 .rax .rbp (callerArg abi k) ::
        .store .w64 .rax .rbp (-slot.offset) :: homeFrom abi (k + 1) rest

/-- The home slots of a frame, each with the place its parameter comes in. -/
def homes (abi : Abi) (frame : Frame) : List (HomeSlot × Placement Reg) :=
  frame.homes.zip (abi.classify (frame.homes.map (·.type))).placements

/-- Opens the frame and stores the entry parameters. -/
def prologue (abi : Abi) (frame : Frame) : List Instr :=
  [.push .rbp, .mov .w64 .rbp .rsp] ++ adjustStack .sub frame.size ++
    homeFrom abi 0 (homes abi frame)

/-- Closes the frame and returns. -/
def epilogue (frame : Frame) : List Instr := adjustStack .add frame.size ++ [.pop .rbp, .ret]

/-! ### Arguments -/

/-- Pushes one argument as a slot of eight bytes.  In the slot of a narrow literal only the low
half counts, so its sign extension does no harm. -/
def pushOperand (frame : Frame) (a : Operand) : Except Fault (List Instr) :=
  match a.source with
  | .literal =>
      .ok <| if a.type.size ≤ 4 ∨ Instr.fitsSigned a.value then
          [.pushImm (Instr.lowSigned a.value)]
        else [.loadImm .w64 .rax a.value, .push .rax]
  | .forwarded index => (frame.homeOffset index).map fun offset => [.pushMem .rbp (-offset)]
  | .scratch index =>
      (frame.scratchOffset index).map fun offset => [.lea .rax .rbp (-offset), .push .rax]

/-- Loads a forwarded parameter into a general-purpose register, as wide as its type. -/
def loadForwarded (type : ValueType) (dst : Gpr) (offset : Int32) : Instr :=
  match type with
  | .byte => .loadZero .byte dst .rbp offset
  | .word => .loadZero .word dst .rbp offset
  | .dword => .load .w32 dst .rbp offset
  | _ => .load .w64 dst .rbp offset

/-- Loads one argument into its register. -/
def loadOperand (frame : Frame) (dst : Reg) (a : Operand) : Except Fault Line :=
  match a.source, dst with
  | .literal, .xmm x => .ok (.literal (.ofType a.type) x a.literalBytes)
  | .literal, .gpr r => .ok (.instr (.loadImm (.ofWide (a.type.size == 8)) r a.value))
  | .forwarded index, .xmm x =>
      (frame.homeOffset index).map fun offset =>
        .instr (.sseLoad (.ofType a.type) x .rbp (-offset))
  | .forwarded index, .gpr r =>
      (frame.homeOffset index).map fun offset => .instr (loadForwarded a.type r (-offset))
  | .scratch index, .gpr r =>
      (frame.scratchOffset index).map fun offset => .instr (.lea r .rbp (-offset))
  | .scratch _, .xmm _ => .error (.scratchInSse dst.spelling)

/-! ### Calls -/

/-- The bytes that the stack arguments of a call take. -/
def stackBytes (plan : Plan Reg) : Nat := 8 * plan.stackCount

/-- The bytes that a call leaves free above its stack arguments. -/
def callPad (frame : Frame) (plan : Plan Reg) : Nat := alignPad (frame.size + stackBytes plan)

/-- Says in `al` how many SSE registers hold arguments, where the convention asks for it. -/
def countVectors (abi : Abi) (count : Nat) : List Instr :=
  if abi.vectorCount then [.loadImm .w32 .rax (UInt64.ofNat count)] else []

/-- The lines of one call. -/
def callLines (abi : Abi) (frame : Frame) (site : CallSite) : Except Fault (List Line) := do
  let plan := abi.classify site.types
  let pad := callPad frame plan
  let pushes ← (plan.stackOperandsRev site.args).mapM (pushOperand frame)
  let loads ← (plan.registerOperands site.args).mapM fun (_, r, a) => loadOperand frame r a
  let before := adjustStack .sub pad ++ pushes.flatten ++ adjustStack .sub abi.shadowSpace
  let after :=
    countVectors abi (plan.floatRegCount site.args) ++
      [.loadImm .w64 .r11 site.callee, .call .r11] ++
      adjustStack .add (stackBytes plan + pad + abi.shadowSpace)
  return before.map .instr ++ loads ++ after.map .instr

/-- The code of one call. -/
def callFragment (abi : Abi) (frame : Frame) (site : CallSite) : Except Fault Fragment := do
  assemble (← callLines abi frame site)

end Trampoline.Amd64
