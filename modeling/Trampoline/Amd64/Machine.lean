/-
Trampoline/Amd64/Machine.lean

What the instructions do to an x86-64 machine.  The state has the two register
files, the instruction pointer and memory; flags are left out, because no
instruction of a trampoline reads them.

`Instr.exec` is one instruction, given where the next one starts.  `step` fetches
and decodes an instruction from memory and executes it.  A call pushes the
return address and jumps; what the callee does is not said here.
-/
import Trampoline.Memory
import Trampoline.Amd64.Decode

namespace Trampoline.Amd64

/-- A machine state. -/
structure State where
  gpr : Gpr → BitVec 64
  xmm : Xmm → BitVec 128
  rip : BitVec 64
  mem : Memory 64

namespace State

/-- The state with another value in a general-purpose register. -/
def setGpr (s : State) (r : Gpr) (v : BitVec 64) : State :=
  { s with gpr := fun x => if x = r then v else s.gpr x }

/-- The state with another value in an SSE register. -/
def setXmm (s : State) (x : Xmm) (v : BitVec 128) : State :=
  { s with xmm := fun y => if y = x then v else s.xmm y }

/-- The state with a register written at an operand width.  A 32-bit write clears the upper
half. -/
def setWidth (s : State) (w : Width) (r : Gpr) (v : BitVec 64) : State :=
  match w with
  | .w64 => s.setGpr r v
  | .w32 => s.setGpr r ((v.setWidth 32).setWidth 64)

/-- The address of a memory operand. -/
def address (s : State) (base : Gpr) (disp : Int32) : BitVec 64 :=
  s.gpr base + disp.toBitVec.signExtend 64

/-- The number of `n` bytes at an address, filled up with zeros. -/
def fetch (s : State) (w n : Nat) (a : BitVec 64) : BitVec w := BitVec.ofNat w (s.mem.readNat a n)

/-- The state with `n` bytes of a number stored at an address. -/
def store (s : State) (a : BitVec 64) (n value : Nat) : State :=
  { s with mem := s.mem.writeNat a n value }

/-- The state with eight bytes pushed. -/
def push (s : State) (v : BitVec 64) : State :=
  let sp := s.gpr .rsp - 8
  (s.store sp 8 v.toNat).setGpr .rsp sp

/-- The eight bytes on top of the stack, and the state without them. -/
def pop (s : State) : BitVec 64 × State :=
  (s.fetch 64 8 (s.gpr .rsp), s.setGpr .rsp (s.gpr .rsp + 8))

end State

/-- The bytes of an operand width. -/
def Width.bytes : Width → Nat
  | w32 => 4
  | w64 => 8

/-- Executes an instruction; `next` is where the following one starts. -/
def Instr.exec (i : Instr) (next : BitVec 64) (s : State) : State :=
  let s := { s with rip := next }
  match i with
  | arith op w dst imm =>
      s.setWidth w dst (op.apply (s.gpr dst) (imm.toBitVec.signExtend 64))
  | mov w dst src => s.setWidth w dst (s.gpr src)
  | clear dst => s.setGpr dst 0
  | movImm32 dst imm => s.setGpr dst (imm.toBitVec.setWidth 64)
  | movSigned dst imm => s.setGpr dst (imm.toBitVec.signExtend 64)
  | movImm64 dst imm => s.setGpr dst imm.toBitVec
  | load w dst base disp => s.setGpr dst (s.fetch 64 w.bytes (s.address base disp))
  | loadZero n dst base disp => s.setGpr dst (s.fetch 64 n.bytes (s.address base disp))
  | store w src base disp => s.store (s.address base disp) w.bytes (s.gpr src).toNat
  | lea dst base disp => s.setGpr dst (s.address base disp)
  | sseLoad p dst base disp =>
      s.setXmm dst (s.fetch 128 p.bytes (s.address base disp))
  | sseLoadRip p dst disp =>
      s.setXmm dst (s.fetch 128 p.bytes (next + disp.toBitVec.signExtend 64))
  | sseSpill src base disp => s.store (s.address base disp) 16 (s.xmm src).toNat
  | push src => s.push (s.gpr src)
  | pop dst => let (v, s) := s.pop; s.setGpr dst v
  | pushImm imm => s.push (imm.toBitVec.signExtend 64)
  | pushMem base disp => s.push (s.fetch 64 8 (s.address base disp))
  | call target => { s.push next with rip := s.gpr target }
  | ret => let (v, s) := s.pop; { s with rip := v }

/-- The longest instruction, in bytes. -/
def maxInstrBytes : Nat := 15

/-- The instruction at the instruction pointer, and the address after it. -/
def State.current? (s : State) : Option (Instr × BitVec 64) :=
  let window := s.mem.read s.rip maxInstrBytes
  (decode window).map fun (i, rest) =>
    (i, s.rip + BitVec.ofNat 64 (window.length - rest.length))

/-- Executes the instruction at the instruction pointer. -/
def step (s : State) : Option State := s.current?.map fun (i, next) => i.exec next s

end Trampoline.Amd64
