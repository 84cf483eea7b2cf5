/-
Trampoline/Ia32/Machine.lean

What the instructions do to an IA-32 machine.  The state has the two register
files, the code segment selector, the instruction pointer and memory; flags are
left out, because no instruction of a trampoline reads them.  All segments are
flat, so a selector only matters as a number on the stack.
-/
import Trampoline.Memory
import Trampoline.Ia32.Decode

namespace Trampoline.Ia32

/-- A machine state. -/
structure State where
  gpr : Gpr → BitVec 32
  xmm : Xmm → BitVec 128
  cs : BitVec 16
  eip : BitVec 32
  mem : Memory 32

namespace State

/-- The state with another value in a general-purpose register. -/
def setGpr (s : State) (r : Gpr) (v : BitVec 32) : State :=
  { s with gpr := fun x => if x = r then v else s.gpr x }

/-- The state with another value in an SSE register. -/
def setXmm (s : State) (x : Xmm) (v : BitVec 128) : State :=
  { s with xmm := fun y => if y = x then v else s.xmm y }

/-- The address of a memory operand. -/
def address (s : State) (base : Gpr) (disp : Int32) : BitVec 32 := s.gpr base + disp.toBitVec

/-- The number of `n` bytes at an address, filled up with zeros. -/
def fetch (s : State) (w n : Nat) (a : BitVec 32) : BitVec w := BitVec.ofNat w (s.mem.readNat a n)

/-- The state with `n` bytes of a number stored at an address. -/
def store (s : State) (a : BitVec 32) (n value : Nat) : State :=
  { s with mem := s.mem.writeNat a n value }

/-- The state with four bytes pushed. -/
def push (s : State) (v : BitVec 32) : State :=
  let sp := s.gpr .esp - 4
  (s.store sp 4 v.toNat).setGpr .esp sp

/-- The four bytes on top of the stack, and the state without them. -/
def pop (s : State) : BitVec 32 × State :=
  (s.fetch 32 4 (s.gpr .esp), s.setGpr .esp (s.gpr .esp + 4))

end State

/-- Executes an instruction; `next` is where the following one starts. -/
def Instr.exec (i : Instr) (next : BitVec 32) (s : State) : State :=
  let s := { s with eip := next }
  match i with
  | arith op dst imm => s.setGpr dst (op.apply (s.gpr dst) imm.toBitVec)
  | mov dst src => s.setGpr dst (s.gpr src)
  | clear dst => s.setGpr dst 0
  | movImm dst imm => s.setGpr dst imm.toBitVec
  | load dst base disp => s.setGpr dst (s.fetch 32 4 (s.address base disp))
  | loadZero n dst base disp => s.setGpr dst (s.fetch 32 n.bytes (s.address base disp))
  | store src base disp => s.store (s.address base disp) 4 (s.gpr src).toNat
  | lea dst base disp => s.setGpr dst (s.address base disp)
  | sseLoad p dst base disp =>
      s.setXmm dst (s.fetch 128 p.bytes (s.address base disp))
  | sseStore p src base disp =>
      s.store (s.address base disp) p.bytes (s.xmm src).toNat
  | push src => s.push (s.gpr src)
  | pop dst => let (v, s) := s.pop; s.setGpr dst v
  | pushImm imm => s.push imm.toBitVec
  | pushMem base disp => s.push (s.fetch 32 4 (s.address base disp))
  | pushCs => s.push (s.cs.setWidth 32)
  | call target => { s.push next with eip := s.gpr target }
  | ret => let (v, s) := s.pop; { s with eip := v }

/-- The longest instruction, in bytes. -/
def maxInstrBytes : Nat := 15

/-- The instruction at the instruction pointer, and the address after it. -/
def State.current? (s : State) : Option (Instr × BitVec 32) :=
  let window := s.mem.read s.eip maxInstrBytes
  (decode window).map fun (i, rest) =>
    (i, s.eip + BitVec.ofNat 32 (window.length - rest.length))

/-- Executes the instruction at the instruction pointer. -/
def step (s : State) : Option State := s.current?.map fun (i, next) => i.exec next s

end Trampoline.Ia32
