/-
Trampoline/Memory.lean

Byte-addressed memory, and numbers in it.  Addresses are machine words, so an
access at the end of memory goes on at its start.
-/
import Trampoline.Code

namespace Trampoline

/-- Memory with addresses of `w` bits. -/
abbrev Memory (w : Nat) := BitVec w → UInt8

namespace Memory

variable {w : Nat}

/-- The `n` bytes from an address on. -/
def read (m : Memory w) (a : BitVec w) (n : Nat) : Code :=
  (List.range n).map fun i => m (a + BitVec.ofNat w i)

/-- The number of `n` bytes at an address. -/
def readNat (m : Memory w) (a : BitVec w) (n : Nat) : Nat := ofLittleEndian (m.read a n)

/-- The memory with bytes stored from an address on. -/
def write (m : Memory w) (a : BitVec w) : Code → Memory w
  | [] => m
  | b :: bs => fun x => if x = a then b else write m (a + 1) bs x

/-- The memory with a number of `n` bytes stored at an address. -/
def writeNat (m : Memory w) (a : BitVec w) (n value : Nat) : Memory w :=
  m.write a (littleEndian n value)

end Memory

end Trampoline
