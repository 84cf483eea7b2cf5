/-
Trampoline/Amd64/Register.lean

The registers of x86-64: sixteen general-purpose registers and sixteen SSE
registers.  An instruction names a register by four bits.  The low three stand
in the operand byte and the fourth in a bit of the REX byte, and which file is
meant depends on the opcode alone.
-/

namespace Trampoline.Amd64

/-! ### General-purpose registers -/

/-- A general-purpose register, in the order of the register numbers. -/
inductive Gpr
  | rax | rcx | rdx | rbx | rsp | rbp | rsi | rdi
  | r8 | r9 | r10 | r11 | r12 | r13 | r14 | r15
  deriving DecidableEq, Repr

namespace Gpr

/-- All general-purpose registers, by number. -/
def all : List Gpr := [rax, rcx, rdx, rbx, rsp, rbp, rsi, rdi, r8, r9, r10, r11, r12, r13, r14, r15]

/-- The number of a register. -/
def code : Gpr → UInt8
  | rax => 0 | rcx => 1 | rdx => 2 | rbx => 3
  | rsp => 4 | rbp => 5 | rsi => 6 | rdi => 7
  | r8 => 8 | r9 => 9 | r10 => 10 | r11 => 11
  | r12 => 12 | r13 => 13 | r14 => 14 | r15 => 15

/-- The register that a number stands for, of which four bits count. -/
def ofCode (number : UInt8) : Gpr := all.getD (number.toNat % 16) rax

@[simp] theorem ofCode_code (r : Gpr) : ofCode r.code = r := by cases r <;> rfl

/-- The low three bits of the number. -/
def low3 (r : Gpr) : UInt8 := r.code &&& 7

/-- The name of a register. -/
def name : Gpr → String
  | rax => "rax" | rcx => "rcx" | rdx => "rdx" | rbx => "rbx"
  | rsp => "rsp" | rbp => "rbp" | rsi => "rsi" | rdi => "rdi"
  | r8 => "r8" | r9 => "r9" | r10 => "r10" | r11 => "r11"
  | r12 => "r12" | r13 => "r13" | r14 => "r14" | r15 => "r15"

end Gpr

/-! ### SSE registers -/

/-- An SSE register, in the order of the register numbers. -/
inductive Xmm
  | xmm0 | xmm1 | xmm2 | xmm3 | xmm4 | xmm5 | xmm6 | xmm7
  | xmm8 | xmm9 | xmm10 | xmm11 | xmm12 | xmm13 | xmm14 | xmm15
  deriving DecidableEq, Repr

namespace Xmm

/-- All SSE registers, by number. -/
def all : List Xmm :=
  [xmm0, xmm1, xmm2, xmm3, xmm4, xmm5, xmm6, xmm7, xmm8, xmm9, xmm10, xmm11, xmm12, xmm13,
   xmm14, xmm15]

/-- The number of a register. -/
def code : Xmm → UInt8
  | xmm0 => 0 | xmm1 => 1 | xmm2 => 2 | xmm3 => 3
  | xmm4 => 4 | xmm5 => 5 | xmm6 => 6 | xmm7 => 7
  | xmm8 => 8 | xmm9 => 9 | xmm10 => 10 | xmm11 => 11
  | xmm12 => 12 | xmm13 => 13 | xmm14 => 14 | xmm15 => 15

/-- The register that a number stands for, of which four bits count. -/
def ofCode (number : UInt8) : Xmm := all.getD (number.toNat % 16) xmm0

@[simp] theorem ofCode_code (x : Xmm) : ofCode x.code = x := by cases x <;> rfl

/-- The name of a register. -/
def name (x : Xmm) : String := s!"xmm{x.code}"

end Xmm

/-! ### Registers of either file -/

/-- A register of either file. -/
inductive Reg
  | gpr (r : Gpr)
  | xmm (x : Xmm)
  deriving DecidableEq, Repr

namespace Reg

/-- All registers. -/
def all : List Reg := Gpr.all.map gpr ++ Xmm.all.map xmm

/-- The number of a register within its file. -/
def code : Reg → UInt8
  | gpr r => r.code
  | xmm x => x.code

/-- The low three bits of the number. -/
def low3 (r : Reg) : UInt8 := r.code &&& 7

/-- Whether a register is an SSE register. -/
def isXmm : Reg → Bool
  | gpr _ => false
  | xmm _ => true

/-- The name of a register. -/
def name : Reg → String
  | gpr r => r.name
  | xmm x => x.name

/-- The spelling of a register in messages. -/
def spelling (r : Reg) : String := r.name.capitalize

/-- The register with a given name. -/
def ofName? (s : String) : Option Reg := all.find? (·.name == s)

/-- The general-purpose register that an instruction on general-purpose registers means by this
number. -/
def general : Reg → Gpr
  | gpr r => r
  | xmm x => Gpr.ofCode x.code

end Reg

end Trampoline.Amd64
