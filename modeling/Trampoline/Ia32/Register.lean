/-
Trampoline/Ia32/Register.lean

The registers of IA-32: eight general-purpose registers and eight SSE registers.
An instruction names a register by three bits, and the opcode says which file is
meant.
-/

namespace Trampoline.Ia32

/-! ### General-purpose registers -/

/-- A general-purpose register, in the order of the register numbers. -/
inductive Gpr
  | eax | ecx | edx | ebx | esp | ebp | esi | edi
  deriving DecidableEq, Repr

namespace Gpr

/-- All general-purpose registers, by number. -/
def all : List Gpr := [eax, ecx, edx, ebx, esp, ebp, esi, edi]

/-- The number of a register. -/
def code : Gpr → UInt8
  | eax => 0 | ecx => 1 | edx => 2 | ebx => 3
  | esp => 4 | ebp => 5 | esi => 6 | edi => 7

/-- The register that a number stands for, of which three bits count. -/
def ofCode (number : UInt8) : Gpr := all.getD (number.toNat % 8) eax

@[simp] theorem ofCode_code (r : Gpr) : ofCode r.code = r := by cases r <;> rfl

/-- The name of a register. -/
def name : Gpr → String
  | eax => "eax" | ecx => "ecx" | edx => "edx" | ebx => "ebx"
  | esp => "esp" | ebp => "ebp" | esi => "esi" | edi => "edi"

/-- The spelling of a register in messages. -/
def spelling (r : Gpr) : String := r.name.capitalize

end Gpr

/-! ### SSE registers -/

/-- An SSE register, in the order of the register numbers. -/
inductive Xmm
  | xmm0 | xmm1 | xmm2 | xmm3 | xmm4 | xmm5 | xmm6 | xmm7
  deriving DecidableEq, Repr

namespace Xmm

/-- All SSE registers, by number. -/
def all : List Xmm := [xmm0, xmm1, xmm2, xmm3, xmm4, xmm5, xmm6, xmm7]

/-- The number of a register. -/
def code : Xmm → UInt8
  | xmm0 => 0 | xmm1 => 1 | xmm2 => 2 | xmm3 => 3
  | xmm4 => 4 | xmm5 => 5 | xmm6 => 6 | xmm7 => 7

/-- The register that a number stands for, of which three bits count. -/
def ofCode (number : UInt8) : Xmm := all.getD (number.toNat % 8) xmm0

@[simp] theorem ofCode_code (x : Xmm) : ofCode x.code = x := by cases x <;> rfl

/-- The name of a register. -/
def name (x : Xmm) : String := s!"xmm{x.code}"

end Xmm

/-! ### Registers of either file -/

/-- A register of either file. -/
inductive Reg
  | gpr (r : Gpr)
  | xmm (x : Xmm)
  deriving DecidableEq, Repr

namespace Reg

/-- All registers. -/
def all : List Reg := Gpr.all.map gpr ++ Xmm.all.map xmm

/-- The number of a register within its file. -/
def code : Reg → UInt8
  | gpr r => r.code
  | xmm x => x.code

/-- Whether a register is an SSE register. -/
def isXmm : Reg → Bool
  | gpr _ => false
  | xmm _ => true

/-- The name of a register. -/
def name : Reg → String
  | gpr r => r.name
  | xmm x => x.name

/-- The spelling of a register in messages. -/
def spelling (r : Reg) : String := r.name.capitalize

/-- The register with a given name. -/
def ofName? (s : String) : Option Reg := all.find? (·.name == s)

/-- The general-purpose register that an instruction on general-purpose registers means by this
number. -/
def general : Reg → Gpr
  | gpr r => r
  | xmm x => Gpr.ofCode x.code

end Reg

end Trampoline.Ia32
