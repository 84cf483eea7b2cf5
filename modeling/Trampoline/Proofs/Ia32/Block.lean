/-
Trampoline/Proofs/Ia32/Block.lean

The IA-32 machine.

An instruction of a trampoline sets one register (`State.Sets`), pushes a word
(`Instr.Pushes`) or stores.  What is followed are the general-purpose registers and
memory: no argument of an IA-32 call travels in an SSE register.
-/
import Mathlib
import Trampoline.Ia32.Machine
import Trampoline.Proofs.Block
import Trampoline.Proofs.Ia32.Decode

namespace Trampoline

open Memory (offset)

namespace Ia32

/-! ### Registers and the stack -/

namespace State

/-- A memory operand stands at a signed distance from its base. -/
theorem address_eq (s : State) (base : Gpr) (disp : Int32) :
    s.address base disp = offset (s.gpr base) disp.toInt := by
  rw [address, offset, ← Int32.toInt_toBitVec, BitVec.ofInt_toInt]

theorem toNat_fetch {n : Nat} (s : State) (a : BitVec 32) (h : n ≤ 4) :
    (s.fetch 32 n a).toNat = s.mem.readNat a n := by
  have hlt := (Memory.readNat_lt s.mem a n).trans_le (Nat.pow_le_pow_right (by decide) h)
  rw [fetch, BitVec.toNat_ofNat, Nat.mod_eq_of_lt hlt]

/-- `t` is `s` with the word `v` in the register `r`, at another instruction. -/
structure Sets (s t : State) (r : Gpr) (v : BitVec 32) : Prop where
  gpr_self : t.gpr r = v
  gpr_ne : ∀ q, q ≠ r → t.gpr q = s.gpr q
  mem_eq : t.mem = s.mem

theorem sets_setGpr (s : State) (a : BitVec 32) (r : Gpr) (v : BitVec 32) :
    s.Sets (State.setGpr { s with eip := a } r v) r v where
  gpr_self := if_pos rfl
  gpr_ne := fun _ hq => if_neg hq
  mem_eq := rfl

theorem gpr_push_esp (s : State) (v : BitVec 32) :
    (s.push v).gpr .esp = offset (s.gpr .esp) (-4) :=
  Memory.sub_ofNat_eq_offset (s.gpr .esp) 4

theorem gpr_push_ne (s : State) (v : BitVec 32) {r : Gpr} (h : r ≠ .esp) :
    (s.push v).gpr r = s.gpr r :=
  if_neg h

theorem mem_push (s : State) (v : BitVec 32) :
    (s.push v).mem = s.mem.writeNat (offset (s.gpr .esp) (-4)) 4 v.toNat := by
  rw [← show s.gpr .esp - 4 = offset (s.gpr .esp) (-4) from
    Memory.sub_ofNat_eq_offset (s.gpr .esp) 4]
  rfl

end State

/-! ### One instruction -/

namespace Instr

/-- Whether control falls through an instruction. -/
def Falls : Instr → Prop
  | call _ | ret => False
  | _ => True

def isCall : Instr → Bool
  | call _ => true
  | _ => false

theorem isCall_eq_false {i : Instr} (h : i.Falls) : i.isCall = false := by
  cases i with
  | call r => exact h.elim
  | _ => rfl

theorem eip_exec {i : Instr} (h : i.Falls) (next : BitVec 32) (s : State) :
    (i.exec next s).eip = next := by
  cases i with
  | call r => exact h.elim
  | ret => exact h.elim
  | _ => rfl

/-- Where an instruction stores, and how many bytes. -/
def stores (i : Instr) (s : State) : Option (BitVec 32 × Nat) :=
  match i with
  | store _ base disp => some (s.address base disp, 4)
  | sseStore p _ base disp => some (s.address base disp, p.bytes)
  | push _ | pushImm _ | pushMem _ _ | pushCs | call _ => some (offset (s.gpr .esp) (-4), 4)
  | _ => none

theorem mem_exec {i : Instr} {s : State} {x : BitVec 32} (next : BitVec 32)
    (h : ∀ a n, i.stores s = some (a, n) → ∀ k < n, x ≠ a + BitVec.ofNat 32 k) :
    (i.exec next s).mem x = s.mem x := by
  have hpush : ∀ {t : State} (v : BitVec 32), t.mem = s.mem → t.gpr = s.gpr →
      i.stores s = some (offset (s.gpr .esp) (-4), 4) → (t.push v).mem x = s.mem x := by
    intro t v hm hg hs
    rw [State.mem_push, hm, hg]
    exact Memory.writeNat_of_notMem _ _ (h _ _ hs)
  cases i with
  | store src base disp => exact Memory.writeNat_of_notMem _ _ (h _ _ rfl)
  | sseStore p src base disp => exact Memory.writeNat_of_notMem _ _ (h _ _ rfl)
  | push src => exact hpush _ rfl rfl rfl
  | pushImm imm => exact hpush _ rfl rfl rfl
  | pushMem base disp => exact hpush _ rfl rfl rfl
  | pushCs => exact hpush _ rfl rfl rfl
  | call target => exact hpush (t := { s with eip := next }) next rfl rfl rfl
  | _ => rfl

/-- Whether an instruction pushes a word.  A call is not counted: its return address is there for
the callee only. -/
def isPush : Instr → Bool
  | push _ | pushImm _ | pushMem _ _ | pushCs => true
  | _ => false

theorem isPush_eq_false {i : Instr} {s : State} (h : i.stores s = none) : i.isPush = false := by
  cases i with
  | push src => cases h
  | pushImm imm => cases h
  | pushMem base disp => cases h
  | pushCs => cases h
  | _ => rfl

end Instr

instance : InstructionSet Instr where
  encode := Instr.encode
  Falls := Instr.Falls
  isCall := Instr.isCall
  isCall_eq_false := Instr.isCall_eq_false

instance : Machine State Instr 32 where
  pc := State.eip
  mem := State.mem
  current? := State.current?
  exec := Instr.exec
  stores := Instr.stores
  current?_eq := State.current?_eq
  pc_exec := Instr.eip_exec
  mem_exec := Instr.mem_exec

end Ia32

namespace Runs

variable {P : BitVec 32 → Prop} {is : List Ia32.Instr} {s t : Ia32.State}

/-- A block ends where the next one starts. -/
theorem eip_eq (h : Runs P is s t) : t.eip = offset s.eip (Ia32.encodeAll is).length := h.pc_eq

/-- Straight-line code stays in its code segment. -/
theorem cs_eq (h : Runs P is s t) : t.cs = s.cs := by
  induction h with
  | nil => rfl
  | @cons i _ _ _ _ _ _ ih =>
      rw [ih]
      cases i <;> rfl

end Runs

end Trampoline
