/-
Trampoline/Proofs/Amd64/Block.lean

The x86-64 machine.

An instruction of a trampoline does one of two things: it sets one register
(`State.Sets`) or it stores.  Only calls and returns send control elsewhere than
behind themselves.  With where each instruction stores, this is what blocks are
reasoned about with.
-/
import Mathlib
import Trampoline.Amd64.Machine
import Trampoline.Proofs.Amd64.Decode
import Trampoline.Proofs.Block

namespace Trampoline

open Memory (offset)

namespace Amd64

/-! ### Registers -/

namespace State

/-- The number that a register holds. -/
def reg (s : State) : Reg → Nat
  | .gpr r => (s.gpr r).toNat
  | .xmm x => (s.xmm x).toNat

theorem gpr_eq_of_reg {s t : State} {r : Gpr} (h : t.reg (.gpr r) = s.reg (.gpr r)) :
    t.gpr r = s.gpr r :=
  BitVec.eq_of_toNat_eq h

/-- A memory operand stands at a signed distance from its base. -/
theorem address_eq (s : State) (base : Gpr) (disp : Int32) :
    s.address base disp = offset (s.gpr base) disp.toInt := rfl

theorem readNat_lt_two_pow {w n : Nat} (s : State) (a : BitVec 64) (h : 8 * n ≤ w) :
    s.mem.readNat a n < 2 ^ w := by
  refine (Memory.readNat_lt s.mem a n).trans_le ?_
  rw [show (256 : Nat) = 2 ^ 8 by decide, ← pow_mul]
  exact Nat.pow_le_pow_right (by decide) h

theorem toNat_fetch {w n : Nat} (s : State) (a : BitVec 64) (h : 8 * n ≤ w) :
    (s.fetch w n a).toNat = s.mem.readNat a n := by
  rw [fetch, BitVec.toNat_ofNat, Nat.mod_eq_of_lt (s.readNat_lt_two_pow a h)]

/-- `t` is `s` with the number `n` in the register `r`, at another instruction. -/
structure Sets (s t : State) (r : Reg) (n : Nat) : Prop where
  reg_self : t.reg r = n
  reg_ne : ∀ q, q ≠ r → t.reg q = s.reg q
  mem_eq : t.mem = s.mem

theorem sets_setGpr (s : State) (a : BitVec 64) (r : Gpr) (v : BitVec 64) :
    s.Sets (State.setGpr { s with rip := a } r v) (.gpr r) v.toNat where
  reg_self := by simp [reg, setGpr]
  reg_ne := by
    rintro (q | x) hq
    · have hne : q ≠ r := fun h => hq (by rw [h])
      simp [reg, setGpr, hne]
    · rfl
  mem_eq := rfl

theorem sets_setXmm (s : State) (a : BitVec 64) (x : Xmm) (v : BitVec 128) :
    s.Sets (State.setXmm { s with rip := a } x v) (.xmm x) v.toNat where
  reg_self := by simp [reg, setXmm]
  reg_ne := by
    rintro (q | y) hq
    · rfl
    · have hne : y ≠ x := fun h => hq (by rw [h])
      simp [reg, setXmm, hne]
  mem_eq := rfl

theorem Sets.gpr_ne {s t : State} {r : Reg} {n : Nat} (h : s.Sets t r n) {q : Gpr}
    (hq : Reg.gpr q ≠ r) : t.gpr q = s.gpr q :=
  gpr_eq_of_reg (h.reg_ne _ hq)

/-! ### The stack -/

@[simp] theorem gpr_push_rsp (s : State) (v : BitVec 64) :
    (s.push v).gpr .rsp = offset (s.gpr .rsp) (-8) := by
  simp only [push, setGpr, if_true]
  exact Memory.sub_ofNat_eq_offset (s.gpr .rsp) 8

theorem gpr_push_ne (s : State) (v : BitVec 64) {r : Gpr} (h : r ≠ .rsp) :
    (s.push v).gpr r = s.gpr r := by
  simp [push, setGpr, store, h]

@[simp] theorem xmm_push (s : State) (v : BitVec 64) : (s.push v).xmm = s.xmm := rfl

theorem mem_push (s : State) (v : BitVec 64) :
    (s.push v).mem = s.mem.writeNat (offset (s.gpr .rsp) (-8)) 8 v.toNat := by
  rw [← show s.gpr .rsp - 8 = offset (s.gpr .rsp) (-8) from
    Memory.sub_ofNat_eq_offset (s.gpr .rsp) 8]
  rfl

end State

/-! ### One instruction -/

namespace Instr

/-- Whether control falls through an instruction. -/
def Falls : Instr → Prop
  | call _ | ret => False
  | _ => True

def isCall : Instr → Bool
  | call _ => true
  | _ => false

theorem isCall_eq_false {i : Instr} (h : i.Falls) : i.isCall = false := by
  cases i with
  | call r => exact h.elim
  | _ => rfl

theorem rip_exec {i : Instr} (h : i.Falls) (next : BitVec 64) (s : State) :
    (i.exec next s).rip = next := by
  cases i with
  | call r => exact h.elim
  | ret => exact h.elim
  | arith op w dst imm => cases w <;> rfl
  | mov w dst src => cases w <;> rfl
  | _ => rfl

/-- Where an instruction stores, and how many bytes. -/
def stores (i : Instr) (s : State) : Option (BitVec 64 × Nat) :=
  match i with
  | store w _ base disp => some (s.address base disp, w.bytes)
  | sseSpill _ base disp => some (s.address base disp, 16)
  | push _ | pushImm _ | pushMem _ _ | call _ => some (offset (s.gpr .rsp) (-8), 8)
  | _ => none

theorem mem_exec {i : Instr} {s : State} {x : BitVec 64} (next : BitVec 64)
    (h : ∀ a n, i.stores s = some (a, n) → ∀ k < n, x ≠ a + BitVec.ofNat 64 k) :
    (i.exec next s).mem x = s.mem x := by
  have hpush : ∀ {t : State} (v : BitVec 64), t.mem = s.mem → t.gpr = s.gpr →
      i.stores s = some (offset (s.gpr .rsp) (-8), 8) → (t.push v).mem x = s.mem x := by
    intro t v hm hg hs
    rw [State.mem_push, hm, hg]
    exact Memory.writeNat_of_notMem _ _ (h _ _ hs)
  cases i with
  | store w src base disp => exact Memory.writeNat_of_notMem _ _ (h _ _ rfl)
  | sseSpill src base disp => exact Memory.writeNat_of_notMem _ _ (h _ _ rfl)
  | push src => exact hpush _ rfl rfl rfl
  | pushImm imm => exact hpush _ rfl rfl rfl
  | pushMem base disp => exact hpush _ rfl rfl rfl
  | call target => exact hpush (t := { s with rip := next }) next rfl rfl rfl
  | arith op w dst imm => cases w <;> rfl
  | mov w dst src => cases w <;> rfl
  | _ => rfl

end Instr

instance : InstructionSet Instr where
  encode := Instr.encode
  Falls := Instr.Falls
  isCall := Instr.isCall
  isCall_eq_false := Instr.isCall_eq_false

instance : Machine State Instr 64 where
  pc := State.rip
  mem := State.mem
  current? := State.current?
  exec := Instr.exec
  stores := Instr.stores
  current?_eq := State.current?_eq
  pc_exec := Instr.rip_exec
  mem_exec := Instr.mem_exec

theorem perform_eq (i : Instr) (s : State) :
    perform i s = i.exec (offset s.rip i.encode.length) s := rfl

end Amd64

/-- A block ends where the next one starts. -/
theorem Runs.rip_eq {P : BitVec 64 → Prop} {is : List Amd64.Instr} {s t : Amd64.State}
    (h : Runs P is s t) : t.rip = offset s.rip (Amd64.encodeAll is).length :=
  h.pc_eq

end Trampoline
