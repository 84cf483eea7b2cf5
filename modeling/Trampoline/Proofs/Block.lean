/-
Trampoline/Proofs/Block.lean

Straight-line code, on a machine of any instruction set.

Little is asked of a `Machine`: an instruction whose bytes stand at the instruction
pointer is the one that is executed, control goes on behind an instruction unless
that is a call or a return, and an instruction changes no other bytes than those
that it is said to store.

`Runs P is s t` says that the instructions `is`, executed where they stand, take
the state `s` to `t`, that control falls through each of them, and that they
store to addresses in `P` only.  The last part is what a caller of a block
needs: memory outside `P` is as before (`Runs.mem_eq`), and so is code that lies
outside `P`, which is what makes it legitimate to follow a list of instructions
instead of fetching each one from memory (`Runs.reaches`).
-/
import Mathlib
import Trampoline.Proofs.Memory

namespace Trampoline

open Memory (offset Between StandsAt)

/-! ### Machines -/

/-- Instructions, and where control goes after them. -/
class InstructionSet (ι : Type) where
  /-- The bytes of an instruction. -/
  encode : ι → Code
  /-- Whether control falls through an instruction. -/
  Falls : ι → Prop
  isCall : ι → Bool
  isCall_eq_false {i : ι} (h : Falls i) : isCall i = false

/-- States `σ` in which instructions `ι` are executed, with addresses of `w` bits. -/
class Machine (σ : Type) (ι : outParam Type) (w : outParam Nat) [InstructionSet ι] where
  /-- The instruction pointer. -/
  pc : σ → BitVec w
  mem : σ → Memory w
  /-- The instruction that is about to be executed, with the address behind it. -/
  current? : σ → Option (ι × BitVec w)
  /-- Executes an instruction that stands in front of the address `next`. -/
  exec : (i : ι) → (next : BitVec w) → σ → σ
  /-- Where an instruction stores, and how many bytes. -/
  stores : ι → σ → Option (BitVec w × Nat)
  current?_eq {i : ι} {s : σ}
    (h : (mem s).read (pc s) (InstructionSet.encode i).length = InstructionSet.encode i) :
    current? s = some (i, offset (pc s) (InstructionSet.encode i).length)
  pc_exec {i : ι} (h : InstructionSet.Falls i) (next : BitVec w) (s : σ) :
    pc (exec i next s) = next
  mem_exec {i : ι} {s : σ} {x : BitVec w} (next : BitVec w)
    (h : ∀ a n, stores i s = some (a, n) → ∀ k < n, x ≠ a + BitVec.ofNat w k) :
    mem (exec i next s) x = mem s x

open InstructionSet (encode Falls)

open Machine (pc mem current? exec stores)

variable {ι σ : Type} {w : Nat} [InstructionSet ι] [Machine σ ι w]

/-! ### One instruction -/

/-- Executes an instruction where it stands. -/
def perform (i : ι) (s : σ) : σ := exec i (offset (pc s) (encode i).length) s

theorem pc_perform {i : ι} (h : Falls i) (s : σ) :
    pc (perform i s) = offset (pc s) (encode i).length :=
  Machine.pc_exec h _ s

/-- Whether an instruction writes the byte at an address. -/
def Writes (i : ι) (s : σ) (x : BitVec w) : Prop :=
  ∃ a n, stores i s = some (a, n) ∧ ∃ k < n, x = a + BitVec.ofNat w k

theorem mem_perform_of_not_writes {i : ι} {s : σ} {x : BitVec w} (h : ¬ Writes i s x) :
    mem (perform i s) x = mem s x :=
  Machine.mem_exec _ fun a n hs k hk hx => h ⟨a, n, hs, k, hk, hx⟩

theorem read_perform {i : ι} {s : σ} {a : BitVec w} {n : Nat}
    (h : ∀ k < n, ¬ Writes i s (a + BitVec.ofNat w k)) :
    (mem (perform i s)).read a n = (mem s).read a n :=
  Memory.read_congr fun k hk => mem_perform_of_not_writes (h k hk)

/-- The addresses that a store writes. -/
theorem Writes.between {i : ι} {s : σ} {x fp : BitVec w} {z : Int} {n : Nat} (hx : Writes i s x)
    (h : stores i s = some (offset fp z, n)) : Between fp z (z + n) x := by
  obtain ⟨a, m, hs, k, hk, rfl⟩ := hx
  rw [h] at hs
  obtain ⟨rfl, rfl⟩ := Prod.mk.injEq .. ▸ Option.some.inj hs
  refine ⟨z + k, by omega, by omega, ?_⟩
  rw [Memory.add_ofNat_eq_offset, Memory.offset_offset]

/-- Whether control falls through an instruction and it stores nothing. -/
def Quiet (i : ι) (s : σ) : Prop := Falls i ∧ stores i s = none

/-! ### Blocks -/

/-- Whether straight-line code takes `s` to `t` and stores to addresses in `P` only. -/
inductive Runs (P : BitVec w → Prop) : List ι → σ → σ → Prop
  | nil (s : σ) : Runs P [] s s
  | cons {i : ι} {is : List ι} {s t : σ} (falls : Falls i) (writes : ∀ x, Writes i s x → P x)
      (rest : Runs P is (perform i s) t) : Runs P (i :: is) s t

namespace Runs

variable {P Q : BitVec w → Prop} {is js : List ι} {s t u : σ}

theorem one {i : ι} (falls : Falls i) (writes : ∀ x, Writes i s x → P x) :
    Runs P [i] s (perform i s) :=
  .cons falls writes (.nil _)

theorem quiet {i : ι} (h : Quiet i s) : Runs P [i] s (perform i s) := by
  refine .one h.1 fun x hx => ?_
  obtain ⟨a, n, hs, -⟩ := hx
  rw [h.2] at hs
  cases hs

theorem append (h : Runs P is s t) (h' : Runs P js t u) : Runs P (is ++ js) s u := by
  induction h with
  | nil => exact h'
  | cons falls writes _ ih => exact .cons falls writes (ih h')

theorem mono (h : Runs P is s t) (hPQ : ∀ x, P x → Q x) : Runs Q is s t := by
  induction h with
  | nil => exact .nil _
  | cons falls writes _ ih => exact .cons falls (fun x hx => hPQ x (writes x hx)) ih

theorem widen {fp : BitVec w} {lo hi lo' hi' : Int} (h : Runs (Between fp lo hi) is s t)
    (hlo : lo' ≤ lo) (hhi : hi ≤ hi') : Runs (Between fp lo' hi') is s t :=
  h.mono fun _ hx => hx.mono hlo hhi

/-- A block ends where the next one starts. -/
theorem pc_eq (h : Runs P is s t) : pc t = offset (pc s) (is.flatMap encode).length := by
  induction h with
  | nil s => exact (Memory.offset_zero (pc s)).symm
  | cons falls writes _ ih =>
      rw [ih, pc_perform falls, Memory.offset_offset, List.flatMap_cons, List.length_append,
        Nat.cast_add]

/-- Memory outside the addresses of a block is as before it. -/
theorem mem_eq (h : Runs P is s t) {x : BitVec w} (hx : ¬ P x) : mem t x = mem s x := by
  induction h with
  | nil => rfl
  | cons falls writes _ ih => rw [ih, mem_perform_of_not_writes fun hw => hx (writes x hw)]

theorem read_eq (h : Runs P is s t) {a : BitVec w} {n : Nat}
    (hout : ∀ k < n, ¬ P (a + BitVec.ofNat w k)) : (mem t).read a n = (mem s).read a n :=
  Memory.read_congr fun k hk => h.mem_eq (hout k hk)

/-- What stands on one side of the addresses of a block is as before it. -/
theorem read_offset {fp : BitVec w} {lo hi z : Int} {n : Nat}
    (h : Runs (Between fp lo hi) is s t) (hz : z + n ≤ lo ∨ hi ≤ z)
    (hlo : z + n - lo < 2 ^ w) (hhi : hi - z < 2 ^ w) :
    (mem t).read (offset fp z) n = (mem s).read (offset fp z) n :=
  h.read_eq fun k hk => Memory.not_between (by omega) (by omega) (by omega)

/-- What stands at the frame pointer is as before a block that stores below it. -/
theorem read_fp {fp : BitVec w} {lo hi : Int} {n : Nat} (h : Runs (Between fp lo hi) is s t)
    (hhi : hi ≤ 0) (hlo : n - lo < 2 ^ w) : (mem t).read fp n = (mem s).read fp n := by
  have hpos : (0 : Int) < 2 ^ w := by positivity
  have hkeep := h.read_offset (z := 0) (n := n) (.inr hhi) (by omega) (by omega)
  rwa [Memory.offset_zero] at hkeep

end Runs

/-! ### Stores one by one -/

/-- The stores of straight-line code, each with its address and its number of bytes, first one
first. -/
def storesOf : List ι → σ → List (BitVec w × Nat)
  | [], _ => []
  | i :: is, s => (stores i s).toList ++ storesOf is (perform i s)

theorem Runs.storesOf_append {P : BitVec w → Prop} {is : List ι} {s t : σ}
    (h : Runs P is s t) (js : List ι) :
    storesOf (is ++ js) s = storesOf is s ++ storesOf js t := by
  induction h with
  | nil => rfl
  | cons falls writes _ ih => rw [List.cons_append, storesOf, storesOf, ih, List.append_assoc]

/-! ### Blocks in place -/

/-- Whether the machine gets from one state to another by instructions that it finds in memory,
none of which is a call or a return. -/
inductive Reaches : σ → σ → Prop
  | refl (s : σ) : Reaches s s
  | step {s t : σ} {i : ι} {next : BitVec w} (current : current? s = some (i, next))
      (falls : Falls i) (rest : Reaches (exec i next s) t) : Reaches s t

theorem Reaches.trans {s t u : σ} (h : Reaches s t) (hrest : Reaches t u) : Reaches s u := by
  induction h with
  | refl s => exact hrest
  | step current falls _ ih => exact .step current falls (ih hrest)

namespace Runs

variable {P : BitVec w → Prop} {is : List ι} {s t : σ} {base : BitVec w} {code : Code}

/-- Code that a block does not store to is still there after it. -/
theorem code_eq (h : Runs P is s t) (hclear : ∀ k < code.length, ¬ P (base + BitVec.ofNat w k))
    (hcode : (mem s).read base code.length = code) : (mem t).read base code.length = code :=
  (h.read_eq hclear).trans hcode

/-- A block that stands in the code and does not store to the code is what the machine does. -/
theorem reaches (h : Runs P is s t) (hclear : ∀ k < code.length, ¬ P (base + BitVec.ofNat w k))
    (hcode : (mem s).read base code.length = code)
    (hstands : StandsAt base code (pc s) (is.flatMap encode)) : Reaches s t := by
  induction h with
  | nil s => exact .refl s
  | @cons i is s t falls writes rest ih =>
      rw [List.flatMap_cons] at hstands
      have hone : Runs P [i] s (perform i s) := .one falls writes
      refine .step (Machine.current?_eq (hstands.left.read_eq hcode)) falls (ih ?_ ?_)
      · exact hone.code_eq hclear hcode
      · rw [pc_perform falls]
        exact hstands.right

/-- A machine that has gone through a block is about to execute the instruction behind it. -/
theorem reaches_next (h : Runs P is s t)
    (hclear : ∀ k < code.length, ¬ P (base + BitVec.ofNat w k))
    (hcode : (mem s).read base code.length = code) {i : ι} {after : List ι}
    (hstands : StandsAt base code (pc s) ((is ++ i :: after).flatMap encode)) :
    Reaches s t ∧ current? t = some (i, offset (pc t) (encode i).length) := by
  rw [List.flatMap_append, List.flatMap_cons] at hstands
  have hnext := hstands.right
  rw [← h.pc_eq] at hnext
  exact ⟨h.reaches hclear hcode hstands.left,
    Machine.current?_eq (hnext.left.read_eq (h.code_eq hclear hcode))⟩

end Runs

end Trampoline
