/-
Trampoline/Proofs/Following.lean

Following instructions that make calls.

Instructions are followed one after the other; at a call the callee has its turn and
returns (`moments`, `outcome`).  What a callee has to give back is left open here: an
instruction set asks for its own pointers, and one convention for more than another.
It is asked of a callee only in the state that it is entered with (`AllGiveBack`).

Following two lists in a row is following the second one from the outcome of the first,
with the calls of the first counted (`moments_append`, `outcome_append`).  A block makes
no call, so its outcome is the state that it runs to (`Runs.follow`).
-/
import Mathlib
import Trampoline.Proofs.Block

namespace Trampoline

open InstructionSet (isCall)

/-- What callees do.  The `n`-th call of a run takes the state at the first instruction of its
callee to the state after its return. -/
abbrev Callees (σ : Type) := Nat → σ → σ

/-- An instruction that is about to be executed, and the state it finds. -/
structure Moment (ι σ : Type) where
  instr : ι
  state : σ

variable {ι σ : Type} {w : Nat} [InstructionSet ι]

/-- The moments at which a call is about to be made. -/
def callsOf (ms : List (Moment ι σ)) : List (Moment ι σ) := ms.filter fun m => isCall m.instr

theorem callsOf_append (ms ns : List (Moment ι σ)) :
    callsOf (ms ++ ns) = callsOf ms ++ callsOf ns :=
  List.filter_append _ _

variable [Machine σ ι w]

/-- The state after an instruction; a call has then returned. -/
def after (i : ι) (callee : σ → σ) (s : σ) : σ :=
  if isCall i then callee (perform i s) else perform i s

/-- The moments of instructions that are followed one after the other; `n` calls were made
before. -/
def moments (callees : Callees σ) : Nat → List ι → σ → List (Moment ι σ)
  | _, [], _ => []
  | n, i :: is, s =>
      ⟨i, s⟩ :: moments callees (if isCall i then n + 1 else n) is (after i (callees n) s)

/-- The state after instructions that are followed one after the other. -/
def outcome (callees : Callees σ) : Nat → List ι → σ → σ
  | _, [], s => s
  | n, i :: is, s => outcome callees (if isCall i then n + 1 else n) is (after i (callees n) s)

/-- Whether the callees give back what they have to when the instructions are followed one after
the other: the `n`-th one, entered in the state `e`, returns in a state `c` with `GivesBack n e c`.
A callee is asked for the one state that it is entered with. -/
def AllGiveBack (GivesBack : Nat → σ → σ → Prop) (callees : Callees σ) : Nat → List ι → σ → Prop
  | _, [], _ => True
  | n, i :: is, s =>
      (isCall i → GivesBack n (perform i s) (callees n (perform i s))) ∧
        AllGiveBack GivesBack callees (if isCall i then n + 1 else n) is (after i (callees n) s)

section

variable (callees : Callees σ) (n : Nat)

theorem moments_append (is js : List ι) (s : σ) :
    moments callees n (is ++ js) s
      = moments callees n is s ++
        moments callees (n + is.countP isCall) js (outcome callees n is s) := by
  induction is generalizing n s with
  | nil => rfl
  | cons i is ih =>
      rw [List.cons_append, moments, moments, outcome, ih, List.countP_cons, List.cons_append]
      cases isCall i <;> simp [Nat.add_assoc, Nat.add_comm]

theorem outcome_append (is js : List ι) (s : σ) :
    outcome callees n (is ++ js) s
      = outcome callees (n + is.countP isCall) js (outcome callees n is s) := by
  induction is generalizing n s with
  | nil => rfl
  | cons i is ih =>
      rw [List.cons_append, outcome, outcome, ih, List.countP_cons]
      cases isCall i <;> simp [Nat.add_assoc, Nat.add_comm]

/-- The instructions of the moments are the instructions that are followed. -/
theorem countP_moments (p : ι → Bool) (is : List ι) (s : σ) :
    (moments callees n is s).countP (fun m => p m.instr) = is.countP p := by
  induction is generalizing n s with
  | nil => rfl
  | cons i is ih => rw [moments, List.countP_cons, List.countP_cons, ih]

variable {GivesBack : Nat → σ → σ → Prop}

theorem allGiveBack_append (is js : List ι) (s : σ) :
    AllGiveBack GivesBack callees n (is ++ js) s ↔ AllGiveBack GivesBack callees n is s ∧
      AllGiveBack GivesBack callees (n + is.countP isCall) js (outcome callees n is s) := by
  induction is generalizing n s with
  | nil => simp [AllGiveBack, outcome]
  | cons i is ih =>
      rw [List.cons_append, AllGiveBack, AllGiveBack, outcome, ih, List.countP_cons, and_assoc]
      cases isCall i <;> simp [Nat.add_assoc, Nat.add_comm]

/-- Callees that give back in every state do so in those that they are entered with. -/
theorem allGiveBack_of_forall {callees : Callees σ} (h : ∀ n e, GivesBack n e (callees n e))
    (is : List ι) (s : σ) : AllGiveBack GivesBack callees n is s := by
  induction is generalizing n s with
  | nil => trivial
  | cons i is ih => exact ⟨fun _ => h n (perform i s), ih _ _⟩

/-- Straight-line code makes no call and can be followed without callees. -/
theorem Runs.follow {P : BitVec w → Prop} {is : List ι} {s t : σ} (h : Runs P is s t) :
    outcome callees n is s = t ∧ is.countP isCall = 0 ∧
      callsOf (moments callees n is s) = [] ∧
      ∀ m ∈ moments callees n is s, ∀ x, Writes m.instr m.state x → P x := by
  induction h with
  | nil s => exact ⟨rfl, rfl, rfl, fun m hm => absurd hm (by simp [moments])⟩
  | @cons i is s t falls writes rest ih =>
      have hcall : isCall i = false := InstructionSet.isCall_eq_false falls
      obtain ⟨hout, hcount, hcalls, hwrites⟩ := ih
      have hafter : after i (callees n) s = perform i s := by simp [after, hcall]
      refine ⟨?_, ?_, ?_, ?_⟩
      · rw [outcome, hcall, hafter]
        exact hout
      · rw [List.countP_cons, hcount, hcall]
        rfl
      · rw [moments, hcall, hafter]
        simpa [callsOf, hcall] using hcalls
      · rw [moments, hcall, hafter]
        intro m hm x hx
        rcases List.mem_cons.mp hm with rfl | hm
        · exact writes x hx
        · exact hwrites m hm x hx

end

end Trampoline
