/-
Trampoline/Proofs/Amd64/Execution.lean

Executing code from memory.

`execute` is the machine itself: it fetches each instruction from the bytes at the
instruction pointer, until one of them returns.  A call enters a callee; what the
callee does is a function of the state it is entered with, and the run goes on
wherever the callee leaves the instruction pointer.  The result has the states in
which callees were entered and the state after the return.

Between calls and returns the machine goes straight on (`Reaches`).  Code whose
literals are placed holds what its lines stand for, wherever it is put
(`realizes_resolve`).

A run may enter a callee long before it is known to return.  `EntersCallee` speaks
of the callees that are entered on the way.
-/
import Mathlib
import Trampoline.Proofs.Amd64.StackDiscipline

namespace Trampoline.Amd64

open Memory (offset StandsAt)

/-! ### The machine with its callees -/

/-- Executes at most `fuel` instructions, up to a return.  `n` calls were made before. -/
def execute (callees : Callees State) : (fuel n : Nat) → State → Option (List State × State)
  | 0, _, _ => none
  | fuel + 1, n, s =>
      match s.current? with
      | none => none
      | some (.ret, next) => some ([], Instr.ret.exec next s)
      | some (.call r, next) =>
          let entered := (Instr.call r).exec next s
          (execute callees fuel (n + 1) (callees n entered)).map fun (es, last) =>
            (entered :: es, last)
      | some (i, next) => execute callees fuel n (i.exec next s)

/-- Whether execution enters callees in the states `es`, in order, and returns in the state
`last`. -/
def Executes (callees : Callees State) (n : Nat) (s : State) (es : List State) (last : State) :
    Prop :=
  ∃ fuel, execute callees fuel n s = some (es, last)

/-! ### From call to call -/

/-- Whether the machine goes straight on to a call and enters the callee in the state `e`. -/
def ReachesCallee (s e : State) : Prop :=
  ∃ t r next, Reaches s t ∧ t.current? = some (.call r, next) ∧ e = (Instr.call r).exec next t

/-- Whether execution enters the callee of its `k`-th call in the state `e`.  `n` calls were made
before. -/
inductive EntersCallee (callees : Callees State) : (n : Nat) → State → (k : Nat) → State → Prop
  | first {n : Nat} {s e : State} (reaches : ReachesCallee s e) : EntersCallee callees n s n e
  | later {n k : Nat} {s e e' : State} (reaches : ReachesCallee s e)
      (rest : EntersCallee callees (n + 1) (callees n e) k e') : EntersCallee callees n s k e'

section

variable {callees : Callees State} {n : Nat} {s t : State} {es : List State} {last : State}

theorem ReachesCallee.of_reaches {e : State} (h : Reaches s t) (hcall : ReachesCallee t e) :
    ReachesCallee s e := by
  obtain ⟨u, r, next, hrest, hcurrent, he⟩ := hcall
  exact ⟨u, r, next, h.trans hrest, hcurrent, he⟩

/-- Callees are entered alike from wherever the machine goes straight on. -/
theorem EntersCallee.of_reaches {k : Nat} {e : State} (h : Reaches s t)
    (henters : EntersCallee callees n t k e) : EntersCallee callees n s k e := by
  cases henters with
  | first hcall => exact .first (.of_reaches h hcall)
  | later hcall hrest => exact .later (.of_reaches h hcall) hrest

theorem Executes.of_reaches (h : Reaches s t) (hrest : Executes callees n t es last) :
    Executes callees n s es last := by
  induction h with
  | refl s => exact hrest
  | @step s t i next current falls _ ih =>
      obtain ⟨fuel, hfuel⟩ := ih hrest
      have hcurrent : s.current? = some (i, next) := current
      refine ⟨fuel + 1, ?_⟩
      rw [execute, hcurrent]
      cases i with
      | call r => exact falls.elim
      | ret => exact falls.elim
      | _ => exact hfuel

theorem ReachesCallee.executes {e : State} (h : ReachesCallee s e)
    (hrest : Executes callees (n + 1) (callees n e) es last) :
    Executes callees n s (e :: es) last := by
  obtain ⟨t, r, next, hreaches, hcurrent, rfl⟩ := h
  obtain ⟨fuel, hfuel⟩ := hrest
  refine .of_reaches hreaches ⟨fuel + 1, ?_⟩
  rw [execute, hcurrent]
  show (execute callees fuel (n + 1) (callees n ((Instr.call r).exec next t))).map _ = _
  rw [hfuel]
  rfl

theorem executes_ret (hcode : s.mem.read s.rip Instr.ret.encode.length = Instr.ret.encode) :
    Executes callees n s [] (perform Instr.ret s) := by
  refine ⟨1, ?_⟩
  rw [execute, State.current?_eq hcode]
  rfl

end

/-! ### Code in place -/

/-- Literals stand one after the other behind the instructions. -/
theorem standsAt_literal {code : Code} {is : List Instr} {front back : List Deferred} {d : Deferred}
    (base : BitVec 64) (hcode : code = encodeAll is ++ Fragment.literalBytes (front ++ d :: back)) :
    StandsAt base code
      (offset base ((encodeAll is).length + (Fragment.literalBytes front).length : Nat))
      d.bytes := by
  refine ⟨encodeAll is ++ Fragment.literalBytes front, Fragment.literalBytes back, ?_, ?_⟩
  · rw [hcode, Fragment.literalBytes_append, Fragment.literalBytes_cons]
    simp only [List.append_assoc]
  · rw [List.length_append]

/-- Code whose literals are placed holds what its lines stand for, and every load of a literal
finds it behind the instructions. -/
theorem realizes_resolve {lines : List Line} {g : Fragment} {placed : List Resolved}
    (h : (draft lines).resolve = .ok (g, placed)) (base : BitVec 64) :
    ∃ is literals, g.code = encodeAll is ++ literals ∧
      Realizes (StandsAt base g.code) base lines is := by
  obtain ⟨hcode, hreached⟩ := resolve_draft h
  refine ⟨_, _, hcode, ?_⟩
  have hreal : Realizes (StandsAt base g.code) (offset base (0 : Nat)) lines _ :=
    realizes_of_reached lines (Nat.le_of_eq (Nat.zero_add _)) hreached ?_
  · rwa [Nat.cast_zero, Memory.offset_zero] at hreal
  · intro front d back hsplit
    rw [hsplit] at hcode
    have hstands := standsAt_literal base hcode
    rwa [length_encodeAll_realize] at hstands

/-- A call that stands in the code enters its callee. -/
theorem reachesCallee_of_standsAt {base : BitVec 64} {code : Code} {s : State} {r : Gpr}
    (hcode : s.mem.read base code.length = code)
    (hstands : StandsAt base code s.rip (Instr.call r).encode) :
    ReachesCallee s (perform (Instr.call r) s) :=
  ⟨s, r, _, .refl s, State.current?_eq (hstands.read_eq hcode), rfl⟩

end Trampoline.Amd64
