/-
Trampoline/CallSite.lean

One call that a trampoline makes.
-/
import Trampoline.Convention
import Trampoline.Operand

namespace Trampoline

/-- A call: its arguments in order, the address it goes to, and how it is made. -/
structure CallSite where
  args : List Operand
  callee : UInt64
  convention : Convention
  far : Bool
  deriving DecidableEq, Repr

/-- The types of the arguments. -/
def CallSite.types (site : CallSite) : List ValueType := site.args.map (·.type)

@[simp] theorem CallSite.length_types (site : CallSite) : site.types.length = site.args.length :=
  List.length_map _

theorem CallSite.getElem?_types {site : CallSite} {i : Nat} {a : Operand}
    (h : site.args[i]? = some a) : site.types[i]? = some a.type := by
  rw [types, List.getElem?_map, h, Option.map_some]

/-- The bytes from `used` up to the next multiple of sixteen: stack pointers are multiples of
sixteen at every call. -/
def alignPad (used : Nat) : Nat := (16 - used % 16) % 16

theorem alignPad_spec (used : Nat) : alignPad used < 16 ∧ (used + alignPad used) % 16 = 0 := by
  rw [alignPad]
  omega

end Trampoline
