/-
Trampoline/Proofs/Amd64/Abi.lean

What the two native conventions have in common, and where they put arguments.

A trampoline relies on few properties of its convention (`Abi.Lawful`): no
register is given out twice, integer arguments stay clear of the registers that
the code itself uses, and the shadow space keeps the stack aligned.

`Abi.location` says where an argument is, by counting the arguments before it:
in a register, or in a numbered stack slot.  It is said from the point of view of
the function that is entered, so the entry parameters of a trampoline and the
arguments of the functions it calls are found by one and the same rule
(`Location.bytes`).
-/
import Mathlib
import Trampoline.Target
import Trampoline.Proofs.Placement
import Trampoline.Proofs.Amd64.Block

namespace Trampoline.Amd64

open Memory (offset)

namespace Abi

/-! ### Laws of a convention -/

/-- What the code of a trampoline relies on. -/
structure Lawful (abi : Abi) : Prop where
  nodup : (abi.budget.ints ++ abi.budget.floats).Nodup
  ints : ∀ r ∈ abi.budget.ints, r.isXmm = false ∧
    r ∉ [Reg.gpr .rax, .gpr .rsp, .gpr .rbp, .gpr .r11]
  floats : ∀ r ∈ abi.budget.floats, r.isXmm = true
  shadow_mod : abi.shadowSpace % 16 = 0
  shadow_le : abi.shadowSpace ≤ 32
  counts : abi.vectorCount = true → abi.budget.positional = false ∧ abi.budget.floats.length < 256

theorem lawful_systemV : systemV.Lawful := by
  constructor <;> decide

theorem lawful_microsoft : microsoft.Lawful := by
  constructor <;> decide

end Abi

/-- Both x86-64 targets have lawful conventions. -/
theorem Abi.lawful_of_target {target : Target} {abi : Abi} (h : target.abi? = some abi) :
    abi.Lawful := by
  cases target with
  | systemV =>
      cases h
      exact lawful_systemV
  | microsoft =>
      cases h
      exact lawful_microsoft
  | ia32 => cases h

/-! ### Where arguments are -/

/-- The place of an argument: a register, or a slot of eight bytes on the stack. -/
inductive Location
  | reg (r : Reg)
  | slot (k : Nat)
  deriving DecidableEq, Repr

/-- The first `n` bytes of an argument, in the state at the first instruction of the function that
gets it: the stack pointer is at the return address, and the shadow space lies above it. -/
def Location.bytes (abi : Abi) (s : State) (n : Nat) : Location → Code
  | reg r => littleEndian n (s.reg r)
  | slot k => s.mem.read (offset (s.gpr .rsp) (8 + abi.shadowSpace + 8 * k : Nat)) n

namespace Abi

/-- The place of an argument of type `t` after arguments of the types `earlier`. -/
def place (abi : Abi) (earlier : List ValueType) (t : ValueType) : Placement Reg :=
  abi.budget.place (fun _ => true) earlier t

/-- The places of arguments of the given types. -/
def places (abi : Abi) (types : List ValueType) : List (Placement Reg) :=
  abi.budget.placesFrom (fun _ => true) [] types

/-- How many of the arguments are on the stack. -/
def stacked (abi : Abi) (types : List ValueType) : Nat := (abi.places types).countP (·.isStack)

/-- The location of the argument `i` of a call with arguments of the given types. -/
def location (abi : Abi) (types : List ValueType) (i : Nat) : Option Location :=
  types[i]?.map fun t => match abi.place (types.take i) t with
    | .reg r => .reg r
    | .stack => .slot (abi.stacked (types.take i))

theorem placements_classify (abi : Abi) (types : List ValueType) :
    (abi.classify types).placements = abi.places types :=
  Budget.placements_classify _ _ _

theorem stackCount_classify (abi : Abi) (types : List ValueType) :
    (abi.classify types).stackCount = abi.stacked types := by
  rw [Plan.stackCount, placements_classify, stacked]

theorem getElem?_places (abi : Abi) (types : List ValueType) (i : Nat) :
    (abi.places types)[i]? = types[i]?.map (abi.place (types.take i)) := by
  rw [places, Budget.getElem?_placesFrom]
  rfl

theorem length_places (abi : Abi) (types : List ValueType) :
    (abi.places types).length = types.length :=
  Budget.length_placesFrom _ _ _ _

theorem take_places (abi : Abi) (types : List ValueType) (i : Nat) :
    (abi.places types).take i = abi.places (types.take i) := by
  apply List.ext_getElem?
  intro j
  rw [List.getElem?_take, getElem?_places, getElem?_places, List.getElem?_take]
  split
  · rw [List.take_take, Nat.min_eq_left (by omega)]
  · rfl

theorem stacked_le (abi : Abi) (types : List ValueType) : abi.stacked types ≤ types.length := by
  rw [← abi.length_places types]
  exact List.countP_le_length

theorem length_stackOperands (abi : Abi) (args : List Operand) :
    ((abi.classify (args.map (·.type))).stackOperands args).length
      = abi.stacked (args.map (·.type)) := by
  rw [← stackCount_classify]
  refine Plan.length_stackOperands _ ?_
  rw [placements_classify, length_places, List.length_map]

variable {abi : Abi} {args : List Operand} {i : Nat} {a : Operand}

/-- An argument with a register as its location is loaded into that register. -/
theorem mem_registerLoads {r : Reg} (ha : args[i]? = some a)
    (h : abi.location (args.map (·.type)) i = some (.reg r)) :
    (r, a) ∈ (abi.classify (args.map (·.type))).registerLoads args := by
  have htype : (args.map (·.type))[i]? = some a.type := by
    rw [List.getElem?_map, ha]
    rfl
  rw [location, htype, Option.map_some, Option.some.injEq] at h
  refine Plan.mem_registerLoads ha ?_
  rw [placements_classify, getElem?_places, htype, Option.map_some]
  split at h
  · rename_i hplace
    obtain rfl := Location.reg.inj h
    rw [hplace]
  · cases h

/-- An argument with a slot as its location has that number among the stack arguments. -/
theorem getElem?_stackOperands {k : Nat} (ha : args[i]? = some a)
    (h : abi.location (args.map (·.type)) i = some (.slot k)) :
    ((abi.classify (args.map (·.type))).stackOperands args)[k]? = some a := by
  have htype : (args.map (·.type))[i]? = some a.type := by
    rw [List.getElem?_map, ha]
    rfl
  rw [location, htype, Option.map_some, Option.some.injEq] at h
  split at h
  · cases h
  · rename_i hplace
    obtain rfl := Location.slot.inj h
    rw [stacked, ← take_places, ← placements_classify]
    refine Plan.getElem?_stackOperands ha ?_
    rw [placements_classify, getElem?_places, htype, Option.map_some, hplace]

/-- Every argument has a location. -/
theorem exists_location (abi : Abi) {types : List ValueType} {t : ValueType}
    (h : types[i]? = some t) : ∃ loc, abi.location types i = some loc := by
  rw [location, h]
  exact ⟨_, rfl⟩

/-- The code itself uses no argument register. -/
theorem Lawful.notMem_of_mem (hl : abi.Lawful) {r : Reg}
    (h : r ∈ abi.budget.ints ++ abi.budget.floats) :
    r ∉ [Reg.gpr .rax, .gpr .rsp, .gpr .rbp, .gpr .r11] := by
  rcases List.mem_append.mp h with h | h
  · exact (hl.ints r h).2
  · have hx := hl.floats r h
    intro hin
    simp only [List.mem_cons, List.not_mem_nil, or_false] at hin
    rcases hin with rfl | rfl | rfl | rfl <;> cases hx

/-- Floating values go to SSE registers and the others do not, and none of them goes to a register
that the code itself uses. -/
theorem Lawful.place_reg (hl : abi.Lawful) {earlier : List ValueType} {t : ValueType} {r : Reg}
    (h : abi.place earlier t = .reg r) :
    r.isXmm = t.isFloat ∧ r ∉ [Reg.gpr .rax, .gpr .rsp, .gpr .rbp, .gpr .r11] := by
  have hmem := Budget.mem_of_place_eq_reg h
  by_cases hf : t.isFloat
  · rw [if_pos hf] at hmem
    exact ⟨(hl.floats r hmem).trans hf.symm, hl.notMem_of_mem (List.mem_append_right _ hmem)⟩
  · rw [if_neg hf] at hmem
    obtain ⟨hx, hsafe⟩ := hl.ints r hmem
    exact ⟨hx.trans (by simpa using hf), hsafe⟩

theorem Lawful.register (hl : abi.Lawful) {types : List ValueType} {r : Reg}
    (h : (r, a) ∈ (abi.classify types).registerLoads args) (htypes : types = args.map (·.type)) :
    r.isXmm = a.isFloat ∧ r ∉ [Reg.gpr .rax, .gpr .rsp, .gpr .rbp, .gpr .r11] := by
  obtain ⟨i, ha, hp⟩ := Plan.exists_of_mem_registerLoads h
  have htype : types[i]? = some a.type := by
    rw [htypes, List.getElem?_map, ha]
    rfl
  rw [placements_classify, getElem?_places, htype, Option.map_some, Option.some.injEq] at hp
  exact hl.place_reg hp

/-- A location is a register for arguments, or one of the first stack slots. -/
theorem Lawful.location_cases (hl : abi.Lawful) {types : List ValueType} {loc : Location}
    (h : abi.location types i = some loc) :
    (∃ r, loc = .reg r ∧ r ∉ [Reg.gpr .rax, .gpr .rsp, .gpr .rbp, .gpr .r11]) ∨
      ∃ k < types.length, loc = .slot k := by
  obtain ⟨t, ht, rfl⟩ := Option.map_eq_some_iff.mp h
  obtain ⟨hi, -⟩ := List.getElem?_eq_some_iff.mp ht
  cases hplace : abi.place (types.take i) t with
  | reg r => exact .inl ⟨r, rfl, (hl.place_reg hplace).2⟩
  | stack =>
      have hle := abi.stacked_le (types.take i)
      rw [List.length_take] at hle
      exact .inr ⟨abi.stacked (types.take i), by omega, rfl⟩

/-! ### Counting SSE registers -/

/-- Whether an argument goes to an SSE register. -/
def inSse (x : Operand × Placement Reg) : Bool := x.2.reg?.isSome && x.1.isFloat

/-- Under the cursor rule, floating arguments take registers until there are no more. -/
theorem countP_placesFrom {b : Budget Reg} (hcursor : b.positional = false)
    (earlier : List ValueType) (args : List Operand) :
    (args.zip (b.placesFrom (fun _ => true) earlier (args.map (·.type)))).countP inSse
      + min (Budget.floatsIn earlier) b.floats.length
      = min (Budget.floatsIn (earlier ++ args.map (·.type))) b.floats.length := by
  induction args generalizing earlier with
  | nil => simp
  | cons a args ih =>
      have hrest := ih (earlier ++ [a.type])
      rw [List.append_assoc, List.singleton_append, Budget.floatsIn_concat] at hrest
      rw [List.map_cons, Budget.placesFrom, List.zip_cons_cons, List.countP_cons]
      by_cases hf : a.type.isFloat
      · have hplace : b.place (fun _ => true) earlier a.type
            = .ofReg? b.floats[Budget.floatsIn earlier]? := by
          rw [Budget.place, if_pos hf, hcursor]
          rfl
        rw [hplace]
        rw [if_pos hf] at hrest
        rcases Nat.lt_or_ge (Budget.floatsIn earlier) b.floats.length with hlt | hge
        · rw [List.getElem?_eq_getElem hlt, if_pos (by exact hf)]
          omega
        · rw [List.getElem?_eq_none hge, if_neg (by simp [inSse, Placement.ofReg?, Placement.reg?])]
          omega
      · rw [if_neg hf] at hrest
        rw [if_neg (by simp [inSse, Operand.isFloat, hf])]
        omega

/-- The number that the convention wants in `al`: the floating arguments, as far as there are
registers for them. -/
theorem Lawful.floatRegCount_eq (hl : abi.Lawful) (hcount : abi.vectorCount = true)
    (args : List Operand) :
    (abi.classify (args.map (·.type))).floatRegCount args
      = min (Budget.floatsIn (args.map (·.type))) abi.budget.floats.length := by
  have h := countP_placesFrom (hl.counts hcount).1 [] args
  rw [Plan.floatRegCount_eq, Plan.registerLoads, List.countP_filterMap, placements_classify]
  rw [show Budget.floatsIn [] = 0 from rfl, Nat.zero_min, Nat.add_zero, List.nil_append] at h
  rw [← h]
  refine List.countP_congr ?_
  rintro ⟨a, p⟩ -
  cases p <;> simp [inSse, Placement.reg?]

end Abi

end Trampoline.Amd64
