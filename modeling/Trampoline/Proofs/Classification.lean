/-
Trampoline/Proofs/Classification.lean

The laws of a plan.

The first part says what classification computes: every argument is placed by
counting the arguments before it (`Budget.place`).  Under the cursor rule an
argument that ends up on the stack moves no cursor, so the plan of the other
arguments is the same without it; and the arguments at the start of a list are
placed without regard to what follows them.

The second part compares the views of a plan that the code of a call is made
from.  The numbers of the arguments in registers and of those on the stack are
the two halves of one range, split by `Plan.onStack`, and all that is said about
the views follows from this.  Where no register is listed twice, none is given
out twice.
-/
import Mathlib
import Trampoline.Proofs.Placement

namespace Trampoline

variable {R : Type}

namespace Budget

variable {b : Budget R} {eligible : ValueType → Bool}

/-- There is one place for each argument. -/
theorem length_placements (b : Budget R) (eligible : ValueType → Bool) (types : List ValueType) :
    (b.classify eligible types).placements.length = types.length := by
  rw [placements_classify, length_placesFrom]

/-! ### Arguments that move no cursor -/

theorem placesFrom_append (b : Budget R) (eligible : ValueType → Bool)
    (earlier ts us : List ValueType) :
    b.placesFrom eligible earlier (ts ++ us)
      = b.placesFrom eligible earlier ts ++ b.placesFrom eligible (earlier ++ ts) us := by
  induction ts generalizing earlier with
  | nil => simp [placesFrom]
  | cons t ts ih => simp [placesFrom, ih]

/-- Whether two lists of earlier arguments leave both cursors at the same registers.  A cursor
stops at the end of its list. -/
structure SameCursors (b : Budget R) (eligible : ValueType → Bool)
    (earlier earlier' : List ValueType) : Prop where
  ints : min (intsIn eligible earlier) b.ints.length = min (intsIn eligible earlier') b.ints.length
  floats : min (floatsIn earlier) b.floats.length = min (floatsIn earlier') b.floats.length

namespace SameCursors

variable {earlier earlier' : List ValueType}

theorem append (h : b.SameCursors eligible earlier earlier') (ts : List ValueType) :
    b.SameCursors eligible (earlier ++ ts) (earlier' ++ ts) := by
  obtain ⟨hints, hfloats⟩ := h
  constructor
  · simp only [intsIn, List.countP_append] at hints ⊢
    omega
  · simp only [floatsIn, List.countP_append] at hfloats ⊢
    omega

theorem place_eq (h : b.SameCursors eligible earlier earlier') (hcursor : b.positional = false)
    (t : ValueType) : b.place eligible earlier t = b.place eligible earlier' t := by
  have hints : b.ints[intsIn eligible earlier]? = b.ints[intsIn eligible earlier']? := by
    rw [← getElem?_min_length, h.ints, getElem?_min_length]
  have hfloats : b.floats[floatsIn earlier]? = b.floats[floatsIn earlier']? := by
    rw [← getElem?_min_length, h.floats, getElem?_min_length]
  simp [place, hcursor, hints, hfloats]

theorem placesFrom_eq (h : b.SameCursors eligible earlier earlier')
    (hcursor : b.positional = false) (ts : List ValueType) :
    b.placesFrom eligible earlier ts = b.placesFrom eligible earlier' ts := by
  induction ts generalizing earlier earlier' with
  | nil => rfl
  | cons t ts ih => rw [placesFrom, placesFrom, h.place_eq hcursor t, ih (h.append [t])]

end SameCursors

/-- Under the cursor rule an argument on the stack moves no cursor: either its list has no register
left, or it is not eligible for one. -/
theorem sameCursors_of_stack (hcursor : b.positional = false) {earlier : List ValueType}
    {t : ValueType} (h : b.place eligible earlier t = .stack) :
    b.SameCursors eligible (earlier ++ [t]) earlier := by
  by_cases hf : t.isFloat
  · have hend : b.floats.length ≤ floatsIn earlier := by
      simpa [place, hf, hcursor] using h
    constructor
    · simp [intsIn, hf]
    · simp only [floatsIn, List.countP_append] at hend ⊢
      omega
  · by_cases he : eligible t
    · have hend : b.ints.length ≤ intsIn eligible earlier := by
        simpa [place, hf, he, hcursor] using h
      constructor
      · simp only [intsIn, List.countP_append] at hend ⊢
        omega
      · simp [floatsIn, hf]
    · constructor
      · simp [intsIn, he]
      · simp [floatsIn, hf]

/-- Without an argument that is on the stack, the others are placed as before. -/
theorem placements_eraseIdx (hcursor : b.positional = false) {types : List ValueType} {i : Nat}
    (h : (b.classify eligible types).placements[i]? = some .stack) :
    (b.classify eligible (types.eraseIdx i)).placements
      = (b.classify eligible types).placements.eraseIdx i := by
  rw [getElem?_placements, Option.map_eq_some_iff] at h
  obtain ⟨t, ht, hstack⟩ := h
  obtain ⟨hi, rfl⟩ := List.getElem?_eq_some_iff.mp ht
  -- the list is what stands before the argument, the argument, and what follows it
  have hlen : (b.placesFrom eligible [] (types.take i)).length = i := by
    rw [length_placesFrom, List.length_take, Nat.min_eq_left hi.le]
  have hsplit : types = types.take i ++ types[i] :: types.drop (i + 1) := by
    rw [← List.drop_eq_getElem_cons hi, List.take_append_drop]
  have hplaces : b.placesFrom eligible [] types
      = b.placesFrom eligible [] (types.take i)
        ++ .stack :: b.placesFrom eligible (types.take i) (types.drop (i + 1)) := by
    conv_lhs => rw [hsplit]
    rw [placesFrom_append, List.nil_append, placesFrom, hstack,
      (sameCursors_of_stack hcursor hstack).placesFrom_eq hcursor]
  rw [placements_classify, placements_classify, hplaces, List.eraseIdx_eq_take_drop_succ,
    placesFrom_append, List.nil_append, List.eraseIdx_append_of_length_le hlen.le, hlen,
    Nat.sub_self, List.eraseIdx_cons_zero]

/-- **Classification by counting.**  Every argument has one place: the register of its class whose
number is the argument's own under the positional rule, and otherwise the number of arguments of
that class before it; the stack where there is no such register, or no class.  So under the cursor
rule an argument on the stack does not shift the others, and the first arguments of a list are
placed as they are alone. -/
theorem classify_by_counting (b : Budget R) (eligible : ValueType → Bool)
    (types : List ValueType) :
    (b.classify eligible types).placements.length = types.length ∧
    (∀ (i : Nat) (t : ValueType), types[i]? = some t →
      (b.classify eligible types).placements[i]? = some (b.place eligible (types.take i) t)) ∧
    (b.positional = false → ∀ i : Nat, (b.classify eligible types).placements[i]? = some .stack →
      (b.classify eligible (types.eraseIdx i)).placements
        = (b.classify eligible types).placements.eraseIdx i) ∧
    ∀ first : List ValueType, first <+: types →
      (b.classify eligible first).placements <+: (b.classify eligible types).placements := by
  refine ⟨b.length_placements eligible types, ?_, ?_, ?_⟩
  · intro i t ht
    rw [getElem?_placements, ht, Option.map_some]
  · intro hcursor i hstack
    exact placements_eraseIdx hcursor hstack
  · rintro first ⟨rest, rfl⟩
    rw [placements_classify, placements_classify, placesFrom_append]
    exact List.prefix_append _ _

/-- Of three integers and two floats with two registers and one, the second float and the last
integer are on the stack, and the others do not see the float. -/
theorem classify_by_counting_five :
    let b : Budget Nat := ⟨[10, 11], [20], false⟩
    let places := (b.classify (fun _ => true) [.float, .byte, .double, .word, .dword]).placements
    places = [.reg 20, .reg 10, .stack, .reg 11, .stack] ∧
      (b.classify (fun _ => true) [.float, .byte, .word, .dword]).placements
        = places.eraseIdx 2 :=
  ⟨rfl, (classify_by_counting ⟨[10, 11], [20], false⟩ (fun _ => true)
    [.float, .byte, .double, .word, .dword]).2.2.1 rfl 2 rfl⟩

end Budget

/-- Whether a placement is one of the given registers. -/
def Placement.isIn [DecidableEq R] (regs : List R) : Placement R → Bool
  | reg r => r ∈ regs
  | stack => false

namespace Plan

/-! ### The two halves of a plan -/

/-- Whether the argument `index` is on the stack. -/
def onStack (p : Plan R) (index : Nat) : Bool := p.placements[index]?.any (·.isStack)

/-- Counting through a list and keeping some numbers is keeping them out of a range. -/
theorem filterMap_zipIdx_index (q : Placement R → Bool) (places : List (Placement R)) :
    (places.zipIdx.filterMap fun x => if q x.1 then some x.2 else none)
      = (List.range places.length).filter fun i => places[i]?.any q := by
  induction places using List.reverseRecOn with
  | nil => rfl
  | append_singleton places place ih =>
      have hearlier : ∀ i ∈ List.range places.length,
          (places ++ [place])[i]?.any q = places[i]?.any q := by
        intro i hi
        rw [List.getElem?_append_left (List.mem_range.mp hi)]
      rw [List.zipIdx_append, List.filterMap_append, ih, List.length_append, List.length_singleton,
        List.range_succ, List.filter_append, List.filter_congr hearlier]
      cases hq : q place <;> simp [hq]

theorem stackArgs_eq (p : Plan R) :
    p.stackArgs = (List.range p.placements.length).filter p.onStack :=
  filterMap_zipIdx_index (·.isStack) p.placements

theorem map_registerArgs (p : Plan R) :
    p.registerArgs.map (·.1) = (List.range p.placements.length).filter (!p.onStack ·) := by
  have hnumbers : p.registerArgs.map (·.1)
      = p.placements.zipIdx.filterMap fun x => if !x.1.isStack then some x.2 else none := by
    rw [registerArgs, List.map_filterMap]
    refine List.filterMap_congr ?_
    rintro ⟨place, i⟩ -
    cases place <;> rfl
  rw [hnumbers, filterMap_zipIdx_index (!·.isStack)]
  refine List.filter_congr fun i hi => ?_
  simp [onStack, List.getElem?_eq_getElem (List.mem_range.mp hi)]

theorem mem_registerArgs {p : Plan R} {i : Nat} {r : R} :
    (i, r) ∈ p.registerArgs ↔ p.placements[i]? = some (.reg r) := by
  rw [registerArgs, List.mem_filterMap]
  constructor
  · rintro ⟨⟨place, j⟩, hmem, hf⟩
    cases place with
    | stack => cases hf
    | reg q =>
        cases hf
        exact List.mem_zipIdx_iff_getElem?.mp hmem
  · intro h
    exact ⟨(.reg r, i), List.mem_zipIdx_iff_getElem?.mpr h, rfl⟩

theorem mem_stackArgsRev {p : Plan R} {i : Nat} :
    i ∈ p.stackArgsRev ↔ p.placements[i]? = some .stack := by
  rw [stackArgsRev, List.mem_reverse, stackArgs_eq, List.mem_filter, List.mem_range, onStack]
  constructor
  · rintro ⟨hi, hstack⟩
    rw [List.getElem?_eq_getElem hi, Option.any_some] at hstack
    rw [List.getElem?_eq_getElem hi]
    cases hplace : p.placements[i] with
    | reg r => simp [hplace, Placement.isStack] at hstack
    | stack => rfl
  · intro h
    rw [h]
    exact ⟨(List.getElem?_eq_some_iff.mp h).1, rfl⟩

/-- The arguments in registers and those on the stack are all arguments, each of them once. -/
theorem perm_range (p : Plan R) :
    (p.registerArgs.map (·.1) ++ p.stackArgsRev).Perm (List.range p.placements.length) := by
  rw [map_registerArgs, stackArgsRev, stackArgs_eq]
  refine (List.perm_append_comm.trans ?_).trans (List.filter_append_perm p.onStack _)
  exact (List.reverse_perm _).append_right _

theorem stackCount_eq (p : Plan R) : p.stackCount = p.stackArgsRev.length := by
  rw [stackArgsRev, List.length_reverse, stackArgs, List.length_filterMap_eq_countP, stackCount]
  conv_lhs => rw [← List.zipIdx_map_fst 0 p.placements, List.countP_map]
  refine List.countP_congr ?_
  rintro ⟨place, i⟩ -
  cases place <;> simp [Placement.isStack]

end Plan

/-! ### Registers are given out once -/

namespace Budget

variable {b : Budget R} {eligible : ValueType → Bool} {types : List ValueType}

theorem pairwise_placements (hnd : (b.ints ++ b.floats).Nodup) (eligible : ValueType → Bool)
    (types : List ValueType) :
    (b.classify eligible types).placements.Pairwise fun p q => ∀ r, p = .reg r → q ≠ .reg r := by
  rw [placements_classify]
  exact pairwise_placesFrom hnd [] types

theorem eq_of_getElem?_placements (hnd : (b.ints ++ b.floats).Nodup) {i j : Nat} {r : R}
    (hi : (b.classify eligible types).placements[i]? = some (.reg r))
    (hj : (b.classify eligible types).placements[j]? = some (.reg r)) : i = j := by
  have hpw := List.pairwise_iff_getElem.mp (pairwise_placements hnd eligible types)
  obtain ⟨hi, hir⟩ := List.getElem?_eq_some_iff.mp hi
  obtain ⟨hj, hjr⟩ := List.getElem?_eq_some_iff.mp hj
  rcases Nat.lt_trichotomy i j with hij | hij | hij
  · exact absurd hjr (hpw i j hi hj hij r hir)
  · exact hij
  · exact absurd hir (hpw j i hj hi hij r hjr)

/-- The argument in a register is floating exactly when the register is listed for floats. -/
theorem isFloat_iff_mem_floats (hnd : (b.ints ++ b.floats).Nodup) {earlier : List ValueType}
    {t : ValueType} {r : R} (h : b.place eligible earlier t = .reg r) :
    t.isFloat = true ↔ r ∈ b.floats := by
  have hmem := mem_of_place_eq_reg h
  by_cases hf : t.isFloat
  · rw [if_pos hf] at hmem
    exact iff_of_true hf hmem
  · rw [if_neg hf] at hmem
    refine iff_of_false hf fun hfloats => ?_
    exact (List.nodup_append.mp hnd).2.2 r hmem r hfloats rfl

theorem floatRegCount_classify [DecidableEq R] (hnd : (b.ints ++ b.floats).Nodup)
    (args : List Operand) :
    (b.classify eligible (args.map (·.type))).floatRegCount args
      = (b.classify eligible (args.map (·.type))).placements.countP (·.isIn b.floats) := by
  have hlen : (b.classify eligible (args.map (·.type))).placements.length = args.length := by
    rw [length_placements, List.length_map]
  rw [Plan.floatRegCount_eq, Plan.registerLoads, List.countP_filterMap]
  conv_rhs => rw [← List.map_snd_zip hlen.le, List.countP_map]
  refine List.countP_congr ?_
  rintro ⟨a, place⟩ hmem
  obtain ⟨i, hi⟩ := List.mem_iff_getElem?.mp hmem
  obtain ⟨ha, hplace⟩ := List.getElem?_zip_eq_some.mp hi
  rw [getElem?_placements, List.getElem?_map, ha, Option.map_some, Option.map_some,
    Option.some.injEq] at hplace
  cases place with
  | stack => simp [Placement.reg?, Placement.isIn]
  | reg r =>
      simpa [Placement.reg?, Placement.isIn, Operand.isFloat]
        using isFloat_iff_mem_floats hnd hplace

theorem countP_isIn_le [DecidableEq R] (hnd : (b.ints ++ b.floats).Nodup) (regs : List R) :
    (b.classify eligible types).placements.countP (·.isIn regs) ≤ regs.length := by
  have hnodup : ((b.classify eligible types).placements.filterMap (·.reg?)).Nodup := by
    refine (pairwise_placements hnd eligible types).filterMap _ ?_
    rintro p q hne r hr s hs rfl
    cases p <;> cases q <;> simp_all [Placement.reg?]
  have hcount : (b.classify eligible types).placements.countP (·.isIn regs)
      = (((b.classify eligible types).placements.filterMap (·.reg?)).filter (· ∈ regs)).length := by
    rw [← List.countP_eq_length_filter, List.countP_filterMap]
    refine List.countP_congr fun p _ => ?_
    cases p <;> simp [Placement.reg?, Placement.isIn]
  rw [hcount]
  refine (List.subperm_of_subset (hnodup.filter _) fun r hr => ?_).length_le
  simpa using (List.mem_filter.mp hr).2

end Budget

/-! ### Every argument in one place -/

/-- What the views of a plan say about arguments of the given types: each has a place of its own,
and is in exactly one of the two lists that the code of a call is made from. -/
structure Plan.Accounts [DecidableEq R] (p : Plan R) (b : Budget R) (types : List ValueType) :
    Prop where
  /-- No two arguments are in the same register. -/
  index_eq : ∀ {i j : Nat} {r : R}, p.placements[i]? = some (.reg r) →
    p.placements[j]? = some (.reg r) → i = j
  mem_registerArgs : ∀ {i : Nat} {r : R},
    (i, r) ∈ p.registerArgs ↔ p.placements[i]? = some (.reg r)
  registerArgs_increasing : (p.registerArgs.map (·.1)).Pairwise (· < ·)
  mem_stackArgsRev : ∀ {i : Nat}, i ∈ p.stackArgsRev ↔ p.placements[i]? = some .stack
  stackArgsRev_decreasing : p.stackArgsRev.Pairwise (· > ·)
  /-- The two lists hold every argument number once. -/
  perm_range : (p.registerArgs.map (·.1) ++ p.stackArgsRev).Perm (List.range types.length)
  stackCount_eq : p.stackCount = p.stackArgsRev.length
  floatRegCount_eq : ∀ {args : List Operand}, args.map (·.type) = types →
    p.floatRegCount args = p.placements.countP (·.isIn b.floats)
  floatRegCount_le : ∀ {args : List Operand}, args.map (·.type) = types →
    p.floatRegCount args ≤ b.floats.length

theorem Budget.accounts_classify [DecidableEq R] {b : Budget R}
    (hnd : (b.ints ++ b.floats).Nodup) (eligible : ValueType → Bool) (types : List ValueType) :
    (b.classify eligible types).Accounts b types where
  index_eq := eq_of_getElem?_placements hnd
  mem_registerArgs := Plan.mem_registerArgs
  registerArgs_increasing := by
    rw [Plan.map_registerArgs]
    exact List.pairwise_lt_range.filter _
  mem_stackArgsRev := Plan.mem_stackArgsRev
  stackArgsRev_decreasing := by
    rw [Plan.stackArgsRev, List.pairwise_reverse, Plan.stackArgs_eq]
    exact List.pairwise_lt_range.filter _
  perm_range := by
    rw [← b.length_placements eligible types]
    exact Plan.perm_range _
  stackCount_eq := Plan.stackCount_eq _
  floatRegCount_eq := by
    rintro args rfl
    exact floatRegCount_classify hnd args
  floatRegCount_le := by
    rintro args rfl
    rw [floatRegCount_classify hnd args]
    exact countP_isIn_le hnd b.floats

end Trampoline
