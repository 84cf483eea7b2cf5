/-
Trampoline/Proofs/Placement.lean

Placement by counting.  `Budget.place` says where an argument goes without any
cursor: it counts the arguments of the same class before it (or all arguments
before it, in the positional rule) and takes the register with that number, if
there is one.  A cursor stops at the end of its list while the count goes on,
but past the end both name no register, so the walk with cursors gives exactly
these places (`getElem?_placements`).

The second part lists the arguments of a plan by place: those in registers
(`registerLoads`) and those on the stack (`stackOperands`), both in argument
order, with the number under which each argument is found.
-/
import Mathlib
import Trampoline.Placement

namespace Trampoline

variable {R : Type}

/-- The placement in a register, or on the stack where there is none. -/
def Placement.ofReg? : Option R → Placement R
  | some r => .reg r
  | none => .stack

@[simp] theorem Placement.ofReg?_eq_reg {o : Option R} {r : R} :
    Placement.ofReg? o = .reg r ↔ o = some r := by
  cases o <;> simp [Placement.ofReg?]

@[simp] theorem Placement.ofReg?_eq_stack {o : Option R} :
    Placement.ofReg? o = .stack ↔ o = none := by
  cases o <;> simp [Placement.ofReg?]

namespace Budget

/-! ### The place of an argument -/

/-- How many of the types travel in floating registers. -/
def floatsIn (types : List ValueType) : Nat := types.countP (·.isFloat)

/-- How many of the types travel in integer registers. -/
def intsIn (eligible : ValueType → Bool) (types : List ValueType) : Nat :=
  types.countP fun t => !t.isFloat && eligible t

theorem floatsIn_concat (types : List ValueType) (t : ValueType) :
    floatsIn (types ++ [t]) = floatsIn types + if t.isFloat then 1 else 0 := by
  rw [floatsIn, List.countP_append, List.countP_singleton]
  rfl

theorem intsIn_concat (eligible : ValueType → Bool) (types : List ValueType) (t : ValueType) :
    intsIn eligible (types ++ [t])
      = intsIn eligible types + if !t.isFloat && eligible t then 1 else 0 := by
  rw [intsIn, List.countP_append, List.countP_singleton]
  rfl

/-- The place of an argument of type `t` after arguments of the types `earlier`. -/
def place (b : Budget R) (eligible : ValueType → Bool) (earlier : List ValueType)
    (t : ValueType) : Placement R :=
  if t.isFloat then
    .ofReg? b.floats[if b.positional then earlier.length else floatsIn earlier]?
  else if eligible t then
    .ofReg? b.ints[if b.positional then earlier.length else intsIn eligible earlier]?
  else .stack

/-- The places of arguments of the types `ts` after arguments of the types `earlier`. -/
def placesFrom (b : Budget R) (eligible : ValueType → Bool) (earlier : List ValueType) :
    List ValueType → List (Placement R)
  | [] => []
  | t :: ts => b.place eligible earlier t :: b.placesFrom eligible (earlier ++ [t]) ts

theorem getElem?_placesFrom (b : Budget R) (eligible : ValueType → Bool)
    (earlier ts : List ValueType) (i : Nat) :
    (b.placesFrom eligible earlier ts)[i]?
      = ts[i]?.map (b.place eligible (earlier ++ ts.take i)) := by
  induction ts generalizing earlier i with
  | nil => simp [placesFrom]
  | cons t ts ih =>
      cases i with
      | zero => simp [placesFrom]
      | succ i =>
          rw [placesFrom, List.getElem?_cons_succ, ih, List.getElem?_cons_succ,
            List.take_succ_cons, List.append_assoc]
          rfl

theorem length_placesFrom (b : Budget R) (eligible : ValueType → Bool)
    (earlier ts : List ValueType) : (b.placesFrom eligible earlier ts).length = ts.length := by
  induction ts generalizing earlier with
  | nil => rfl
  | cons t ts ih => rw [placesFrom, List.length_cons, ih, List.length_cons]

/-! #### One step of the walk with cursors -/

theorem placeFrom_float (b : Budget R) (eligible : ValueType → Bool) (index nextInt nextFloat : Nat)
    {t : ValueType} (ts : List ValueType) (ht : t.isFloat) :
    b.placeFrom eligible index nextInt nextFloat (t :: ts)
      = .ofReg? b.floats[if b.positional then index else nextFloat]? ::
        b.placeFrom eligible (index + 1) nextInt
          (if b.floats[if b.positional then index else nextFloat]?.isSome then nextFloat + 1
            else nextFloat) ts := by
  rw [placeFrom, if_pos ht]
  cases b.floats[if b.positional then index else nextFloat]? <;> rfl

theorem placeFrom_int (b : Budget R) {eligible : ValueType → Bool} (index nextInt nextFloat : Nat)
    {t : ValueType} (ts : List ValueType) (ht : ¬ t.isFloat) (he : eligible t) :
    b.placeFrom eligible index nextInt nextFloat (t :: ts)
      = .ofReg? b.ints[if b.positional then index else nextInt]? ::
        b.placeFrom eligible (index + 1)
          (if b.ints[if b.positional then index else nextInt]?.isSome then nextInt + 1
            else nextInt) nextFloat ts := by
  rw [placeFrom, if_neg ht, if_pos he]
  cases b.ints[if b.positional then index else nextInt]? <;> rfl

theorem placeFrom_ineligible (b : Budget R) {eligible : ValueType → Bool}
    (index nextInt nextFloat : Nat) {t : ValueType} (ts : List ValueType) (ht : ¬ t.isFloat)
    (he : ¬ eligible t) :
    b.placeFrom eligible index nextInt nextFloat (t :: ts)
      = .stack :: b.placeFrom eligible (index + 1) nextInt nextFloat ts := by
  rw [placeFrom, if_neg ht, if_neg he]

/-- A cursor that stopped at the end of its list names what the count names. -/
theorem getElem?_min_length (l : List R) (n : Nat) : l[min n l.length]? = l[n]? := by
  rcases Nat.lt_or_ge n l.length with h | h
  · rw [Nat.min_eq_left h.le]
  · rw [Nat.min_eq_right h, List.getElem?_eq_none h, List.getElem?_eq_none (le_refl _)]

/-- A cursor moves with the count until it stops at the end of its list. -/
theorem cursor_succ (l : List R) (n : Nat) :
    (if l[min n l.length]?.isSome then min n l.length + 1 else min n l.length)
      = min (n + 1) l.length := by
  rw [getElem?_min_length]
  rcases Nat.lt_or_ge n l.length with h | h
  · rw [List.getElem?_eq_getElem h, Option.isSome_some, if_pos rfl]
    omega
  · rw [List.getElem?_eq_none h, Option.isSome_none, if_neg Bool.false_ne_true]
    omega

/-- The walk with cursors gives the places by counting.  In the positional rule the cursors do not
matter; otherwise each is the count of its class, stopped at the end of its list. -/
theorem placeFrom_eq_placesFrom (b : Budget R) (eligible : ValueType → Bool)
    (earlier ts : List ValueType) {nextInt nextFloat : Nat}
    (hint : b.positional = false → nextInt = min (intsIn eligible earlier) b.ints.length)
    (hfloat : b.positional = false → nextFloat = min (floatsIn earlier) b.floats.length) :
    b.placeFrom eligible earlier.length nextInt nextFloat ts
      = b.placesFrom eligible earlier ts := by
  induction ts generalizing earlier nextInt nextFloat with
  | nil => rfl
  | cons t ts ih =>
      have hlen : earlier.length + 1 = (earlier ++ [t]).length := by simp
      have hfloats : b.floats[if b.positional then earlier.length else nextFloat]?
          = b.floats[if b.positional then earlier.length else floatsIn earlier]? := by
        cases hpos : b.positional
        · simp only [hfloat hpos, Bool.false_eq_true, if_false, getElem?_min_length]
        · rfl
      have hints : b.ints[if b.positional then earlier.length else nextInt]?
          = b.ints[if b.positional then earlier.length else intsIn eligible earlier]? := by
        cases hpos : b.positional
        · simp only [hint hpos, Bool.false_eq_true, if_false, getElem?_min_length]
        · rfl
      rw [placesFrom, place]
      by_cases hf : t.isFloat
      · -- a floating argument leaves the integer cursor alone
        have hi : intsIn eligible (earlier ++ [t]) = intsIn eligible earlier := by
          simp [intsIn_concat, hf]
        have hc : floatsIn (earlier ++ [t]) = floatsIn earlier + 1 := by
          simp [floatsIn_concat, hf]
        rw [placeFrom_float b eligible _ _ _ ts hf, hlen, if_pos hf, hfloats]
        refine congrArg _ (ih _ (fun hpos => by rw [hint hpos, hi]) fun hpos => ?_)
        rw [← hfloats]
        simp only [hpos, Bool.false_eq_true, if_false, hfloat hpos, hc]
        exact cursor_succ b.floats _
      · have hc : floatsIn (earlier ++ [t]) = floatsIn earlier := by simp [floatsIn_concat, hf]
        by_cases he : eligible t
        · have hi : intsIn eligible (earlier ++ [t]) = intsIn eligible earlier + 1 := by
            simp [intsIn_concat, hf, he]
          rw [placeFrom_int b _ _ _ ts hf he, hlen, if_neg hf, if_pos he, hints]
          refine congrArg _ (ih _ (fun hpos => ?_) fun hpos => by rw [hfloat hpos, hc])
          rw [← hints]
          simp only [hpos, Bool.false_eq_true, if_false, hint hpos, hi]
          exact cursor_succ b.ints _
        · -- an ineligible argument moves no cursor
          have hi : intsIn eligible (earlier ++ [t]) = intsIn eligible earlier := by
            simp [intsIn_concat, he]
          rw [placeFrom_ineligible b _ _ _ ts hf he, hlen, if_neg hf, if_neg he]
          exact congrArg _
            (ih _ (fun hpos => by rw [hint hpos, hi]) fun hpos => by rw [hfloat hpos, hc])

theorem placements_classify (b : Budget R) (eligible : ValueType → Bool)
    (types : List ValueType) :
    (b.classify eligible types).placements = b.placesFrom eligible [] types := by
  refine b.placeFrom_eq_placesFrom eligible [] types ?_ ?_
  · simp [intsIn]
  · simp [floatsIn]

/-- Every argument is placed by counting the arguments before it. -/
theorem getElem?_placements (b : Budget R) (eligible : ValueType → Bool)
    (types : List ValueType) (i : Nat) :
    (b.classify eligible types).placements[i]?
      = types[i]?.map (b.place eligible (types.take i)) := by
  rw [placements_classify, getElem?_placesFrom, List.nil_append]

/-! ### Registers are given out once -/

theorem mem_of_place_eq_reg {b : Budget R} {eligible : ValueType → Bool}
    {earlier : List ValueType} {t : ValueType} {r : R} (h : b.place eligible earlier t = .reg r) :
    if t.isFloat then r ∈ b.floats else r ∈ b.ints := by
  rw [place] at h
  by_cases hf : t.isFloat
  · rw [if_pos hf] at h ⊢
    exact List.mem_of_getElem? (Placement.ofReg?_eq_reg.mp h)
  · rw [if_neg hf] at h ⊢
    by_cases he : eligible t
    · rw [if_pos he] at h
      exact List.mem_of_getElem? (Placement.ofReg?_eq_reg.mp h)
    · simp [he] at h

/-- An argument never gets the register of an earlier one. -/
theorem place_ne_of_earlier {b : Budget R} {eligible : ValueType → Bool}
    (hnd : (b.ints ++ b.floats).Nodup) {earlier between : List ValueType} {t u : ValueType} {r : R}
    (ht : b.place eligible earlier t = .reg r) :
    b.place eligible (earlier ++ t :: between) u ≠ .reg r := by
  obtain ⟨hints, hfloats, hdis⟩ := List.nodup_append.mp hnd
  intro hu
  have hmt := mem_of_place_eq_reg ht
  have hmu := mem_of_place_eq_reg hu
  rw [place] at ht hu
  by_cases hft : t.isFloat <;> by_cases hfu : u.isFloat
  · -- both floating: the later one counts the earlier one
    rw [if_pos hft, Placement.ofReg?_eq_reg] at ht
    rw [if_pos hfu, Placement.ofReg?_eq_reg] at hu
    have heq := (List.getElem?_inj (List.getElem?_eq_some_iff.mp ht).1 hfloats).mp
      (ht.trans hu.symm)
    cases hpos : b.positional
    · simp [hpos, floatsIn, hft] at heq
    · simp [hpos] at heq
  · rw [if_pos hft] at hmt
    rw [if_neg hfu] at hmu
    exact hdis r hmu r hmt rfl
  · rw [if_neg hft] at hmt
    rw [if_pos hfu] at hmu
    exact hdis r hmt r hmu rfl
  · rw [if_neg hft] at ht
    rw [if_neg hfu] at hu
    by_cases het : eligible t <;> by_cases heu : eligible u
    · rw [if_pos het, Placement.ofReg?_eq_reg] at ht
      rw [if_pos heu, Placement.ofReg?_eq_reg] at hu
      have heq := (List.getElem?_inj (List.getElem?_eq_some_iff.mp ht).1 hints).mp
        (ht.trans hu.symm)
      cases hpos : b.positional
      · simp [hpos, intsIn, hft, het] at heq
      · simp [hpos] at heq
    all_goals simp_all

theorem pairwise_placesFrom {b : Budget R} {eligible : ValueType → Bool}
    (hnd : (b.ints ++ b.floats).Nodup) (earlier ts : List ValueType) :
    (b.placesFrom eligible earlier ts).Pairwise fun p q => ∀ r, p = .reg r → q ≠ .reg r := by
  rw [List.pairwise_iff_getElem]
  intro i j hi hj hij r hp
  have hi' := getElem?_placesFrom b eligible earlier ts i
  have hj' := getElem?_placesFrom b eligible earlier ts j
  rw [length_placesFrom] at hi hj
  rw [List.getElem?_eq_getElem (by rwa [length_placesFrom]), List.getElem?_eq_getElem hi,
    Option.map_some, Option.some.injEq] at hi'
  rw [List.getElem?_eq_getElem (by rwa [length_placesFrom]), List.getElem?_eq_getElem hj,
    Option.map_some, Option.some.injEq] at hj'
  rw [hi'] at hp
  -- the types before `j` are those before `i`, then `ts[i]`, then the ones between
  have hsplit : earlier ++ ts.take j
      = (earlier ++ ts.take i) ++ ts[i] :: (ts.take j).drop (i + 1) := by
    have hi'' : i < (ts.take j).length := by simp; omega
    have h1 := List.take_append_drop i (ts.take j)
    rw [List.drop_eq_getElem_cons hi'', List.getElem_take, List.take_take,
      Nat.min_eq_left hij.le] at h1
    rw [List.append_assoc, h1]
  rw [hj', hsplit]
  exact place_ne_of_earlier hnd hp

end Budget

/-! ### Arguments by place -/

namespace Plan

/-- The arguments on the stack, in argument order. -/
def stackOperands (p : Plan R) (args : List Operand) : List Operand :=
  (args.zip p.placements).filterMap fun (a, place) => if place.isStack then some a else none

/-- The arguments in registers, in argument order, each with its register. -/
def registerLoads (p : Plan R) (args : List Operand) : List (R × Operand) :=
  (args.zip p.placements).filterMap fun (a, place) => place.reg?.map (·, a)

/-- Looking arguments up by number is walking along them.  The numbers start at `before.length`. -/
theorem filterMap_zipIdx_lookup {β γ : Type} (f : Placement R → Nat → Option β)
    (g : β → Operand → γ) (index : β → Nat) (hindex : ∀ p i x, f p i = some x → index x = i)
    (places : List (Placement R)) (before args : List Operand) :
    ((places.zipIdx before.length).filterMap fun (p, i) => f p i).filterMap
        (fun x => (before ++ args)[index x]?.map (g x))
      = ((args.zip places).zipIdx before.length).filterMap
        fun ((a, p), i) => (f p i).map (g · a) := by
  induction places generalizing before args with
  | nil => simp
  | cons p places ih =>
      cases args with
      | nil =>
          rw [List.append_nil, List.zip_nil_left, List.zipIdx_nil, List.filterMap_nil,
            List.filterMap_eq_nil_iff]
          intro x hx
          obtain ⟨⟨q, i⟩, hq, hfx⟩ := List.mem_filterMap.mp hx
          have hle : before.length ≤ i := (List.mem_zipIdx hq).1
          rw [hindex q i x hfx, List.getElem?_eq_none hle, Option.map_none]
      | cons a args =>
          have hlen : (before ++ [a]).length = before.length + 1 := by simp
          have hih := ih (before ++ [a]) args
          rw [hlen, List.append_assoc] at hih
          rw [List.zipIdx_cons, List.zip_cons_cons, List.zipIdx_cons]
          rcases hf : f p before.length with - | x
          · simp only [List.filterMap_cons, hf, Option.map_none]
            exact hih
          · have hx := hindex p _ x hf
            simp only [List.filterMap_cons, hf, Option.map_some]
            rw [hx, List.getElem?_append_right (le_refl _), Nat.sub_self, List.getElem?_cons_zero]
            exact congrArg _ hih

theorem filterMap_zipIdx_ignore {α β : Type} (f : α → Option β) (l : List α) (n : Nat) :
    ((l.zipIdx n).filterMap fun (x, _) => f x) = l.filterMap f := by
  induction l generalizing n with
  | nil => rfl
  | cons x l ih => rw [List.zipIdx_cons, List.filterMap_cons, List.filterMap_cons, ih]

/-- Arguments are pushed last one first. -/
theorem stackOperandsRev_eq (p : Plan R) (args : List Operand) :
    p.stackOperandsRev args = (p.stackOperands args).reverse := by
  have h := filterMap_zipIdx_lookup (R := R)
    (fun place i => if place.isStack then some i else none) (fun _ a => a) id
    (by intro place i x hx; split at hx <;> simp_all) p.placements [] args
  rw [stackOperandsRev, stackArgsRev, List.filterMap_reverse]
  congr 1
  have hleft : (p.stackArgs.filterMap fun index => args[index]?)
      = p.stackArgs.filterMap fun x => ([] ++ args)[id x]?.map fun a => a := by
    refine List.filterMap_congr fun i _ => ?_
    simp
  rw [hleft, stackArgs, stackOperands]
  refine h.trans ((List.filterMap_congr ?_).trans (filterMap_zipIdx_ignore _ _ 0))
  rintro ⟨⟨a, place⟩, i⟩ -
  cases place <;> rfl

theorem registerOperands_map (p : Plan R) (args : List Operand) :
    (p.registerOperands args).map (fun (_, r, a) => (r, a)) = p.registerLoads args := by
  have h := filterMap_zipIdx_lookup (R := R)
    (fun place i => place.reg?.map (i, ·)) (fun (x : Nat × R) a => (x.1, x.2, a)) (·.1)
    (by
      intro place i x hx
      obtain ⟨r, -, rfl⟩ := Option.map_eq_some_iff.mp hx
      rfl) p.placements [] args
  have hoperands : p.registerOperands args
      = ((args.zip p.placements).zipIdx 0).filterMap
        fun ((a, place), i) => (place.reg?.map (i, ·)).map fun x => (x.1, x.2, a) := h
  rw [hoperands, List.map_filterMap, registerLoads]
  refine (List.filterMap_congr ?_).trans (filterMap_zipIdx_ignore _ _ 0)
  rintro ⟨⟨a, place⟩, i⟩ -
  cases place <;> rfl

/-- The first argument is passed on the stack, or it is not among those that are. -/
theorem stackOperands_cons (place : Placement R) (places : List (Placement R)) (a : Operand)
    (args : List Operand) :
    stackOperands ⟨place :: places⟩ (a :: args)
      = if place.isStack then a :: stackOperands ⟨places⟩ args
        else stackOperands ⟨places⟩ args := by
  cases place <;> rfl

theorem length_stackOperands (p : Plan R) {args : List Operand}
    (h : p.placements.length = args.length) : (p.stackOperands args).length = p.stackCount := by
  rw [stackOperands, stackCount]
  generalize p.placements = places at h ⊢
  induction places generalizing args with
  | nil => simp
  | cons place places ih =>
      cases args with
      | nil => simp at h
      | cons a args =>
          have hih := @ih args (by simpa using h)
          cases place <;> simpa [Placement.isStack] using hih

theorem floatRegCount_eq (p : Plan R) (args : List Operand) :
    p.floatRegCount args = (p.registerLoads args).countP (·.2.isFloat) := by
  rw [← registerOperands_map, List.countP_map, floatRegCount]
  rfl

/-- An argument in a register is among the loads. -/
theorem mem_registerLoads {p : Plan R} {args : List Operand} {i : Nat} {a : Operand} {r : R}
    (ha : args[i]? = some a) (hp : p.placements[i]? = some (.reg r)) :
    (r, a) ∈ p.registerLoads args := by
  refine List.mem_filterMap.mpr ⟨(a, .reg r), ?_, rfl⟩
  exact List.mem_of_getElem? (i := i) (List.getElem?_zip_eq_some.mpr ⟨ha, hp⟩)

/-- An argument on the stack is found under the number of stack arguments before it. -/
theorem getElem?_stackOperands {p : Plan R} {args : List Operand} {i : Nat} {a : Operand}
    (ha : args[i]? = some a) (hp : p.placements[i]? = some .stack) :
    (p.stackOperands args)[(p.placements.take i).countP (·.isStack)]? = some a := by
  rw [stackOperands]
  generalize p.placements = places at hp ⊢
  induction places generalizing args i with
  | nil => simp at hp
  | cons place places ih =>
      cases args with
      | nil => simp at ha
      | cons b args =>
          cases i with
          | zero =>
              simp only [List.getElem?_cons_zero, Option.some.injEq] at ha hp
              subst ha hp
              simp [Placement.isStack]
          | succ i =>
              have hih := @ih args i (by simpa using ha) (by simpa using hp)
              cases place <;> simpa [Placement.isStack] using hih

/-- What is loaded into registers are arguments of the call, each at its place. -/
theorem exists_of_mem_registerLoads {p : Plan R} {args : List Operand} {r : R} {a : Operand}
    (h : (r, a) ∈ p.registerLoads args) :
    ∃ i : Nat, args[i]? = some a ∧ p.placements[i]? = some (.reg r) := by
  obtain ⟨⟨b, place⟩, hmem, hf⟩ := List.mem_filterMap.mp h
  cases place with
  | stack => simp [Placement.reg?] at hf
  | reg q =>
      simp only [Placement.reg?, Option.map_some, Option.some.injEq, Prod.mk.injEq] at hf
      obtain ⟨rfl, rfl⟩ := hf
      obtain ⟨i, hi⟩ := List.mem_iff_getElem?.mp hmem
      exact ⟨i, List.getElem?_zip_eq_some.mp hi⟩

theorem mem_of_mem_stackOperands {p : Plan R} {args : List Operand} {a : Operand}
    (h : a ∈ p.stackOperands args) : a ∈ args := by
  obtain ⟨⟨b, place⟩, hmem, hf⟩ := List.mem_filterMap.mp h
  cases place with
  | reg q => simp [Placement.isStack] at hf
  | stack =>
      obtain rfl : b = a := by simpa [Placement.isStack] using hf
      exact (List.of_mem_zip hmem).1

/-- Different loads go to different registers. -/
theorem registerLoads_nodup {b : Budget R} {eligible : ValueType → Bool}
    (hnd : (b.ints ++ b.floats).Nodup) (types : List ValueType) (args : List Operand) :
    (((b.classify eligible types).registerLoads args).map (·.1)).Nodup := by
  have hpw : (b.placesFrom eligible [] types).Pairwise fun p q => ∀ r, p = .reg r → q ≠ .reg r :=
    Budget.pairwise_placesFrom hnd [] types
  rw [← Budget.placements_classify] at hpw
  generalize (b.classify eligible types) = p at hpw ⊢
  rw [List.nodup_iff_pairwise_ne, List.pairwise_map, registerLoads]
  have hzip : (args.zip p.placements).Pairwise
      fun x y => ∀ r, x.2 = .reg r → y.2 ≠ .reg r := by
    generalize p.placements = places at hpw ⊢
    induction args generalizing places with
    | nil => simp
    | cons a args ih =>
        cases places with
        | nil => simp
        | cons q places =>
            rw [List.pairwise_cons] at hpw
            rw [List.zip_cons_cons, List.pairwise_cons]
            exact ⟨fun y hy => hpw.1 y.2 (List.of_mem_zip hy).2, ih places hpw.2⟩
  refine hzip.filterMap _ ?_
  rintro ⟨a, p⟩ ⟨a', q⟩ hne x hx y hy heq
  cases p with
  | stack => simp [Placement.reg?] at hx
  | reg r =>
      cases q with
      | stack => simp [Placement.reg?] at hy
      | reg r' =>
          simp only [Placement.reg?, Option.map_some, Option.some.injEq] at hx hy
          subst hx hy
          exact hne r rfl (congrArg _ heq.symm)

end Plan

end Trampoline
