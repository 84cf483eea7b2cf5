/-
Trampoline/Proofs/Layout.lean

When a frame is refused.

The layout walks the scratch buffers and stops at the first one that ends beyond
the range of a displacement, and its error carries the bytes up to the end of
that buffer.  Sums of prefixes only grow, so there is such a buffer exactly when
the whole frame is too large.

On the way nothing wraps.  `checkedLayout` does the same in arithmetic that gives
nothing where the exact result does not fit, and it always gives what the layout
gives: the parameters are few, and the walk stops before the sum could leave a
64-bit word.

Main result: `layout_refused_exactly`.
-/
import Mathlib
import Trampoline.Proofs.Fragment
import Trampoline.Proofs.Frame

namespace Trampoline.Frame

/-! ### The bytes of a frame -/

/-- The bytes that a frame takes: eight for a parameter, sixteen for a float, and the scratch
buffers, each rounded up to a multiple of eight. -/
def demand (params : List ValueType) (scratch : List UInt32) : Nat :=
  8 * params.countP (fun t => !t.isFloat) + 16 * params.countP (·.isFloat) + scratchTotal scratch

theorem homeTotal_eq_countP (types : List ValueType) :
    homeTotal types = 8 * types.countP (fun t => !t.isFloat) + 16 * types.countP (·.isFloat) := by
  induction types with
  | nil => rfl
  | cons t ts ih =>
      have ht := (homeSize_toNat t).1
      rw [homeTotal_cons, ih, List.countP_cons, List.countP_cons, ht]
      cases t.isFloat
      · simp
        omega
      · simp
        omega

theorem demand_eq (params : List ValueType) (scratch : List UInt32) :
    demand params scratch = homeTotal params + scratchTotal scratch := by
  rw [demand, homeTotal_eq_countP]

theorem demand_take_le (params : List ValueType) (scratch : List UInt32) (k : Nat) :
    demand params (scratch.take k) ≤ demand params scratch :=
  Nat.add_le_add_left (scratchTotal_take_le scratch k) _

theorem demand_take_mono (params : List ValueType) (scratch : List UInt32) {j k : Nat}
    (h : j ≤ k) : demand params (scratch.take j) ≤ demand params (scratch.take k) := by
  have hle := demand_take_le params (scratch.take k) j
  rwa [List.take_take, Nat.min_eq_left h] at hle

/-! ### The first buffer that does not fit -/

/-- Whether `size` bytes are what a frame takes up to the end of the first scratch buffer that does
not fit. -/
def Overflows (params : List ValueType) (scratch : List UInt32) (size : Nat) : Prop :=
  ∃ k, demand params (scratch.take k) < 2 ^ 31 ∧ 2 ^ 31 ≤ demand params (scratch.take (k + 1)) ∧
    size = demand params (scratch.take (k + 1))

theorem layoutScratch_eq_error {used : UInt64} {sizes : List UInt32} {e : Error}
    (hfit : used.toNat < 2 ^ 31) :
    layoutScratch used sizes = .error e ↔
      ∃ k, used.toNat + scratchTotal (sizes.take k) < 2 ^ 31 ∧
        2 ^ 31 ≤ used.toNat + scratchTotal (sizes.take (k + 1)) ∧
        e = .frameTooLarge (used.toNat + scratchTotal (sizes.take (k + 1))) := by
  induction sizes generalizing used with
  | nil =>
      constructor
      · intro h
        cases h
      · rintro ⟨k, hlt, hge, -⟩
        rw [List.take_nil] at hlt hge
        omega
  | cons size sizes ih =>
      have hstep := toNat_add_roundUp8 hfit size
      rw [layoutScratch]
      dsimp only
      by_cases hmax : maxSize < used + roundUp8 size
      · -- the walk stops here, and every longer prefix is beyond the range too
        rw [if_pos hmax]
        rw [maxSize_lt_iff, hstep] at hmax
        constructor
        · intro h
          obtain rfl := Except.error.inj h
          refine ⟨0, ?_, ?_, ?_⟩
          · simpa using hfit
          · simpa using hmax
          · simp [hstep]
        · rintro ⟨k, hlt, hge, rfl⟩
          cases k with
          | zero => simp [hstep]
          | succ k =>
              rw [List.take_succ_cons, scratchTotal_cons] at hlt
              omega
      · rw [if_neg hmax]
        rw [maxSize_lt_iff, Nat.not_le] at hmax
        rw [map_eq_error, ih hmax, hstep]
        constructor
        · rintro ⟨k, hlt, hge, rfl⟩
          refine ⟨k + 1, ?_⟩
          simp only [List.take_succ_cons, scratchTotal_cons]
          rw [← Nat.add_assoc, ← Nat.add_assoc]
          exact ⟨hlt, hge, rfl⟩
        · rintro ⟨k, hlt, hge, rfl⟩
          cases k with
          | zero =>
              simp only [List.take_succ_cons, List.take_zero, scratchTotal_cons,
                scratchTotal_nil] at hge
              omega
          | succ k =>
              refine ⟨k, ?_⟩
              simp only [List.take_succ_cons, scratchTotal_cons] at hlt hge ⊢
              rw [← Nat.add_assoc] at hlt hge ⊢
              exact ⟨hlt, hge, rfl⟩

theorem homeTotal_lt {params : List ValueType} (hfew : params.length ≤ maxParameters) :
    homeTotal params < 2 ^ 31 := by
  have hle := homeTotal_le params
  have hlimit : maxParameters = 15 := rfl
  omega

theorem toNat_layoutHomes {params : List ValueType} (hfew : params.length ≤ maxParameters)
    {homes : List HomeSlot} {homeBytes : UInt64} (h : layoutHomes 0 params = (homes, homeBytes)) :
    homeBytes.toNat = homeTotal params := by
  have hfit : (0 : UInt64).toNat + homeTotal params < 2 ^ 31 := by simpa using homeTotal_lt hfew
  simpa using (layoutHomes_spec h hfit).1

/-- The two ways in which a layout is refused. -/
theorem layout_eq_error {params : List ValueType} {scratch : List UInt32} {e : Error} :
    layout params scratch = .error e ↔
      maxParameters < params.length ∧ e = .tooManyParameters params.length maxParameters ∨
      params.length ≤ maxParameters ∧
        ∃ size, Overflows params scratch size ∧ e = .frameTooLarge size := by
  rw [layout]
  by_cases hmany : maxParameters < params.length
  · simp [hmany, Nat.not_le.mpr hmany, eq_comm]
  · have hfew : params.length ≤ maxParameters := Nat.not_lt.mp hmany
    have hfit := homeTotal_lt hfew
    rcases hl : layoutHomes 0 params with ⟨homes, homeBytes⟩
    have hbytes := toNat_layoutHomes hfew hl
    rw [if_neg hmany]
    dsimp only
    rw [map_eq_error, layoutScratch_eq_error (by omega), hbytes]
    simp only [← demand_eq, hmany, hfew, false_and, false_or, true_and]
    constructor
    · rintro ⟨k, hlt, hge, rfl⟩
      exact ⟨_, ⟨k, hlt, hge, rfl⟩, rfl⟩
    · rintro ⟨_, ⟨k, hlt, hge, rfl⟩, rfl⟩
      exact ⟨k, hlt, hge, rfl⟩

/-- A buffer that does not fit is there exactly when the whole frame is too large. -/
theorem exists_overflows_iff {params : List ValueType} (hfew : params.length ≤ maxParameters)
    (scratch : List UInt32) :
    (∃ size, Overflows params scratch size) ↔ 2 ^ 31 ≤ demand params scratch := by
  constructor
  · rintro ⟨size, k, -, hge, -⟩
    exact hge.trans (demand_take_le params scratch (k + 1))
  · intro hlarge
    cases hlayout : layout params scratch with
    | ok frame =>
        have hl := laid_of_layout hlayout
        have hsize := hl.size_eq
        have hlt := hl.size_lt
        rw [← demand_eq] at hsize
        omega
    | error e =>
        rcases layout_eq_error.mp hlayout with ⟨hmany, -⟩ | ⟨-, size, hover, -⟩
        · omega
        · exact ⟨size, hover⟩

theorem layout_eq_frameTooLarge {params : List ValueType} {scratch : List UInt32} {size : Nat}
    (hfew : params.length ≤ maxParameters) :
    layout params scratch = .error (.frameTooLarge size) ↔ Overflows params scratch size := by
  rw [layout_eq_error]
  constructor
  · rintro (⟨-, he⟩ | ⟨-, _, hover, he⟩)
    · cases he
    · cases he
      exact hover
  · intro hover
    exact .inr ⟨hfew, size, hover, rfl⟩

theorem exists_layout_iff {params : List ValueType} (hfew : params.length ≤ maxParameters)
    (scratch : List UInt32) :
    (∃ f, layout params scratch = .ok f) ↔ demand params scratch < 2 ^ 31 := by
  rw [← Nat.not_le, ← exists_overflows_iff hfew]
  cases hlayout : layout params scratch with
  | ok f =>
      refine iff_of_true ⟨f, rfl⟩ ?_
      rintro ⟨size, hover⟩
      rw [← layout_eq_frameTooLarge hfew, hlayout] at hover
      cases hover
  | error e =>
      refine iff_of_false (fun ⟨f, hf⟩ => by cases hf) (not_not_intro ?_)
      rcases layout_eq_error.mp hlayout with ⟨hmany, -⟩ | ⟨-, size, hover, -⟩
      · exact absurd hmany (Nat.not_lt.mpr hfew)
      · exact ⟨size, hover⟩

/-- The bytes in an error are those up to the least number of buffers that do not fit. -/
theorem overflows_iff_isLeast {params : List ValueType} (hfew : params.length ≤ maxParameters)
    {scratch : List UInt32} {size : Nat} :
    Overflows params scratch size ↔
      ∃ k, IsLeast {k | 2 ^ 31 ≤ demand params (scratch.take k)} k ∧
        size = demand params (scratch.take k) := by
  constructor
  · rintro ⟨k, hlt, hge, rfl⟩
    refine ⟨k + 1, ⟨hge, fun j hj => ?_⟩, rfl⟩
    by_contra hjk
    have hmono := demand_take_mono params scratch (Nat.le_of_lt_succ (Nat.not_le.mp hjk))
    exact absurd (hj.trans hmono) (Nat.not_le.mpr hlt)
  · rintro ⟨k, ⟨hge, hleast⟩, rfl⟩
    cases k with
    | zero =>
        -- the home slots alone always fit
        have hhomes := homeTotal_lt hfew
        have hge' : 2 ^ 31 ≤ demand params (scratch.take 0) := hge
        rw [demand_eq, List.take_zero, scratchTotal_nil] at hge'
        omega
    | succ k =>
        refine ⟨k, Nat.not_le.mp fun hk => ?_, hge, rfl⟩
        exact absurd (hleast hk) (Nat.not_succ_le_self k)

/-! ### Checked arithmetic -/

/-- The sum of two words, if it is a word. -/
def checkedAdd (x y : UInt64) : Option UInt64 :=
  if x.toNat + y.toNat < 2 ^ 64 then some (x + y) else none

/-- The difference of two words, if it is not negative. -/
def checkedSub (x y : UInt64) : Option UInt64 :=
  if y.toNat ≤ x.toNat then some (x - y) else none

/-- The offset of a slot that ends a frame of `used` bytes, if it is a signed 32-bit number. -/
def checkedOffset (used : UInt64) : Option Int32 :=
  if used.toNat < 2 ^ 31 then some (offsetOf used) else none

/-- The bytes of a scratch buffer, rounded up to a multiple of eight. -/
def checkedRoundUp8 (size : UInt32) : Option UInt64 :=
  (checkedAdd size.toUInt64 7).map (· &&& ~~~7)

/-- Home slots below `used` bytes, and the bytes used after them. -/
def checkedHomes (used : UInt64) : List ValueType → Option (List HomeSlot × UInt64)
  | [] => some ([], used)
  | type :: types => do
      let used ← checkedAdd used type.homeSize
      let offset ← checkedOffset used
      let rest ← checkedHomes used types
      return (⟨type, offset⟩ :: rest.1, rest.2)

/-- Scratch slots below `used` bytes, and the bytes used after them. -/
def checkedScratch (used : UInt64) :
    List UInt32 → Option (Except Error (List ScratchSlot × UInt64))
  | [] => some (.ok ([], used))
  | size :: sizes => do
      let bytes ← checkedRoundUp8 size
      let used ← checkedAdd used bytes
      if maxSize < used then return .error (.frameTooLarge used.toNat)
      let offset ← checkedOffset used
      let rest ← checkedScratch used sizes
      return rest.map fun r => (⟨size, offset⟩ :: r.1, r.2)

/-- The layout of a frame, or nothing where an operation on the way has no exact result.  All bytes
are counted in words of one width, so no other conversion can lose anything. -/
def checkedLayout (params : List ValueType) (scratch : List UInt32) :
    Option (Except Error Frame) :=
  if maxParameters < params.length then
    some (.error (.tooManyParameters params.length maxParameters))
  else do
    let homes ← checkedHomes 0 params
    match ← checkedScratch homes.2 scratch with
    | .error e => return .error e
    | .ok r => return .ok ⟨homes.1, r.1, homes.2, ← checkedSub r.2 homes.2⟩

theorem checkedHomes_eq {used : UInt64} {types : List ValueType}
    (hfit : used.toNat + homeTotal types < 2 ^ 31) :
    checkedHomes used types = some (layoutHomes used types) := by
  induction types generalizing used with
  | nil => rfl
  | cons t ts ih =>
      rw [homeTotal_cons] at hfit
      have hstep : (used + t.homeSize).toNat = used.toNat + t.homeSize.toNat := by
        rw [UInt64.toNat_add]
        exact Nat.mod_eq_of_lt (by omega)
      have hadd : checkedAdd used t.homeSize = some (used + t.homeSize) := if_pos (by omega)
      have hoffset : checkedOffset (used + t.homeSize) = some (offsetOf (used + t.homeSize)) :=
        if_pos (by omega)
      have hrest := @ih (used + t.homeSize) (by omega)
      simp [checkedHomes, layoutHomes, hadd, hoffset, hrest]

theorem checkedRoundUp8_eq (size : UInt32) : checkedRoundUp8 size = some (roundUp8 size) := by
  have hsize : size.toNat < 2 ^ 32 := size.toNat_lt
  have hadd : checkedAdd size.toUInt64 7 = some (size.toUInt64 + 7) := by
    refine if_pos ?_
    rw [UInt32.toNat_toUInt64]
    show size.toNat + 7 < 2 ^ 64
    omega
  rw [checkedRoundUp8, hadd]
  rfl

theorem checkedScratch_eq {used : UInt64} {sizes : List UInt32} (hfit : used.toNat < 2 ^ 31) :
    checkedScratch used sizes = some (layoutScratch used sizes) := by
  induction sizes generalizing used with
  | nil => rfl
  | cons size sizes ih =>
      have hsize : size.toNat < 2 ^ 32 := size.toNat_lt
      have hstep := toNat_add_roundUp8 hfit size
      have hadd : checkedAdd used (roundUp8 size) = some (used + roundUp8 size) := by
        refine if_pos ?_
        rw [toNat_roundUp8, rounded]
        omega
      by_cases hmax : maxSize < used + roundUp8 size
      · simp [checkedScratch, layoutScratch, checkedRoundUp8_eq, hadd, hmax]
      · have hlt : (used + roundUp8 size).toNat < 2 ^ 31 :=
          Nat.not_le.mp (mt (maxSize_lt_iff _).mpr hmax)
        have hoffset : checkedOffset (used + roundUp8 size)
            = some (offsetOf (used + roundUp8 size)) := if_pos hlt
        simp [checkedScratch, layoutScratch, checkedRoundUp8_eq, hadd, hmax, hoffset, ih hlt]

theorem checkedLayout_eq (params : List ValueType) (scratch : List UInt32) :
    checkedLayout params scratch = some (layout params scratch) := by
  rw [checkedLayout, layout]
  by_cases hmany : maxParameters < params.length
  · rw [if_pos hmany, if_pos hmany]
  · have hfew : params.length ≤ maxParameters := Nat.not_lt.mp hmany
    have hfit := homeTotal_lt hfew
    rcases hl : layoutHomes 0 params with ⟨homes, homeBytes⟩
    have hlt : homeBytes.toNat < 2 ^ 31 := by rwa [toNat_layoutHomes hfew hl]
    rw [if_neg hmany, if_neg hmany, checkedHomes_eq (by simpa using hfit), hl]
    cases hs : layoutScratch homeBytes scratch with
    | error e => simp [checkedScratch_eq hlt, hs, Except.map]
    | ok r =>
        obtain ⟨slots, total⟩ := r
        have htotal := (layoutScratch_spec hs hlt).1
        have hsub : checkedSub total homeBytes = some (total - homeBytes) := if_pos (by omega)
        simp [checkedScratch_eq hlt, hs, hsub, Except.map]

/-- **A layout is refused exactly where it has to be.**  It is refused for its parameters if there
are more than fifteen.  Otherwise it is refused for its bytes if those up to the end of some buffer
are beyond the range of a signed 32-bit number, and the error carries the first such sum.  No
operation on the way wraps. -/
theorem layout_refused_exactly (params : List ValueType) (scratch : List UInt32) :
    (∀ count limit : Nat, layout params scratch = .error (.tooManyParameters count limit) ↔
      15 < params.length ∧ count = params.length ∧ limit = 15) ∧
    (params.length ≤ 15 →
      ((∃ size, layout params scratch = .error (.frameTooLarge size)) ↔
        ∃ k ≤ scratch.length, 2 ^ 31 ≤ demand params (scratch.take k)) ∧
      (∀ k, IsLeast {k | 2 ^ 31 ≤ demand params (scratch.take k)} k →
        layout params scratch = .error (.frameTooLarge (demand params (scratch.take k)))) ∧
      ((∃ f, layout params scratch = .ok f) ↔
        ∀ k ≤ scratch.length, demand params (scratch.take k) < 2 ^ 31)) ∧
    checkedLayout params scratch = some (layout params scratch) := by
  refine ⟨fun count limit => ?_, fun hfew => ?_, checkedLayout_eq params scratch⟩
  · rw [layout_eq_error]
    constructor
    · rintro (⟨hmany, he⟩ | ⟨-, size, -, he⟩)
      · cases he
        exact ⟨hmany, rfl, rfl⟩
      · cases he
    · rintro ⟨hmany, rfl, rfl⟩
      exact .inl ⟨hmany, rfl⟩
  · have hwhole := demand_take_le params scratch
    have hall := List.take_length (l := scratch)
    refine ⟨?_, fun k hk => ?_, ?_⟩
    · simp only [layout_eq_frameTooLarge hfew]
      rw [exists_overflows_iff hfew]
      constructor
      · intro hlarge
        exact ⟨scratch.length, le_refl _, by rwa [hall]⟩
      · rintro ⟨k, -, hk⟩
        exact hk.trans (hwhole k)
    · exact (layout_eq_frameTooLarge hfew).mpr ((overflows_iff_isLeast hfew).mpr ⟨k, hk, rfl⟩)
    · rw [exists_layout_iff hfew]
      constructor
      · intro hsmall k _
        exact (hwhole k).trans_lt hsmall
      · intro hsmall
        exact hall ▸ hsmall scratch.length (le_refl _)

/-- The first buffer leaves room for no more than seven bytes, and the second one rounds up to
eight. -/
theorem layout_refused_exactly_second :
    IsLeast {k | 2 ^ 31 ≤ demand [] ([0x7FFFFFF8, 1].take k)} 2 ∧
      layout [] [0x7FFFFFF8, 1] = .error (.frameTooLarge (2 ^ 31)) := by
  have hleast : IsLeast {k | 2 ^ 31 ≤ demand [] ([0x7FFFFFF8, 1].take k)} 2 := by
    refine ⟨by decide, fun k hk => Nat.not_lt.mp fun hlt => ?_⟩
    have hmono := demand_take_mono [] [0x7FFFFFF8, 1] (Nat.le_of_lt_succ hlt)
    exact absurd (hk.trans hmono) (by decide)
  exact ⟨hleast, ((layout_refused_exactly [] [0x7FFFFFF8, 1]).2.1 (by decide)).2.1 2 hleast⟩

end Trampoline.Frame
