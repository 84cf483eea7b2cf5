/-
Trampoline/Proofs/Frame.lean

What the layout of a frame puts where.

The layout counts in 64-bit words and casts to signed 32-bit offsets; here the
same offsets are sums of natural numbers.  A home slot ends where the sum of
the home sizes up to its parameter says, and a scratch slot where the homes and
the rounded sizes up to its buffer say (`Frame.Laid`).  Nothing wraps, because
fifteen home slots are short and the layout stops at the first scratch buffer
that does not fit.  That home slots do not overlap is then a fact about sums of
prefixes.
-/
import Mathlib
import Trampoline.Frame
import Trampoline.Proofs.Memory

namespace Trampoline

namespace Frame

/-! ### Sums -/

/-- The bytes of the home slots of parameters. -/
def homeTotal (types : List ValueType) : Nat := (types.map (·.homeSize.toNat)).sum

/-- The bytes of a scratch buffer in the frame. -/
def rounded (size : UInt32) : Nat := (size.toNat + 7) / 8 * 8

/-- The bytes of the scratch buffers of a frame. -/
def scratchTotal (sizes : List UInt32) : Nat := (sizes.map rounded).sum

@[simp] theorem homeTotal_nil : homeTotal [] = 0 := rfl

@[simp] theorem homeTotal_cons (t : ValueType) (ts : List ValueType) :
    homeTotal (t :: ts) = t.homeSize.toNat + homeTotal ts := rfl

@[simp] theorem scratchTotal_nil : scratchTotal [] = 0 := rfl

@[simp] theorem scratchTotal_cons (size : UInt32) (sizes : List UInt32) :
    scratchTotal (size :: sizes) = rounded size + scratchTotal sizes := rfl

theorem homeTotal_append (ts us : List ValueType) :
    homeTotal (ts ++ us) = homeTotal ts + homeTotal us := by
  simp [homeTotal]

theorem scratchTotal_append (xs ys : List UInt32) :
    scratchTotal (xs ++ ys) = scratchTotal xs + scratchTotal ys := by
  simp [scratchTotal]

/-- A home slot has eight or sixteen bytes, and holds a value of its type. -/
theorem homeSize_toNat (t : ValueType) :
    t.homeSize.toNat = (if t.isFloat then 16 else 8) ∧ t.size ≤ 8 := by
  cases t <;> decide

theorem homeTotal_le (ts : List ValueType) : homeTotal ts ≤ 16 * ts.length := by
  induction ts with
  | nil => simp
  | cons t ts ih =>
      have ht := (homeSize_toNat t).1
      rw [homeTotal_cons, List.length_cons]
      split at ht <;> omega

theorem homeTotal_mod (ts : List ValueType) : homeTotal ts % 8 = 0 := by
  induction ts with
  | nil => rfl
  | cons t ts ih =>
      have ht := (homeSize_toNat t).1
      rw [homeTotal_cons]
      split at ht <;> omega

theorem scratchTotal_mod (sizes : List UInt32) : scratchTotal sizes % 8 = 0 := by
  induction sizes with
  | nil => rfl
  | cons size sizes ih =>
      rw [scratchTotal_cons, rounded]
      omega

theorem homeTotal_take_le (ts : List ValueType) (i : Nat) :
    homeTotal (ts.take i) ≤ homeTotal ts := by
  have h := congrArg homeTotal (List.take_append_drop i ts)
  rw [homeTotal_append] at h
  omega

theorem homeTotal_take_succ {ts : List ValueType} {i : Nat} {t : ValueType}
    (h : ts[i]? = some t) : homeTotal (ts.take (i + 1)) = homeTotal (ts.take i) + t.homeSize.toNat := by
  rw [List.take_add_one, h, homeTotal_append]
  rfl

theorem homeTotal_take_mono (ts : List ValueType) {i j : Nat} (h : i ≤ j) :
    homeTotal (ts.take i) ≤ homeTotal (ts.take j) := by
  have hle := homeTotal_take_le (ts.take j) i
  rwa [List.take_take, Nat.min_eq_left h] at hle

theorem scratchTotal_take_le (sizes : List UInt32) (i : Nat) :
    scratchTotal (sizes.take i) ≤ scratchTotal sizes := by
  have h := congrArg scratchTotal (List.take_append_drop i sizes)
  rw [scratchTotal_append] at h
  omega

/-! ### Words and numbers -/

/-- Clearing the low bits of a word rounds it down to a multiple of a power of two. -/
theorem and_high_mask {k n : Nat} (hk : k ≤ 64) (hn : n < 2 ^ 64) :
    n &&& (2 ^ 64 - (2 ^ k - 1 + 1)) = n / 2 ^ k * 2 ^ k := by
  have hpow : 2 ^ k ≤ 2 ^ 64 := Nat.pow_le_pow_right (by decide) hk
  have hpos : 0 < 2 ^ k := Nat.two_pow_pos k
  refine Nat.eq_of_testBit_eq fun i => ?_
  have hhigh : 64 ≤ i → n.testBit i = false := fun hi =>
    Nat.testBit_lt_two_pow (hn.trans_le (Nat.pow_le_pow_right (by decide) hi))
  rw [Nat.testBit_and, Nat.testBit_two_pow_sub_succ (by omega), Nat.testBit_two_pow_sub_one,
    Nat.testBit_mul_two_pow, Nat.testBit_div_two_pow]
  rcases Nat.lt_or_ge i k with hi | hi
  · simp [hi, Nat.not_le.mpr hi]
  · rw [Nat.sub_add_cancel hi]
    rcases Nat.lt_or_ge i 64 with hi' | hi'
    · simp [hi, hi', Nat.not_lt.mpr hi]
    · simp [hhigh hi']

theorem toNat_roundUp8 (size : UInt32) : (roundUp8 size).toNat = rounded size := by
  have hsize : size.toNat < 2 ^ 32 := size.toNat_lt
  have hsum : (size.toUInt64 + 7).toNat = size.toNat + 7 := by
    rw [UInt64.toNat_add, UInt32.toNat_toUInt64]
    exact Nat.mod_eq_of_lt (by simp; omega)
  rw [roundUp8, UInt64.toNat_and, hsum, rounded]
  exact and_high_mask (k := 3) (by decide) (by omega)

theorem toNat_add_roundUp8 {used : UInt64} (hfit : used.toNat < 2 ^ 31) (size : UInt32) :
    (used + roundUp8 size).toNat = used.toNat + rounded size := by
  have hsize : size.toNat < 2 ^ 32 := size.toNat_lt
  rw [UInt64.toNat_add, toNat_roundUp8, rounded]
  exact Nat.mod_eq_of_lt (by omega)

theorem maxSize_lt_iff (used : UInt64) : maxSize < used ↔ 2 ^ 31 ≤ used.toNat := by
  rw [UInt64.lt_iff_toNat_lt]
  exact Iff.rfl

theorem toInt_offsetOf {used : UInt64} (h : used.toNat < 2 ^ 31) :
    (offsetOf used).toInt = used.toNat := by
  have hcast : used.toUInt32.toNat = used.toNat := by
    rw [UInt64.toNat_toUInt32]
    exact Nat.mod_eq_of_lt (by omega)
  rw [offsetOf, ← Int32.toInt_toBitVec, UInt32.toBitVec_toInt32, BitVec.toInt_eq_toNat_of_lt]
  · show ((used.toUInt32.toNat : Nat) : Int) = _
    rw [hcast]
  · show 2 * used.toUInt32.toNat < _
    rw [hcast]
    omega

/-! ### The two walks -/

theorem layoutHomes_spec {used total : UInt64} {types : List ValueType} {slots : List HomeSlot}
    (h : layoutHomes used types = (slots, total)) (hfit : used.toNat + homeTotal types < 2 ^ 31) :
    total.toNat = used.toNat + homeTotal types ∧ slots.map (·.type) = types ∧
      ∀ (i : Nat) (slot : HomeSlot), slots[i]? = some slot →
        slot.offset.toInt = used.toNat + homeTotal (types.take (i + 1)) := by
  induction types generalizing used slots with
  | nil =>
      obtain ⟨rfl, rfl⟩ := Prod.mk.injEq .. ▸ h
      exact ⟨by simp, rfl, by simp⟩
  | cons t ts ih =>
      rw [homeTotal_cons] at hfit
      have hstep : (used + t.homeSize).toNat = used.toNat + t.homeSize.toNat := by
        rw [UInt64.toNat_add]
        exact Nat.mod_eq_of_lt (by omega)
      rw [layoutHomes] at h
      rcases hrest : layoutHomes (used + t.homeSize) ts with ⟨rest, total'⟩
      rw [hrest] at h
      obtain ⟨rfl, rfl⟩ := Prod.mk.injEq .. ▸ h
      obtain ⟨htotal, htypes, hoffset⟩ := ih hrest (by omega)
      refine ⟨by rw [htotal, hstep, homeTotal_cons]; omega, by rw [List.map_cons, htypes], ?_⟩
      intro i slot hslot
      cases i with
      | zero =>
          simp only [List.getElem?_cons_zero, Option.some.injEq] at hslot
          rw [← hslot]
          show (offsetOf (used + t.homeSize)).toInt = _
          rw [toInt_offsetOf (by omega), hstep]
          simp
      | succ i =>
          rw [hoffset i slot (by simpa using hslot), hstep, List.take_succ_cons, homeTotal_cons]
          push_cast
          ring

theorem layoutScratch_spec {used total : UInt64} {sizes : List UInt32} {slots : List ScratchSlot}
    (h : layoutScratch used sizes = .ok (slots, total)) (hfit : used.toNat < 2 ^ 31) :
    total.toNat = used.toNat + scratchTotal sizes ∧ total.toNat < 2 ^ 31 ∧
      slots.map (·.size) = sizes ∧
      ∀ (i : Nat) (slot : ScratchSlot), slots[i]? = some slot →
        slot.offset.toInt = used.toNat + scratchTotal (sizes.take (i + 1)) := by
  induction sizes generalizing used slots with
  | nil =>
      obtain ⟨rfl, rfl⟩ := Prod.mk.injEq .. ▸ Except.ok.inj h
      exact ⟨by simp, hfit, rfl, by simp⟩
  | cons size sizes ih =>
      have hstep := toNat_add_roundUp8 hfit size
      rw [layoutScratch] at h
      by_cases hmax : maxSize < used + roundUp8 size
      · simp [hmax] at h
      · have hle : (used + roundUp8 size).toNat < 2 ^ 31 :=
          Nat.not_le.mp (mt (maxSize_lt_iff _).mpr hmax)
        simp only [hmax, if_false] at h
        rcases hrest : layoutScratch (used + roundUp8 size) sizes with e | ⟨rest, total'⟩
        · rw [hrest] at h
          cases h
        · rw [hrest] at h
          obtain ⟨rfl, rfl⟩ := Prod.mk.injEq .. ▸ Except.ok.inj h
          obtain ⟨htotal, hlt, hsizes, hoffset⟩ := ih hrest hle
          refine ⟨by rw [htotal, hstep, scratchTotal_cons]; omega, hlt,
            by rw [List.map_cons, hsizes], ?_⟩
          intro i slot hslot
          cases i with
          | zero =>
              simp only [List.getElem?_cons_zero, Option.some.injEq] at hslot
              rw [← hslot]
              show (offsetOf (used + roundUp8 size)).toInt = _
              rw [toInt_offsetOf hle, hstep]
              simp
          | succ i =>
              rw [hoffset i slot (by simpa using hslot), hstep, List.take_succ_cons,
                scratchTotal_cons]
              push_cast
              ring

/-! ### The frame -/

/-- A frame as the layout makes it: the declared types and sizes in order, offsets that are sums
of the sizes up to each slot, and no more bytes than a displacement can span. -/
structure Laid (params : List ValueType) (scratch : List UInt32) (f : Frame) : Prop where
  params_le : params.length ≤ maxParameters
  types : f.homes.map (·.type) = params
  sizes : f.scratch.map (·.size) = scratch
  home : ∀ {i : Nat} {slot : HomeSlot}, f.homes[i]? = some slot →
    slot.offset.toInt = homeTotal (params.take (i + 1))
  buffer : ∀ {i : Nat} {slot : ScratchSlot}, f.scratch[i]? = some slot →
    slot.offset.toInt = homeTotal params + scratchTotal (scratch.take (i + 1))
  homeBytes_eq : f.homeBytes.toNat = homeTotal params
  size_eq : f.size = homeTotal params + scratchTotal scratch
  size_lt : f.size < 2 ^ 31

theorem laid_of_layout {params : List ValueType} {scratch : List UInt32} {f : Frame}
    (h : layout params scratch = .ok f) : f.Laid params scratch := by
  rw [layout] at h
  by_cases hmax : maxParameters < params.length
  · simp [hmax] at h
  · have hlen : params.length ≤ 15 := Nat.not_lt.mp hmax
    have hhomes := homeTotal_le params
    simp only [hmax, if_false] at h
    rcases hl : layoutHomes 0 params with ⟨homes, homeBytes⟩
    obtain ⟨hbytes, htypes, hhome⟩ := layoutHomes_spec hl (by simp; omega)
    simp only [UInt64.toNat_zero, Nat.cast_zero, zero_add] at hbytes hhome
    rw [hl] at h
    rcases hs : layoutScratch homeBytes scratch with e | ⟨slots, total⟩
    · simp [hs, Except.map] at h
    · obtain ⟨htotal, hlt, hsizes, hbuffer⟩ := layoutScratch_spec hs (by omega)
      simp only [hs, Except.map, Except.ok.injEq] at h
      subst h
      have hsub : homeBytes + (total - homeBytes) = total := by
        rw [UInt64.add_comm, UInt64.sub_add_cancel]
      refine ⟨hlen, htypes, hsizes, fun hslot => hhome _ _ hslot, fun hslot => ?_, hbytes, ?_, ?_⟩
      · rw [hbuffer _ _ hslot, hbytes]
      · show (homeBytes + (total - homeBytes)).toNat = _
        rw [hsub, htotal, hbytes]
      · show (homeBytes + (total - homeBytes)).toNat < _
        rw [hsub]
        exact hlt

namespace Laid

variable {params : List ValueType} {scratch : List UInt32} {f : Frame}

theorem homes_length (h : f.Laid params scratch) : f.homes.length = params.length := by
  rw [← h.types, List.length_map]

theorem scratch_length (h : f.Laid params scratch) : f.scratch.length = scratch.length := by
  rw [← h.sizes, List.length_map]

theorem type_of_home (h : f.Laid params scratch) {i : Nat} {slot : HomeSlot}
    (hslot : f.homes[i]? = some slot) : params[i]? = some slot.type := by
  rw [← h.types, List.getElem?_map, hslot, Option.map_some]

/-- A home slot starts where the one before it ends, and lies in the upper part of the frame. -/
theorem home_bounds (h : f.Laid params scratch) {i : Nat} {slot : HomeSlot}
    (hslot : f.homes[i]? = some slot) :
    slot.offset.toInt = homeTotal (params.take i) + slot.type.homeSize.toNat ∧
      slot.offset.toInt ≤ homeTotal params ∧ slot.offset.toInt ≤ f.size := by
  have hoffset := h.home hslot
  have hle := homeTotal_take_le params (i + 1)
  have hsize := h.size_eq
  rw [homeTotal_take_succ (h.type_of_home hslot)] at hle hoffset
  push_cast at hoffset
  refine ⟨hoffset, ?_, ?_⟩ <;> omega

/-- Home slots of different parameters do not overlap. -/
theorem home_disjoint (h : f.Laid params scratch) {i j : Nat} {slot slot' : HomeSlot}
    (hslot : f.homes[i]? = some slot) (hslot' : f.homes[j]? = some slot') (hij : i < j) :
    slot.offset.toInt + slot'.type.homeSize.toNat ≤ slot'.offset.toInt := by
  have hmono := homeTotal_take_mono params (i := i + 1) hij
  have hj := (h.home_bounds hslot').1
  have hi := h.home hslot
  omega

/-- A scratch buffer lies below the home slots and inside the frame. -/
theorem buffer_bounds (h : f.Laid params scratch) {i : Nat} {slot : ScratchSlot}
    (hslot : f.scratch[i]? = some slot) :
    homeTotal params + slot.size.toNat ≤ slot.offset.toInt ∧ slot.offset.toInt ≤ f.size := by
  have hget : scratch[i]? = some slot.size := by
    rw [← h.sizes, List.getElem?_map, hslot]
    rfl
  have hlast : scratchTotal (scratch.take (i + 1))
      = scratchTotal (scratch.take i) + rounded slot.size := by
    rw [List.take_add_one, hget, scratchTotal_append]
    rfl
  have hroom : slot.size.toNat ≤ rounded slot.size := by
    rw [rounded]
    omega
  have hoffset := h.buffer hslot
  have hle := scratchTotal_take_le scratch (i + 1)
  have hsize := h.size_eq
  refine ⟨?_, ?_⟩ <;> omega

theorem size_mod (h : f.Laid params scratch) : f.size % 8 = 0 := by
  have hhome := homeTotal_mod params
  have hscratch := scratchTotal_mod scratch
  rw [h.size_eq]
  omega

/-- A home slot holds the bytes of any value inside the frame. -/
theorem home_inside (h : f.Laid params scratch) {i : Nat} {slot : HomeSlot}
    (hslot : f.homes[i]? = some slot) (t : ValueType) :
    -(f.size : Int) ≤ -slot.offset.toInt ∧ -slot.offset.toInt + t.size ≤ 0 := by
  obtain ⟨hoffset, -, hsize⟩ := h.home_bounds hslot
  have hhome := (homeSize_toNat slot.type).1
  have ht := (homeSize_toNat t).2
  split at hhome <;> omega

/-- The negated offset of a slot, as a displacement. -/
theorem toInt_neg_offset {d : Int32} (hlo : 0 ≤ d.toInt) : (-d).toInt = -d.toInt := by
  have hhi := d.toInt_lt
  rw [Int32.toInt_neg]
  exact Int.bmod_eq_of_le (by omega) (by omega)

theorem toInt_neg_home (h : f.Laid params scratch) {i : Nat} {slot : HomeSlot}
    (hslot : f.homes[i]? = some slot) : (-slot.offset).toInt = -slot.offset.toInt := by
  refine toInt_neg_offset ?_
  rw [h.home hslot]
  exact Int.natCast_nonneg _

theorem toInt_neg_buffer (h : f.Laid params scratch) {i : Nat} {slot : ScratchSlot}
    (hslot : f.scratch[i]? = some slot) : (-slot.offset).toInt = -slot.offset.toInt := by
  refine toInt_neg_offset ?_
  rw [h.buffer hslot]
  exact Int.natCast_nonneg _

/-- The upper half of a home slot, as a displacement. -/
theorem toInt_neg_home_add_four (h : f.Laid params scratch) {i : Nat} {slot : HomeSlot}
    (hslot : f.homes[i]? = some slot) :
    (-slot.offset + 4).toInt = -slot.offset.toInt + 4 := by
  have hneg := h.toInt_neg_home hslot
  obtain ⟨hoffset, -, hsize⟩ := h.home_bounds hslot
  have hlt := h.size_lt
  rw [Int32.toInt_add, hneg]
  exact Int.bmod_eq_of_le (by simp; omega) (by simp; omega)

end Laid

end Frame

/-- Whether `n` bytes at an address lie inside a home slot of the frame at `fp`. -/
def HomeSlot.Holds {w : Nat} (fp : BitVec w) (slot : HomeSlot) (a : BitVec w) (n : Nat) : Prop :=
  ∃ z : Int, a = Memory.offset fp z ∧ -slot.offset.toInt ≤ z ∧
    z + n ≤ -slot.offset.toInt + slot.type.homeSize.toNat

/-! ### Arguments in a frame -/

/-- Whether an argument refers to what the frame has: a parameter with a home slot, or the address
of a scratch buffer. -/
def Operand.ValidIn (frame : Frame) (a : Operand) : Prop :=
  match a.source with
  | .literal => True
  | .forwarded index => (frame.home? index).isSome
  | .scratch index => (frame.scratch? index).isSome ∧ a = .scratch index

instance (frame : Frame) : DecidablePred (Operand.ValidIn frame)
  | ⟨_, .literal, _⟩ => isTrue trivial
  | ⟨_, .forwarded index, _⟩ => inferInstanceAs (Decidable ((frame.home? index).isSome = true))
  | ⟨type, .scratch index, value⟩ =>
      inferInstanceAs (Decidable ((frame.scratch? index).isSome = true ∧
        (⟨type, .scratch index, value⟩ : Operand) = .scratch index))

namespace Frame

variable {frame : Frame} {index : UInt8} {d : Int32}

theorem homeOffset_eq_ok :
    frame.homeOffset index = .ok d ↔ ∃ slot, frame.home? index = some slot ∧ slot.offset = d := by
  rw [homeOffset]
  split
  · rename_i slot hslot
    simp [hslot]
  · rename_i hnone
    simp [hnone]

theorem scratchOffset_eq_ok :
    frame.scratchOffset index = .ok d ↔
      ∃ slot, frame.scratch? index = some slot ∧ slot.offset = d := by
  rw [scratchOffset]
  split
  · rename_i slot hslot
    simp [hslot]
  · rename_i hnone
    simp [hnone]

end Frame

namespace Operand.ValidIn

variable {frame : Frame} {a : Operand} {index : UInt8}

theorem homeOffset (h : a.ValidIn frame) (hsource : a.source = .forwarded index) :
    ∃ d, frame.homeOffset index = .ok d := by
  rw [ValidIn, hsource] at h
  obtain ⟨slot, hslot⟩ := Option.isSome_iff_exists.mp h
  exact ⟨slot.offset, Frame.homeOffset_eq_ok.mpr ⟨slot, hslot, rfl⟩⟩

theorem scratchOffset (h : a.ValidIn frame) (hsource : a.source = .scratch index) :
    a = .scratch index ∧ ∃ d, frame.scratchOffset index = .ok d := by
  rw [ValidIn, hsource] at h
  obtain ⟨slot, hslot⟩ := Option.isSome_iff_exists.mp h.1
  exact ⟨h.2, slot.offset, Frame.scratchOffset_eq_ok.mpr ⟨slot, hslot, rfl⟩⟩

end Operand.ValidIn

end Trampoline
