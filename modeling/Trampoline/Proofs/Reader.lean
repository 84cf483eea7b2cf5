/-
Trampoline/Proofs/Reader.lean

Readers undo writers.

Numbers are read back from their bytes, and an operand byte with what follows it
is read back as the field and the operand it was written for: a register, memory
at a base, or a displacement without a base.  Every statement leaves the code
after the operand open, so readers can be run one after the other.

Register numbers have three bits here.  What holds of them is checked for the
eight numbers, so a byte below eight is first replaced by its number.
-/
import Mathlib
import Trampoline.Isa.ModRm
import Trampoline.Isa.Reader
import Trampoline.Proofs.Memory

namespace Trampoline

/-- A byte below `n` is one of `n`. -/
theorem exists_fin_of_lt (n : Nat) {b : UInt8} (h : b < UInt8.ofNat n) :
    ∃ k : Fin n, b = UInt8.ofNat k := by
  have hlt : b.toNat < n % 256 := by
    rw [← UInt8.toNat_ofNat']
    exact UInt8.lt_iff_toNat_lt.mp h
  exact ⟨⟨b.toNat, hlt.trans_le (Nat.mod_le _ _)⟩, (UInt8.ofNat_toNat).symm⟩

/-- A signed number that fits one byte is the sign extension of its low byte. -/
theorem Displacement.toInt32_toInt8 {v : Int32} (h : fitsByte v) : v.toInt8.toInt32 = v := by
  obtain ⟨hlo, hhi⟩ : -128 ≤ v ∧ v ≤ 127 := by simpa [fitsByte] using h
  have hlo' : -128 ≤ v.toInt := Int32.le_iff_toInt_le.mp hlo
  have hhi' : v.toInt ≤ 127 := Int32.le_iff_toInt_le.mp hhi
  apply Int32.toInt_inj.mp
  rw [Int8.toInt_toInt32, Int32.toInt_toInt8, Int.bmod_eq_of_le (by omega) (by omega)]

namespace Reader

/-! ### Numbers -/

theorem number_append {width n : Nat} (h : n < 256 ^ width) (rest : Code) :
    number width (littleEndian width n ++ rest) = some (n, rest) := by
  have hlen : width ≤ (littleEndian width n ++ rest).length := by
    rw [List.length_append, length_littleEndian]
    exact Nat.le_add_right _ _
  have htake : (littleEndian width n ++ rest).take width = littleEndian width n :=
    List.take_left' (length_littleEndian width n)
  have hdrop : (littleEndian width n ++ rest).drop width = rest :=
    List.drop_left' (length_littleEndian width n)
  rw [number, if_pos hlen, htake, hdrop, ofLittleEndian_littleEndian, Nat.mod_eq_of_lt h]

@[simp] theorem uint32_append (v : UInt32) (rest : Code) :
    uint32 (Code.ofUInt32 v ++ rest) = some (v, rest) := by
  rw [uint32, Code.ofUInt32, number_append v.toNat_lt, Option.map_some]
  show some (UInt32.ofNat v.toNat, rest) = _
  rw [UInt32.ofNat_toNat]

@[simp] theorem uint64_append (v : UInt64) (rest : Code) :
    uint64 (Code.ofUInt64 v ++ rest) = some (v, rest) := by
  rw [uint64, Code.ofUInt64, number_append v.toNat_lt, Option.map_some]
  show some (UInt64.ofNat v.toNat, rest) = _
  rw [UInt64.ofNat_toNat]

@[simp] theorem int32_append (v : Int32) (rest : Code) :
    int32 (Code.ofInt32 v ++ rest) = some (v, rest) := by
  rw [int32, Code.ofInt32, uint32_append]
  rfl

theorem int8_cons {v : Int32} (h : Displacement.fitsByte v) (rest : Code) :
    int8 (v.toInt8.toUInt8 :: rest) = some (v, rest) := by
  rw [int8, Int8.toInt8_toUInt8, Displacement.toInt32_toInt8 h]

/-! ### Operands -/

theorem operands_direct {field rm : UInt8} (hf : field < 8) (hr : rm < 8) (rest : Code) :
    operands (ModRm.direct field rm :: rest) = some (field, .register rm, rest) := by
  have hbits : ∀ f r : Fin 8,
      let b := ModRm.direct (UInt8.ofNat f) (UInt8.ofNat r)
      b >>> 6 = 3 ∧ bits3 b 3 = UInt8.ofNat f ∧ bits3 b 0 = UInt8.ofNat r := by decide
  obtain ⟨f, rfl⟩ := exists_fin_of_lt 8 hf
  obtain ⟨r, rfl⟩ := exists_fin_of_lt 8 hr
  obtain ⟨hmode, hfield, hrm⟩ := hbits f r
  rw [operands]
  simp only [hmode, if_true, hfield, hrm]

/-- The byte behind an operand byte names the base again, where it is needed. -/
theorem base_append {mode low : UInt8} (hmode : mode = 0 → low ≠ 5) (c : Code) :
    base mode low (ModRm.baseByte low ++ c) = some (some low, c) := by
  have hbase : baseOf mode low = some low := if_neg fun h => hmode h.1 h.2
  by_cases h4 : low = 4
  · subst h4
    show (baseOf mode 4).map (fun base => (some base, c)) = some (some 4, c)
    rw [hbase]
    rfl
  · simp [base, ModRm.baseByte, h4, hbase]

theorem operands_memory {field low : UInt8} (hf : field < 8) (hlow : low < 8) (offset : Int32)
    (rest : Code) :
    operands (ModRm.memory field low offset ++ rest) = some (field, .memory low offset, rest) := by
  have hbits : ∀ f r : Fin 8, ∀ m : Fin 3,
      let b := (UInt8.ofNat m <<< 6) ||| (UInt8.ofNat f <<< 3) ||| UInt8.ofNat r
      b >>> 6 = UInt8.ofNat m ∧ bits3 b 3 = UInt8.ofNat f ∧ bits3 b 0 = UInt8.ofNat r := by
    decide
  -- one byte layout serves the three addressing modes; only the displacement differs
  have hread : ∀ (m : Fin 3) (c : Code) (disp : Int32),
      (UInt8.ofNat m = 0 → low ≠ 5) →
      displacement (UInt8.ofNat m) true c = some (disp, rest) →
      operands (((UInt8.ofNat m <<< 6) ||| (field <<< 3) ||| low) :: (ModRm.baseByte low ++ c))
        = some (field, .memory low disp, rest) := by
    intro m c disp hmode hdisp
    obtain ⟨f, rfl⟩ := exists_fin_of_lt 8 hf
    obtain ⟨r, rfl⟩ := exists_fin_of_lt 8 hlow
    obtain ⟨hm, hfield, hrm⟩ := hbits f r m
    have hne : UInt8.ofNat m ≠ 3 := (by decide : ∀ m : Fin 3, UInt8.ofNat m ≠ 3) m
    rw [operands]
    simp only [hm, hne, if_false, hfield, hrm, base_append hmode, hdisp, bind,
      Option.bind_some, Option.isSome_some, pure]
  rw [ModRm.memory]
  by_cases hzero : offset = 0 ∧ low ≠ 5
  · rw [if_pos hzero, hzero.1]
    have h := hread 0 rest 0 (fun _ => hzero.2) (by simp [displacement])
    rwa [show (UInt8.ofNat (0 : Fin 3) <<< 6) ||| (field <<< 3) = field <<< 3 from
      UInt8.zero_or] at h
  · rw [if_neg hzero]
    show operands ((_ ||| _ ||| _) :: (ModRm.baseByte low ++ _) ++ rest) = _
    rw [List.cons_append, List.append_assoc, Displacement.shortest]
    by_cases hbyte : Displacement.fitsByte offset
    · rw [if_pos hbyte]
      refine hread 1 _ offset (by simp) ?_
      show displacement 1 true (offset.toInt8.toUInt8 :: rest) = _
      rw [displacement, if_pos rfl, int8_cons hbyte]
    · rw [if_neg hbyte]
      refine hread 2 _ offset (by simp) ?_
      show displacement 2 true (Code.ofInt32 offset ++ rest) = _
      rw [displacement, if_neg (by decide), if_pos (.inl rfl), int32_append]

theorem operands_absolute {field : UInt8} (hf : field < 8) (offset : Int32) (rest : Code) :
    operands (((field <<< 3) ||| 5) :: (Code.ofInt32 offset ++ rest))
      = some (field, .absolute offset, rest) := by
  have hbits : ∀ f : Fin 8,
      let b := (UInt8.ofNat f <<< 3) ||| 5
      b >>> 6 = 0 ∧ bits3 b 3 = UInt8.ofNat f ∧ bits3 b 0 = 5 := by decide
  obtain ⟨f, rfl⟩ := exists_fin_of_lt 8 hf
  obtain ⟨hmode, hfield, hrm⟩ := hbits f
  rw [operands]
  simp [hmode, hfield, hrm, base, baseOf, displacement]

end Reader

theorem ModRm.length_memory (field base : UInt8) (disp : Int32) :
    (ModRm.memory field base disp).length ≤ 6 := by
  have hbase : (ModRm.baseByte base).length ≤ 1 := by
    rw [ModRm.baseByte]
    split <;> simp
  rw [ModRm.memory]
  split
  · rw [List.length_cons]
    omega
  · rw [List.length_cons, List.length_append, Displacement.length_bytes, Displacement.shortest]
    split <;> simp only [Displacement.size] <;> omega

end Trampoline
