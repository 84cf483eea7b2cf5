/-
Trampoline/Proofs/Amd64/Decode.lean

Decoding undoes encoding, for every instruction and whatever follows it
(`decode_encode`), so a whole sequence is decoded back from its bytes
(`decodeAll_encodeAll`).

The proof follows the format.  The bytes in front of the operands are a marker,
a REX byte and an escape: `decode_plain` and `decode_escaped` read them for every
opcode at once, and leave the flags that the REX byte had to carry.  With these
flags the operands get their fourth bits back.  What remains for each instruction
is one opcode and its operands.

An instruction takes at least one byte and at most fifteen.  `EndsAt` says where in
code its first instructions end.
-/
import Mathlib
import Trampoline.Amd64.Machine
import Trampoline.Proofs.Reader

namespace Trampoline.Amd64

open Reader (bits3)

/-! ### Register numbers -/

theorem and_seven_lt (b : UInt8) : b &&& 7 < 8 := by
  apply UInt8.lt_iff_toNat_lt.mpr
  rw [UInt8.toNat_and]
  exact Nat.lt_succ_of_le Nat.and_le_right

/-- A register number is put together again from its low bits and its bit in the REX byte. -/
theorem extend_and_seven {b : UInt8} (h : b < 16) : extend (8 ≤ b) (b &&& 7) = b := by
  have hall : ∀ k : Fin 16, extend (8 ≤ UInt8.ofNat k) (UInt8.ofNat k &&& 7) = UInt8.ofNat k := by
    decide
  obtain ⟨k, rfl⟩ := exists_fin_of_lt 16 h
  exact hall k

theorem Gpr.code_lt (r : Gpr) : r.code < 16 := by cases r <;> decide

theorem Xmm.code_lt (x : Xmm) : x.code < 16 := by cases x <;> decide

theorem Reg.code_lt (r : Reg) : r.code < 16 := by
  cases r with
  | gpr r => exact r.code_lt
  | xmm x => exact x.code_lt

theorem Reg.low3_lt (r : Reg) : r.low3 < 8 := and_seven_lt r.code

/-- Whether the middle field of an operand byte can be read back: it is a register number, or a
digit of three bits. -/
def Field.Readable : Field → Prop
  | reg code => code < 16
  | digit value => value < 8

instance : DecidablePred Field.Readable
  | .reg code => inferInstanceAs (Decidable (code < 16))
  | .digit value => inferInstanceAs (Decidable (value < 8))

theorem Field.Readable.number_lt {f : Field} (h : f.Readable) : f.number < 16 := by
  cases f with
  | reg code => exact h
  | digit value => exact UInt8.lt_trans h (by decide)

theorem Field.Readable.bits_eq {f : Field} (h : f.Readable) : f.bits = f.number &&& 7 := by
  cases f with
  | reg code => rfl
  | digit value =>
      have hall : ∀ k : Fin 8, UInt8.ofNat k = UInt8.ofNat k &&& 7 := by decide
      obtain ⟨k, rfl⟩ := exists_fin_of_lt 8 h
      exact hall k

/-! ### What comes before the operands -/

/-- The flags that the REX byte of an opcode carries. -/
def rexOf (wide : Bool) (r rm : UInt8) : Rex := { wide := wide, field := 8 ≤ r, base := 8 ≤ rm }

/-- What a REX byte holds, if there is one: its flags, under a high half that no marker has. -/
theorem rex_spec (wide : Bool) (r rm : UInt8) :
    rex wide r rm = [] ∧ rexOf wide r rm = {} ∨
      ∃ b, rex wide r rm = [b] ∧ b ≠ 0xF3 ∧ b ≠ 0xF2 ∧
        ∀ rest, readRex (b :: rest) = (rexOf wide r rm, rest) := by
  have hflags : ∀ w f b : Bool,
      let flags : UInt8 := (if w then 8 else 0) ||| (if f then 4 else 0) ||| (if b then 1 else 0)
      let byte := 0x40 ||| flags
      if flags = 0 then w = false ∧ f = false ∧ b = false
      else byte ≠ 0xF3 ∧ byte ≠ 0xF2 ∧ byte >>> 4 = 4 ∧ (byte &&& 8 != 0) = w ∧
        (byte &&& 4 != 0) = f ∧ (byte &&& 2 != 0) = false ∧ (byte &&& 1 != 0) = b := by
    decide
  have h := hflags wide (8 ≤ r) (8 ≤ rm)
  simp only [decide_eq_true_eq] at h
  simp only [rex, rexOf]
  by_cases hzero : ((if wide then (8 : UInt8) else 0) ||| (if 8 ≤ r then 4 else 0) |||
      (if 8 ≤ rm then 1 else 0)) = 0
  · rw [if_pos hzero] at h
    obtain ⟨hw, hf, hb⟩ := h
    left
    rw [if_pos hzero, hw, hf, hb]
    exact ⟨rfl, rfl⟩
  · rw [if_neg hzero] at h
    obtain ⟨h3, h2, hhigh, hw, hf, hi, hb⟩ := h
    right
    refine ⟨_, if_neg hzero, h3, h2, fun rest => ?_⟩
    simp only [readRex, hhigh, if_true, hw, hf, hi, hb]

/-- The REX byte is read back when the byte after it is not one itself. -/
theorem readRex_rex (wide : Bool) (r rm : UInt8) {b : UInt8} (hb : b >>> 4 ≠ 4) (rest : Code) :
    readRex (rex wide r rm ++ b :: rest) = (rexOf wide r rm, b :: rest) := by
  rcases rex_spec wide r rm with ⟨hnil, hflags⟩ | ⟨x, hx, -, -, hread⟩
  · rw [hnil, hflags, List.nil_append, readRex, if_neg hb]
  · rw [hx]
    exact hread (b :: rest)

/-- A REX byte is no marker. -/
theorem marker_rex (wide : Bool) (r rm : UInt8) {b : UInt8} (h3 : b ≠ 0xF3) (h2 : b ≠ 0xF2)
    (rest : Code) :
    Reader.marker (rex wide r rm ++ b :: rest) = (none, rex wide r rm ++ b :: rest) := by
  rcases rex_spec wide r rm with ⟨hnil, -⟩ | ⟨x, hx, hx3, hx2, -⟩
  · rw [hnil, List.nil_append]
    simp [Reader.marker, h3, h2]
  · rw [hx]
    simp [Reader.marker, hx3, hx2]

/-- Whether an opcode is one byte that is no REX byte, marker or escape. -/
def Plain (op : Opcode) : Prop :=
  op.escaped = false ∧ op.precision = none ∧ op.byte >>> 4 ≠ 4 ∧ op.byte ≠ 0xF3 ∧
    op.byte ≠ 0xF2 ∧ op.byte ≠ 0x0F

instance : DecidablePred Plain := fun _ => inferInstanceAs (Decidable (_ ∧ _))

theorem Plain.withWide {op : Opcode} (h : Plain op) (wide : Bool) : Plain (op.withWide wide) := h

/-- Decoding reaches the operands of an instruction with a one-byte opcode. -/
theorem decode_plain {op : Opcode} (h : Plain op) (r rm : UInt8) (rest : Code) :
    decode (opcode op r rm ++ rest) = decodePlain (rexOf op.wide r rm) op.byte rest := by
  obtain ⟨hesc, hprec, hrex, h3, h2, hF⟩ := h
  have hop : opcode op r rm ++ rest = rex op.wide r rm ++ op.byte :: rest := by
    simp [opcode, Opcode.markerBytes, Opcode.tailBytes, hprec, hesc]
  rw [hop, decode, marker_rex _ _ _ h3 h2]
  simp only [readRex_rex _ _ _ hrex]
  rw [if_neg (by simp [rexOf])]
  split
  · rename_i heq
    exact absurd (List.cons.inj heq).1 hF
  · rename_i heq
    obtain ⟨rfl, rfl⟩ := List.cons.inj heq
    rfl
  · rename_i hne
    exact (hne op.byte rest rfl rfl).elim

/-- Decoding reaches the operands of an instruction with an escaped opcode. -/
theorem decode_escaped {op : Opcode} (hesc : op.escaped = true) (r rm : UInt8) (rest : Code) :
    decode (opcode op r rm ++ rest)
      = decodeEscaped op.precision (rexOf op.wide r rm) op.byte rest := by
  have hop : opcode op r rm ++ rest
      = op.markerBytes ++ (rex op.wide r rm ++ 0x0F :: op.byte :: rest) := by
    simp [opcode, Opcode.tailBytes, hesc]
  have hmarker : Reader.marker (op.markerBytes ++ (rex op.wide r rm ++ 0x0F :: op.byte :: rest))
      = (op.precision, rex op.wide r rm ++ 0x0F :: op.byte :: rest) := by
    rw [Opcode.markerBytes]
    rcases op.precision with - | p
    · exact marker_rex _ _ _ (by decide) (by decide) _
    · cases p <;> rfl
  rw [hop, decode, hmarker]
  simp only [readRex_rex _ _ _ (show (0x0F : UInt8) >>> 4 ≠ 4 by decide)]
  rw [if_neg (by simp [rexOf])]

/-! ### Operands -/

theorem readOperands_direct {f : Field} (hf : f.Readable) (wide : Bool) (rm : Reg) (rest : Code) :
    readOperands (rexOf wide f.number rm.code) (ModRm.direct f.bits rm.low3 :: rest)
      = some (f.number, .register rm.code, rest) := by
  have hrm : extend (8 ≤ rm.code) rm.low3 = rm.code := extend_and_seven rm.code_lt
  have hfield : extend (8 ≤ f.number) f.bits = f.number := by
    rw [hf.bits_eq, extend_and_seven hf.number_lt]
  have hbits : f.bits < 8 := by
    rw [hf.bits_eq]
    exact and_seven_lt _
  rw [readOperands, Reader.operands_direct hbits rm.low3_lt]
  simp only [rexOf, bind, Option.bind_some, hrm, hfield, pure]

theorem readOperands_memory {f : Field} (hf : f.Readable) (wide : Bool) (base : Reg)
    (disp : Int32) (rest : Code) :
    readOperands (rexOf wide f.number base.code) (ModRm.memory f.bits base.low3 disp ++ rest)
      = some (f.number, .memory base.code disp, rest) := by
  have hbase : extend (8 ≤ base.code) base.low3 = base.code := extend_and_seven base.code_lt
  have hfield : extend (8 ≤ f.number) f.bits = f.number := by
    rw [hf.bits_eq, extend_and_seven hf.number_lt]
  have hbits : f.bits < 8 := by
    rw [hf.bits_eq]
    exact and_seven_lt _
  rw [readOperands, Reader.operands_memory hbits base.low3_lt]
  simp only [rexOf, bind, Option.bind_some, hbase, hfield, pure]

theorem readOperands_rip {f : Field} (hf : f.Readable) (wide : Bool) (disp : Int32)
    (rest : Code) :
    readOperands (rexOf wide f.number 0)
        (((f.bits <<< 3) ||| 5) :: (Code.ofInt32 disp ++ rest))
      = some (f.number, .ripRelative disp, rest) := by
  have hfield : extend (8 ≤ f.number) f.bits = f.number := by
    rw [hf.bits_eq, extend_and_seven hf.number_lt]
  have hbits : f.bits < 8 := by
    rw [hf.bits_eq]
    exact and_seven_lt _
  rw [readOperands, Reader.operands_absolute hbits]
  simp only [rexOf, bind, Option.bind_some, hfield, pure]

theorem readable_gprField (r : Gpr) : (Instr.gprField r).Readable := r.code_lt

theorem readable_xmmField (x : Xmm) : (Instr.xmmField x).Readable := x.code_lt

/-! ### Instructions -/

/-- Decoding reaches the operands behind a one-byte opcode with a register operand. -/
theorem decode_direct {op : Opcode} (h : Plain op) (f : Field) (rm : Reg) (rest : Code) :
    decode (direct op f rm ++ rest)
      = decodePlain (rexOf op.wide f.number rm.code) op.byte
          (ModRm.direct f.bits rm.low3 :: rest) := by
  rw [direct, List.append_assoc, decode_plain h]
  rfl

/-- Decoding reaches the operands behind a one-byte opcode with a memory operand. -/
theorem decode_memory {op : Opcode} (h : Plain op) (f : Field) (base : Reg) (disp : Int32) (rest : Code) :
    decode (memory op f base disp ++ rest)
      = decodePlain (rexOf op.wide f.number base.code) op.byte
          (ModRm.memory f.bits base.low3 disp ++ rest) := by
  rw [memory, List.append_assoc, decode_plain h]

/-- An instruction with an escaped opcode and a memory operand is decoded from its field and
its operand. -/
theorem decode_escaped_memory {op : Opcode} (hesc : op.escaped = true) {f : Field}
    (hf : f.Readable) (base : Gpr) (disp : Int32) (rest : Code) {i : Instr}
    (h : ∀ rex c, rex.wide = op.wide →
      readOperands rex c = some (f.number, .memory base.code disp, rest) →
      decodeEscaped op.precision rex op.byte c = some (i, rest)) :
    decode (memory op f (.gpr base) disp ++ rest) = some (i, rest) := by
  rw [memory, List.append_assoc, decode_escaped hesc]
  exact h _ _ rfl (readOperands_memory hf op.wide (.gpr base) disp rest)

theorem decode_encode_arith (op : Arith) (w : Width) (dst : Gpr) (imm : Int32) (rest : Code) :
    decode ((Instr.arith op w dst imm).encode ++ rest)
      = some (.arith op w dst imm, rest) := by
  have hdigit : (Field.digit op.digit).Readable := by cases op <;> decide
  rw [Instr.encode]
  by_cases hbyte : Displacement.fitsByte imm
  · rw [if_pos hbyte, List.append_assoc, decode_direct (.withWide (by decide) _)]
    show decodeArith _ Reader.int8 _ = _
    rw [decodeArith, readOperands_direct hdigit]
    simp only [bind, Option.bind_some, List.singleton_append, Reader.int8_cons hbyte]
    cases op <;> cases w <;> simp [Field.number, Arith.digit, Reg.code, rexOf, Rex.width,
      Width.ofWide, Width.isWide, Opcode.withWide]
  · rw [if_neg hbyte, List.append_assoc, decode_direct (.withWide (by decide) _)]
    show decodeArith _ Reader.int32 _ = _
    rw [decodeArith, readOperands_direct hdigit]
    simp only [bind, Option.bind_some, Reader.int32_append]
    cases op <;> cases w <;> simp [Field.number, Arith.digit, Reg.code, rexOf, Rex.width,
      Width.ofWide, Width.isWide, Opcode.withWide]

theorem decode_encode (i : Instr) (rest : Code) : decode (i.encode ++ rest) = some (i, rest) := by
  have hwidth : ∀ (w : Width) (r rm : UInt8), (rexOf w.isWide r rm).width = w := by
    intro w r rm
    cases w <;> rfl
  cases i with
  | arith op w dst imm => exact decode_encode_arith op w dst imm rest
  | mov w dst src =>
      rw [Instr.encode, decode_direct (.withWide (by decide) _)]
      show (readOperands _ _ >>= _) = _
      rw [readOperands_direct (readable_gprField src)]
      simp [Instr.gprField, Field.number, Reg.code, Opcode.withWide, hwidth]
  | clear dst =>
      rw [Instr.encode, decode_direct (by decide)]
      show (readOperands _ _ >>= _) = _
      rw [readOperands_direct (readable_gprField dst)]
      simp [Instr.gprField, Field.number, Reg.code, Opcode.xorReg, rexOf]
  | movImm32 dst imm =>
      rw [Instr.encode, List.append_assoc, decode_plain (by cases dst <;> decide)]
      have hop : ∀ c, decodePlain (rexOf false 0 dst.code) (0xB8 + dst.low3) c
          = (Reader.uint32 c).map fun x => (.movImm32 dst x.1, x.2) := by
        intro c
        cases dst <;> rfl
      exact (hop _).trans (by rw [Reader.uint32_append]; rfl)
  | movSigned dst imm =>
      rw [Instr.encode, List.append_assoc, decode_direct (by decide)]
      show (readOperands _ _ >>= _) = _
      rw [readOperands_direct (by decide : (Field.digit 0).Readable)]
      simp [Field.number, Reg.code, Opcode.withWide, rexOf]
  | movImm64 dst imm =>
      rw [Instr.encode, List.append_assoc, decode_plain (by cases dst <;> decide)]
      have hop : ∀ c, decodePlain (rexOf true 0 dst.code) (0xB8 + dst.low3) c
          = (Reader.uint64 c).map fun x => (.movImm64 dst x.1, x.2) := by
        intro c
        cases dst <;> rfl
      exact (hop _).trans (by rw [Reader.uint64_append]; rfl)
  | load w dst base disp =>
      rw [Instr.encode, decode_memory (.withWide (by decide) _)]
      show (readOperands _ _ >>= _) = _
      rw [readOperands_memory (readable_gprField dst)]
      simp [Instr.gprField, Field.number, Reg.code, Opcode.withWide, hwidth]
  | loadZero n dst base disp =>
      refine decode_escaped_memory (by cases n <;> rfl) (readable_gprField dst) base disp rest ?_
      intro rex c hwide hread
      have hnarrow : rex.wide = false := hwide.trans (by cases n <;> rfl)
      rw [decodeEscaped, hread]
      cases n <;>
        simp [Narrow.opcode, Opcode.movZeroByte, Opcode.movZeroWord, hnarrow, Instr.gprField,
          Field.number]
  | store w src base disp =>
      rw [Instr.encode, decode_memory (.withWide (by decide) _)]
      show (readOperands _ _ >>= _) = _
      rw [readOperands_memory (readable_gprField src)]
      simp [Instr.gprField, Field.number, Reg.code, Opcode.withWide, hwidth]
  | lea dst base disp =>
      rw [Instr.encode, decode_memory (.withWide (by decide) _)]
      show (readOperands _ _ >>= _) = _
      rw [readOperands_memory (readable_gprField dst)]
      simp [Instr.gprField, Field.number, Reg.code, Opcode.withWide, rexOf]
  | sseLoad p dst base disp =>
      refine decode_escaped_memory rfl (readable_xmmField dst) base disp rest ?_
      intro rex c _ hread
      rw [decodeEscaped, hread]
      simp [Opcode.sseLoad, Opcode.scalar, Instr.xmmField, Field.number]
  | sseLoadRip p dst disp =>
      rw [Instr.encode, ripRelative, List.append_assoc, decode_escaped rfl, List.cons_append,
        decodeEscaped, readOperands_rip (readable_xmmField dst)]
      simp [Opcode.sseLoad, Opcode.scalar, Instr.xmmField, Field.number]
  | sseSpill src base disp =>
      refine decode_escaped_memory rfl (readable_xmmField src) base disp rest ?_
      intro rex c _ hread
      rw [decodeEscaped, hread]
      simp [Opcode.sseSpill, Instr.xmmField, Field.number]
  | push src =>
      rw [Instr.encode, decode_plain (by cases src <;> decide)]
      cases src <;> rfl
  | pop dst =>
      rw [Instr.encode, decode_plain (by cases dst <;> decide)]
      cases dst <;> rfl
  | pushImm imm =>
      rw [Instr.encode]
      by_cases hbyte : Displacement.fitsByte imm
      · rw [if_pos hbyte]
        show decode (opcode { byte := 0x6A } 0 0 ++ imm.toInt8.toUInt8 :: rest) = _
        have hop : ∀ c, decodePlain (rexOf false 0 0) 0x6A c
            = (Reader.int8 c).map fun x => (.pushImm x.1, x.2) := fun _ => rfl
        rw [decode_plain (by decide)]
        exact (hop _).trans (by rw [Reader.int8_cons hbyte]; rfl)
      · rw [if_neg hbyte]
        show decode (opcode { byte := 0x68 } 0 0 ++ (Code.ofInt32 imm ++ rest)) = _
        have hop : ∀ c, decodePlain (rexOf false 0 0) 0x68 c
            = (Reader.int32 c).map fun x => (.pushImm x.1, x.2) := fun _ => rfl
        rw [decode_plain (by decide)]
        exact (hop _).trans (by rw [Reader.int32_append]; rfl)
  | pushMem base disp =>
      rw [Instr.encode, decode_memory (by decide)]
      show (readOperands _ _ >>= _) = _
      rw [readOperands_memory (by decide : (Field.digit pushDigit).Readable)]
      simp [Field.number, Reg.code, pushDigit]
  | call target =>
      rw [Instr.encode, decode_direct (by decide)]
      show (readOperands _ _ >>= _) = _
      rw [readOperands_direct (by decide : (Field.digit callDigit).Readable)]
      simp [Field.number, Reg.code, callDigit]
  | ret => rfl

/-! ### Lengths -/

theorem length_opcode (op : Opcode) (r rm : UInt8) :
    1 ≤ (opcode op r rm).length ∧ (opcode op r rm).length ≤ 4 := by
  have hmarker : op.markerBytes.length ≤ 1 := by
    rw [Opcode.markerBytes]
    split <;> simp
  have hrex : (rex op.wide r rm).length ≤ 1 := by
    rcases rex_spec op.wide r rm with ⟨h, -⟩ | ⟨b, h, -⟩ <;> simp [h]
  have htail : 1 ≤ op.tailBytes.length ∧ op.tailBytes.length ≤ 2 := by
    rw [Opcode.tailBytes]
    split <;> simp
  rw [opcode, List.length_append, List.length_append]
  omega

theorem length_direct (op : Opcode) (f : Field) (rm : Reg) :
    1 ≤ (direct op f rm).length ∧ (direct op f rm).length ≤ 5 := by
  have hop := length_opcode op f.number rm.code
  rw [direct, List.length_append, List.length_singleton]
  omega

theorem length_memory (op : Opcode) (f : Field) (base : Reg) (disp : Int32) :
    1 ≤ (memory op f base disp).length ∧ (memory op f base disp).length ≤ 10 := by
  have hop := length_opcode op f.number base.code
  have hmem := ModRm.length_memory f.bits base.low3 disp
  rw [memory, List.length_append]
  omega

/-- The open field of a load relative to the instruction's end is its last four bytes. -/
theorem length_ripRelative (op : Opcode) (f : Field) (disp : Int32) :
    (ripRelative op f disp).length = ripField op f + 4 := by
  rw [ripRelative, ripField, List.length_append, List.length_cons, Code.length_ofInt32]

/-- An instruction has at least one byte, and never more than a processor reads for one. -/
theorem length_encode (i : Instr) : 1 ≤ i.encode.length ∧ i.encode.length ≤ maxInstrBytes := by
  rw [maxInstrBytes]
  cases i with
  | arith op w dst imm =>
      rw [Instr.encode]
      split
      · have h := length_direct (Opcode.arithImm8.withWide w.isWide) (.digit op.digit) (.gpr dst)
        rw [List.length_append, List.length_singleton]
        omega
      · have h := length_direct (Opcode.arithImm32.withWide w.isWide) (.digit op.digit) (.gpr dst)
        rw [List.length_append, Code.length_ofInt32]
        omega
  | movImm32 dst imm =>
      have h := length_opcode (.movImm dst.low3) 0 dst.code
      rw [Instr.encode, List.length_append, Code.length_ofUInt32]
      omega
  | movSigned dst imm =>
      have h := length_direct (Opcode.movSignedImm.withWide true) (.digit 0) (.gpr dst)
      rw [Instr.encode, List.length_append, Code.length_ofInt32]
      omega
  | movImm64 dst imm =>
      have h := length_opcode ((Opcode.movImm dst.low3).withWide true) 0 dst.code
      rw [Instr.encode, List.length_append, Code.length_ofUInt64]
      omega
  | sseLoadRip p dst disp =>
      have h := length_opcode (.sseLoad p) (Instr.xmmField dst).number 0
      rw [Instr.encode, length_ripRelative, ripField]
      omega
  | pushImm imm =>
      rw [Instr.encode]
      split
      · simp
      · rw [List.length_cons, Code.length_ofInt32]
        omega
  | ret => exact ⟨by decide, by decide⟩
  | mov => exact ⟨(length_direct _ _ _).1, (length_direct _ _ _).2.trans (by decide)⟩
  | clear => exact ⟨(length_direct _ _ _).1, (length_direct _ _ _).2.trans (by decide)⟩
  | call => exact ⟨(length_direct _ _ _).1, (length_direct _ _ _).2.trans (by decide)⟩
  | push => exact ⟨(length_opcode _ _ _).1, (length_opcode _ _ _).2.trans (by decide)⟩
  | pop => exact ⟨(length_opcode _ _ _).1, (length_opcode _ _ _).2.trans (by decide)⟩
  | _ => exact ⟨(length_memory _ _ _ _).1, (length_memory _ _ _ _).2.trans (by decide)⟩

theorem encodeAll_append (is js : List Instr) :
    encodeAll (is ++ js) = encodeAll is ++ encodeAll js := by
  simp [encodeAll]

theorem encodeAll_cons (i : Instr) (is : List Instr) :
    encodeAll (i :: is) = i.encode ++ encodeAll is := rfl

/-- Code is decoded back into the instructions that it was made of. -/
theorem decodeAll_encodeAll (is : List Instr) : decodeAll (encodeAll is) = some is := by
  induction is with
  | nil =>
      rw [decodeAll]
      rfl
  | cons i is ih =>
      have hlen := (length_encode i).1
      have hne : i.encode ++ encodeAll is ≠ [] := by
        intro h
        rw [(List.append_eq_nil_iff.mp h).1] at hlen
        simp at hlen
      rw [encodeAll_cons, decodeAll, if_neg hne, decode_encode]
      show (if _ then _ else _) = _
      rw [if_pos (by rw [List.length_append]; omega), ih]
      rfl

/-- Whether the first `stop` bytes of code are just the instructions `is`. -/
def EndsAt (code : Code) (is : List Instr) (stop : Nat) : Prop :=
  stop ≤ code.length ∧ decodeAll (code.take stop) = some is

theorem endsAt_encodeAll (is : List Instr) (rest : Code) :
    EndsAt (encodeAll is ++ rest) is (encodeAll is).length := by
  refine ⟨?_, ?_⟩
  · rw [List.length_append]
    exact Nat.le_add_right _ _
  · rw [List.take_left, decodeAll_encodeAll]

/-- The machine is about to execute the instruction whose bytes it finds. -/
theorem State.current?_eq {s : State} {i : Instr}
    (h : s.mem.read s.rip i.encode.length = i.encode) :
    s.current? = some (i, Memory.offset s.rip i.encode.length) := by
  have hlen := (length_encode i).2
  obtain ⟨k, hk⟩ := Nat.exists_eq_add_of_le hlen
  rw [State.current?, hk, Memory.read_add, h]
  simp only [decode_encode, Option.map_some, List.length_append, Memory.length_read]
  rw [Nat.add_sub_cancel, Memory.add_ofNat_eq_offset]

end Trampoline.Amd64
