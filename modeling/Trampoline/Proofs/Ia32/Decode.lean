/-
Trampoline/Proofs/Ia32/Decode.lean

Decoding undoes encoding on IA-32 (`decode_encode`), and a whole sequence of
instructions is decoded back from its bytes (`decodeAll_encodeAll`).

The format is that of x86-64 without the REX byte, so what stands in front of the
operands is a marker and an escape only, and a register number is its three bits.
`decode_plain` and `decode_escaped` read what stands in front for every opcode at
once; what remains for each instruction is one opcode and its operands.  No
instruction has more bytes than a machine reads for one, so a machine executes the
instruction whose bytes it finds (`State.current?_eq`).
-/
import Mathlib
import Trampoline.Ia32.Machine
import Trampoline.Proofs.Reader

namespace Trampoline.Ia32

/-! ### Register numbers -/

theorem Gpr.code_lt (r : Gpr) : r.code < 8 := by cases r <;> decide

theorem Xmm.code_lt (x : Xmm) : x.code < 8 := by cases x <;> decide

/-! ### What comes before the operands -/

/-- Whether an opcode is one byte that is no marker and no escape. -/
def Plain (op : Opcode) : Prop :=
  op.escaped = false ∧ op.precision = none ∧ op.byte ≠ 0xF3 ∧ op.byte ≠ 0xF2 ∧ op.byte ≠ 0x0F

instance : DecidablePred Plain := fun _ => inferInstanceAs (Decidable (_ ∧ _))

/-- Decoding reaches the operands of an instruction with a one-byte opcode. -/
theorem decode_plain {op : Opcode} (h : Plain op) (rest : Code) :
    decode (opcode op ++ rest) = decodePlain op.byte rest := by
  obtain ⟨hesc, hprec, h3, h2, hF⟩ := h
  have hop : opcode op ++ rest = op.byte :: rest := by
    simp [opcode, Opcode.markerBytes, Opcode.tailBytes, hprec, hesc]
  have hmarker : Reader.marker (op.byte :: rest) = (none, op.byte :: rest) := by
    simp [Reader.marker, h3, h2]
  rw [hop, decode, hmarker]
  split
  · rename_i heq
    exact absurd (List.cons.inj (Prod.mk.inj heq).2).1 hF
  · rename_i heq
    obtain ⟨rfl, rfl⟩ := List.cons.inj (Prod.mk.inj heq).2
    rfl
  · rename_i hne
    exact (hne op.byte rest rfl).elim

/-- Decoding reaches the operands of an instruction with an escaped opcode. -/
theorem decode_escaped {op : Opcode} (hesc : op.escaped = true) (rest : Code) :
    decode (opcode op ++ rest) = decodeEscaped op.precision op.byte rest := by
  have hop : opcode op ++ rest = op.markerBytes ++ 0x0F :: op.byte :: rest := by
    simp [opcode, Opcode.tailBytes, hesc]
  have hmarker : Reader.marker (op.markerBytes ++ 0x0F :: op.byte :: rest)
      = (op.precision, 0x0F :: op.byte :: rest) := by
    rw [Opcode.markerBytes]
    rcases op.precision with - | p
    · rfl
    · cases p <;> rfl
  rw [hop, decode, hmarker]
  rfl

/-! ### Operands -/

theorem decode_direct {op : Opcode} (h : Plain op) (field : UInt8) (rm : Gpr) (rest : Code) :
    decode (direct op field (.gpr rm) ++ rest)
      = decodePlain op.byte (ModRm.direct field rm.code :: rest) := by
  rw [direct, List.append_assoc, decode_plain h]
  rfl

theorem decode_memory {op : Opcode} (h : Plain op) (field : UInt8) (base : Gpr) (disp : Int32)
    (rest : Code) :
    decode (memory op field (.gpr base) disp ++ rest)
      = decodePlain op.byte (ModRm.memory field base.code disp ++ rest) := by
  rw [memory, List.append_assoc, decode_plain h]
  rfl

/-- An instruction with an escaped opcode and a memory operand is decoded from its field and
its operand. -/
theorem decode_escaped_memory {op : Opcode} (hesc : op.escaped = true) {field : UInt8}
    (hf : field < 8) (base : Gpr) (disp : Int32) (rest : Code) {i : Instr}
    (h : ∀ c, Reader.operands c = some (field, .memory base.code disp, rest) →
      decodeEscaped op.precision op.byte c = some (i, rest)) :
    decode (memory op field (.gpr base) disp ++ rest) = some (i, rest) := by
  rw [memory, List.append_assoc, decode_escaped hesc]
  exact h _ (Reader.operands_memory hf base.code_lt disp rest)

/-! ### Instructions -/

theorem decode_encode_arith (op : Arith) (dst : Gpr) (imm : Int32) (rest : Code) :
    decode ((Instr.arith op dst imm).encode ++ rest) = some (.arith op dst imm, rest) := by
  have hdigit : op.digit < 8 := by cases op <;> decide
  rw [Instr.encode]
  by_cases hbyte : Displacement.fitsByte imm
  · rw [if_pos hbyte, List.append_assoc, decode_direct (by decide)]
    show decodeArith Reader.int8 _ = _
    rw [decodeArith, Reader.operands_direct hdigit dst.code_lt]
    simp only [bind, Option.bind_some, List.singleton_append, Reader.int8_cons hbyte]
    cases op <;> simp [Arith.digit]
  · rw [if_neg hbyte, List.append_assoc, decode_direct (by decide)]
    show decodeArith Reader.int32 _ = _
    rw [decodeArith, Reader.operands_direct hdigit dst.code_lt]
    simp only [bind, Option.bind_some, Reader.int32_append]
    cases op <;> simp [Arith.digit]

theorem decode_encode (i : Instr) (rest : Code) : decode (i.encode ++ rest) = some (i, rest) := by
  cases i with
  | arith op dst imm => exact decode_encode_arith op dst imm rest
  | mov dst src =>
      rw [Instr.encode, decode_direct (by decide)]
      show (Reader.operands _ >>= _) = _
      rw [Reader.operands_direct src.code_lt dst.code_lt]
      simp
  | clear dst =>
      rw [Instr.encode, decode_direct (by decide)]
      show (Reader.operands _ >>= _) = _
      rw [Reader.operands_direct dst.code_lt dst.code_lt]
      simp
  | movImm dst imm =>
      rw [Instr.encode, List.append_assoc, decode_plain (by cases dst <;> decide)]
      have hop : ∀ c, decodePlain (0xB8 + dst.code) c
          = (Reader.uint32 c).map fun x => (.movImm dst x.1, x.2) := by
        intro c
        cases dst <;> rfl
      exact (hop _).trans (by rw [Reader.uint32_append]; rfl)
  | load dst base disp =>
      rw [Instr.encode, decode_memory (by decide)]
      show (Reader.operands _ >>= _) = _
      rw [Reader.operands_memory dst.code_lt base.code_lt]
      simp
  | loadZero n dst base disp =>
      refine decode_escaped_memory (by cases n <;> rfl) dst.code_lt base disp rest ?_
      intro c hread
      rw [decodeEscaped, hread]
      cases n <;> simp [Narrow.opcode, Opcode.movZeroByte, Opcode.movZeroWord]
  | store src base disp =>
      rw [Instr.encode, decode_memory (by decide)]
      show (Reader.operands _ >>= _) = _
      rw [Reader.operands_memory src.code_lt base.code_lt]
      simp
  | lea dst base disp =>
      rw [Instr.encode, decode_memory (by decide)]
      show (Reader.operands _ >>= _) = _
      rw [Reader.operands_memory dst.code_lt base.code_lt]
      simp
  | sseLoad p dst base disp =>
      refine decode_escaped_memory rfl dst.code_lt base disp rest ?_
      intro c hread
      rw [decodeEscaped, hread]
      simp [Opcode.sseLoad, Opcode.scalar]
  | sseStore p src base disp =>
      refine decode_escaped_memory rfl src.code_lt base disp rest ?_
      intro c hread
      rw [decodeEscaped, hread]
      simp [Opcode.sseStore, Opcode.scalar]
  | push src =>
      rw [Instr.encode, decode_plain (by cases src <;> decide)]
      cases src <;> rfl
  | pop dst =>
      rw [Instr.encode, decode_plain (by cases dst <;> decide)]
      cases dst <;> rfl
  | pushImm imm =>
      rw [Instr.encode]
      by_cases hbyte : Displacement.fitsByte imm
      · rw [if_pos hbyte]
        show decode (opcode { byte := 0x6A } ++ imm.toInt8.toUInt8 :: rest) = _
        have hop : ∀ c, decodePlain 0x6A c
            = (Reader.int8 c).map fun x => (.pushImm x.1, x.2) := fun _ => rfl
        rw [decode_plain (by decide)]
        exact (hop _).trans (by rw [Reader.int8_cons hbyte]; rfl)
      · rw [if_neg hbyte]
        show decode (opcode { byte := 0x68 } ++ (Code.ofInt32 imm ++ rest)) = _
        have hop : ∀ c, decodePlain 0x68 c
            = (Reader.int32 c).map fun x => (.pushImm x.1, x.2) := fun _ => rfl
        rw [decode_plain (by decide)]
        exact (hop _).trans (by rw [Reader.int32_append]; rfl)
  | pushMem base disp =>
      rw [Instr.encode, decode_memory (by decide)]
      show (Reader.operands _ >>= _) = _
      rw [Reader.operands_memory (by decide : pushDigit < 8) base.code_lt]
      simp [pushDigit]
  | pushCs => rfl
  | call target =>
      rw [Instr.encode, decode_direct (by decide)]
      show (Reader.operands _ >>= _) = _
      rw [Reader.operands_direct (by decide : callDigit < 8) target.code_lt]
      simp [callDigit]
  | ret => rfl

/-! ### Sequences of instructions -/

theorem encodeAll_append (is js : List Instr) :
    encodeAll (is ++ js) = encodeAll is ++ encodeAll js := by
  simp [encodeAll]

theorem encodeAll_cons (i : Instr) (is : List Instr) :
    encodeAll (i :: is) = i.encode ++ encodeAll is := rfl

theorem encode_ne_nil (i : Instr) : i.encode ≠ [] := by
  intro h
  -- nothing is decoded from no bytes
  have hdecode := decode_encode i []
  rw [h] at hdecode
  cases hdecode

/-- Code is decoded back into the instructions that it was made of. -/
theorem decodeAll_encodeAll (is : List Instr) : decodeAll (encodeAll is) = some is := by
  induction is with
  | nil =>
      rw [decodeAll]
      rfl
  | cons i is ih =>
      have hlen : 0 < i.encode.length := List.length_pos_iff.mpr (encode_ne_nil i)
      have hne : i.encode ++ encodeAll is ≠ [] := by
        intro h
        exact encode_ne_nil i (List.append_eq_nil_iff.mp h).1
      rw [encodeAll_cons, decodeAll, if_neg hne, decode_encode]
      show (if _ then _ else _) = _
      rw [if_pos (by rw [List.length_append]; omega), ih]
      rfl

/-! ### The bytes of an instruction -/

theorem length_opcode (op : Opcode) : (opcode op).length ≤ 3 := by
  have hmarker : op.markerBytes.length ≤ 1 := by
    rw [Opcode.markerBytes]
    split <;> simp
  have htail : op.tailBytes.length ≤ 2 := by
    rw [Opcode.tailBytes]
    split <;> simp
  rw [opcode, List.length_append]
  omega

theorem length_direct (op : Opcode) (field : UInt8) (rm : Reg) :
    (direct op field rm).length ≤ 4 := by
  have hop := length_opcode op
  rw [direct, List.length_append, List.length_singleton]
  omega

theorem length_memory (op : Opcode) (field : UInt8) (base : Reg) (disp : Int32) :
    (memory op field base disp).length ≤ 9 := by
  have hop := length_opcode op
  have hmem := ModRm.length_memory field base.code disp
  rw [memory, List.length_append]
  omega

/-- An instruction never has more bytes than a processor reads for one. -/
theorem length_encode (i : Instr) : i.encode.length ≤ maxInstrBytes := by
  rw [maxInstrBytes]
  cases i with
  | arith op dst imm =>
      rw [Instr.encode]
      split
      · have h := length_direct .arithImm8 op.digit (.gpr dst)
        rw [List.length_append, List.length_singleton]
        omega
      · have h := length_direct .arithImm32 op.digit (.gpr dst)
        rw [List.length_append, Code.length_ofInt32]
        omega
  | movImm dst imm =>
      have h := length_opcode (.movImm dst.code)
      rw [Instr.encode, List.length_append, Code.length_ofUInt32]
      omega
  | pushImm imm =>
      rw [Instr.encode]
      split
      · simp
      · rw [List.length_cons, Code.length_ofInt32]
        omega
  | pushCs => decide
  | ret => decide
  | mov => exact (length_direct _ _ _).trans (by decide)
  | clear => exact (length_direct _ _ _).trans (by decide)
  | call => exact (length_direct _ _ _).trans (by decide)
  | push => exact (length_opcode _).trans (by decide)
  | pop => exact (length_opcode _).trans (by decide)
  | _ => exact (length_memory _ _ _ _).trans (by decide)

/-- The machine is about to execute the instruction whose bytes it finds. -/
theorem State.current?_eq {s : State} {i : Instr}
    (h : s.mem.read s.eip i.encode.length = i.encode) :
    s.current? = some (i, Memory.offset s.eip i.encode.length) := by
  obtain ⟨k, hk⟩ := Nat.exists_eq_add_of_le (length_encode i)
  rw [State.current?, hk, Memory.read_add, h]
  simp only [decode_encode, Option.map_some, List.length_append, Memory.length_read]
  rw [Nat.add_sub_cancel, Memory.add_ofNat_eq_offset]

end Trampoline.Ia32
