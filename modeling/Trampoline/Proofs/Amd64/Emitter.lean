/-
Trampoline/Proofs/Amd64/Emitter.lean

Whatever is asked of the emitter can be read off the bytes.

A `Request` is one instruction asked for by its operands, with general-purpose and
SSE registers where they belong; requests are written one after the other to a
buffer that may hold code already.  `Request.Asks` says what instruction a request
is for.  Only a number for a register leaves a choice: there are four forms, and
each leaves the same number (`Puts`).

`decodeAll_writeAll` is the round trip.  Writing never fails, and what was written is
decoded into one instruction for each request, in order, with no byte left over.
A load relative to the instruction's end also answers where its open field is,
and these are the last four bytes of the instruction.
-/
import Mathlib
import Trampoline.Proofs.Amd64.Operands

namespace Trampoline.Amd64

/-! ### Requests -/

/-- An instruction asked for by its operands. -/
inductive Request
  | arith (op : Arith) (width : Width) (dst : Gpr) (imm : Int32)
  | mov (width : Width) (dst src : Gpr)
  /-- A number for a register, in whatever form is short. -/
  | number (width : Width) (dst : Gpr) (value : UInt64)
  | load (width : Width) (dst base : Gpr) (disp : Int32)
  | loadZero (narrow : Narrow) (dst base : Gpr) (disp : Int32)
  | store (width : Width) (src base : Gpr) (disp : Int32)
  | lea (dst base : Gpr) (disp : Int32)
  | sseLoad (precision : Precision) (dst : Xmm) (base : Gpr) (disp : Int32)
  /-- A load relative to the instruction's end, with the displacement still open. -/
  | sseLoadRip (precision : Precision) (dst : Xmm)
  | sseSpill (src : Xmm) (base : Gpr) (disp : Int32)
  | push (src : Gpr)
  | pop (dst : Gpr)
  | pushImm (imm : Int32)
  | pushMem (base : Gpr) (disp : Int32)
  | call (target : Gpr)
  | ret
  deriving DecidableEq, Repr

namespace Request

/-- The instruction that is written for a request. -/
def instr : Request → Except Fault Instr
  | arith op w dst imm => .ok (.arith op w dst imm)
  | mov w dst src => .ok (.mov w dst src)
  | number w dst value => .ok (.loadImm w dst value)
  | load w dst base disp => .ok (.load w dst base disp)
  | loadZero n dst base disp => .ok (.loadZero n dst base disp)
  | store w src base disp => .ok (.store w src base disp)
  | lea dst base disp => .ok (.lea dst base disp)
  | sseLoad p dst base disp => Instr.ofSseLoad p (.xmm dst) (.gpr base) disp
  | sseLoadRip p dst => Instr.ofSseLoadRip p (.xmm dst) 0
  | sseSpill src base disp => Instr.ofSseSpill (.xmm src) (.gpr base) disp
  | push src => .ok (.push src)
  | pop dst => .ok (.pop dst)
  | pushImm imm => .ok (.pushImm imm)
  | pushMem base disp => .ok (.pushMem base disp)
  | call target => .ok (.call target)
  | ret => .ok .ret

/-- Where the open field starts, counted from the instruction's first byte, if there is one. -/
def field? : Request → Option Nat
  | sseLoadRip p dst => some (ripField (.sseLoad p) (Instr.xmmField dst))
  | _ => none

/-- Writes one instruction behind `code`, and answers where its open field is. -/
def write (code : Code) (r : Request) : Except Fault (Code × Option Nat) :=
  r.instr.map fun i => (code ++ i.encode, r.field?.map (code.length + ·))

end Request

/-- Writes instructions behind `code`, one after the other. -/
def writeAll (code : Code) : List Request → Except Fault (Code × List (Option Nat))
  | [] => .ok (code, [])
  | r :: rs => do
      let first ← r.write code
      let rest ← writeAll first.1 rs
      return (rest.1, first.2 :: rest.2)

/-! ### What a request is for -/

/-- The four forms in which a register is given a number.  The 32-bit forms clear the upper half,
and the signed immediate fills it with its sign. -/
inductive Puts (dst : Gpr) (value : UInt64) : Width → Instr → Prop
  | zero (w : Width) (h : value = 0) : Puts dst value w (.clear dst)
  | low (w : Width) (imm : UInt32) (h : imm.toNat = w.cut value.toNat) :
      Puts dst value w (.movImm32 dst imm)
  | signed (imm : Int32) (h : (BitVec.ofInt 64 imm.toInt).toNat = value.toNat) :
      Puts dst value .w64 (.movSigned dst imm)
  | whole : Puts dst value .w64 (.movImm64 dst value)

theorem puts_loadImm (w : Width) (dst : Gpr) (value : UInt64) :
    Puts dst value w (.loadImm w dst value) := by
  rw [Instr.loadImm]
  by_cases hzero : value = 0
  · rw [if_pos hzero]
    exact .zero w hzero
  rw [if_neg hzero]
  cases w with
  | w32 =>
      rw [if_pos (.inl rfl)]
      exact .low _ _ value.toNat_toUInt32
  | w64 =>
      by_cases hlow : value ≤ 0xFFFFFFFF
      · rw [if_pos (.inr hlow)]
        refine .low _ _ ?_
        have hle : value.toNat ≤ 0xFFFFFFFF := UInt64.le_iff_toNat_le.mp hlow
        rw [UInt64.toNat_toUInt32]
        exact Nat.mod_eq_of_lt (by omega)
      rw [if_neg (by simp [hlow])]
      by_cases hfits : Instr.fitsSigned value
      · rw [if_pos hfits]
        exact .signed _ (toNat_lowSigned hfits)
      · rw [if_neg hfits]
        exact .whole

/-- Whether an instruction is what a request is for: the same operation, width, registers,
displacement and immediate. -/
def Request.Asks : Request → Instr → Prop
  | arith op w dst imm, i => i = .arith op w dst imm
  | mov w dst src, i => i = .mov w dst src
  | number w dst value, i => Puts dst value w i
  | load w dst base disp, i => i = .load w dst base disp
  | loadZero n dst base disp, i => i = .loadZero n dst base disp
  | store w src base disp, i => i = .store w src base disp
  | lea dst base disp, i => i = .lea dst base disp
  | sseLoad p dst base disp, i => i = .sseLoad p dst base disp
  | sseLoadRip p dst, i => i = .sseLoadRip p dst 0
  | sseSpill src base disp, i => i = .sseSpill src base disp
  | push src, i => i = .push src
  | pop dst, i => i = .pop dst
  | pushImm imm, i => i = .pushImm imm
  | pushMem base disp, i => i = .pushMem base disp
  | call target, i => i = .call target
  | ret, i => i = .ret

theorem Request.exists_instr (r : Request) : ∃ i, r.instr = .ok i ∧ r.Asks i := by
  cases r with
  | number w dst value => exact ⟨_, rfl, puts_loadImm w dst value⟩
  | _ => exact ⟨_, rfl, rfl⟩

/-! ### The round trip -/

/-- Writing appends the bytes of one instruction for each request.  An open field is answered by
its place in the whole buffer. -/
theorem writeAll_spec (rs : List Request) (front : Code) :
    ∃ fields is, writeAll front rs = .ok (front ++ encodeAll is, fields) ∧
      List.Forall₂ Request.Asks rs is ∧
      ∀ (k : Nat) (r : Request), rs[k]? = some r →
        fields[k]? = some (r.field?.map ((front ++ encodeAll (is.take k)).length + ·)) := by
  induction rs generalizing front with
  | nil => exact ⟨[], [], by simp [writeAll, encodeAll], .nil, by simp⟩
  | cons r rs ih =>
      obtain ⟨i, hi, hasks⟩ := r.exists_instr
      obtain ⟨fields, is, hrest, hall, hfields⟩ := ih (front ++ i.encode)
      have hfirst : r.write front
          = .ok (front ++ i.encode, r.field?.map (front.length + ·)) := by
        rw [Request.write, hi]
        rfl
      refine ⟨r.field?.map (front.length + ·) :: fields, i :: is, ?_, .cons hasks hall, ?_⟩
      · rw [writeAll, hfirst]
        show (writeAll (front ++ i.encode) rs >>= _) = _
        rw [hrest, encodeAll_cons, ← List.append_assoc]
        rfl
      · intro k r' hk
        cases k with
        | zero =>
            obtain rfl : r = r' := by simpa using hk
            simp [encodeAll]
        | succ k =>
            rw [List.getElem?_cons_succ] at hk ⊢
            rw [hfields k r' hk, List.take_succ_cons, encodeAll_cons, ← List.append_assoc]

/-- What was written is decoded into the instructions that were asked for, one for each request,
and uses up all the bytes; the open field that a load relative to the instruction's end answers is
the last four bytes of the instruction. -/
theorem decodeAll_writeAll (front : Code) (rs : List Request) :
    ∃ code fields is, writeAll front rs = .ok (front ++ code, fields) ∧
      decodeAll code = some is ∧ List.Forall₂ Request.Asks rs is ∧
      ∀ (k : Nat) (p : Precision) (dst : Xmm), rs[k]? = some (.sseLoadRip p dst) →
        ∃ start field, fields[k]? = some (some (front.length + field)) ∧
          EndsAt code (is.take k) start ∧ start ≤ field ∧
          EndsAt code (is.take (k + 1)) (field + 4) := by
  obtain ⟨fields, is, hwrite, hall, hfields⟩ := writeAll_spec rs front
  refine ⟨encodeAll is, fields, is, hwrite, decodeAll_encodeAll is, hall, ?_⟩
  intro k p dst hk
  obtain ⟨hlen, hasks⟩ := List.forall₂_iff_get.mp hall
  obtain ⟨hlt, hr⟩ := List.getElem?_eq_some_iff.mp hk
  have hlt' : k < is.length := hlen ▸ hlt
  have hload : is[k] = .sseLoadRip p dst 0 := by
    have h := hasks k hlt hlt'
    simp only [List.get_eq_getElem, hr] at h
    exact h
  have hsplit : ∀ n, EndsAt (encodeAll is) (is.take n) (encodeAll (is.take n)).length := by
    intro n
    have h := endsAt_encodeAll (is.take n) (encodeAll (is.drop n))
    rwa [← encodeAll_append, List.take_append_drop] at h
  have hstop : (encodeAll (is.take (k + 1))).length
      = (encodeAll (is.take k)).length + ripField (.sseLoad p) (Instr.xmmField dst) + 4 := by
    rw [List.take_succ_eq_append_getElem hlt', hload, encodeAll_append, encodeAll_cons,
      List.length_append, List.length_append, length_encode_sseLoadRip]
    rfl
  refine ⟨_, _, ?_, hsplit k, Nat.le_add_right _ _, hstop ▸ hsplit (k + 1)⟩
  rw [hfields k _ hk, List.length_append, Request.field?, Option.map_some, Nat.add_assoc]

end Trampoline.Amd64
