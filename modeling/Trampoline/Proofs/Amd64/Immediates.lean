/-
Trampoline/Proofs/Amd64/Immediates.lean

A number for a register takes the shortest instruction there is for it.

Four forms of instruction give a register a number (`Form`).  They can leave zero,
the numbers below 2^32, the numbers that extend 32 signed bits, and all numbers,
and in this order they get longer.  So a form is the shortest for its number as
soon as no form before it can leave that number (`Form.Needed`).

The choice falls short of this at one place.  With 32-bit operands only the low
half of a number counts, and when that half is zero and the other is not, the
register is given a zero where it could be cleared.

A literal on the stack is pushed by a rule of its own, with other limits.
Its bytes are nevertheless those that the register would have.

Main result: `immediates_exact_shortest`.
-/
import Mathlib
import Trampoline.Proofs.Amd64.Execution

namespace Trampoline.Amd64

open Memory (offset Between StandsAt)

/-! ### Four forms -/

/-- An instruction that gives a register a number, up to the register. -/
inductive Form
  | clear
  | low (imm : UInt32)
  | signed (imm : Int32)
  | whole (imm : UInt64)
  deriving DecidableEq, Repr

namespace Form

/-- The instruction of a form for a register. -/
def instr (dst : Gpr) : Form → Instr
  | clear => .clear dst
  | low imm => .movImm32 dst imm
  | signed imm => .movSigned dst imm
  | whole imm => .movImm64 dst imm

/-- The number that a form leaves in its register. -/
def value : Form → BitVec 64
  | clear => 0
  | low imm => imm.toBitVec.setWidth 64
  | signed imm => imm.toBitVec.signExtend 64
  | whole imm => imm.toBitVec

/-- A form sets its register and nothing else. -/
theorem exec_instr (dst : Gpr) (f : Form) (next : BitVec 64) (s : State) :
    (f.instr dst).exec next s = State.setGpr { s with rip := next } dst f.value := by
  cases f <;> rfl

theorem gpr_exec_instr (dst : Gpr) (f : Form) (next : BitVec 64) (s : State) :
    ((f.instr dst).exec next s).gpr dst = f.value := by
  simp [exec_instr, State.setGpr]

/-- The bytes of a form.  The 32-bit forms take one more for the upper eight registers. -/
def length (dst : Gpr) : Form → Nat
  | clear => 2 + if dst.code < 8 then 0 else 1
  | low _ => 5 + if dst.code < 8 then 0 else 1
  | signed _ => 7
  | whole _ => 10

theorem length_encode_instr (dst : Gpr) (f : Form) :
    (f.instr dst).encode.length = f.length dst := by
  cases f with
  | clear => cases dst <;> rfl
  | low imm =>
      rw [instr, Instr.encode, List.length_append, Code.length_ofUInt32]
      cases dst <;> rfl
  | signed imm =>
      rw [instr, Instr.encode, List.length_append, Code.length_ofInt32]
      cases dst <;> rfl
  | whole imm =>
      rw [instr, Instr.encode, List.length_append, Code.length_ofUInt64]
      cases dst <;> rfl

/-! ### The shortest form -/

theorem toNat_value_low (imm : UInt32) : (low imm).value.toNat = imm.toNat := by
  have himm := imm.toNat_lt
  have hvalue : (low imm).value.toNat = imm.toNat % 2 ^ 64 := BitVec.toNat_setWidth 64 imm.toBitVec
  rw [hvalue]
  exact Nat.mod_eq_of_lt (by omega)

theorem fitsSigned_of_value_signed {imm : Int32} {value : UInt64}
    (h : (signed imm).value = value.toBitVec) : Instr.fitsSigned value := by
  have hint : value.toInt64.toInt = imm.toInt := by
    show value.toBitVec.toInt = imm.toBitVec.toInt
    rw [← h]
    exact BitVec.toInt_signExtend_of_le (by decide)
  have hhi := imm.toInt_lt
  simp only [Instr.fitsSigned, Bool.and_eq_true, decide_eq_true_eq, Int64.le_iff_toInt_le, hint]
  exact ⟨imm.le_toInt, Int.le_of_lt_add_one hhi⟩

/-- The first two forms leave no large number. -/
theorem eq_signed_or_whole {g : Form} (h : 2 ^ 32 ≤ g.value.toNat) :
    (∃ imm, g = signed imm) ∨ ∃ imm, g = whole imm := by
  cases g with
  | clear => exact absurd h (by decide)
  | low imm =>
      have himm := imm.toNat_lt
      rw [toNat_value_low] at h
      omega
  | signed imm => exact .inl ⟨imm, rfl⟩
  | whole imm => exact .inr ⟨imm, rfl⟩

/-- No form is shorter than clearing. -/
theorem length_clear_le (g : Form) (dst : Gpr) : clear.length dst ≤ g.length dst := by
  cases g with
  | clear => exact le_refl _
  | low imm => exact Nat.add_le_add_right (by decide) _
  | _ =>
      simp only [length]
      split <;> omega

/-- Only clearing is shorter than a 32-bit immediate. -/
theorem length_low_le {g : Form} (h : g ≠ clear) (imm : UInt32) (dst : Gpr) :
    (low imm).length dst ≤ g.length dst := by
  cases g with
  | clear => exact absurd rfl h
  | low imm' => exact le_refl _
  | _ =>
      simp only [length]
      split <;> omega

/-- Whether no form before this one leaves the same number. -/
def Needed : Form → Prop
  | clear => True
  | low imm => 0 < (low imm).value.toNat
  | signed imm => 2 ^ 32 ≤ (signed imm).value.toNat
  | whole imm => 2 ^ 32 ≤ (whole imm).value.toNat ∧ ¬ Instr.fitsSigned imm

/-- No form that leaves the same number is shorter than one that is needed. -/
theorem Needed.length_le {f g : Form} (hf : f.Needed) (h : g.value = f.value) (dst : Gpr) :
    f.length dst ≤ g.length dst := by
  cases f with
  | clear => exact length_clear_le g dst
  | low imm =>
      refine length_low_le ?_ imm dst
      rintro rfl
      rw [Needed, ← h] at hf
      exact absurd hf (Nat.lt_irrefl 0)
  | signed imm =>
      rw [Needed, ← h] at hf
      obtain ⟨imm', rfl⟩ | ⟨imm', rfl⟩ := eq_signed_or_whole hf
      · exact le_refl 7
      · exact (by decide : 7 ≤ 10)
  | whole imm =>
      rw [Needed, ← h] at hf
      obtain ⟨imm', rfl⟩ | ⟨imm', rfl⟩ := eq_signed_or_whole hf.1
      · exact absurd (fitsSigned_of_value_signed h) hf.2
      · exact le_refl 10

end Form

/-! ### The form that is taken -/

/-- A number is loaded in a form that is needed for it.  The exception is a number with 32-bit
operands of which only the upper half is not zero. -/
theorem loadImm_eq_instr (w : Width) (dst : Gpr) (value : UInt64) :
    ∃ f : Form, Instr.loadImm w dst value = f.instr dst ∧
      (f.Needed ∨ w = .w32 ∧ value ≠ 0 ∧ value.toUInt32 = 0 ∧ f = .low 0) := by
  rw [Instr.loadImm]
  by_cases hzero : value = 0
  · rw [if_pos hzero]
    exact ⟨.clear, rfl, .inl trivial⟩
  rw [if_neg hzero]
  by_cases hnarrow : w = .w32 ∨ value ≤ 0xFFFFFFFF
  · rw [if_pos hnarrow]
    refine ⟨.low value.toUInt32, rfl, ?_⟩
    by_cases hlow : value.toUInt32 = 0
    · -- the upper half is not zero, so the operands are 32 bits wide
      right
      refine ⟨hnarrow.resolve_right fun hle => hzero ?_, hzero, hlow, by rw [hlow]⟩
      have hle' : value.toNat ≤ 0xFFFFFFFF := UInt64.le_iff_toNat_le.mp hle
      have hmod : value.toNat % 2 ^ 32 = 0 := by
        rw [← UInt64.toNat_toUInt32, hlow]
        rfl
      apply UInt64.toNat_inj.mp
      show value.toNat = 0
      omega
    · left
      rw [Form.Needed, Form.toNat_value_low, Nat.pos_iff_ne_zero]
      exact fun h => hlow (UInt32.toNat_inj.mp h)
  rw [if_neg hnarrow]
  have hlarge : 2 ^ 32 ≤ value.toNat := by
    have hgt := fun hle => hnarrow (.inr hle)
    rw [UInt64.le_iff_toNat_le] at hgt
    exact Nat.lt_of_not_le hgt
  by_cases hfits : Instr.fitsSigned value
  · rw [if_pos hfits]
    refine ⟨.signed (Instr.lowSigned value), rfl, .inl ?_⟩
    have hvalue : (Form.signed (Instr.lowSigned value)).value.toNat = value.toNat :=
      toNat_lowSigned hfits
    rwa [Form.Needed, hvalue]
  · rw [if_neg hfits]
    exact ⟨.whole value, rfl, .inl ⟨hlarge, hfits⟩⟩

/-- The form that is taken for a number leaves that number. -/
theorem toNat_value_of_loadImm_eq {w : Width} {dst : Gpr} {value : UInt64} {f : Form}
    (h : Instr.loadImm w dst value = f.instr dst) (s : State) :
    f.value.toNat = w.cut value.toNat := by
  have hreg : (perform (Instr.loadImm w dst value) s).reg (.gpr dst) = w.cut value.toNat :=
    (loadImm_spec w dst value s).2.reg_self
  rwa [h, perform_eq, State.reg, Form.gpr_exec_instr] at hreg

theorem decodeAll_encode (i : Instr) : decodeAll i.encode = some [i] := by
  have h := decodeAll_encodeAll [i]
  rwa [encodeAll_cons, show encodeAll [] = [] from rfl, List.append_nil] at h

/-! ### Literals on the stack -/

/-- A machine that comes to the push of a literal leaves a slot for it, with the bytes of the
literal, where the slot does not meet the code. -/
theorem reaches_pushLiteral {frame : Frame} {a : Operand} {is : List Instr}
    (hsource : a.source = .literal) (h : pushOperand frame a = .ok is) {s : State}
    (hcode : s.mem.read s.rip (encodeAll is).length = encodeAll is)
    (hapart : Memory.Apart s.rip (encodeAll is).length (offset (s.gpr .rsp) (-8)) 8) :
    ∃ t, Reaches s t ∧ t.rip = offset s.rip (encodeAll is).length ∧
      t.gpr .rsp = offset (s.gpr .rsp) (-8) ∧
      t.mem.read (t.gpr .rsp) a.type.size = a.literalBytes := by
  obtain ⟨t, hruns, hlow, hread⟩ :=
    runs_pushLiteral hsource h (Memory.offset_zero (s.gpr .rsp)).symm
  have hclear : ∀ k < (encodeAll is).length,
      ¬ Between (s.gpr .rsp) (0 - 8) 0 (s.rip + BitVec.ofNat 64 k) :=
    Memory.not_between_of_apart hapart (Memory.offset_zero (s.gpr .rsp)).symm (by omega) (by omega)
  refine ⟨t, hruns.reaches hclear hcode (.refl _ _), hruns.rip_eq, hlow.rsp, ?_⟩
  rw [hlow.rsp]
  exact hread

/-- **Immediates are exact and short.**  The bytes of a load are one instruction, which sets the
register to the number, or to its low half with 32-bit operands, and no form that leaves the same
in the register is shorter, except that a number with a low half of zero is not cleared.  A literal
on the stack has the bytes that the register would have. -/
theorem immediates_exact_shortest (dst : Gpr) :
    (∀ (w : Width) (value : UInt64), ∃ i,
      decodeAll (Instr.loadImm w dst value).encode = some [i] ∧
      ∀ next s,
        i.exec next s
          = State.setGpr { s with rip := next } dst (BitVec.ofNat 64 (w.cut value.toNat)) ∧
        ∀ f : Form, ((f.instr dst).exec next s).gpr dst = (i.exec next s).gpr dst →
          i.encode.length ≤ (f.instr dst).encode.length ∨
          f = .clear ∧ w = .w32 ∧ value ≠ 0 ∧ value.toUInt32 = 0 ∧ i = .movImm32 dst 0) ∧
    ∀ (frame : Frame) (a : Operand), a.source = .literal →
      ∃ is i, pushOperand frame a = .ok is ∧
        loadOperand frame (.gpr dst) a = .ok (.instr i) ∧
        i = .loadImm (.ofWide (a.type.size == 8)) dst a.value ∧
        ∀ s : State, s.mem.read s.rip (encodeAll is).length = encodeAll is →
          Memory.Apart s.rip (encodeAll is).length (offset (s.gpr .rsp) (-8)) 8 →
          ∃ t, Reaches s t ∧ t.rip = offset s.rip (encodeAll is).length ∧
            t.gpr .rsp = offset (s.gpr .rsp) (-8) ∧
            ∀ next u, t.mem.read (t.gpr .rsp) a.type.size
              = littleEndian a.type.size ((i.exec next u).gpr dst).toNat := by
  refine ⟨fun w value => ?_, fun frame a hsource => ?_⟩
  · obtain ⟨f, hf, hneeded⟩ := loadImm_eq_instr w dst value
    refine ⟨f.instr dst, ?_, fun next s => ⟨?_, fun g hg => ?_⟩⟩
    · rw [hf]
      exact decodeAll_encode _
    · rw [Form.exec_instr, ← toNat_value_of_loadImm_eq hf s, BitVec.ofNat_toNat,
        BitVec.setWidth_eq]
    · rw [Form.gpr_exec_instr, Form.gpr_exec_instr] at hg
      rw [Form.length_encode_instr, Form.length_encode_instr]
      rcases hneeded with hneeded | ⟨hw, hvalue, hlow, rfl⟩
      · exact .inl (hneeded.length_le hg dst)
      · by_cases hclear : g = .clear
        · exact .inr ⟨hclear, hw, hvalue, hlow, rfl⟩
        · exact .inl (Form.length_low_le hclear 0 dst)
  · obtain ⟨is, his⟩ : ∃ is, pushOperand frame a = .ok is := by
      rw [pushOperand, hsource]
      exact ⟨_, rfl⟩
    have hload : loadOperand frame (.gpr dst) a
        = .ok (.instr (.loadImm (.ofWide (a.type.size == 8)) dst a.value)) := by
      unfold loadOperand
      rw [hsource]
    refine ⟨is, _, his, hload, rfl, fun s hcode hapart => ?_⟩
    obtain ⟨t, hreaches, hrip, hrsp, hread⟩ := reaches_pushLiteral hsource his hcode hapart
    refine ⟨t, hreaches, hrip, hrsp, fun next u => ?_⟩
    obtain ⟨f, hf, -⟩ := loadImm_eq_instr (.ofWide (a.type.size == 8)) dst a.value
    have hcarries : Carries frame (s.gpr .rbp) s.mem a
        ((Width.ofWide (a.type.size == 8)).cut a.value.toNat) := carries_literal hsource s.mem
    rw [hread, hf, Form.gpr_exec_instr, toNat_value_of_loadImm_eq hf s, hcarries.1,
      Operand.bytesIn_literal hsource]

/-- The largest number for a 32-bit immediate in a register, and on the stack the least one that no
signed immediate holds. -/
theorem immediates_exact_shortest_at_limits :
    (∃ i, decodeAll (Instr.loadImm .w64 .rdi 0xFFFFFFFF).encode = some [i] ∧
      i.encode.length ≤ (Form.instr .rdi (.whole 0xFFFFFFFF)).encode.length) ∧
    ∃ s t : State, Reaches s t ∧ t.mem.read (t.gpr .rsp) 8 = littleEndian 8 0x80000000 := by
  obtain ⟨hregister, hstack⟩ := immediates_exact_shortest .rdi
  refine ⟨?_, ?_⟩
  · obtain ⟨i, hdecode, hexec⟩ := hregister .w64 0xFFFFFFFF
    let s : State := ⟨fun _ => 0, fun _ => 0, 0, fun _ => 0⟩
    obtain ⟨hset, hshort⟩ := hexec 0 s
    refine ⟨i, hdecode, ?_⟩
    have hsame : ((Form.instr .rdi (.whole 0xFFFFFFFF)).exec 0 s).gpr .rdi
        = (i.exec 0 s).gpr .rdi := by
      rw [hset]
      rfl
    rcases hshort _ hsame with hle | ⟨hclear, -⟩
    · exact hle
    · cases hclear
  · obtain ⟨is, i, hpush, -, rfl, hreach⟩ := hstack {} (.literal .qword 0x80000000) rfl
    have his : pushOperand {} (.literal .qword 0x80000000)
        = .ok [.movImm32 .rax 0x80000000, .push .rax] := by decide
    obtain rfl := Except.ok.inj (hpush.symm.trans his)
    let code := encodeAll [.movImm32 .rax 0x80000000, .push .rax]
    let s : State := ⟨fun _ => 4096, fun _ => 0, 0, Memory.write (fun _ => 0) 0 code⟩
    have hlength : code.length = 6 := by decide
    have hcode : s.mem.read s.rip code.length = code :=
      (Memory.read_write_self _ _ (le_refl _) (by rw [hlength]; decide)).trans List.take_length
    have hapart : Memory.Apart s.rip code.length (offset (s.gpr .rsp) (-8)) 8 := by
      rw [hlength]
      show Memory.Apart (offset 0 0) 6 (offset (offset 0 4096) (-8)) 8
      rw [Memory.offset_offset]
      exact Memory.apart_offset (.inl (by omega)) (by omega) (by omega)
    obtain ⟨t, hreaches, -, -, hread⟩ := hreach s hcode hapart
    exact ⟨s, t, hreaches, hread 0 s⟩

end Trampoline.Amd64
