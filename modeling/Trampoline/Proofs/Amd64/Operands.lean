/-
Trampoline/Proofs/Amd64/Operands.lean

What pushing and loading an argument does.

`Operand.bytesIn` is the value of an argument: the bytes of a literal, the first
bytes of a home slot, or the address of a scratch buffer.  It is said about a
frame pointer and a memory, without registers, so it stays the same while the
code of a call moves the stack pointer and fills registers.

Pushing an argument stores its value in the next stack slot and changes no other
register than `rsp` and `rax`; loading it sets one register.  Both are proved for
one argument, by the source of its value, and then for all arguments of a call by
induction on the list.  Later loads keep earlier ones because no register is
given out twice.
-/
import Mathlib
import Trampoline.Amd64.Sequence
import Trampoline.Proofs.Frame
import Trampoline.Proofs.Amd64.Abi
import Trampoline.Proofs.Amd64.Lines

namespace Trampoline

open Memory (offset Between)

/-! ### The value of an argument -/

/-- The bytes of an argument, as many as its type is wide, for a frame at `fp`. -/
def Operand.bytesIn (frame : Frame) (fp : BitVec 64) (m : Memory 64) (a : Operand) : Code :=
  match a.source with
  | .literal => a.literalBytes
  | .forwarded index =>
      match frame.home? index with
      | some slot => m.read (offset fp (-slot.offset.toInt)) a.type.size
      | none => []
  | .scratch index =>
      match frame.scratch? index with
      | some slot => littleEndian a.type.size (offset fp (-slot.offset.toInt)).toNat
      | none => []

namespace Operand

variable {frame : Frame} {fp : BitVec 64} {m : Memory 64} {a : Operand} {index : UInt8}

theorem bytesIn_literal (h : a.source = .literal) : a.bytesIn frame fp m = a.literalBytes := by
  rw [bytesIn, h]

theorem bytesIn_forwarded (h : a.source = .forwarded index) {slot : HomeSlot}
    (hslot : frame.home? index = some slot) :
    a.bytesIn frame fp m = m.read (offset fp (-slot.offset.toInt)) a.type.size := by
  rw [bytesIn, h]
  simp only [hslot]

theorem bytesIn_scratch (h : a.source = .scratch index) {slot : ScratchSlot}
    (hslot : frame.scratch? index = some slot) :
    a.bytesIn frame fp m
      = littleEndian a.type.size (offset fp (-slot.offset.toInt)).toNat := by
  rw [bytesIn, h]
  simp only [hslot]

end Operand

theorem ValueType.size_le (t : ValueType) : t.size ≤ 8 := (Frame.homeSize_toNat t).2

theorem ValueType.size_cases (t : ValueType) : t.size ≤ 4 ∨ t.size = 8 := by
  cases t <;> decide

namespace Frame.Laid

variable {params : List ValueType} {scratch : List UInt32} {frame : Frame}

/-- The value of an argument depends on the home slots only. -/
theorem bytesIn_congr (hl : frame.Laid params scratch) {fp : BitVec 64} {m m' : Memory 64}
    (h : ∀ (z : Int) (n : Nat), -(frame.size : Int) ≤ z → z + n ≤ 0 →
      m'.read (offset fp z) n = m.read (offset fp z) n) (a : Operand) :
    a.bytesIn frame fp m' = a.bytesIn frame fp m := by
  rw [Operand.bytesIn, Operand.bytesIn]
  split
  · rfl
  · split
    · rename_i slot hslot
      obtain ⟨hlo, hhi⟩ := hl.home_inside hslot a.type
      exact h _ _ hlo hhi
    · rfl
  · rfl

end Frame.Laid

namespace Amd64

/-! ### Instructions that set a register -/

/-- The number that a load of an immediate leaves: with 32-bit operands the low half. -/
def Width.cut : Width → Nat → Nat
  | .w32, n => n % 2 ^ 32
  | .w64, n => n

/-- A 64-bit number that fits 32 signed bits is the sign extension of its low half. -/
theorem toNat_lowSigned {value : UInt64} (h : Instr.fitsSigned value) :
    (BitVec.ofInt 64 (Instr.lowSigned value).toInt).toNat = value.toNat := by
  obtain ⟨hlo, hhi⟩ : -0x80000000 ≤ value.toInt64 ∧ value.toInt64 ≤ 0x7FFFFFFF := by
    simpa [Instr.fitsSigned] using h
  have hlo' : -0x80000000 ≤ value.toInt64.toInt := Int64.le_iff_toInt_le.mp hlo
  have hhi' : value.toInt64.toInt ≤ 0x7FFFFFFF := Int64.le_iff_toInt_le.mp hhi
  have hlow : (Instr.lowSigned value).toInt = value.toInt64.toInt := by
    have hcut : (Instr.lowSigned value).toInt = (value.toInt64.toInt).bmod (2 ^ 32) := by
      show (value.toBitVec.setWidth 32).toInt = value.toBitVec.toInt.bmod (2 ^ 32)
      rw [BitVec.toInt_setWidth, BitVec.toInt_eq_toNat_bmod, Int.bmod_bmod_of_dvd (by decide)]
    rw [hcut]
    exact Int.bmod_eq_of_le (by omega) (by omega)
  have hbits : BitVec.ofInt 64 value.toInt64.toInt = value.toBitVec := by
    rw [← Int64.toInt_toBitVec, BitVec.ofInt_toInt]
    rfl
  rw [hlow, hbits]
  rfl

theorem loadImm_spec (w : Width) (dst : Gpr) (value : UInt64) (s : State) :
    Quiet (Instr.loadImm w dst value) s ∧
      s.Sets (perform (Instr.loadImm w dst value) s) (.gpr dst) (w.cut value.toNat) := by
  have hvalue : value.toNat < 2 ^ 64 := value.toNat_lt
  rw [Instr.loadImm]
  by_cases hzero : value = 0
  · subst hzero
    refine ⟨⟨trivial, rfl⟩, ?_⟩
    have hcut : w.cut (0 : UInt64).toNat = (0 : BitVec 64).toNat := by cases w <;> rfl
    rw [if_pos rfl, hcut]
    exact s.sets_setGpr _ _ _
  rw [if_neg hzero]
  by_cases hnarrow : w = .w32 ∨ value ≤ 0xFFFFFFFF
  · refine ⟨⟨by rw [if_pos hnarrow]; trivial, by rw [if_pos hnarrow]; rfl⟩, ?_⟩
    have hcut : w.cut value.toNat = (value.toUInt32.toBitVec.setWidth 64).toNat := by
      have h32 : (value.toUInt32.toBitVec.setWidth 64).toNat = value.toNat % 2 ^ 32 := by
        rw [BitVec.toNat_setWidth]
        show value.toUInt32.toNat % 2 ^ 64 = _
        rw [UInt64.toNat_toUInt32]
        omega
      rw [h32]
      cases w with
      | w32 => rfl
      | w64 =>
          obtain h | h := hnarrow
          · cases h
          · have hle : value.toNat ≤ 0xFFFFFFFF := UInt64.le_iff_toNat_le.mp h
            show value.toNat = _
            omega
    rw [if_pos hnarrow, hcut]
    exact s.sets_setGpr _ _ _
  rw [if_neg hnarrow]
  have hwide : w = .w64 := by
    cases w with
    | w32 => exact (hnarrow (.inl rfl)).elim
    | w64 => rfl
  subst hwide
  by_cases hfits : Instr.fitsSigned value
  · rw [if_pos hfits]
    refine ⟨⟨trivial, rfl⟩, ?_⟩
    rw [Width.cut, ← toNat_lowSigned hfits]
    exact s.sets_setGpr _ _ _
  · rw [if_neg hfits]
    exact ⟨⟨trivial, rfl⟩, s.sets_setGpr _ _ _⟩

/-! ### Moving the stack pointer -/

theorem runs_adjustStack {P : BitVec 64 → Prop} (op : Arith) {n : Nat} (hn : n < 2 ^ 31)
    (s : State) :
    ∃ t, Runs P (adjustStack op n) s t ∧ t.gpr .rsp = offset (s.gpr .rsp) (Memory.moved op n) ∧
      (∀ q, q ≠ Reg.gpr .rsp → t.reg q = s.reg q) ∧ t.mem = s.mem := by
  rw [adjustStack]
  by_cases hzero : n = 0
  · subst hzero
    rw [if_pos rfl, Memory.moved_zero, Memory.offset_zero]
    exact ⟨s, .nil s, rfl, fun _ _ => rfl, rfl⟩
  · rw [if_neg hzero]
    have himm : (Int32.ofNat n).toInt = n := Int32.toInt_ofNat_of_lt hn
    have hvalue : op.apply (s.gpr .rsp) (BitVec.ofInt 64 (Int32.ofNat n).toInt)
        = offset (s.gpr .rsp) (Memory.moved op n) := by
      rw [himm, BitVec.ofInt_natCast, Memory.apply_ofNat_eq_offset]
    have hset : s.Sets (perform (Instr.arith op .w64 .rsp (Int32.ofNat n)) s) (.gpr .rsp)
        (op.apply (s.gpr .rsp) (BitVec.ofInt 64 (Int32.ofNat n).toInt)).toNat :=
      s.sets_setGpr _ _ _
    have hquiet : Quiet (Instr.arith op .w64 .rsp (Int32.ofNat n)) s := ⟨trivial, rfl⟩
    refine ⟨_, .quiet hquiet, ?_, hset.reg_ne, hset.mem_eq⟩
    rw [← hvalue]
    exact BitVec.eq_of_toNat_eq hset.reg_self

theorem storesOf_adjustStack (op : Arith) (n : Nat) (s : State) :
    storesOf (adjustStack op n) s = [] := by
  rw [adjustStack]
  split <;> rfl

/-! ### Pushing -/

/-- Whether an instruction pushes a number. -/
structure Instr.Pushes (i : Instr) (s : State) (v : BitVec 64) : Prop where
  falls : i.Falls
  stores : i.stores s = some (offset (s.gpr .rsp) (-8), 8)
  perform_eq : perform i s = State.push { s with rip := offset s.rip i.encode.length } v

/-- The stack pointer of `t` is at the distance `d` from `fp`; otherwise `t` has the registers of
`s`, up to `rax`. -/
structure State.Lowered (fp : BitVec 64) (d : Int) (s t : State) : Prop where
  rsp : t.gpr .rsp = offset fp d
  gpr : ∀ r, r ≠ .rsp → r ≠ .rax → t.gpr r = s.gpr r
  xmm : t.xmm = s.xmm

theorem State.Lowered.trans {fp : BitVec 64} {d d' : Int} {s t u : State}
    (h : State.Lowered fp d s t) (h' : State.Lowered fp d' t u) : State.Lowered fp d' s u where
  rsp := h'.rsp
  gpr := fun r hsp hax => (h'.gpr r hsp hax).trans (h.gpr r hsp hax)
  xmm := h'.xmm.trans h.xmm

theorem State.Lowered.reg {fp : BitVec 64} {d : Int} {s t : State} (h : State.Lowered fp d s t)
    {q : Reg} (hsp : q ≠ .gpr .rsp) (hax : q ≠ .gpr .rax) : t.reg q = s.reg q := by
  cases q with
  | gpr r =>
      have hr := h.gpr r (fun he => hsp (by rw [he])) (fun he => hax (by rw [he]))
      exact congrArg BitVec.toNat hr
  | xmm x => exact congrArg (fun f => (f x).toNat) h.xmm

theorem Instr.Pushes.runs {i : Instr} {s : State} {v : BitVec 64} (h : i.Pushes s v)
    {fp : BitVec 64} {d : Int} (hsp : s.gpr .rsp = offset fp d) :
    Runs (Between fp (d - 8) d) [i] s (perform i s) ∧
      State.Lowered fp (d - 8) s (perform i s) ∧
      ∀ n ≤ 8, (perform i s).mem.read (offset fp (d - 8)) n = littleEndian n v.toNat := by
  have hslot : offset (s.gpr .rsp) (-8) = offset fp (d - 8) := by
    rw [hsp, Memory.offset_offset]
    rfl
  refine ⟨.one h.falls ?_, ⟨?_, ?_, ?_⟩, ?_⟩
  · intro x hx
    have hstores := h.stores
    rw [hslot] at hstores
    have hb := hx.between hstores
    rwa [show d - 8 + ((8 : Nat) : Int) = d by omega] at hb
  · rw [h.perform_eq, State.gpr_push_rsp]
    exact hslot
  · intro r hr _
    rw [h.perform_eq, State.gpr_push_ne _ _ hr]
  · rw [h.perform_eq, State.xmm_push]
  · intro n hn
    rw [h.perform_eq, State.mem_push]
    show (s.mem.writeNat (offset (s.gpr .rsp) (-8)) 8 v.toNat).read _ n = _
    rw [hslot, Memory.read_writeNat_self _ _ _ hn (by decide)]

/-- Pushing what was put into `rax` before. -/
theorem runs_push_rax {i : Instr} {s : State} (hi : Quiet i s) {n : Nat}
    (hset : s.Sets (perform i s) (.gpr .rax) n) {fp : BitVec 64} {d : Int}
    (hsp : s.gpr .rsp = offset fp d) :
    ∃ t, Runs (Between fp (d - 8) d) [i, .push .rax] s t ∧ State.Lowered fp (d - 8) s t ∧
      ∀ k ≤ 8, t.mem.read (offset fp (d - 8)) k = littleEndian k n := by
  have hpush : (Instr.push .rax).Pushes (perform i s) ((perform i s).gpr .rax) :=
    ⟨trivial, rfl, rfl⟩
  have hsp' : (perform i s).gpr .rsp = offset fp d :=
    (hset.gpr_ne (by decide)).trans hsp
  obtain ⟨hruns, hlow, hread⟩ := hpush.runs hsp'
  have hrax : ((perform i s).gpr .rax).toNat = n := hset.reg_self
  refine ⟨_, (Runs.quiet hi).append hruns, ?_, fun k hk => by rw [hread k hk, hrax]⟩
  refine State.Lowered.trans ⟨hsp', fun r _ hax => hset.gpr_ne ?_, ?_⟩ hlow
  · intro h
    exact hax (Reg.gpr.inj h)
  · funext x
    exact BitVec.eq_of_toNat_eq (hset.reg_ne (.xmm x) (by simp))

section

variable {params : List ValueType} {scratch : List UInt32} {frame : Frame} {fp : BitVec 64}
  {s : State} {d : Int}

/-- A narrow literal keeps its low bytes when it is pushed with its sign. -/
theorem littleEndian_lowSigned {k : Nat} (hk : k ≤ 4) (value : UInt64) :
    littleEndian k (BitVec.ofInt 64 (Instr.lowSigned value).toInt).toNat
      = littleEndian k value.toNat := by
  have hext : (BitVec.ofInt 64 (Instr.lowSigned value).toInt).setWidth 32
      = value.toBitVec.setWidth 32 := by
    show ((value.toBitVec.setWidth 32).signExtend 64).setWidth 32 = _
    ext i hi
    rw [BitVec.getElem_setWidth, BitVec.getLsbD_signExtend]
    simp [hi, Nat.lt_trans hi]
  have hmod := congrArg BitVec.toNat hext
  rw [BitVec.toNat_setWidth, BitVec.toNat_setWidth] at hmod
  rw [← littleEndian_mod hk, ← littleEndian_mod hk value.toNat]
  exact congrArg (littleEndian k) hmod

theorem runs_pushLiteral {a : Operand} {is : List Instr} (hsource : a.source = .literal)
    (h : pushOperand frame a = .ok is) (hsp : s.gpr .rsp = offset fp d) :
    ∃ t, Runs (Between fp (d - 8) d) is s t ∧ State.Lowered fp (d - 8) s t ∧
      t.mem.read (offset fp (d - 8)) a.type.size = a.literalBytes := by
  have hsize := a.type.size_le
  rw [pushOperand, hsource] at h
  obtain rfl := Except.ok.inj h
  by_cases hshort : a.type.size ≤ 4 ∨ Instr.fitsSigned a.value
  · -- the immediate is extended to eight bytes; the low ones are those of the literal
    rw [if_pos hshort]
    have hpush : (Instr.pushImm (Instr.lowSigned a.value)).Pushes s
        (BitVec.ofInt 64 (Instr.lowSigned a.value).toInt) := ⟨trivial, rfl, rfl⟩
    obtain ⟨hruns, hlow, hread⟩ := hpush.runs hsp
    refine ⟨_, hruns, hlow, (hread _ hsize).trans ?_⟩
    rcases hshort with hnarrow | hfits
    · exact littleEndian_lowSigned hnarrow a.value
    · rw [toNat_lowSigned hfits]
      rfl
  · rw [if_neg hshort]
    obtain ⟨hquiet, hset⟩ := loadImm_spec .w64 .rax a.value s
    obtain ⟨t, hruns, hlow, hread⟩ := runs_push_rax hquiet hset hsp
    exact ⟨t, hruns, hlow, hread _ hsize⟩

theorem runs_pushOperand (hl : frame.Laid params scratch) {a : Operand} {is : List Instr}
    (h : pushOperand frame a = .ok is) (hfp : s.gpr .rbp = fp) (hsp : s.gpr .rsp = offset fp d) :
    ∃ t, Runs (Between fp (d - 8) d) is s t ∧ State.Lowered fp (d - 8) s t ∧
      t.mem.read (offset fp (d - 8)) a.type.size = a.bytesIn frame fp s.mem := by
  have hsize := a.type.size_le
  cases hsource : a.source with
  | literal =>
      rw [Operand.bytesIn_literal hsource]
      exact runs_pushLiteral hsource h hsp
  | forwarded index =>
      rw [pushOperand, hsource] at h
      obtain ⟨off, hoff, rfl⟩ := map_eq_ok.mp h
      obtain ⟨slot, hslot, rfl⟩ := Frame.homeOffset_eq_ok.mp hoff
      -- all eight bytes of the home slot are copied
      have hpush : (Instr.pushMem .rbp (-slot.offset)).Pushes s
          (s.fetch 64 8 (s.address .rbp (-slot.offset))) := ⟨trivial, rfl, rfl⟩
      obtain ⟨hruns, hlow, hread⟩ := hpush.runs hsp
      refine ⟨_, hruns, hlow, (hread _ hsize).trans ?_⟩
      rw [State.toNat_fetch _ _ (by decide), Memory.littleEndian_readNat _ _ hsize,
        State.address_eq, hl.toInt_neg_home hslot, hfp, Operand.bytesIn_forwarded hsource hslot]
  | scratch index =>
      rw [pushOperand, hsource] at h
      obtain ⟨off, hoff, rfl⟩ := map_eq_ok.mp h
      obtain ⟨slot, hslot, rfl⟩ := Frame.scratchOffset_eq_ok.mp hoff
      have hset : s.Sets (perform (Instr.lea .rax .rbp (-slot.offset)) s) (.gpr .rax)
          (s.address .rbp (-slot.offset)).toNat := s.sets_setGpr _ _ _
      have hquiet : Quiet (Instr.lea .rax .rbp (-slot.offset)) s := ⟨trivial, rfl⟩
      obtain ⟨t, hruns, hlow, hread⟩ := runs_push_rax hquiet hset hsp
      refine ⟨t, hruns, hlow, (hread _ hsize).trans ?_⟩
      rw [State.address_eq, hl.toInt_neg_buffer hslot, hfp, Operand.bytesIn_scratch hsource hslot]

/-- Pushing arguments one after the other fills one slot after the other, downward. -/
theorem runs_pushes (hl : frame.Laid params scratch) {ops : List Operand}
    {iss : List (List Instr)} (h : List.Forall₂ (fun a is => pushOperand frame a = .ok is) ops iss)
    (hfp : s.gpr .rbp = fp) (hsp : s.gpr .rsp = offset fp d) (hd : d ≤ -frame.size)
    (hlow : -2 ^ 62 ≤ d - 8 * ops.length) :
    ∃ t, Runs (Between fp (d - 8 * ops.length) d) iss.flatten s t ∧
      State.Lowered fp (d - 8 * ops.length) s t ∧
      ∀ (j : Nat) (a : Operand), ops[j]? = some a →
        t.mem.read (offset fp (d - 8 * (j + 1))) a.type.size = a.bytesIn frame fp s.mem := by
  induction h generalizing s d with
  | nil =>
      refine ⟨s, .nil s, ⟨by simpa using hsp, fun _ _ _ => rfl, rfl⟩, ?_⟩
      intro j a ha
      cases ha
  | @cons a is ops iss hfirst hrest ih =>
      rw [List.length_cons, Nat.cast_add, Nat.cast_one] at hlow ⊢
      obtain ⟨s₁, hruns₁, hlow₁, hread₁⟩ := runs_pushOperand hl hfirst hfp hsp
      obtain ⟨t, hruns, hlow', hread⟩ := ih
        ((hlow₁.gpr .rbp (by decide) (by decide)).trans hfp) hlow₁.rsp (by omega) (by omega)
      have hend : d - 8 * ((ops.length : Int) + 1) = d - 8 - 8 * ops.length := by ring
      rw [hend]
      have hsize := hl.size_lt
      refine ⟨t, (hruns₁.widen (by omega) (le_refl _)).append
        (hruns.widen (le_refl _) (by omega)), hlow₁.trans hlow', ?_⟩
      intro j b hb
      cases j with
      | zero =>
          -- the first slot lies above all later ones
          obtain rfl : a = b := by simpa using hb
          have hkeep : t.mem.read (offset fp (d - 8)) a.type.size
              = s₁.mem.read (offset fp (d - 8)) a.type.size :=
            hruns.read_offset (.inr (le_refl _)) (by have := a.type.size_le; omega) (by omega)
          simpa using hkeep.trans hread₁
      | succ j =>
          -- the home slots are not touched by the first push
          have hsame : b.bytesIn frame fp s₁.mem = b.bytesIn frame fp s.mem :=
            hl.bytesIn_congr (fun z n hz hz' =>
              hruns₁.read_offset (.inr (by omega)) (by omega) (by omega)) b
          have hj := hread j b (by simpa using hb)
          rw [hsame] at hj
          rw [← hj]
          congr 2
          push_cast
          ring

/-! ### Loading -/

/-- Whether a literal is no wider than its type. -/
def Fits (a : Operand) : Prop := a.source = .literal → a.value.toNat < 256 ^ a.type.size

/-- A number whose low bytes are the value of an argument and, for an argument of the frame that
fits its type, nothing above them. -/
def Carries (frame : Frame) (fp : BitVec 64) (m : Memory 64) (a : Operand) (n : Nat) : Prop :=
  littleEndian a.type.size n = a.bytesIn frame fp m ∧
    (a.ValidIn frame → Fits a → n < 256 ^ a.type.size)

theorem bytes_ofType {t : ValueType} (h : t.isFloat = true) :
    (Precision.ofType t).bytes = t.size := by
  cases t <;> first | rfl | cases h

theorem loadForwarded_spec {t : ValueType} (h : t.isFloat = false) (dst : Gpr) (disp : Int32)
    (s : State) :
    Quiet (loadForwarded t dst disp) s ∧
      s.Sets (perform (loadForwarded t dst disp) s) (.gpr dst)
        (s.mem.readNat (s.address .rbp disp) t.size) := by
  have hfetch : ∀ n, 8 * n ≤ 64 →
      s.Sets (State.setGpr { s with rip := offset s.rip (loadForwarded t dst disp).encode.length }
        dst (s.fetch 64 n (s.address .rbp disp))) (.gpr dst)
        (s.mem.readNat (s.address .rbp disp) n) := by
    intro n hn
    rw [← State.toNat_fetch s _ hn]
    exact s.sets_setGpr _ _ _
  cases t with
  | float => cases h
  | double => cases h
  | byte => exact ⟨⟨trivial, rfl⟩, hfetch 1 (by decide)⟩
  | word => exact ⟨⟨trivial, rfl⟩, hfetch 2 (by decide)⟩
  | dword => exact ⟨⟨trivial, rfl⟩, hfetch 4 (by decide)⟩
  | _ => exact ⟨⟨trivial, rfl⟩, hfetch 8 (by decide)⟩

/-- A literal load from an address sets the register to the number there. -/
theorem sets_sseLoadRip (p : Precision) (x : Xmm) (disp : Int32) (s : State) :
    s.Sets (perform (Instr.sseLoadRip p x disp) s) (.xmm x)
      (s.mem.readNat (offset (offset s.rip (Instr.sseLoadRip p x disp).encode.length) disp.toInt)
        p.bytes) := by
  rw [← State.toNat_fetch s _ (show 8 * p.bytes ≤ 128 by cases p <;> decide)]
  exact s.sets_setXmm _ _ _

theorem sets_sseLoad (p : Precision) (x : Xmm) (disp : Int32) (s : State) :
    s.Sets (perform (Instr.sseLoad p x .rbp disp) s) (.xmm x)
      (s.mem.readNat (s.address .rbp disp) p.bytes) := by
  rw [← State.toNat_fetch s _ (show 8 * p.bytes ≤ 128 by cases p <;> decide)]
  exact s.sets_setXmm _ _ _

/-- A literal in a general-purpose register. -/
theorem carries_literal {a : Operand} (hsource : a.source = .literal) (m : Memory 64) :
    Carries frame fp m a ((Width.ofWide (a.type.size == 8)).cut a.value.toNat) := by
  have hvalue : a.value.toNat < 2 ^ 64 := a.value.toNat_lt
  rw [Carries, Operand.bytesIn_literal hsource, Operand.literalBytes]
  rcases a.type.size_cases with hnarrow | hwide
  · have hne : (a.type.size == 8) = false := by
      rw [beq_eq_false_iff_ne]
      omega
    rw [hne]
    refine ⟨littleEndian_mod hnarrow _, fun _ hfits => ?_⟩
    exact (Nat.mod_le _ _).trans_lt (hfits hsource)
  · rw [hwide]
    exact ⟨rfl, fun _ _ => hvalue⟩

/-- A parameter read from its home slot. -/
theorem carries_forwarded (hl : frame.Laid params scratch) {a : Operand} {index : UInt8}
    (hsource : a.source = .forwarded index) {slot : HomeSlot}
    (hslot : frame.home? index = some slot) (hfp : s.gpr .rbp = fp) :
    Carries frame fp s.mem a
      (s.mem.readNat (s.address .rbp (-slot.offset)) a.type.size) := by
  rw [Carries, Operand.bytesIn_forwarded hsource hslot, State.address_eq,
    hl.toInt_neg_home hslot, hfp]
  exact ⟨Memory.littleEndian_readNat _ _ (le_refl _), fun _ _ => Memory.readNat_lt _ _ _⟩

/-- The address of a scratch buffer. -/
theorem carries_scratch (hl : frame.Laid params scratch) {a : Operand} {index : UInt8}
    (hsource : a.source = .scratch index) {slot : ScratchSlot}
    (hslot : frame.scratch? index = some slot) (hfp : s.gpr .rbp = fp) :
    Carries frame fp s.mem a (s.address .rbp (-slot.offset)).toNat := by
  rw [Carries, Operand.bytesIn_scratch hsource hslot, State.address_eq,
    hl.toInt_neg_buffer hslot, hfp]
  refine ⟨rfl, fun hvalid _ => ?_⟩
  have ha : a = .scratch index := by
    rw [Operand.ValidIn, hsource] at hvalid
    exact hvalid.2
  rw [ha]
  exact BitVec.isLt _

/-- Loading an argument sets its register.  Where literals are found, the register carries the
value of the argument. -/
theorem loadOperand_spec (hl : frame.Laid params scratch) {found : BitVec 64 → Code → Prop}
    {dst : Reg} {a : Operand} {line : Line} {i : Instr} (hfile : dst.isXmm = a.isFloat)
    (h : loadOperand frame dst a = .ok line)
    (hm : line.MeansAt found (offset s.rip i.encode.length) i) (hfp : s.gpr .rbp = fp) :
    Quiet i s ∧ ∃ n, s.Sets (perform i s) dst n ∧
      ((∀ x bytes, found x bytes → s.mem.read x bytes.length = bytes) →
        Carries frame fp s.mem a n) := by
  unfold loadOperand at h
  split at h
  · -- a floating literal, behind the code
    rename_i x hsource
    obtain rfl := Except.ok.inj h
    obtain ⟨disp, rfl, hx⟩ := hm
    have hfloat : a.type.isFloat = true := hfile.symm
    refine ⟨⟨trivial, rfl⟩, _, sets_sseLoadRip _ x disp s, fun hfound => ?_⟩
    have hread := hfound _ _ hx
    rw [Operand.length_literalBytes] at hread
    rw [Carries, Operand.bytesIn_literal hsource, bytes_ofType hfloat,
      Memory.littleEndian_readNat _ _ (le_refl _)]
    exact ⟨hread, fun _ _ => Memory.readNat_lt _ _ _⟩
  · rename_i r hsource
    obtain rfl := Except.ok.inj h
    obtain rfl : i = _ := hm
    obtain ⟨hquiet, hset⟩ := loadImm_spec (.ofWide (a.type.size == 8)) r a.value s
    exact ⟨hquiet, _, hset, fun _ => carries_literal hsource s.mem⟩
  · rename_i index x hsource
    obtain ⟨off, hoff, rfl⟩ := map_eq_ok.mp h
    obtain ⟨slot, hslot, rfl⟩ := Frame.homeOffset_eq_ok.mp hoff
    obtain rfl : i = _ := hm
    refine ⟨⟨trivial, rfl⟩, _, sets_sseLoad _ x _ s, fun _ => ?_⟩
    have hfloat : a.type.isFloat = true := hfile.symm
    rw [bytes_ofType hfloat]
    exact carries_forwarded hl hsource hslot hfp
  · rename_i index r hsource
    obtain ⟨off, hoff, rfl⟩ := map_eq_ok.mp h
    obtain ⟨slot, hslot, rfl⟩ := Frame.homeOffset_eq_ok.mp hoff
    obtain rfl : i = _ := hm
    have hint : a.type.isFloat = false := hfile.symm
    obtain ⟨hquiet, hset⟩ := loadForwarded_spec hint r (-slot.offset) s
    exact ⟨hquiet, _, hset, fun _ => carries_forwarded hl hsource hslot hfp⟩
  · rename_i index r hsource
    obtain ⟨off, hoff, rfl⟩ := map_eq_ok.mp h
    obtain ⟨slot, hslot, rfl⟩ := Frame.scratchOffset_eq_ok.mp hoff
    obtain rfl : i = _ := hm
    exact ⟨⟨trivial, rfl⟩, _, s.sets_setGpr _ _ _,
      fun _ => carries_scratch hl hsource hslot hfp⟩
  · cases h

/-- Loading arguments one after the other leaves every one of them in its register. -/
theorem runs_loads (hl : frame.Laid params scratch) {found : BitVec 64 → Code → Prop}
    {P : BitVec 64 → Prop} {loads : List (Reg × Operand)} {lines : List Line} {is : List Instr}
    (h : List.Forall₂ (fun x line => loadOperand frame x.1 x.2 = .ok line) loads lines)
    (hfile : ∀ x ∈ loads, x.1.isXmm = x.2.isFloat)
    (hnodup : (loads.map (·.1)).Nodup) (hrbp : Reg.gpr .rbp ∉ loads.map (·.1))
    (hr : Realizes found s.rip lines is) (hfp : s.gpr .rbp = fp) :
    ∃ t, Runs P is s t ∧ t.mem = s.mem ∧ (∀ q ∉ loads.map (·.1), t.reg q = s.reg q) ∧
      ((∀ x bytes, found x bytes → s.mem.read x bytes.length = bytes) →
        ∀ x ∈ loads, Carries frame fp s.mem x.2 (t.reg x.1)) := by
  induction h generalizing s is with
  | nil =>
      cases hr
      exact ⟨s, .nil s, rfl, fun _ _ => rfl, fun _ x hx => absurd hx (by simp)⟩
  | @cons x line loads lines hfirst hrest ih =>
      cases hr with
      | @cons _ _ i _ is hmeans hr =>
          obtain ⟨hquiet, n, hset, hcarries⟩ :=
            loadOperand_spec hl (hfile x (by simp)) hfirst hmeans hfp
          rw [List.map_cons, List.nodup_cons] at hnodup
          rw [List.map_cons, List.mem_cons, not_or] at hrbp
          have hnext : (perform i s).rip = offset s.rip i.encode.length := pc_perform hquiet.1 s
          rw [← hnext] at hr
          obtain ⟨t, hruns, hmem, hothers, hvalues⟩ := ih (fun y hy => hfile y (by simp [hy]))
            hnodup.2 hrbp.2 hr ((hset.gpr_ne hrbp.1).trans hfp)
          rw [hset.mem_eq] at hmem hvalues
          refine ⟨t, (Runs.quiet hquiet).append hruns, hmem, ?_, ?_⟩
          · intro q hq
            rw [List.map_cons, List.mem_cons, not_or] at hq
            rw [hothers q hq.2, hset.reg_ne q hq.1]
          · intro hfound y hy
            rcases List.mem_cons.mp hy with rfl | hy
            · -- the first register is not among the later ones
              rw [hothers _ hnodup.1, hset.reg_self]
              exact hcarries hfound
            · exact hvalues hfound y hy

end

end Amd64

end Trampoline
