/-
Trampoline/Proofs/Ia32/Operands.lean

What pushing and loading an argument does on IA-32.

A stack slot has four or eight bytes, by the type of its argument, and a pointer
takes a slot that is narrower than its type on x86-64.  So the value of an argument
is told by as many bytes as type and slot have both (`Operand.slotBytes`).  An
argument with a long slot is pushed in two words, the high one first.

Pushing arguments one after the other fills their slots downward and takes exactly
the bytes of the slots, which is proved for one argument by the source of its
value and then for a list by induction.  A register has four bytes, so an argument
that is loaded has its value in the low bytes of its register, and what is above them
is not told.
-/
import Mathlib
import Trampoline.Ia32.Sequence
import Trampoline.Proofs.Fragment
import Trampoline.Proofs.Frame
import Trampoline.Proofs.Ia32.Block

namespace Trampoline

open Memory (offset Between)

/-! ### The value of an argument -/

namespace Operand

/-- The bytes of the value that a stack slot holds. -/
def slotBytes (a : Operand) : Nat := min a.type.size a.type.stackSize32

/-- The bytes of an argument, as many as its stack slot holds, for a frame at `fp`. -/
def bytesIn32 (frame : Frame) (fp : BitVec 32) (m : Memory 32) (a : Operand) : Code :=
  match a.source with
  | .literal => littleEndian a.slotBytes a.value.toNat
  | .forwarded index =>
      match frame.home? index with
      | some slot => m.read (offset fp (-slot.offset.toInt)) a.slotBytes
      | none => []
  | .scratch index =>
      match frame.scratch? index with
      | some slot => littleEndian a.slotBytes (offset fp (-slot.offset.toInt)).toNat
      | none => []

variable {frame : Frame} {fp : BitVec 32} {m : Memory 32} {a : Operand} {index : UInt8}

theorem bytesIn32_literal (h : a.source = .literal) :
    a.bytesIn32 frame fp m = littleEndian a.slotBytes a.value.toNat := by
  rw [bytesIn32, h]

theorem bytesIn32_forwarded (h : a.source = .forwarded index) {slot : HomeSlot}
    (hslot : frame.home? index = some slot) :
    a.bytesIn32 frame fp m = m.read (offset fp (-slot.offset.toInt)) a.slotBytes := by
  rw [bytesIn32, h]
  simp only [hslot]

theorem bytesIn32_scratch (h : a.source = .scratch index) {slot : ScratchSlot}
    (hslot : frame.scratch? index = some slot) :
    a.bytesIn32 frame fp m
      = littleEndian a.slotBytes (offset fp (-slot.offset.toInt)).toNat := by
  rw [bytesIn32, h]
  simp only [hslot]

/-- A long slot is filled by its value, and a short one holds at most four bytes of it. -/
theorem slot_cases (a : Operand) :
    Ia32.isLong a.type = true ∧ a.type.stackSize32 = 8 ∧ a.slotBytes = 8 ∨
      Ia32.isLong a.type = false ∧ a.type.stackSize32 = 4 ∧ a.slotBytes ≤ 4 := by
  rw [slotBytes]
  cases a.type <;> decide

end Operand

namespace Frame.Laid

variable {params : List ValueType} {scratch : List UInt32} {frame : Frame}

/-- The value of an argument depends on the home slots only. -/
theorem bytesIn32_congr (hl : frame.Laid params scratch) {fp : BitVec 32} {m m' : Memory 32}
    (h : ∀ (z : Int) (n : Nat), -(frame.size : Int) ≤ z → z + n ≤ 0 →
      m'.read (offset fp z) n = m.read (offset fp z) n) (a : Operand) :
    a.bytesIn32 frame fp m' = a.bytesIn32 frame fp m := by
  rw [Operand.bytesIn32, Operand.bytesIn32]
  split
  · rfl
  · split
    · rename_i slot hslot
      obtain ⟨hlo, hhi⟩ := hl.home_inside hslot a.type
      have hle : a.slotBytes ≤ a.type.size := Nat.min_le_left _ _
      exact h _ _ hlo (by omega)
    · rfl
  · rfl

end Frame.Laid

namespace Ia32

/-! ### Moving the stack pointer -/

theorem countP_adjustStack (op : Arith) (n : Nat) :
    (adjustStack op n).countP Instr.isPush = 0 := by
  rw [adjustStack]
  split <;> rfl

theorem runs_adjustStack {P : BitVec 32 → Prop} (op : Arith) (n : Nat) (s : State) :
    ∃ t, Runs P (adjustStack op n) s t ∧
      t.gpr .esp = offset (s.gpr .esp) (Memory.moved op n) ∧
      (∀ q, q ≠ .esp → t.gpr q = s.gpr q) ∧ t.mem = s.mem := by
  rw [adjustStack]
  by_cases hzero : n = 0
  · subst hzero
    rw [if_pos rfl, Memory.moved_zero, Memory.offset_zero]
    exact ⟨s, .nil s, rfl, fun _ _ => rfl, rfl⟩
  · rw [if_neg hzero]
    have hvalue := Memory.apply_ofNat_eq_offset op (s.gpr .esp) n
    have hset : s.Sets (perform (Instr.arith op .esp (Int32.ofNat n)) s) .esp
        (op.apply (s.gpr .esp) (BitVec.ofNat 32 n)) := s.sets_setGpr _ _ _
    have hquiet : Quiet (Instr.arith op .esp (Int32.ofNat n)) s := ⟨trivial, rfl⟩
    exact ⟨_, .quiet hquiet, hset.gpr_self.trans hvalue, hset.gpr_ne, hset.mem_eq⟩

theorem storesOf_adjustStack (op : Arith) (n : Nat) (s : State) :
    storesOf (adjustStack op n) s = [] := by
  rw [adjustStack]
  split <;> rfl

/-! ### Pushing -/

/-- Whether an instruction pushes the word `v`. -/
structure Instr.Pushes (i : Instr) (s : State) (v : BitVec 32) : Prop where
  isPush : i.isPush = true
  falls : i.Falls
  stores : i.stores s = some (offset (s.gpr .esp) (-4), 4)
  perform_eq : perform i s = State.push { s with eip := offset s.eip i.encode.length } v

/-- The stack pointer of `t` is at the distance `d` from `fp`; otherwise `t` has the registers of
`s`, up to `eax`. -/
structure State.Lowered (fp : BitVec 32) (d : Int) (s t : State) : Prop where
  esp : t.gpr .esp = offset fp d
  gpr : ∀ r, r ≠ .esp → r ≠ .eax → t.gpr r = s.gpr r

theorem State.Lowered.trans {fp : BitVec 32} {d d' : Int} {s t u : State}
    (h : State.Lowered fp d s t) (h' : State.Lowered fp d' t u) : State.Lowered fp d' s u where
  esp := h'.esp
  gpr := fun r hsp hax => (h'.gpr r hsp hax).trans (h.gpr r hsp hax)

section

variable {fp : BitVec 32} {d : Int} {s : State}

theorem Instr.Pushes.runs {i : Instr} {v : BitVec 32} (h : i.Pushes s v)
    (hsp : s.gpr .esp = offset fp d) :
    Runs (Between fp (d - 4) d) [i] s (perform i s) ∧
      State.Lowered fp (d - 4) s (perform i s) ∧
      ∀ n ≤ 4, (perform i s).mem.read (offset fp (d - 4)) n = littleEndian n v.toNat := by
  have hslot : offset (s.gpr .esp) (-4) = offset fp (d - 4) := by
    rw [hsp, Memory.offset_offset]
    rfl
  refine ⟨.one h.falls ?_, ⟨?_, ?_⟩, ?_⟩
  · intro x hx
    have hstores := h.stores
    rw [hslot] at hstores
    exact (hx.between hstores).mono (le_refl _) (by omega)
  · rw [h.perform_eq, State.gpr_push_esp]
    exact hslot
  · intro r hr _
    rw [h.perform_eq, State.gpr_push_ne _ _ hr]
  · intro n hn
    rw [h.perform_eq, State.mem_push]
    show (s.mem.writeNat (offset (s.gpr .esp) (-4)) 4 v.toNat).read _ n = _
    rw [hslot, Memory.read_writeNat_self _ _ _ hn (by decide)]

/-- Two words, the upper one first. -/
theorem runs_pushPair {i j : Instr} {v w : BitVec 32} (hi : i.Pushes s v)
    (hj : j.Pushes (perform i s) w) (hsp : s.gpr .esp = offset fp d) :
    Runs (Between fp (d - 8) d) [i, j] s (perform j (perform i s)) ∧
      State.Lowered fp (d - 8) s (perform j (perform i s)) ∧
      (perform j (perform i s)).mem.read (offset fp (d - 8)) 8
        = littleEndian 4 w.toNat ++ littleEndian 4 v.toNat := by
  obtain ⟨hruns₁, hlow₁, hread₁⟩ := hi.runs hsp
  obtain ⟨hruns₂, hlow₂, hread₂⟩ := hj.runs hlow₁.esp
  have hd : d - 4 - 4 = d - 8 := by omega
  rw [hd] at hruns₂ hlow₂ hread₂
  refine ⟨(hruns₁.widen (by omega) (le_refl _)).append (hruns₂.widen (le_refl _) (by omega)),
    hlow₁.trans hlow₂, ?_⟩
  have hupper : (perform j (perform i s)).mem.read (offset fp (d - 4)) 4
      = littleEndian 4 v.toNat :=
    (hruns₂.read_offset (.inr (le_refl _)) (by omega) (by omega)).trans (hread₁ 4 (le_refl _))
  rw [show (8 : Nat) = 4 + 4 from rfl, Memory.read_add, hread₂ 4 (le_refl _),
    Memory.add_ofNat_eq_offset, Memory.offset_offset, ← hupper]
  congr 3
  omega

/-- Pushing what was put into `eax` before. -/
theorem runs_push_eax {i : Instr} (hi : Quiet i s) {v : BitVec 32}
    (hset : s.Sets (perform i s) .eax v) (hsp : s.gpr .esp = offset fp d) :
    ∃ t, Runs (Between fp (d - 4) d) [i, .push .eax] s t ∧ State.Lowered fp (d - 4) s t ∧
      ∀ k ≤ 4, t.mem.read (offset fp (d - 4)) k = littleEndian k v.toNat := by
  have hpush : (Instr.push .eax).Pushes (perform i s) ((perform i s).gpr .eax) :=
    ⟨rfl, trivial, rfl, rfl⟩
  have hsp' : (perform i s).gpr .esp = offset fp d := (hset.gpr_ne _ (by decide)).trans hsp
  obtain ⟨hruns, hlow, hread⟩ := hpush.runs hsp'
  rw [hset.gpr_self] at hread
  refine ⟨_, (Runs.quiet hi).append hruns, ?_, hread⟩
  exact State.Lowered.trans ⟨hsp', fun r _ hax => hset.gpr_ne r hax⟩ hlow

/-- The words of a literal hold its bytes. -/
theorem littleEndian_lowWord {k : Nat} (hk : k ≤ 4) (value : UInt64) :
    littleEndian k (lowWord value).toBitVec.toNat = littleEndian k value.toNat := by
  show littleEndian k value.toUInt32.toNat = _
  rw [UInt64.toNat_toUInt32]
  exact littleEndian_mod hk _

theorem littleEndian_words (value : UInt64) :
    littleEndian 4 (lowWord value).toBitVec.toNat ++ littleEndian 4 (highWord value).toBitVec.toNat
      = littleEndian 8 value.toNat := by
  have hhigh : littleEndian 4 (highWord value).toBitVec.toNat
      = littleEndian 4 (value.toNat / 256 ^ 4) := by
    show littleEndian 4 (value >>> 32).toUInt32.toNat = _
    rw [UInt64.toNat_toUInt32, UInt64.toNat_shiftRight, Nat.shiftRight_eq_div_pow]
    exact littleEndian_mod (le_refl 4) _
  rw [hhigh, littleEndian_lowWord (le_refl 4), ← littleEndian_add]

/-! ### Pushing one argument -/

/-- Whether instructions push an argument into the slot that ends at the distance `d` from `fp`, and
the slot then holds the given bytes. -/
structure Fills (fp : BitVec 32) (d : Int) (a : Operand) (bytes : Code) (is : List Instr)
    (s t : State) : Prop where
  runs : Runs (Between fp (d - a.type.stackSize32) d) is s t
  lowered : State.Lowered fp (d - a.type.stackSize32) s t
  pushed : 4 * is.countP Instr.isPush = a.type.stackSize32
  read : t.mem.read (offset fp (d - a.type.stackSize32)) a.slotBytes = bytes

section

variable {a : Operand}

theorem fills_short {i : Instr} {v : BitVec 32} (hi : i.Pushes s v)
    (hsp : s.gpr .esp = offset fp d) (hslot : a.type.stackSize32 = 4) (hbytes : a.slotBytes ≤ 4) :
    Fills fp d a (littleEndian a.slotBytes v.toNat) [i] s (perform i s) := by
  obtain ⟨hruns, hlow, hread⟩ := hi.runs hsp
  refine ⟨?_, ?_, ?_, ?_⟩ <;> rw [hslot]
  · exact hruns
  · exact hlow
  · rw [List.countP_singleton, hi.isPush]
    rfl
  · exact hread _ hbytes

theorem fills_long {i j : Instr} {v w : BitVec 32} (hi : i.Pushes s v)
    (hj : j.Pushes (perform i s) w) (hsp : s.gpr .esp = offset fp d)
    (hslot : a.type.stackSize32 = 8) (hbytes : a.slotBytes = 8) :
    Fills fp d a (littleEndian 4 w.toNat ++ littleEndian 4 v.toNat) [i, j] s
      (perform j (perform i s)) := by
  obtain ⟨hruns, hlow, hread⟩ := runs_pushPair hi hj hsp
  refine ⟨?_, ?_, ?_, ?_⟩ <;> rw [hslot]
  · exact hruns
  · exact hlow
  · rw [List.countP_cons, List.countP_singleton, hi.isPush, hj.isPush]
    rfl
  · rw [hbytes]
    exact hread

theorem fills_literal {frame : Frame} {is : List Instr} (hsource : a.source = .literal)
    (h : pushOperand frame a = .ok is) (hsp : s.gpr .esp = offset fp d) :
    ∃ t, Fills fp d a (littleEndian a.slotBytes a.value.toNat) is s t := by
  have hpush : ∀ (imm : Int32) (t : State), (Instr.pushImm imm).Pushes t imm.toBitVec :=
    fun _ _ => ⟨rfl, trivial, rfl, rfl⟩
  rw [pushOperand, hsource] at h
  obtain rfl := Except.ok.inj h
  obtain ⟨hlong, hslot, hbytes⟩ | ⟨hshort, hslot, hbytes⟩ := a.slot_cases
  · rw [if_pos hlong, hbytes, ← littleEndian_words]
    exact ⟨_, fills_long (hpush _ s) (hpush _ _) hsp hslot hbytes⟩
  · rw [if_neg (by simp [hshort]), ← littleEndian_lowWord hbytes]
    exact ⟨_, fills_short (hpush _ s) hsp hslot hbytes⟩

variable {params : List ValueType} {scratch : List UInt32} {frame : Frame}

/-- The bytes of a number in memory at a displacement from the frame pointer. -/
theorem littleEndian_fetch {t : State} {k n : Nat} (hk : k ≤ n) (hn : n ≤ 4)
    (hfp : t.gpr .ebp = fp) (disp : Int32) :
    littleEndian k (t.fetch 32 n (t.address .ebp disp)).toNat
      = t.mem.read (offset fp disp.toInt) k := by
  rw [State.toNat_fetch t _ hn, Memory.littleEndian_readNat _ _ hk, State.address_eq, hfp]

theorem fills_forwarded (hl : frame.Laid params scratch) {index : UInt8}
    {is : List Instr} (hsource : a.source = .forwarded index)
    (h : pushOperand frame a = .ok is) (hfp : s.gpr .ebp = fp) (hsp : s.gpr .esp = offset fp d)
    (hd : d ≤ -frame.size) (hlow : -(2 ^ 32 - 8) ≤ d) :
    ∃ t, Fills fp d a (a.bytesIn32 frame fp s.mem) is s t := by
  have hpush : ∀ (disp : Int32) (t : State), (Instr.pushMem .ebp disp).Pushes t
      (t.fetch 32 4 (t.address .ebp disp)) := fun _ _ => ⟨rfl, trivial, rfl, rfl⟩
  rw [pushOperand, hsource] at h
  obtain ⟨off, hoff, rfl⟩ := map_eq_ok.mp h
  obtain ⟨slot, hslot, rfl⟩ := Frame.homeOffset_eq_ok.mp hoff
  have hneg := hl.toInt_neg_home hslot
  rw [Operand.bytesIn32_forwarded hsource hslot]
  obtain ⟨hlong, hsize, hbytes⟩ | ⟨hshort, hsize, hbytes⟩ := a.slot_cases
  · have hneg' := hl.toInt_neg_home_add_four hslot
    have hinside := hl.home_inside hslot .double
    simp only [ValueType.size] at hinside
    -- the first push leaves the home slot alone
    obtain ⟨hruns, hlowered, -⟩ := (hpush (-slot.offset + 4) s).runs hsp
    have hsame : (perform (Instr.pushMem .ebp (-slot.offset + 4)) s).mem.read
          (offset fp (-slot.offset.toInt)) 4 = s.mem.read (offset fp (-slot.offset.toInt)) 4 :=
      hruns.read_offset (.inr (by omega)) (by omega) (by omega)
    have hvalue : s.mem.read (offset fp (-slot.offset.toInt)) 8
        = littleEndian 4 ((perform (Instr.pushMem .ebp (-slot.offset + 4)) s).fetch 32 4
            ((perform (Instr.pushMem .ebp (-slot.offset + 4)) s).address .ebp
              (-slot.offset))).toNat ++
          littleEndian 4 (s.fetch 32 4 (s.address .ebp (-slot.offset + 4))).toNat := by
      rw [littleEndian_fetch (le_refl 4) (le_refl 4)
          ((hlowered.gpr _ (by decide) (by decide)).trans hfp),
        littleEndian_fetch (le_refl 4) (le_refl 4) hfp, hneg, hneg', hsame,
        show (8 : Nat) = 4 + 4 from rfl, Memory.read_add, Memory.add_ofNat_eq_offset,
        Memory.offset_offset]
      rfl
    rw [if_pos hlong, hbytes, hvalue]
    exact ⟨_, fills_long (hpush _ s) (hpush _ _) hsp hsize hbytes⟩
  · rw [if_neg (by simp [hshort]), ← hneg, ← littleEndian_fetch hbytes (le_refl 4) hfp]
    exact ⟨_, fills_short (hpush _ s) hsp hsize hbytes⟩

theorem fills_operand (hl : frame.Laid params scratch) (ha : a.ValidIn frame)
    {is : List Instr} (h : pushOperand frame a = .ok is) (hfp : s.gpr .ebp = fp)
    (hsp : s.gpr .esp = offset fp d) (hd : d ≤ -frame.size) (hlow : -(2 ^ 32 - 8) ≤ d) :
    ∃ t, Fills fp d a (a.bytesIn32 frame fp s.mem) is s t := by
  cases hsource : a.source with
  | literal =>
      rw [Operand.bytesIn32_literal hsource]
      exact fills_literal hsource h hsp
  | forwarded index => exact fills_forwarded hl hsource h hfp hsp hd hlow
  | scratch index =>
      -- an address takes one word
      obtain ⟨rfl, -⟩ := ha.scratchOffset hsource
      obtain ⟨off, hoff, rfl⟩ := map_eq_ok.mp h
      obtain ⟨slot, hslot, rfl⟩ := Frame.scratchOffset_eq_ok.mp hoff
      have hset : s.Sets (perform (Instr.lea .eax .ebp (-slot.offset)) s) .eax
          (s.address .ebp (-slot.offset)) := s.sets_setGpr _ _ _
      have hquiet : Quiet (Instr.lea .eax .ebp (-slot.offset)) s := ⟨trivial, rfl⟩
      obtain ⟨t, hruns, hlow, hread⟩ := runs_push_eax hquiet hset hsp
      refine ⟨t, hruns, hlow, rfl, (hread 4 (le_refl 4)).trans ?_⟩
      rw [State.address_eq, hl.toInt_neg_buffer hslot, hfp,
        Operand.bytesIn32_scratch hsource hslot]
      rfl

end

/-! ### Pushing arguments one after the other -/

/-- The bytes that arguments take on the stack. -/
def slotsSize (ops : List Operand) : Nat := (ops.map (·.type.stackSize32)).sum

theorem slotsSize_cons (a : Operand) (ops : List Operand) :
    slotsSize (a :: ops) = a.type.stackSize32 + slotsSize ops := rfl

theorem slotsSize_append (ops ops' : List Operand) :
    slotsSize (ops ++ ops') = slotsSize ops + slotsSize ops' := by
  rw [slotsSize, List.map_append, List.sum_append]
  rfl

theorem slotsSize_reverse (ops : List Operand) : slotsSize ops.reverse = slotsSize ops := by
  rw [slotsSize, List.map_reverse, List.sum_reverse]
  rfl

theorem slotsSize_le (ops : List Operand) : slotsSize ops ≤ 8 * ops.length := by
  induction ops with
  | nil => exact le_refl 0
  | cons a ops ih =>
      rw [slotsSize_cons, List.length_cons]
      obtain ⟨-, h, -⟩ | ⟨-, h, -⟩ := a.slot_cases <;> omega

/-- Pushing arguments one after the other fills one slot after the other, downward. -/
theorem runs_pushes {params : List ValueType} {scratch : List UInt32} {frame : Frame}
    (hl : frame.Laid params scratch) {ops : List Operand}
    (hvalid : ∀ a ∈ ops, a.ValidIn frame) {iss : List (List Instr)}
    (h : List.Forall₂ (fun a is => pushOperand frame a = .ok is) ops iss) (hfp : s.gpr .ebp = fp)
    (hsp : s.gpr .esp = offset fp d) (hd : d ≤ -frame.size)
    (hlow : -(2 ^ 32 - 8) ≤ d - slotsSize ops) :
    ∃ t, Runs (Between fp (d - slotsSize ops) d) iss.flatten s t ∧
      State.Lowered fp (d - slotsSize ops) s t ∧
      4 * iss.flatten.countP Instr.isPush = slotsSize ops ∧
      ∀ (j : Nat) (a : Operand), ops[j]? = some a →
        t.mem.read (offset fp (d - slotsSize (ops.take (j + 1)))) a.slotBytes
          = a.bytesIn32 frame fp s.mem := by
  induction h generalizing s d with
  | nil =>
      refine ⟨s, .nil s, ⟨by simpa [slotsSize] using hsp, fun _ _ _ => rfl⟩, rfl, ?_⟩
      intro j a ha
      cases ha
  | @cons a is ops iss hfirst hrest ih =>
      rw [slotsSize_cons, Nat.cast_add] at hlow
      obtain ⟨s₁, hruns₁, hlow₁, hcount₁, hread₁⟩ :=
        fills_operand hl (hvalid a (by simp)) hfirst hfp hsp hd (by omega)
      obtain ⟨t, hruns, hlow', hcount, hread⟩ := ih (fun b hb => hvalid b (by simp [hb]))
        ((hlow₁.gpr .ebp (by decide) (by decide)).trans hfp) hlow₁.esp (by omega) (by omega)
      have hsplit : ∀ n : Nat, d - a.type.stackSize32 - n = d - (a.type.stackSize32 + n : Nat) := by
        intro n
        push_cast
        ring
      rw [hsplit] at hruns hlow'
      rw [slotsSize_cons]
      have hsize := hl.size_lt
      refine ⟨t, (hruns₁.widen (by omega) (le_refl _)).append
        (hruns.widen (le_refl _) (by omega)), hlow₁.trans hlow', ?_, ?_⟩
      · rw [List.flatten_cons, List.countP_append, Nat.mul_add, hcount₁, hcount]
      · intro j b hb
        have hbytes := a.slot_cases
        cases j with
        | zero =>
            -- the first slot lies above all later ones
            obtain rfl : a = b := by simpa using hb
            have hkeep : t.mem.read (offset fp (d - a.type.stackSize32)) a.slotBytes
                = s₁.mem.read (offset fp (d - a.type.stackSize32)) a.slotBytes :=
              hruns.read_offset (.inr (le_refl _)) (by omega) (by omega)
            simpa [slotsSize] using hkeep.trans hread₁
        | succ j =>
            -- the home slots are not touched by the first push
            have hsame : b.bytesIn32 frame fp s₁.mem = b.bytesIn32 frame fp s.mem :=
              hl.bytesIn32_congr (fun z n hz hz' =>
                hruns₁.read_offset (.inr (by omega)) (by omega) (by omega)) b
            have hj := hread j b (by simpa using hb)
            rw [hsame, hsplit] at hj
            rw [List.take_succ_cons, slotsSize_cons]
            exact hj

/-! ### Loading -/

theorem loadImm_spec (dst : Gpr) (value : UInt32) (s : State) :
    Quiet (Instr.loadImm dst value) s ∧
      s.Sets (perform (Instr.loadImm dst value) s) dst value.toBitVec := by
  rw [Instr.loadImm]
  by_cases hzero : value = 0
  · subst hzero
    exact ⟨⟨trivial, rfl⟩, s.sets_setGpr _ _ _⟩
  · rw [if_neg hzero]
    exact ⟨⟨trivial, rfl⟩, s.sets_setGpr _ _ _⟩

section

variable {params : List ValueType} {scratch : List UInt32} {frame : Frame}

/-- A forwarded parameter is loaded with at least the bytes of its value. -/
theorem loadForwarded_spec {a : Operand} (hbytes : a.slotBytes ≤ 4) (dst : Gpr) (disp : Int32)
    (s : State) :
    Quiet (loadForwarded a.type dst disp) s ∧ ∃ n ≤ 4, a.slotBytes ≤ n ∧
      s.Sets (perform (loadForwarded a.type dst disp) s) dst
        (s.fetch 32 n (s.address .ebp disp)) := by
  rw [Operand.slotBytes] at hbytes ⊢
  generalize a.type = type at hbytes ⊢
  cases type with
  | byte => exact ⟨⟨trivial, rfl⟩, 1, by decide, by decide, s.sets_setGpr _ _ _⟩
  | word => exact ⟨⟨trivial, rfl⟩, 2, by decide, by decide, s.sets_setGpr _ _ _⟩
  | _ => exact ⟨⟨trivial, rfl⟩, 4, le_refl 4, hbytes, s.sets_setGpr _ _ _⟩

/-- Loading an argument that fits a register puts its value there and does nothing else. -/
theorem loadOperand_spec (hl : frame.Laid params scratch) {dst : Gpr} {a : Operand} {i : Instr}
    (h : loadOperand frame dst a = .ok i) (hbytes : a.slotBytes ≤ 4) (hfp : s.gpr .ebp = fp) :
    Quiet i s ∧ ∃ v, s.Sets (perform i s) dst v ∧
      littleEndian a.slotBytes v.toNat = a.bytesIn32 frame fp s.mem := by
  rw [loadOperand] at h
  cases hsource : a.source with
  | literal =>
      rw [hsource] at h
      obtain rfl := Except.ok.inj h
      obtain ⟨hquiet, hset⟩ := loadImm_spec dst a.value.toUInt32 s
      refine ⟨hquiet, _, hset, ?_⟩
      rw [Operand.bytesIn32_literal hsource]
      exact littleEndian_lowWord hbytes a.value
  | forwarded index =>
      rw [hsource] at h
      obtain ⟨off, hoff, rfl⟩ := map_eq_ok.mp h
      obtain ⟨slot, hslot, rfl⟩ := Frame.homeOffset_eq_ok.mp hoff
      obtain ⟨hquiet, n, hn, hle, hset⟩ := loadForwarded_spec hbytes dst (-slot.offset) s
      refine ⟨hquiet, _, hset, ?_⟩
      rw [littleEndian_fetch hle hn hfp, hl.toInt_neg_home hslot,
        Operand.bytesIn32_forwarded hsource hslot]
  | scratch index =>
      rw [hsource] at h
      obtain ⟨off, hoff, rfl⟩ := map_eq_ok.mp h
      obtain ⟨slot, hslot, rfl⟩ := Frame.scratchOffset_eq_ok.mp hoff
      refine ⟨⟨trivial, rfl⟩, _, s.sets_setGpr _ _ _, ?_⟩
      rw [Operand.bytesIn32_scratch hsource hslot, ← hl.toInt_neg_buffer hslot, ← hfp,
        ← State.address_eq]
      rfl

/-- Loading arguments into different registers, none of which is the frame pointer. -/
theorem runs_loads {P : BitVec 32 → Prop} (hl : frame.Laid params scratch)
    {loads : List (Gpr × Operand)} {is : List Instr}
    (h : List.Forall₂ (fun x i => loadOperand frame x.1 x.2 = .ok i) loads is)
    (hbytes : ∀ x ∈ loads, x.2.slotBytes ≤ 4) (hnodup : (loads.map (·.1)).Nodup)
    (hebp : .ebp ∉ loads.map (·.1)) (hfp : s.gpr .ebp = fp) :
    ∃ t, Runs P is s t ∧ t.mem = s.mem ∧ (∀ q ∉ loads.map (·.1), t.gpr q = s.gpr q) ∧
      (∀ x ∈ loads,
        littleEndian x.2.slotBytes (t.gpr x.1).toNat = x.2.bytesIn32 frame fp s.mem) ∧
      is.countP Instr.isPush = 0 := by
  induction h generalizing s with
  | nil => exact ⟨s, .nil s, rfl, fun _ _ => rfl, fun x hx => (List.not_mem_nil hx).elim, rfl⟩
  | @cons x i loads is hfirst _ ih =>
      rw [List.map_cons, List.nodup_cons] at hnodup
      rw [List.map_cons, List.mem_cons, not_or] at hebp
      obtain ⟨hquiet, v, hset, hvalue⟩ := loadOperand_spec hl hfirst (hbytes x (by simp)) hfp
      obtain ⟨t, hruns, hmem, hothers, hvalues, hcount⟩ := ih (fun y hy => hbytes y (by simp [hy]))
        hnodup.2 hebp.2 ((hset.gpr_ne _ hebp.1).trans hfp)
      refine ⟨t, (Runs.quiet hquiet).append hruns, hmem.trans hset.mem_eq, ?_, ?_, ?_⟩
      · intro q hq
        rw [List.map_cons, List.mem_cons, not_or] at hq
        rw [hothers q hq.2, hset.gpr_ne q hq.1]
      · intro y hy
        rcases List.mem_cons.mp hy with rfl | hy
        · -- the loads that follow go to other registers
          rw [hothers _ hnodup.1, hset.gpr_self, hvalue]
        · rw [hvalues y hy, hset.mem_eq]
      · rw [List.countP_cons, hcount, Instr.isPush_eq_false hquiet.2]
        rfl

end

end

end Ia32

end Trampoline
