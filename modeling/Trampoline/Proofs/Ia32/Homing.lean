/-
Trampoline/Proofs/Ia32/Homing.lean

What the bytes of a prologue do on IA-32.

A trampoline is entered with all its parameters on the stack, one behind the other
from the end of the return address on.  The bytes of the prologue are read back into
instructions, and these copy every parameter to its home slot (`CopiesParameters`).
As many bytes are copied as the parameter takes on the stack, which may be more than
its type has and is never more than its home slot has.

A long integer is copied in two words, so the stores are listed by parameter: the
stores of one parameter stay in its own slot.
-/
import Mathlib
import Trampoline.Target
import Trampoline.Proofs.Ia32.Prologue

namespace Trampoline.Ia32

open Memory (offset Between)

/-- What the instructions `is` of a prologue have done between `s`, where the trampoline is
entered, and `t`. -/
structure CopiesParameters (params : List ValueType) (frame : Frame) (is : List Instr)
    (s t : State) : Prop where
  ebp : t.gpr .ebp = offset (s.gpr .esp) (-4)
  esp : t.gpr .esp = offset (t.gpr .ebp) (-frame.size)
  saved : t.mem.read (t.gpr .ebp) 4 = littleEndian 4 (s.gpr .ebp).toNat
  /-- The home slot of a parameter has the bytes that came in behind the parameters before it. -/
  home : ∀ (i : Nat) (type : ValueType), params[i]? = some type →
    ∃ slot, frame.homes[i]? = some slot ∧ slot.type = type ∧
      t.mem.read (offset (t.gpr .ebp) (-slot.offset.toInt)) type.stackSize32
        = s.mem.read (offset (t.gpr .ebp) (8 + stackTotal (params.take i) : Nat)) type.stackSize32
  /-- The return address and everything above it are as they were. -/
  memory : ∀ x : BitVec 32, (s.gpr .esp).toNat ≤ x.toNat → t.mem x = s.mem x
  /-- After the frame pointer is saved there are the stores of one parameter after the other.  They
  have as many bytes as the parameter takes on the stack, and stay inside its slot. -/
  stores : ∃ groups : List (List (BitVec 32 × Nat)),
    storesOf is s = (t.gpr .ebp, 4) :: groups.flatten ∧ groups.length = params.length ∧
    ∀ (i : Nat) (group : List (BitVec 32 × Nat)), groups[i]? = some group →
      ∃ slot, frame.homes[i]? = some slot ∧ (group.map (·.2)).sum = slot.type.stackSize32 ∧
        ∀ x ∈ group, slot.Holds (t.gpr .ebp) x.1 x.2

/-- The stores of a parameter stay inside its slot, and have as many bytes as the parameter takes on
the stack. -/
theorem homeStores_spec (fp : BitVec 32) (slot : HomeSlot) :
    ((homeStores fp slot).map (·.2)).sum = slot.type.stackSize32 ∧
      ∀ x ∈ homeStores fp slot, slot.Holds fp x.1 x.2 := by
  have hhome := (Frame.homeSize_toNat slot.type).1
  rw [homeStores]
  by_cases hfloat : slot.type.isFloat
  · have hbytes : (Precision.ofType slot.type).bytes = slot.type.stackSize32 := by
      revert hfloat
      cases slot.type <;> decide
    have hfits := (stackSize32_le slot.type).2
    rw [if_pos hfloat, hbytes]
    refine ⟨by simp, fun x hx => ?_⟩
    obtain rfl := List.mem_singleton.mp hx
    exact ⟨_, rfl, le_refl _, Int.add_le_add_left (Int.ofNat_le.mpr hfits) _⟩
  · rw [if_neg hfloat] at hhome ⊢
    have hlow : slot.Holds fp (offset fp (-slot.offset.toInt)) 4 := ⟨_, rfl, le_refl _, by omega⟩
    have hhigh : slot.Holds fp (offset fp (-slot.offset.toInt + 4)) 4 :=
      ⟨_, rfl, by omega, by omega⟩
    by_cases hlong : isLong slot.type
    · rw [if_pos hlong]
      refine ⟨(by simpa [isLong] using hlong : slot.type.stackSize32 = 8).symm, fun x hx => ?_⟩
      rcases List.mem_cons.mp hx with rfl | hx
      · exact hlow
      · obtain rfl := List.mem_singleton.mp hx
        exact hhigh
    · rw [if_neg hlong]
      have hfour : 4 = slot.type.stackSize32 := by
        revert hlong
        cases slot.type <;> decide
      refine ⟨hfour, fun x hx => ?_⟩
      obtain rfl := List.mem_singleton.mp hx
      exact hlow

theorem Opened.copiesParameters {params : List ValueType} {scratch : List UInt32} {frame : Frame}
    {s t : State} (hl : frame.Laid params scratch) (hroom : frame.size + 4 ≤ (s.gpr .esp).toNat)
    (hruns : Runs (Between (offset (s.gpr .esp) (-4)) (-frame.size) 4) (prologue frame) s t)
    (h : Opened frame s t)
    (hstores : storesOf (prologue frame) s = (offset (s.gpr .esp) (-4), 4) ::
      (frame.homes.map (homeStores (offset (s.gpr .esp) (-4)))).flatten) :
    CopiesParameters params frame (prologue frame) s t := by
  refine ⟨h.ebp, ?_, ?_, ?_, ?_, ?_⟩
  · rw [h.ebp, h.esp]
  · rw [h.ebp, h.saved]
  · intro i type htype
    have hlt : i < (homes frame).length := by
      rw [← List.length_map (·.1), homes, map_homesFrom, hl.homes_length]
      exact (List.getElem?_eq_some_iff.mp htype).1
    obtain ⟨⟨slot, d⟩, hd⟩ : ∃ p, (homes frame)[i]? = some p := ⟨_, List.getElem?_eq_getElem hlt⟩
    obtain ⟨hslot, hsource, -⟩ := toInt_homes hl hd
    obtain rfl : slot.type = type := Option.some.inj ((hl.type_of_home hslot).symm.trans htype)
    refine ⟨slot, hslot, rfl, ?_⟩
    rw [h.ebp, h.home i slot d hd, hsource, Nat.cast_add]
    rfl
  · intro x hx
    refine hruns.mem_eq fun hbetween => Nat.not_lt.mpr hx ?_
    exact hbetween.toNat_lt rfl hroom (by omega) (by omega)
  · rw [h.ebp]
    refine ⟨_, hstores, by rw [List.length_map, hl.homes_length], ?_⟩
    intro i group hgroup
    rw [List.getElem?_map] at hgroup
    obtain ⟨slot, hslot, rfl⟩ := Option.map_eq_some_iff.mp hgroup
    exact ⟨slot, hslot, homeStores_spec _ slot⟩

/-- The bytes of a prologue copy every parameter to its home slot, from whatever state the
trampoline is entered in.  A machine that finds them outside the stack executes them. -/
theorem prologue_copies_parameters {params : List ValueType} {scratch : List UInt32}
    {frame : Frame} (hframe : Frame.layout params scratch = .ok frame) (s : State)
    (hroom : frame.size + 4 ≤ (s.gpr .esp).toNat) :
    ∃ is t, decodeAll (Target.ia32.prologueCode frame) = some is ∧
      Runs (Between (offset (s.gpr .esp) (-4)) (-frame.size) 4) is s t ∧
      CopiesParameters params frame is s t ∧
      (s.mem.Hosts s.eip (Target.ia32.prologueCode frame) (s.gpr .esp) (frame.size + 4) →
        Reaches s t ∧ t.eip = offset s.eip (Target.ia32.prologueCode frame).length) := by
  have hl := Frame.laid_of_layout hframe
  obtain ⟨t, hruns, hopened, hstores⟩ := runs_prologue hl s
  refine ⟨_, t, decodeAll_encodeAll _, hruns, hopened.copiesParameters hl hroom hruns hstores,
    fun hhosts => ⟨?_, hruns.eip_eq⟩⟩
  refine hruns.reaches ?_ hhosts.placed (.refl _ _)
  exact Memory.not_between_of_apart hhosts.apart rfl (by omega) (by omega)

/-- Parameters of every size on the stack, with both kinds of floating ones and a scratch buffer. -/
theorem prologue_copies_parameters_five :
    let params : List ValueType := [.byte, .qword, .float, .double, .pointer]
    let frame : Frame := ⟨[⟨.byte, 8⟩, ⟨.qword, 16⟩, ⟨.float, 32⟩, ⟨.double, 48⟩, ⟨.pointer, 56⟩],
      [⟨24, 80⟩], 56, 24⟩
    Frame.layout params [24] = .ok frame ∧
      ∃ s : State, frame.size + 4 ≤ (s.gpr .esp).toNat ∧
        ∃ is t, decodeAll (Target.ia32.prologueCode frame) = some is ∧
          CopiesParameters params frame is s t ∧ Reaches s t := by
  intro params frame
  have hframe : Frame.layout params [24] = .ok frame := by decide
  have hlength : (Target.ia32.prologueCode frame).length < 2 ^ 20 := by decide
  have hsize : frame.size = 80 := by decide
  let s : State := ⟨fun _ => offset 0 16777216, fun _ => 0, 0, 0,
    Memory.write (fun _ => 0) 0 (Target.ia32.prologueCode frame)⟩
  have hroom : frame.size + 4 ≤ (s.gpr .esp).toNat := by
    rw [hsize]
    exact Nat.le_of_ble_eq_true rfl
  obtain ⟨is, t, his, -, hcopies, hreaches⟩ := prologue_copies_parameters hframe s hroom
  refine ⟨hframe, s, hroom, is, t, his, hcopies, (hreaches ?_).1⟩
  exact Memory.hosts_write _ 0 (by omega) (by omega)

end Trampoline.Ia32
