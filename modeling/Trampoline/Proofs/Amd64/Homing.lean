/-
Trampoline/Proofs/Amd64/Homing.lean

What the bytes of a prologue do on x86-64.

A trampoline is entered with its parameters where the native convention has them:
in registers, counted by class or by position, and past the registers in stack
slots.  The bytes of the prologue are read back into instructions, and these put
every parameter into the home slot that the frame has for it (`HomesParameters`).
It can be found there for the whole run, because a call only looks at home slots.

Each parameter takes one store.  An SSE register is spilled whole, with sixteen
bytes, and still stays in its own slot, because floating parameters have slots of
sixteen bytes; the stores are therefore listed one by one, and not only as a region
of memory (`storesOf`).
-/
import Mathlib
import Trampoline.Proofs.Amd64.Execution

namespace Trampoline.Amd64

open Memory (offset Between)

/-- What the instructions `is` of a prologue have done between `s`, where the trampoline is
entered, and `t`. -/
structure HomesParameters (abi : Abi) (params : List ValueType) (frame : Frame) (is : List Instr)
    (s t : State) : Prop where
  rbp : t.gpr .rbp = offset (s.gpr .rsp) (-8)
  rsp : t.gpr .rsp = offset (t.gpr .rbp) (-frame.size)
  saved : t.mem.read (t.gpr .rbp) 8 = littleEndian 8 (s.gpr .rbp).toNat
  /-- The home slot of a parameter has its bytes, as they came in. -/
  home : ∀ (i : Nat) (type : ValueType), params[i]? = some type →
    ∃ slot loc, frame.homes[i]? = some slot ∧ slot.type = type ∧
      abi.location params i = some loc ∧
      t.mem.read (offset (t.gpr .rbp) (-slot.offset.toInt)) type.size = loc.bytes abi s type.size
  /-- The return address and everything above it are as they were. -/
  memory : ∀ x : BitVec 64, (s.gpr .rsp).toNat ≤ x.toNat → t.mem x = s.mem x
  registers : ∀ r ∈ abi.budget.ints ++ abi.budget.floats, t.reg r = s.reg r
  /-- After the frame pointer is saved there is one store for each parameter, inside its slot. -/
  stores : ∃ stores, storesOf is s = (t.gpr .rbp, 8) :: stores ∧ stores.length = params.length ∧
    ∀ (i : Nat) (a : BitVec 64) (n : Nat), stores[i]? = some (a, n) →
      ∃ slot, frame.homes[i]? = some slot ∧
        n = storeWidth (abi.place (params.take i) slot.type) ∧ slot.Holds (t.gpr .rbp) a n

section

variable {abi : Abi} {params : List ValueType} {scratch : List UInt32} {frame : Frame} {s t : State}

/-- What is stored for a parameter fits its home slot. -/
theorem Storable.storeWidth_le {hi : Int} {slot : HomeSlot} {place : Placement Reg}
    (h : Storable frame hi slot place) : storeWidth place ≤ slot.type.homeSize.toNat := by
  have hsize := (Frame.homeSize_toNat slot.type).1
  rcases place with (r | x) | -
  · show 8 ≤ _
    split at hsize <;> omega
  · rw [if_pos (h.float x rfl)] at hsize
    exact hsize.ge
  · show 8 ≤ _
    split at hsize <;> omega

/-- Each home slot gets one store, and the store stays inside it. -/
theorem homeStore_spec (hl : frame.Laid params scratch) (hlaw : abi.Lawful) (fp : BitVec 64)
    {i : Nat} {a : BitVec 64} {n : Nat}
    (h : ((homes abi frame).map (homeStore fp))[i]? = some (a, n)) :
    ∃ slot, frame.homes[i]? = some slot ∧
      n = storeWidth (abi.place (params.take i) slot.type) ∧ slot.Holds fp a n := by
  rw [List.getElem?_map] at h
  obtain ⟨⟨slot, place⟩, hx, hstore⟩ := Option.map_eq_some_iff.mp h
  obtain ⟨rfl, rfl⟩ := Prod.mk.inj hstore
  obtain ⟨hslot, hplace⟩ := (getElem?_homes hl).mp hx
  have hfits := (storable_of_laid hl hlaw hslot hplace (le_refl _)).storeWidth_le
  rw [abi.getElem?_places, hl.type_of_home hslot, Option.map_some, Option.some.injEq] at hplace
  exact ⟨slot, hslot, congrArg storeWidth hplace.symm, _, rfl, le_refl _,
    Int.add_le_add_left (Int.ofNat_le.mpr hfits) _⟩

theorem Opened.homesParameters (hl : frame.Laid params scratch) (hlaw : abi.Lawful)
    (hroom : frame.size + 8 ≤ (s.gpr .rsp).toNat)
    (hruns : Runs (Between (offset (s.gpr .rsp) (-8)) (-frame.size) 8) (prologue abi frame) s t)
    (h : Opened abi params frame s t)
    (hstores : storesOf (prologue abi frame) s = (offset (s.gpr .rsp) (-8), 8) ::
      (homes abi frame).map (homeStore (offset (s.gpr .rsp) (-8)))) :
    HomesParameters abi params frame (prologue abi frame) s t := by
  refine ⟨h.rbp, ?_, ?_, ?_, ?_, ?_, ?_⟩
  · rw [h.rbp, h.rsp]
  · rw [h.rbp, h.saved]
  · intro i type htype
    have hlt : i < frame.homes.length := by
      rw [hl.homes_length]
      exact (List.getElem?_eq_some_iff.mp htype).1
    have hslot := List.getElem?_eq_getElem hlt
    obtain ⟨loc, hloc⟩ := abi.exists_location htype
    have hsame := Option.some.inj ((hl.type_of_home hslot).symm.trans htype)
    refine ⟨_, loc, hslot, hsame, hloc, ?_⟩
    rw [h.rbp, h.home i _ loc hslot hloc _ type.size_le]
  · intro x hx
    refine hruns.mem_eq fun hbetween => Nat.not_lt.mpr hx ?_
    exact hbetween.toNat_lt rfl hroom (by omega) (by omega)
  · intro r hr
    have hclear := hlaw.notMem_of_mem hr
    simp only [List.mem_cons, List.not_mem_nil, or_false, not_or] at hclear
    exact h.registers r hclear.2.1 hclear.2.2.1 hclear.1
  · rw [h.rbp]
    refine ⟨_, hstores, ?_, fun i a n hi => homeStore_spec hl hlaw _ hi⟩
    rw [List.length_map, length_homes hl]

end

/-- The bytes of a prologue bring every parameter home, from whatever state the trampoline is
entered in.  A machine that finds them outside the stack executes them. -/
theorem prologue_homes_parameters {target : Target} {abi : Abi} (htarget : target.abi? = some abi)
    {params : List ValueType} {scratch : List UInt32} {frame : Frame}
    (hframe : Frame.layout params scratch = .ok frame) (s : State)
    (hroom : frame.size + 8 ≤ (s.gpr .rsp).toNat) :
    ∃ is t, decodeAll (target.prologueCode frame) = some is ∧
      Runs (Between (offset (s.gpr .rsp) (-8)) (-frame.size) 8) is s t ∧
      HomesParameters abi params frame is s t ∧
      (s.mem.Hosts s.rip (target.prologueCode frame) (s.gpr .rsp) (frame.size + 8) →
        Reaches s t ∧ t.rip = offset s.rip (target.prologueCode frame).length) := by
  have hl := Frame.laid_of_layout hframe
  have hlaw := Abi.lawful_of_target htarget
  obtain ⟨t, hruns, hopened, hstores⟩ := runs_prologue hl hlaw s
  have hcode : target.prologueCode frame = encodeAll (prologue abi frame) := by
    rw [Target.prologueCode, htarget]
  rw [hcode]
  refine ⟨_, t, decodeAll_encodeAll _, hruns, hopened.homesParameters hl hlaw hroom hruns hstores,
    fun hhosts => ⟨?_, hruns.rip_eq⟩⟩
  refine hruns.reaches ?_ hhosts.placed (.refl _ _)
  exact Memory.not_between_of_apart hhosts.apart rfl (by omega) (by omega)

/-- Six parameters, of which two come on the stack above the shadow space, a floating one among
them, and a scratch buffer. -/
theorem prologue_homes_parameters_six :
    let params : List ValueType := [.double, .byte, .float, .qword, .double, .word]
    let frame : Frame := ⟨[⟨.double, 16⟩, ⟨.byte, 24⟩, ⟨.float, 40⟩, ⟨.qword, 48⟩, ⟨.double, 64⟩,
      ⟨.word, 72⟩], [⟨24, 96⟩], 72, 24⟩
    Frame.layout params [24] = .ok frame ∧
      ∃ s : State, frame.size + 8 ≤ (s.gpr .rsp).toNat ∧
        ∃ is t, decodeAll (Target.microsoft.prologueCode frame) = some is ∧
          HomesParameters .microsoft params frame is s t ∧ Reaches s t := by
  intro params frame
  have hframe : Frame.layout params [24] = .ok frame := by decide
  have hlength : (Target.microsoft.prologueCode frame).length < 2 ^ 32 := by decide
  have hsize : frame.size = 96 := by decide
  let s : State := ⟨fun _ => offset 0 1099511627776, fun _ => 0, 0,
    Memory.write (fun _ => 0) 0 (Target.microsoft.prologueCode frame)⟩
  have hroom : frame.size + 8 ≤ (s.gpr .rsp).toNat := by
    rw [hsize]
    exact Nat.le_of_ble_eq_true rfl
  obtain ⟨is, t, his, -, hhomes, hreaches⟩ :=
    @prologue_homes_parameters .microsoft .microsoft rfl _ _ _ hframe s hroom
  refine ⟨hframe, s, hroom, is, t, his, hhomes, (hreaches ?_).1⟩
  exact Memory.hosts_write _ 0 (by omega) (by omega)

end Trampoline.Amd64
