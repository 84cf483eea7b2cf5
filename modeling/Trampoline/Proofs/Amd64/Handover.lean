/-
Trampoline/Proofs/Amd64/Handover.lean

Calling a trampoline on x86-64: the call side meets the entry side.

The code of a call finds the places of its arguments by pushing them in reverse
order above the shadow space.  The prologue of the trampoline that is called finds
the places of its parameters by counting forward from the return address.  Both are
the location that the convention gives to an argument, seen from the state in which
the call is about to be made: a register keeps its value while the callee is
entered, and the stack slot `k` is at one and the same address above the stack
pointer of the call and above the frame pointer of the callee (`Homed`).

So what a call delivers is what the callee has in its home slots when its prologue
is through.
-/
import Mathlib
import Trampoline.Proofs.Amd64.Delivery

namespace Trampoline.Amd64

open Memory (offset Between StandsAt)

/-! ### Entering -/

/-- What a call instruction does: it goes to the callee and pushes the return address. -/
theorem exec_call (r : Gpr) (next : BitVec 64) (t : State) :
    let e := (Instr.call r).exec next t
    e.rip = t.gpr r ∧ e.gpr .rsp = offset (t.gpr .rsp) (-8) ∧
      (∀ q, q ≠ Reg.gpr .rsp → e.reg q = t.reg q) ∧
      e.mem = t.mem.writeNat (offset (t.gpr .rsp) (-8)) 8 next.toNat := by
  refine ⟨rfl, State.gpr_push_rsp { t with rip := next } next, ?_,
    State.mem_push { t with rip := next } next⟩
  rintro (q | x) hq
  · have hne : q ≠ .rsp := fun h => hq (by rw [h])
    exact congrArg BitVec.toNat (State.gpr_push_ne { t with rip := next } next hne)
  · rfl

/-- A place is the same on both sides of the call instruction, which puts the return address
below the stack arguments. -/
theorem Location.bytes_exec_call {abi : Abi} (hlaw : abi.Lawful) {types : List ValueType}
    (htypes : types.length ≤ 15) {i : Nat} {loc : Location}
    (hloc : abi.location types i = some loc) (r : Gpr) (next : BitVec 64) (t : State) {n : Nat}
    (hn : n ≤ 8) : loc.bytes abi ((Instr.call r).exec next t) n = loc.atCall abi t n := by
  obtain ⟨-, hrsp, hregs, hmem⟩ := exec_call r next t
  have hshadow := hlaw.shadow_le
  obtain ⟨q, rfl, hq⟩ | ⟨k, hk, rfl⟩ := hlaw.location_cases hloc
  · rw [bytes, atCall, hregs q fun h => hq (by simp [h])]
  · rw [bytes, atCall, hrsp, hmem, Memory.offset_offset,
      Memory.read_writeNat_of_apart _ _
        (Memory.apart_offset (.inr (by omega)) (by omega) (by omega))]
    congr 2
    omega

/-- A state in which a trampoline with the frame `callee` is about to be called: its code is where
the call goes, and does not meet the return address and the frame. -/
structure Entering (callee : Frame) (code : Code) (r : Gpr) (t : State) : Prop where
  current : ∃ next, t.current? = some (.call r, next)
  placed : t.mem.read (t.gpr r) code.length = code
  apart : Memory.Apart (t.gpr r) code.length
    (offset (t.gpr .rsp) (-(callee.size + 16 : Nat))) (callee.size + 16)

/-- What a trampoline with parameters of the given types has done between `t`, where it is about to
be called, and `h`, where its prologue is through. -/
structure Homed (abi : Abi) (types : List ValueType) (callee : Frame) (t h : State) : Prop where
  rbp : h.gpr .rbp = offset (t.gpr .rsp) (-16)
  /-- The prologue looks for a stack parameter above its frame pointer, and this is where the
  argument is above the stack pointer of the call. -/
  address : ∀ (i k : Nat), abi.location types i = some (.slot k) →
    offset (h.gpr .rbp) (callerArg abi k).toInt
      = offset (t.gpr .rsp) (abi.shadowSpace + 8 * k : Nat)
  /-- A home slot has the bytes of the place of its parameter. -/
  home : ∀ (i : Nat) (slot : HomeSlot) (loc : Location), callee.homes[i]? = some slot →
    abi.location types i = some loc → ∀ n ≤ 8,
      h.mem.read (offset (h.gpr .rbp) (-slot.offset.toInt)) n = loc.atCall abi t n

/-- A trampoline that is called takes every parameter from its place at the call. -/
theorem Entering.homed {abi : Abi} (hlaw : abi.Lawful) {types : List ValueType}
    {buffers : List UInt32} {callee : Frame} (hl : callee.Laid types buffers) {r : Gpr} {t : State}
    (ht : Entering callee (encodeAll (prologue abi callee)) r t) :
    ∃ e h, step t = some e ∧ Reaches e h ∧
      h.rip = offset (t.gpr r) (encodeAll (prologue abi callee)).length ∧
      Homed abi types callee t h := by
  have hsize := hl.size_lt
  have htypes : types.length ≤ 15 := hl.params_le
  have hshadow := hlaw.shadow_le
  obtain ⟨next, hcurrent⟩ := ht.current
  obtain ⟨hrip, hrsp, -, hmem⟩ := exec_call r next t
  set e := (Instr.call r).exec next t with he
  have hstep : step t = some e := by
    rw [step, hcurrent]
    rfl
  obtain ⟨h, hruns, hopened, -⟩ := runs_prologue hl hlaw e
  have hrbp := hopened.rbp
  have hhome := hopened.home
  have hfp : offset (e.gpr .rsp) (-8) = offset (t.gpr .rsp) (-16) := by
    rw [hrsp, Memory.offset_offset]
    rfl
  rw [hfp] at hruns hrbp hhome
  -- the code is apart from the return address and from the frame
  have hcode : e.mem.read (t.gpr r) (encodeAll (prologue abi callee)).length
      = encodeAll (prologue abi callee) := by
    rw [hmem, Memory.read_writeNat_of_apart _ _ (ht.apart.part (by omega) (by omega)), ht.placed]
  have hclear : ∀ k < (encodeAll (prologue abi callee)).length,
      ¬ Between (offset (t.gpr .rsp) (-16)) (-callee.size) 8 (t.gpr r + BitVec.ofNat 64 k) :=
    Memory.not_between_of_apart ht.apart rfl (by omega) (by omega)
  have hstands : StandsAt (t.gpr r) (encodeAll (prologue abi callee)) e.rip
      (encodeAll (prologue abi callee)) := hrip ▸ .refl _ _
  refine ⟨e, h, hstep, hruns.reaches hclear hcode hstands, hrip ▸ hruns.rip_eq, hrbp, ?_, ?_⟩
  · intro i k hloc
    obtain ⟨q, hq, -⟩ | ⟨k', hk, hk'⟩ := hlaw.location_cases hloc
    · cases hq
    · obtain rfl := Location.slot.inj hk'
      rw [callerArg, Int32.toInt_ofNat_of_lt (by omega), hrbp, Memory.offset_offset]
      congr 1
      omega
  · intro i slot loc hslot hloc n hn
    rw [hrbp, hhome i slot loc hslot hloc n hn, Location.bytes_exec_call hlaw htypes hloc r next t hn]

/-! ### From one trampoline to the other -/

/-- A trampoline with the frame `callee` where a call goes to: its code is there, and does not meet
what the call stores, the return address and the frame. -/
structure Awaiting (abi : Abi) (frame : Frame) (site : CallSite) (callee : Frame) (code : Code)
    (s : State) : Prop where
  placed : s.mem.read site.callee.toBitVec code.length = code
  apart : Memory.Apart site.callee.toBitVec code.length
    (offset (s.gpr .rbp) (-(frame.size + callDepth abi frame site + (callee.size + 16) : Nat)))
    (callDepth abi frame site + (callee.size + 16))

section

variable {abi : Abi} {frame callee : Frame} {site : CallSite} {base : BitVec 64} {code code' : Code}
  {s t h : State}

/-- The code that waits for a call is still there when the call is made. -/
theorem Awaiting.entering (ha : Awaiting abi frame site callee code' s)
    (hs : Poised abi frame site base code s) (hd : Delivered abi frame site s t)
    {before : List Instr}
    (hruns : Runs (Between (s.gpr .rbp) (-(frame.size + callDepth abi frame site : Nat))
      (-frame.size)) before s t)
    (hcurrent : ∃ next, t.current? = some (.call .r11, next)) :
    Entering callee code' .r11 t := by
  have hrsp : offset (t.gpr .rsp) (-(callee.size + 16 : Nat))
      = offset (s.gpr .rbp)
        (-(frame.size + callDepth abi frame site + (callee.size + 16) : Nat)) := by
    rw [hd.rsp, hs.rsp, Memory.offset_offset, Memory.offset_offset]
    congr 1
    omega
  refine ⟨hcurrent, ?_, ?_⟩
  · rw [hd.callee]
    refine hruns.code_eq ?_ ha.placed
    exact Memory.not_between_of_apart ha.apart (Memory.offset_zero _).symm (by omega) (by omega)
  · rw [hd.callee, hrsp]
    exact ha.apart.part (le_refl _) (by omega)

/-- What was delivered is in the home slots. -/
theorem Homed.bytes {buffers : List UInt32} (hl : callee.Laid site.types buffers)
    (hh : Homed abi site.types callee t h) (hd : Delivered abi frame site s t) {i : Nat}
    {a : Operand} {slot : HomeSlot} (ha : site.args[i]? = some a)
    (hslot : callee.homes[i]? = some slot) :
    slot.type = a.type ∧ a.type.size ≤ 8 ∧
      h.mem.read (offset (h.gpr .rbp) (-slot.offset.toInt)) a.type.size
        = a.bytesIn frame (s.gpr .rbp) s.mem := by
  have hsize := (Frame.homeSize_toNat a.type).2
  obtain ⟨loc, hloc, hbytes⟩ := hd.args i a ha
  refine ⟨?_, hsize, ?_⟩
  · exact Option.some.inj ((hl.type_of_home hslot).symm.trans (CallSite.getElem?_types ha))
  · rw [hh.home i slot loc hslot hloc _ hsize, hbytes]

end

end Trampoline.Amd64
