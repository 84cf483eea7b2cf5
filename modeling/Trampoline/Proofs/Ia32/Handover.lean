/-
Trampoline/Proofs/Ia32/Handover.lean

Calling a trampoline on IA-32: the call side meets the entry side.

A near call with the C convention pushes all of its arguments, the last one first, so
that argument `i` ends up above the stack pointer behind the slots of the arguments
before it (`Delivered`).  The prologue of the trampoline that is called adds up the
sizes of its parameters in their order, from the end of the return address on.  Both
come to one and the same address (`Homed`), and the prologue copies as many bytes as
the call has pushed.
-/
import Mathlib
import Trampoline.Proofs.Ia32.Delivery
import Trampoline.Proofs.Ia32.Prologue

namespace Trampoline.Ia32

open Memory (offset Between)

/-! ### Delivery -/

/-- Without registers everything is passed on the stack. -/
theorem passedOnStack_zero (args : List Operand) : passedOnStack 0 args = args := by
  induction args with
  | nil => rfl
  | cons a args ih => rw [passedOnStack_of_stack _ fun h => Nat.lt_irrefl 0 h.2, ih]

theorem slotsSize_eq (ops : List Operand) : slotsSize ops = stackTotal (ops.map (·.type)) := by
  rw [slotsSize, stackTotal, List.map_map]
  rfl

/-- A state between two calls, at the code of a call: the stack pointer is at the end of the frame,
and what the call takes below it does not meet the code. -/
structure Poised (frame : Frame) (site : CallSite) (code : Code) (s : State) : Prop where
  esp : s.gpr .esp = offset (s.gpr .ebp) (-frame.size)
  placed : s.mem.read s.eip code.length = code
  apart : Memory.Apart s.eip code.length
    (offset (s.gpr .ebp) (-(frame.size + callDepth frame site : Nat))) (callDepth frame site)

/-- What the code of a near call has done between `s`, where it starts, and `t`, where the call is
about to be made, if all arguments go to the stack. -/
structure Delivered (frame : Frame) (site : CallSite) (s t : State) : Prop where
  /-- Every argument is above the stack pointer, behind the arguments before it. -/
  args : ∀ (i : Nat) (a : Operand), site.args[i]? = some a →
    t.mem.read (offset (t.gpr .esp) (stackTotal (site.types.take i))) a.slotBytes
      = a.bytesIn32 frame (s.gpr .ebp) s.mem
  callee : t.gpr .eax = site.callee.toUInt32.toBitVec
  esp : t.gpr .esp = offset (s.gpr .esp) (-callDepth frame site)

section

variable {params : List ValueType} {scratch : List UInt32} {frame : Frame} {site : CallSite}
  {s : State}

/-- A machine that comes to the code of a near call goes through it up to the call instruction,
stores below the frame only, and has then delivered the arguments. -/
theorem Poised.reaches (hl : frame.Laid params scratch) (hargs : site.args.length < 2 ^ 27)
    (hvalid : ∀ a ∈ site.args, a.ValidIn frame) (hcdecl : site.convention = .cdecl)
    (hnear : site.far = false) {is : List Instr} (his : callInstrs frame site = .ok is)
    (hs : Poised frame site (encodeAll is) s) :
    ∃ t before, Reaches s t ∧ (∃ next, t.current? = some (.call .eax, next)) ∧
      Delivered frame site s t ∧
      Runs (Between (s.gpr .ebp) (-(frame.size + callDepth frame site : Nat)) (-frame.size))
        before s t := by
  have hsegment : segmentBytes site = 0 := by
    rw [segmentBytes, hnear]
    rfl
  obtain ⟨before, after, rfl, hall⟩ := runs_call hl hargs hvalid his
  obtain ⟨t, hruns, hpassed⟩ := hall s hs.esp
  rw [hsegment, Nat.add_zero] at hruns
  obtain ⟨hreaches, hcurrent⟩ := hruns.reaches_next
    (Memory.not_between_of_apart hs.apart (Memory.offset_zero _).symm (by omega) (by omega))
    hs.placed (.refl _ _)
  refine ⟨t, before, hreaches, ⟨_, hcurrent⟩, ⟨?_, hpassed.callee, ?_⟩, hruns⟩
  · intro i a ha
    -- no register is free, so every argument is on the stack
    have hstack : register? site.convention ((site.args.take i).map (·.type)) a.type = none := by
      rw [register?_eq_none, hcdecl]
      exact fun h => Nat.not_lt_zero _ h.2
    have hslot := hpassed.args i a ha
    rw [location_of_stack hstack, Location.atCall, hsegment, Nat.zero_add, hcdecl, registerCount,
      passedOnStack_zero, slotsSize_eq, List.map_take] at hslot
    exact hslot
  · rw [hpassed.esp, hsegment, Nat.add_zero]

end

/-! ### Entering -/

/-- What a call instruction does: it goes to the callee and pushes the return address. -/
theorem exec_call (r : Gpr) (next : BitVec 32) (t : State) :
    let e := (Instr.call r).exec next t
    e.eip = t.gpr r ∧ e.gpr .esp = offset (t.gpr .esp) (-4) ∧
      e.mem = t.mem.writeNat (offset (t.gpr .esp) (-4)) 4 next.toNat :=
  ⟨rfl, State.gpr_push_esp { t with eip := next } next, State.mem_push { t with eip := next } next⟩

/-- A state in which a trampoline with the frame `callee` is about to be called: its code is where
the call goes, and does not meet the return address and the frame. -/
structure Entering (callee : Frame) (code : Code) (r : Gpr) (t : State) : Prop where
  current : ∃ next, t.current? = some (.call r, next)
  placed : t.mem.read (t.gpr r) code.length = code
  apart : Memory.Apart (t.gpr r) code.length
    (offset (t.gpr .esp) (-(callee.size + 8 : Nat))) (callee.size + 8)

/-- What a trampoline with parameters of the given types has done between `t`, where it is about to
be called, and `h`, where its prologue is through. -/
structure Homed (types : List ValueType) (callee : Frame) (t h : State) : Prop where
  ebp : h.gpr .ebp = offset (t.gpr .esp) (-8)
  /-- The prologue looks for a parameter above its frame pointer, and this is where the argument
  is above the stack pointer of the call. -/
  address : ∀ (i : Nat) (slot : HomeSlot) (d : Int32), (homes callee)[i]? = some (slot, d) →
    offset (h.gpr .ebp) d.toInt = offset (t.gpr .esp) (stackTotal (types.take i))
  /-- A home slot has the bytes that were pushed for its parameter. -/
  home : ∀ (i : Nat) (slot : HomeSlot), callee.homes[i]? = some slot →
    h.mem.read (offset (h.gpr .ebp) (-slot.offset.toInt)) slot.type.stackSize32
      = t.mem.read (offset (t.gpr .esp) (stackTotal (types.take i))) slot.type.stackSize32

/-- A trampoline that is called takes every parameter from its place at the call. -/
theorem Entering.homed {types : List ValueType} {buffers : List UInt32} {callee : Frame}
    (hl : callee.Laid types buffers) {r : Gpr} {t : State}
    (ht : Entering callee (encodeAll (prologue callee)) r t) :
    ∃ e h, step t = some e ∧ Reaches e h ∧
      h.eip = offset (t.gpr r) (encodeAll (prologue callee)).length ∧
      Homed types callee t h := by
  have hsize := hl.size_lt
  have htypes : types.length ≤ 15 := hl.params_le
  obtain ⟨next, hcurrent⟩ := ht.current
  obtain ⟨heip, hesp, hmem⟩ := exec_call r next t
  set e := (Instr.call r).exec next t with he
  have hstep : step t = some e := by
    rw [step, hcurrent]
    rfl
  obtain ⟨h, hruns, hopened, -⟩ := runs_prologue hl e
  have hebp := hopened.ebp
  have hhome := hopened.home
  have hfp : offset (e.gpr .esp) (-4) = offset (t.gpr .esp) (-8) := by
    rw [hesp, Memory.offset_offset]
    rfl
  rw [hfp] at hruns hebp hhome
  -- the code is apart from the return address and from the frame
  have hcode : e.mem.read e.eip (encodeAll (prologue callee)).length
      = encodeAll (prologue callee) := by
    rw [heip, hmem, Memory.read_writeNat_of_apart _ _ (ht.apart.part (by omega) (by omega)),
      ht.placed]
  have hclear : ∀ k < (encodeAll (prologue callee)).length,
      ¬ Between (offset (t.gpr .esp) (-8)) (-callee.size) 4 (e.eip + BitVec.ofNat 32 k) := by
    rw [heip]
    exact Memory.not_between_of_apart ht.apart rfl (by omega) (by omega)
  -- where the prologue looks for a parameter
  have haddress : ∀ (i : Nat) (slot : HomeSlot) (d : Int32), (homes callee)[i]? = some (slot, d) →
      offset (offset (t.gpr .esp) (-8)) d.toInt
        = offset (t.gpr .esp) (stackTotal (types.take i)) := by
    intro i slot d hd
    obtain ⟨-, hd, -⟩ := toInt_homes hl hd
    rw [hd, Memory.offset_offset]
    congr 1
    omega
  refine ⟨e, h, hstep, hruns.reaches hclear hcode (.refl _ _), heip ▸ hruns.eip_eq, hebp, ?_, ?_⟩
  · rw [hebp]
    exact haddress
  · intro i slot hslot
    obtain ⟨⟨slot', d⟩, hd, rfl⟩ : ∃ p, (homes callee)[i]? = some p ∧ p.1 = slot := by
      rw [← map_homesFrom 8 callee.homes, List.getElem?_map] at hslot
      exact Option.map_eq_some_iff.mp hslot
    have hcopied := (stackSize32_le slot'.type).1
    have htotal := stackTotal_take_le types i
    have hread := hhome i slot' d hd
    rw [haddress i slot' d hd, hmem, Memory.read_writeNat_of_apart _ _
      (Memory.apart_offset (.inr (by omega)) (by omega) (by omega))] at hread
    rw [hebp]
    exact hread

/-! ### From one trampoline to the other -/

/-- A trampoline with the frame `callee` where a call goes to: its code is there, and does not meet
what the call stores, the return address and the frame. -/
structure Awaiting (frame : Frame) (site : CallSite) (callee : Frame) (code : Code) (s : State) :
    Prop where
  placed : s.mem.read site.callee.toUInt32.toBitVec code.length = code
  apart : Memory.Apart site.callee.toUInt32.toBitVec code.length
    (offset (s.gpr .ebp) (-(frame.size + callDepth frame site + (callee.size + 8) : Nat)))
    (callDepth frame site + (callee.size + 8))

section

variable {frame callee : Frame} {site : CallSite} {code code' : Code} {s t h : State}

/-- The code that waits for a call is still there when the call is made. -/
theorem Awaiting.entering (ha : Awaiting frame site callee code' s)
    (hs : Poised frame site code s) (hd : Delivered frame site s t) {before : List Instr}
    (hruns : Runs (Between (s.gpr .ebp) (-(frame.size + callDepth frame site : Nat))
      (-frame.size)) before s t)
    (hcurrent : ∃ next, t.current? = some (.call .eax, next)) :
    Entering callee code' .eax t := by
  have hesp : offset (t.gpr .esp) (-(callee.size + 8 : Nat))
      = offset (s.gpr .ebp) (-(frame.size + callDepth frame site + (callee.size + 8) : Nat)) := by
    rw [hd.esp, hs.esp, Memory.offset_offset, Memory.offset_offset]
    congr 1
    omega
  refine ⟨hcurrent, ?_, ?_⟩
  · rw [hd.callee]
    refine hruns.code_eq ?_ ha.placed
    exact Memory.not_between_of_apart ha.apart (Memory.offset_zero _).symm (by omega) (by omega)
  · rw [hd.callee, hesp]
    exact ha.apart.part (le_refl _) (by omega)

/-- What was delivered is in the home slots. -/
theorem Homed.bytes {buffers : List UInt32} (hl : callee.Laid site.types buffers)
    (hh : Homed site.types callee t h) (hd : Delivered frame site s t) {i : Nat} {a : Operand}
    {slot : HomeSlot} (ha : site.args[i]? = some a) (hslot : callee.homes[i]? = some slot) :
    slot.type = a.type ∧ a.slotBytes ≤ slot.type.stackSize32 ∧
      h.mem.read (offset (h.gpr .ebp) (-slot.offset.toInt)) a.slotBytes
        = a.bytesIn32 frame (s.gpr .ebp) s.mem := by
  have hsame : slot.type = a.type :=
    Option.some.inj ((hl.type_of_home hslot).symm.trans (CallSite.getElem?_types ha))
  have hle : a.slotBytes ≤ slot.type.stackSize32 := by
    rw [hsame, Operand.slotBytes]
    exact Nat.min_le_right _ _
  refine ⟨hsame, hle, ?_⟩
  rw [← hd.args i a ha, ← Memory.take_read _ _ hle, hh.home i slot hslot, Memory.take_read _ _ hle]

end

end Trampoline.Ia32
