/-
Trampoline/Proofs/Amd64/Delivery.lean

What the code of one call has done when the call is about to be made.

The code of a call may stand anywhere in a finished trampoline, whose bytes are
placed anywhere in memory.  A machine that comes to it with the stack at rest
executes it up to the call instruction (`Reaches`), and then every argument is in
the register or the stack slot that the convention gives it, whatever its value
and its type (`Delivered`).  Nothing else has changed but what lies below the
frame and the three registers that the code keeps for itself.
-/
import Mathlib
import Trampoline.Proofs.Amd64.Execution
import Trampoline.Proofs.Amd64.Size

namespace Trampoline.Amd64

open Memory (offset Between StandsAt)

/-! ### Where arguments are at a call -/

/-- The first `n` bytes of an argument, in the state in which the call is about to be made: the
shadow space lies at the stack pointer, and the stack arguments above it. -/
def Location.atCall (abi : Abi) (t : State) (n : Nat) : Location → Code
  | reg r => littleEndian n (t.reg r)
  | slot k => t.mem.read (offset (t.gpr .rsp) (abi.shadowSpace + 8 * k : Nat)) n

namespace Abi

variable {abi : Abi} {args : List Operand}

/-- What is loaded into a register has it as its location. -/
theorem location_of_mem_registerLoads {r : Reg} {a : Operand}
    (h : (r, a) ∈ (abi.classify (args.map (·.type))).registerLoads args) :
    ∃ i, args[i]? = some a ∧ abi.location (args.map (·.type)) i = some (.reg r) := by
  obtain ⟨i, ha, hp⟩ := Plan.exists_of_mem_registerLoads h
  refine ⟨i, ha, ?_⟩
  have htype : (args.map (·.type))[i]? = some a.type := by
    rw [List.getElem?_map, ha]
    rfl
  rw [placements_classify, getElem?_places, htype, Option.map_some, Option.some.injEq] at hp
  rw [location, htype, Option.map_some, hp]

/-- How many arguments of the given types are in SSE registers. -/
def sseCount (abi : Abi) (types : List ValueType) : Nat :=
  (abi.places types).countP fun p => p.reg?.any Reg.isXmm

/-- Floating arguments in registers and arguments in SSE registers are the same. -/
theorem Lawful.floatRegCount_eq_sseCount (hl : abi.Lawful) (args : List Operand) :
    (abi.classify (args.map (·.type))).floatRegCount args = abi.sseCount (args.map (·.type)) := by
  have hfile : ((abi.classify (args.map (·.type))).registerLoads args).countP (·.2.isFloat)
      = ((abi.classify (args.map (·.type))).registerLoads args).countP (·.1.isXmm) := by
    refine List.countP_congr fun x hx => ?_
    rw [(hl.register hx rfl).1]
  have hzip : (args.zip (abi.places (args.map (·.type)))).map Prod.snd
      = abi.places (args.map (·.type)) := by
    refine List.map_snd_zip ?_
    rw [length_places, List.length_map]
  rw [Plan.floatRegCount_eq, hfile, Plan.registerLoads, List.countP_filterMap,
    placements_classify, sseCount, ← hzip, List.countP_map, hzip]
  refine List.countP_congr fun x _ => ?_
  cases hreg : x.2.reg? <;> simp [hreg]

end Abi

/-! ### Delivery -/

/-- A state between two calls, with finished code at `base`: the stack pointer is at the end of the
frame, and what a call takes below it does not wrap around and does not meet the code. -/
structure Poised (abi : Abi) (frame : Frame) (site : CallSite) (base : BitVec 64) (code : Code)
    (s : State) : Prop where
  rsp : s.gpr .rsp = offset (s.gpr .rbp) (-frame.size)
  room : frame.size + callDepth abi frame site ≤ (s.gpr .rbp).toNat
  placed : s.mem.read base code.length = code
  apart : Memory.Apart base code.length
    (offset (s.gpr .rbp) (-(frame.size + callDepth abi frame site : Nat)))
    (callDepth abi frame site)

/-- What the code of a call has done between `s`, where it starts, and `t`, where the call is about
to be made. -/
structure Delivered (abi : Abi) (frame : Frame) (site : CallSite) (s t : State) : Prop where
  /-- Every argument is where the convention wants it. -/
  args : ∀ (i : Nat) (a : Operand), site.args[i]? = some a →
    ∃ loc, abi.location site.types i = some loc ∧
      loc.atCall abi t a.type.size = a.bytesIn frame (s.gpr .rbp) s.mem
  callee : t.gpr .r11 = site.callee.toBitVec
  vectors : abi.vectorCount = true → (t.gpr .rax).toNat = abi.sseCount site.types
  rsp : t.gpr .rsp = offset (s.gpr .rsp) (-callDepth abi frame site)
  /-- The frame and everything above it are as they were. -/
  memory : ∀ x : BitVec 64, (s.gpr .rsp).toNat ≤ x.toNat → t.mem x = s.mem x
  registers : ∀ q, q ≠ Reg.gpr .rsp → q ≠ .gpr .rax → q ≠ .gpr .r11 →
    (∀ i, abi.location site.types i ≠ some (.reg q)) → t.reg q = s.reg q

section

variable {params : List ValueType} {scratch : List UInt32} {frame : Frame} {abi : Abi}
  {site : CallSite} {base : BitVec 64} {code : Code} {s t : State}

/-- The code does not meet what a call stores. -/
theorem Poised.clear (h : Poised abi frame site base code s) :
    ∀ k < code.length, ¬ Between (s.gpr .rbp) (-(frame.size + callDepth abi frame site : Nat))
      (-frame.size) (base + BitVec.ofNat 64 k) :=
  Memory.not_between_of_apart h.apart (Memory.offset_zero _).symm (by omega) (by omega)

/-- What a call stores lies below the frame. -/
theorem Poised.below (h : Poised abi frame site base code s) {x : BitVec 64}
    (hx : (s.gpr .rsp).toNat ≤ x.toNat) :
    ¬ Between (s.gpr .rbp) (-(frame.size + callDepth abi frame site : Nat)) (-frame.size) x := by
  have hroom := h.room
  have hlt := (s.gpr .rbp).isLt
  have hsp : ((s.gpr .rsp).toNat : Int) = (s.gpr .rbp).toNat + -frame.size := by
    rw [h.rsp]
    exact Memory.toNat_offset (by omega) (by omega)
  have hfp : s.gpr .rbp = offset (s.gpr .rsp) frame.size := by
    rw [h.rsp, Memory.offset_offset, Int.add_left_neg, Memory.offset_zero]
  intro hbetween
  exact Nat.not_lt.mpr hx
    (hbetween.toNat_lt hfp (n := callDepth abi frame site) (by omega) (by omega) (by omega))

/-- A machine that comes to the code of a call goes through it up to the call instruction, stores
below the frame only, and has then delivered the arguments. -/
theorem Poised.reaches (hl : frame.Laid params scratch) (hlaw : abi.Lawful)
    (hargs : site.args.length < 2 ^ 27) {lines : List Line} {is : List Instr}
    (hlines : callLines abi frame site = .ok lines) (hs : Poised abi frame site base code s)
    (hr : Realizes (StandsAt base code) s.rip lines is)
    (hstands : StandsAt base code s.rip (encodeAll is)) :
    ∃ t before, Reaches s t ∧
      t.current? = some (.call .r11, offset t.rip (Instr.call .r11).encode.length) ∧
      Delivered abi frame site s t ∧
      Runs (Between (s.gpr .rbp) (-(frame.size + callDepth abi frame site : Nat)) (-frame.size))
        before s t := by
  have hsize := hl.size_lt
  have hdepth := callDepth_lt hlaw frame hargs
  obtain ⟨before, t, rfl, hruns, hready, hothers, hcarries⟩ :=
    runs_call hl hlaw hargs hlines hr rfl hs.rsp
  have hcode := hruns.code_eq hs.clear hs.placed
  obtain ⟨hreaches, hcurrent⟩ := hruns.reaches_next hs.clear hs.placed hstands
  refine ⟨t, before, hreaches, hcurrent, ?_, hruns⟩
  have hbytes : ∀ a : Operand, a.bytesIn frame (s.gpr .rbp) t.mem
      = a.bytesIn frame (s.gpr .rbp) s.mem :=
    hl.bytesIn_congr fun z n hz hz' => hruns.read_offset (.inr hz) (by omega) (by omega)
  refine ⟨?_, hready.callee, ?_, ?_, ?_, ?_⟩
  · intro i a ha
    obtain ⟨loc, hloc⟩ := abi.exists_location (CallSite.getElem?_types ha)
    refine ⟨loc, hloc, ?_⟩
    rw [← hbytes]
    cases loc with
    | reg r =>
        exact (hcarries (fun x bytes hfound => hfound.read_eq hcode) _
          (Abi.mem_registerLoads ha hloc)).1
    | slot k => exact hready.slots k a (abi.getElem?_stackOperands ha hloc)
  · intro hv
    rw [hready.vectors hv, CallSite.types, ← hlaw.floatRegCount_eq hv,
      hlaw.floatRegCount_eq_sseCount]
  · rw [hready.rsp, hs.rsp, Memory.offset_offset]
    congr 1
    omega
  · intro x hx
    exact hruns.mem_eq (hs.below hx)
  · intro q hsp hax hr11 hq
    refine hothers q hsp hax hr11 fun hmem => ?_
    obtain ⟨x, hx, rfl⟩ := List.mem_map.mp hmem
    obtain ⟨i, -, hloc⟩ := Abi.location_of_mem_registerLoads hx
    exact hq i hloc

/-- The same for the fragment of a call among other code, once literals are placed. -/
theorem Poised.reaches_assembled (hl : frame.Laid params scratch) (hlaw : abi.Lawful)
    (hargs : site.args.length < 2 ^ 27) {lines ls ms : List Line}
    (hlines : callLines abi frame site = .ok lines) {front back g : Fragment}
    {placed : List Resolved} (hfront : assemble ls = .ok front) (hback : assemble ms = .ok back)
    (hresolve : (front ++ draft lines ++ back).resolve = .ok (g, placed))
    (hs : Poised abi frame site base g.code s) (hrip : s.rip = offset base front.code.length) :
    ∃ t before, Reaches s t ∧
      t.current? = some (.call .r11, offset t.rip (Instr.call .r11).encode.length) ∧
      Delivered abi frame site s t ∧
      Runs (Between (s.gpr .rbp) (-(frame.size + callDepth abi frame site : Nat)) (-frame.size))
        before s t := by
  rw [assemble_eq] at hfront hback
  obtain rfl := Except.ok.inj hfront
  obtain rfl := Except.ok.inj hback
  rw [← draft_append, ← draft_append] at hresolve
  obtain ⟨is, literals, hcode, hreal⟩ := realizes_resolve hresolve base
  -- the instructions before the call, of the call, and after it
  obtain ⟨first, last, rfl, hfirst, hlast⟩ := hreal.append_left
  obtain ⟨before, call, rfl, hbefore, hcall⟩ := hfirst.append_left
  have hstands : StandsAt base g.code s.rip (encodeAll call) := by
    refine ⟨encodeAll before, encodeAll last ++ literals, ?_, ?_⟩
    · rw [hcode, encodeAll_append, encodeAll_append]
      simp only [List.append_assoc]
    · rw [hrip, hbefore.length_eq]
  rw [hbefore.length_eq, ← hrip] at hcall
  exact hs.reaches hl hlaw hargs hlines hcall hstands

end

end Trampoline.Amd64
