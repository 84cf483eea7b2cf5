/-
Trampoline/Proofs/Ia32/Delivery.lean

What the code of one call has done on IA-32 when the call is about to be made.

The first arguments that fit a register go to `ecx` and `edx`, as far as the convention
has them.  All other arguments are at the stack pointer, one behind the other in
argument order, and above the code segment if the call is far (`location`).  The code
pushes them in reverse and goes through `eax`, which has the address of the callee in
the end.

The bytes of a call are read back into instructions, and a machine that comes to them
with the stack at rest executes them up to the call instruction (`Passed`).
-/
import Mathlib
import Trampoline.Proofs.Ia32.Call
import Trampoline.Proofs.Target

namespace Trampoline.Ia32

open Memory (offset Between)

/-! ### Where arguments are at a call -/

/-- The place of an argument: a register, or a distance from the first stack argument. -/
inductive Location
  | reg (r : Gpr)
  | slot (d : Nat)
  deriving DecidableEq, Repr

/-- The place of an argument after the arguments `earlier`. -/
def location (c : Convention) (earlier : List Operand) (a : Operand) : Location :=
  match register? c (earlier.map (·.type)) a.type with
  | some r => .reg r
  | none => .slot (slotsSize (passedOnStack (registerCount c) earlier))

/-- The first `n` bytes of an argument, in the state in which the call is about to be made. -/
def Location.atCall (site : CallSite) (t : State) (n : Nat) : Location → Code
  | reg r => littleEndian n (t.gpr r).toNat
  | slot d => t.mem.read (offset (t.gpr .esp) (segmentBytes site + d : Nat)) n

theorem location_of_register {c : Convention} {earlier : List Operand} {a : Operand} {r : Gpr}
    (h : register? c (earlier.map (·.type)) a.type = some r) : location c earlier a = .reg r := by
  rw [location, h]

theorem location_of_stack {c : Convention} {earlier : List Operand} {a : Operand}
    (h : register? c (earlier.map (·.type)) a.type = none) :
    location c earlier a = .slot (slotsSize (passedOnStack (registerCount c) earlier)) := by
  rw [location, h]

/-- Without a register an argument does not fit one, or all of them are taken. -/
theorem register?_eq_none {c : Convention} {earlier : List ValueType} {t : ValueType} :
    register? c earlier t = none ↔
      ¬ (fitsRegister t = true ∧ earlier.countP fitsRegister < registerCount c) := by
  have hcount : ([Gpr.ecx, .edx].take (registerCount c)).length = registerCount c := by
    cases c <;> rfl
  rw [register?]
  split
  · rename_i hfits
    rw [List.getElem?_eq_none_iff, hcount]
    exact ⟨fun h h' => Nat.not_lt.mpr h h'.2, fun h => Nat.not_lt.mp fun h' => h ⟨hfits, h'⟩⟩
  · rename_i hfits
    exact ⟨fun _ h => hfits h.1, fun _ => rfl⟩

/-- Arguments that go to registers leave fewer of them to the arguments behind. -/
theorem passedOnStack_append (n : Nat) (xs ys : List Operand) :
    passedOnStack n (xs ++ ys)
      = passedOnStack n xs ++ passedOnStack (n - (xs.map (·.type)).countP fitsRegister) ys := by
  induction xs generalizing n with
  | nil => rfl
  | cons a xs ih =>
      rw [List.cons_append, List.map_cons, List.countP_cons]
      by_cases hfits : fitsRegister a.type = true
      · rw [if_pos hfits]
        rcases Nat.eq_zero_or_pos n with rfl | hn
        · rw [passedOnStack_of_stack _ (by omega), passedOnStack_of_stack _ (by omega), ih,
            Nat.zero_sub, Nat.zero_sub]
          rfl
        · rw [passedOnStack_of_register _ hfits hn, passedOnStack_of_register _ hfits hn, ih]
          congr 2
          omega
      · rw [if_neg hfits, Nat.add_zero, passedOnStack_of_stack _ fun h => hfits h.1,
          passedOnStack_of_stack _ fun h => hfits h.1, ih]
        rfl

/-- An argument without a register is a stack argument, behind those of the arguments before it. -/
theorem stackPassed_of_stack {site : CallSite} {i : Nat} {a : Operand}
    (ha : site.args[i]? = some a)
    (h : register? site.convention ((site.args.take i).map (·.type)) a.type = none) :
    ∃ k, (stackPassed site)[k]? = some a ∧
      (stackPassed site).take k = passedOnStack (registerCount site.convention)
        (site.args.take i) := by
  obtain ⟨hi, rfl⟩ := List.getElem?_eq_some_iff.mp ha
  rw [register?_eq_none] at h
  set earlier := passedOnStack (registerCount site.convention) (site.args.take i)
  obtain ⟨later, hlater⟩ : ∃ later, stackPassed site = earlier ++ site.args[i] :: later := by
    have hsplit : site.args = site.args.take i ++ site.args[i] :: site.args.drop (i + 1) := by
      rw [List.getElem_cons_drop, List.take_append_drop]
    have happend := passedOnStack_append (registerCount site.convention) (site.args.take i)
      (site.args[i] :: site.args.drop (i + 1))
    rw [← hsplit, passedOnStack_of_stack _ fun hfree => h ⟨hfree.1, Nat.lt_of_sub_pos hfree.2⟩]
      at happend
    exact ⟨_, happend⟩
  refine ⟨earlier.length, ?_, ?_⟩
  · rw [hlater, List.getElem?_append_right (le_refl _), Nat.sub_self, List.getElem?_cons_zero]
  · rw [hlater, List.take_left]

/-- A slot lies inside what the stack arguments take. -/
theorem slotsSize_take_add_le {ops : List Operand} {k : Nat} {a : Operand} (h : ops[k]? = some a) :
    slotsSize (ops.take k) + a.slotBytes ≤ slotsSize ops := by
  obtain ⟨hk, rfl⟩ := List.getElem?_eq_some_iff.mp h
  have hslot : ops[k].slotBytes ≤ ops[k].type.stackSize32 := Nat.min_le_right _ _
  have hsplit : slotsSize ops
      = slotsSize (ops.take k) + (ops[k].type.stackSize32 + slotsSize (ops.drop (k + 1))) := by
    rw [← slotsSize_cons, List.getElem_cons_drop, ← slotsSize_append, List.take_append_drop]
  omega

/-! ### Delivery -/

/-- What the code of a call has done between `s`, where it starts, and `t`, where the call is about
to be made. -/
structure Passed (frame : Frame) (site : CallSite) (s t : State) : Prop where
  /-- Every argument is where the convention wants it. -/
  args : ∀ (i : Nat) (a : Operand), site.args[i]? = some a →
    (location site.convention (site.args.take i) a).atCall site t a.slotBytes
      = a.bytesIn32 frame (s.gpr .ebp) s.mem
  callee : t.gpr .eax = site.callee.toUInt32.toBitVec
  esp : t.gpr .esp = offset (s.gpr .esp) (-(callDepth frame site + segmentBytes site : Nat))
  segment : site.far = true → t.mem.read (t.gpr .esp) 4 = littleEndian 4 s.cs.toNat
  registers : ∀ q, q ≠ .esp → q ≠ .eax →
    (∀ (i : Nat) (a : Operand), site.args[i]? = some a →
      location site.convention (site.args.take i) a ≠ .reg q) → t.gpr q = s.gpr q

section

variable {params : List ValueType} {scratch : List UInt32} {frame : Frame} {site : CallSite}

/-- A word that is pushed below the stack arguments leaves them alone. -/
theorem Ready.slots_of_runs {fp : BitVec 32} {t u : State} {is : List Instr} {d : Nat}
    (h : Ready frame site fp t) (hargs : site.args.length < 2 ^ 27) (hd : d ≤ 4)
    (hruns : Runs (Between fp (-(frame.size + callDepth frame site + d : Nat))
      (-(frame.size + callDepth frame site : Nat))) is t u)
    {k : Nat} {a : Operand} (ha : (stackPassed site)[k]? = some a) :
    u.mem.read (offset (t.gpr .esp) (slotsSize ((stackPassed site).take k))) a.slotBytes
      = a.bytesIn32 frame fp t.mem := by
  have hdepth := callDepth_lt frame hargs
  have hslots : slotsSize ((stackPassed site).take k) + a.slotBytes ≤ callDepth frame site :=
    (slotsSize_take_add_le ha).trans (Nat.le_add_right _ _)
  rw [← h.slots k a ha, h.esp, Memory.offset_offset]
  exact hruns.read_offset (.inr (by omega)) (by omega) (by omega)

/-- The code of a call up to the call instruction stores below the frame only, and passes the
arguments. -/
theorem runs_call (hl : frame.Laid params scratch) (hargs : site.args.length < 2 ^ 27)
    (hvalid : ∀ a ∈ site.args, a.ValidIn frame) {is : List Instr}
    (his : callInstrs frame site = .ok is) :
    ∃ before after, is = before ++ .call .eax :: after ∧
      ∀ s : State, s.gpr .esp = offset (s.gpr .ebp) (-frame.size) →
        ∃ t, Runs (Between (s.gpr .ebp)
            (-(frame.size + callDepth frame site + segmentBytes site : Nat)) (-frame.size))
            before s t ∧ Passed frame site s t := by
  have hsize := hl.size_lt
  have hdepth := callDepth_lt frame hargs
  have hsegment : segmentBytes site ≤ 4 := by
    rw [segmentBytes]
    split <;> omega
  obtain ⟨pushes, loads, hpushes, hloads, rfl⟩ := callInstrs_eq_ok his
  refine ⟨readying frame site pushes loads ++ segment site, adjustStack .add (cleanup frame site),
    (List.append_assoc _ _ _).symm, fun s hesp => ?_⟩
  obtain ⟨t, hruns, hready, hloaded, hcallee, -⟩ :=
    runs_readying hl hargs hvalid hpushes hloads rfl hesp
  obtain ⟨u, hruns', hesp', hgpr', hcallee', hcs⟩ := hready.runs_segment
  refine ⟨u, (hruns.widen (by omega) (le_refl _)).append (hruns'.widen (le_refl _) (by omega)),
    ?_, hcallee' hcallee, ?_, ?_, ?_⟩
  · intro i a ha
    cases hreg : register? site.convention ((site.args.take i).map (·.type)) a.type with
    | some r =>
        have hr := (register?_eq_some hreg).2
        have hsp : r ≠ .esp := by rcases hr with rfl | rfl <;> decide
        have hax : r ≠ .eax := by rcases hr with rfl | rfl <;> decide
        rw [location_of_register hreg, Location.atCall, hgpr' r hsp hax]
        exact hloaded.values r a (mem_registerLoads ha hreg)
    | none =>
        obtain ⟨k, hk, htake⟩ := stackPassed_of_stack ha hreg
        -- the arguments are above what the second part pushes
        have habove : offset (u.gpr .esp) (segmentBytes site + slotsSize
            (passedOnStack (registerCount site.convention) (site.args.take i)) : Nat)
            = offset (t.gpr .esp) (slotsSize ((stackPassed site).take k)) := by
          rw [hesp', Memory.offset_offset, htake]
          congr 1
          omega
        rw [location_of_stack hreg, Location.atCall, habove,
          hready.slots_of_runs hargs hsegment hruns' hk]
        exact hl.bytesIn32_congr
          (fun z n hz hz' => hruns.read_offset (.inr hz) (by omega) (by omega)) a
  · rw [hesp', hready.esp, hesp, Memory.offset_offset, Memory.offset_offset]
    congr 1
    omega
  · intro hfar
    rw [hcs hfar, hruns.cs_eq]
  · intro q hsp hax hq
    rw [hgpr' q hsp hax]
    refine hloaded.others q hsp hax fun hmem => ?_
    obtain ⟨x, hx, rfl⟩ := List.mem_map.mp hmem
    obtain ⟨i, ha, hreg⟩ := register_of_mem_registerLoads hx
    exact hq i _ ha (location_of_register hreg)

end

/-- The code of a call can be written and has no literals.  Its bytes pass every argument in the
place that the convention gives it, with the callee in `eax`, from whatever state with the stack at
rest, and leave the frame and everything above it alone.  A machine that finds them outside the
stack executes them up to the call instruction. -/
theorem call_passes_arguments {params : List ValueType} {scratch : List UInt32} {frame : Frame}
    (hframe : Frame.layout params scratch = .ok frame) {site : CallSite}
    (hargs : site.args.length < 2 ^ 27) (hvalid : ∀ a ∈ site.args, a.ValidIn frame) :
    ∃ f before after, Target.ia32.callFragment frame site = .ok f ∧ f.literals = [] ∧
      decodeAll f.code = some (before ++ .call .eax :: after) ∧
      ∀ s : State, s.gpr .esp = offset (s.gpr .ebp) (-frame.size) →
        frame.size + callDepth frame site + segmentBytes site ≤ (s.gpr .ebp).toNat →
        ∃ t, Runs (Between (s.gpr .ebp)
            (-(frame.size + callDepth frame site + segmentBytes site : Nat)) (-frame.size))
            before s t ∧
          Passed frame site s t ∧
          (∀ x : BitVec 32, (s.gpr .esp).toNat ≤ x.toNat → t.mem x = s.mem x) ∧
          (s.mem.Hosts s.eip f.code (s.gpr .esp) (callDepth frame site + segmentBytes site) →
            Reaches s t ∧ ∃ next, t.current? = some (.call .eax, next)) := by
  have hl := Frame.laid_of_layout hframe
  obtain ⟨is, his⟩ := exists_callInstrs hvalid
  obtain ⟨before, after, rfl, hall⟩ := runs_call hl hargs hvalid his
  refine ⟨_, before, after, map_eq_ok.mpr ⟨_, his, rfl⟩, rfl, decodeAll_encodeAll _, ?_⟩
  intro s hesp hroom
  obtain ⟨t, hruns, hpassed⟩ := hall s hesp
  have hfp : s.gpr .ebp = offset (s.gpr .esp) frame.size := by
    rw [hesp, Memory.offset_offset, Int.add_left_neg, Memory.offset_zero]
  refine ⟨t, hruns, hpassed, ?_, fun hhosts => ?_⟩
  · intro x hx
    have hlt := (s.gpr .ebp).isLt
    have hsp : ((s.gpr .esp).toNat : Int) = (s.gpr .ebp).toNat + -frame.size := by
      rw [hesp]
      exact Memory.toNat_offset (by omega) (by omega)
    refine hruns.mem_eq fun hbetween => Nat.not_lt.mpr hx ?_
    exact hbetween.toNat_lt hfp (n := callDepth frame site + segmentBytes site) (by omega)
      (by omega) (by omega)
  · obtain ⟨hreaches, hcurrent⟩ := hruns.reaches_next
      (Memory.not_between_of_apart hhosts.apart hfp (by omega) (by omega)) hhosts.placed (.refl _ _)
    exact ⟨hreaches, _, hcurrent⟩

/-- A far call with a long integer and a double in front of the two arguments that get registers.
One literal is wider than its type, another one than its slot, and a parameter is passed on with
other types. -/
theorem call_passes_arguments_far :
    let site : CallSite := ⟨[.literal .qword 0xFEDCBA9876543210, .forwarded .double 0,
      .literal .byte 0xFFFFFFFFFF, .scratch 0, .forwarded .word 0, .literal .pointer 0x123456789AB,
      .scratch 0, .literal .float 0x3F800000], 0x100004096, .fastcall, true⟩
    let frame : Frame := ⟨[⟨.qword, 8⟩], [⟨24, 32⟩], 8, 24⟩
    Frame.layout [.qword] [24] = .ok frame ∧
      ∃ s : State, s.gpr .esp = offset (s.gpr .ebp) (-frame.size) ∧
        frame.size + callDepth frame site + segmentBytes site ≤ (s.gpr .ebp).toNat ∧
        ∃ t next, Passed frame site s t ∧ Reaches s t ∧ t.current? = some (.call .eax, next) := by
  intro site frame
  have hframe : Frame.layout [.qword] [24] = .ok frame := by decide
  have hcheck : (Target.ia32.callFragment frame site).map
      (fun f => decide (f.code.length < 2 ^ 20)) = .ok true := by decide +kernel
  obtain ⟨f, hf, hlength⟩ := map_eq_ok.mp hcheck
  have hlength : f.code.length < 2 ^ 20 := of_decide_eq_true hlength
  have hdepth : callDepth frame site = 40 := by decide
  have hsize : frame.size = 32 := by decide
  have hsegment : segmentBytes site = 4 := rfl
  let s : State := ⟨fun r => if r = .esp then offset 0 16777184 else offset 0 16777216,
    fun _ => 0, 0, 0, Memory.write (fun _ => 0) 0 f.code⟩
  have hesp : s.gpr .esp = offset (s.gpr .ebp) (-frame.size) := by
    rw [hsize]
    show (offset 0 16777184 : BitVec 32) = offset (offset 0 16777216) (-(32 : Nat))
    decide
  have hroom : frame.size + callDepth frame site + segmentBytes site ≤ (s.gpr .ebp).toNat := by
    rw [hsize, hdepth, hsegment]
    exact Nat.le_of_ble_eq_true rfl
  obtain ⟨f', before, after, hf', -, -, hall⟩ :=
    @call_passes_arguments _ _ _ hframe site (by decide) (by decide)
  obtain rfl : f' = f := Except.ok.inj (hf'.symm.trans hf)
  obtain ⟨t, -, hpassed, -, hreaches⟩ := hall s hesp hroom
  obtain ⟨hreaches, next, hcurrent⟩ := hreaches (Memory.hosts_write _ 0 (by omega) (by omega))
  exact ⟨hframe, s, hesp, hroom, t, next, hpassed, hreaches, hcurrent⟩

end Trampoline.Ia32
