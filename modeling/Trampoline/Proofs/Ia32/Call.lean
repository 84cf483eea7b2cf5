/-
Trampoline/Proofs/Ia32/Call.lean

The code of one call on IA-32, up to the call instruction.

Which arguments go to the stack is said without a plan: all of them but the first
ones that fit a register, as many as the convention has registers (`stackPassed`).
The walk that places arguments one by one finds exactly these
(`stackOperands_classify`), so the bytes that the code counts before it starts are
the bytes of these arguments, and so are the bytes that it pushes.  The others take
`ecx` and `edx` in turn (`register?`).

A call pads the stack, pushes and loads registers, and is then *ready* (`Ready`):
the stack pointer is `callDepth` bytes below the frame, and every stack argument is
in its slot.  The registers have their arguments (`Loaded`).  The return frame comes
next.  That of a far call starts with the code
segment, and the address of the callee is loaded after it and not before.
-/
import Mathlib
import Trampoline.Proofs.Target
import Trampoline.Proofs.Ia32.Operands

namespace Trampoline.Ia32

open Memory (offset Between)

/-! ### Stack arguments -/

/-- Whether values of a type can travel in a register. -/
def fitsRegister (t : ValueType) : Bool := !t.isFloat && t != .qword

/-- How many arguments a convention takes in registers. -/
def registerCount : Convention → Nat
  | .cdecl | .stdcall => 0
  | .thiscall => 1
  | .fastcall => 2

/-- The arguments that go to the stack while `n` registers are free, in argument order. -/
def passedOnStack : Nat → List Operand → List Operand
  | _, [] => []
  | n, a :: args =>
      if fitsRegister a.type ∧ 0 < n then passedOnStack (n - 1) args
      else a :: passedOnStack n args

theorem passedOnStack_of_register {n : Nat} {a : Operand} (args : List Operand)
    (h : fitsRegister a.type = true) (hn : 0 < n) :
    passedOnStack n (a :: args) = passedOnStack (n - 1) args :=
  if_pos ⟨h, hn⟩

theorem passedOnStack_of_stack {n : Nat} {a : Operand} (args : List Operand)
    (h : ¬ (fitsRegister a.type = true ∧ 0 < n)) :
    passedOnStack n (a :: args) = a :: passedOnStack n args :=
  if_neg h

/-- The arguments of a call that go to the stack, in argument order. -/
def stackPassed (site : CallSite) : List Operand :=
  passedOnStack (registerCount site.convention) site.args

/-- The register of an argument of type `t` after arguments of the types `earlier`, if it gets one:
the arguments that fit take `ecx` and `edx` in turn, as far as the convention has them. -/
def register? (c : Convention) (earlier : List ValueType) (t : ValueType) : Option Gpr :=
  if fitsRegister t then ([.ecx, .edx].take (registerCount c))[earlier.countP fitsRegister]?
  else none

theorem register?_eq_some {c : Convention} {earlier : List ValueType} {t : ValueType} {r : Gpr}
    (h : register? c earlier t = some r) :
    fitsRegister t = true ∧ (r = .ecx ∨ r = .edx) := by
  rw [register?] at h
  split at h
  · rename_i hfits
    have hmem := List.mem_of_mem_take (List.mem_of_getElem? h)
    exact ⟨hfits, by simpa using hmem⟩
  · cases h

/-- The budget of a convention gives out these registers. -/
theorem place_budget (c : Convention) (earlier : List ValueType) (t : ValueType) :
    (budget c).place (fun t => t != .qword) earlier t = .ofReg? (register? c earlier t) := by
  have hints : (budget c).ints = [.ecx, .edx].take (registerCount c) := by cases c <;> rfl
  have hcursors : (budget c).positional = false := by cases c <;> rfl
  have hfloats : (budget c).floats = [] := by cases c <;> rfl
  rw [Budget.place, register?, ← hints, hcursors, hfloats]
  by_cases hfloat : t.isFloat
  · have hfits : ¬ fitsRegister t = true := by simp [fitsRegister, hfloat]
    rw [if_pos hfloat, if_neg hfits]
    rfl
  · by_cases hlong : (t != .qword) = true
    · have hfits : fitsRegister t = true := by simp [fitsRegister, hfloat, hlong]
      rw [if_neg hfloat, if_pos hlong, if_pos hfits]
      rfl
    · have hfits : ¬ fitsRegister t = true := by simp [fitsRegister, hlong]
      rw [if_neg hfloat, if_neg hlong, if_neg hfits]
      rfl

theorem getElem?_placements {site : CallSite} {i : Nat} {a : Operand}
    (ha : site.args[i]? = some a) :
    (classify site.convention site.types).placements[i]?
      = some (.ofReg? (register? site.convention ((site.args.take i).map (·.type)) a.type)) := by
  rw [classify, Budget.getElem?_placements, CallSite.getElem?_types ha, Option.map_some,
    place_budget, CallSite.types, List.map_take]

/-- An argument with a register is loaded into it. -/
theorem mem_registerLoads {site : CallSite} {i : Nat} {r : Gpr} {a : Operand}
    (ha : site.args[i]? = some a)
    (h : register? site.convention ((site.args.take i).map (·.type)) a.type = some r) :
    (r, a) ∈ (classify site.convention site.types).registerLoads site.args := by
  refine Plan.mem_registerLoads ha ?_
  rw [getElem?_placements ha, h]
  rfl

/-- What is loaded into a register is an argument with this register. -/
theorem register_of_mem_registerLoads {site : CallSite} {r : Gpr} {a : Operand}
    (h : (r, a) ∈ (classify site.convention site.types).registerLoads site.args) :
    ∃ i, site.args[i]? = some a ∧
      register? site.convention ((site.args.take i).map (·.type)) a.type = some r := by
  obtain ⟨i, ha, hplace⟩ := Plan.exists_of_mem_registerLoads h
  rw [getElem?_placements ha, Option.some.injEq] at hplace
  exact ⟨i, ha, Placement.ofReg?_eq_reg.mp hplace⟩

/-- The walk with cursors sends these arguments to the stack.  It has the registers left that its
integer cursor has not passed, and no floating ones. -/
theorem stackOperands_placeFrom {b : Budget Gpr} (hfloats : b.floats = [])
    (hcursor : b.positional = false) (index nextFloat : Nat) {nextInt : Nat} (args : List Operand) :
    Plan.stackOperands
        ⟨b.placeFrom (fun t => t != .qword) index nextInt nextFloat (args.map (·.type))⟩ args
      = passedOnStack (b.ints.length - nextInt) args := by
  induction args generalizing index nextInt nextFloat with
  | nil => rfl
  | cons a args ih =>
      rw [List.map_cons]
      by_cases hfloat : a.type.isFloat
      · rw [Budget.placeFrom_float b _ _ _ _ _ hfloat, hfloats, List.getElem?_nil,
          passedOnStack_of_stack _ (by simp [fitsRegister, hfloat]), Plan.stackOperands_cons, ih]
        rfl
      · by_cases hlong : a.type = .qword
        · rw [Budget.placeFrom_ineligible b _ _ _ _ hfloat (by simp [hlong]),
            passedOnStack_of_stack _ (by simp [fitsRegister, hlong]), Plan.stackOperands_cons, ih]
          rfl
        · have hfits : fitsRegister a.type = true := by simp [fitsRegister, hfloat, hlong]
          rw [Budget.placeFrom_int b _ _ _ _ hfloat (by simp [hlong]), hcursor,
            Plan.stackOperands_cons, ih]
          simp only [Bool.false_eq_true, if_false]
          rcases Nat.lt_or_ge nextInt b.ints.length with hlt | hge
          · rw [List.getElem?_eq_getElem hlt, passedOnStack_of_register _ hfits (by omega)]
            rfl
          · rw [List.getElem?_eq_none hge, passedOnStack_of_stack _ (by omega)]
            rfl

theorem stackOperands_classify (site : CallSite) :
    (classify site.convention site.types).stackOperands site.args = stackPassed site := by
  have hcount : registerCount site.convention = (budget site.convention).ints.length := by
    cases site.convention <;> rfl
  rw [stackPassed, hcount]
  exact stackOperands_placeFrom rfl rfl 0 0 site.args

theorem length_passedOnStack_le (n : Nat) (args : List Operand) :
    (passedOnStack n args).length ≤ args.length := by
  induction args generalizing n with
  | nil => exact le_refl 0
  | cons a args ih =>
      rw [passedOnStack]
      split
      · exact (ih _).trans (Nat.le_succ _)
      · exact Nat.succ_le_succ (ih n)

/-! ### The pieces of a call -/

/-- The bytes that the stack arguments of a call take. -/
def stackedBytes (site : CallSite) : Nat := slotsSize (stackPassed site)

/-- The bytes that a call takes below the frame before its return frame. -/
def callDepth (frame : Frame) (site : CallSite) : Nat :=
  stackedBytes site + callPad frame (stackedBytes site)

/-- A call takes its stack arguments and less than sixteen bytes of padding.  With the frame, the
saved frame pointer and the return address this is a multiple of sixteen. -/
theorem callDepth_spec (frame : Frame) (site : CallSite) :
    ∃ pad < 16, callDepth frame site = stackedBytes site + pad ∧
      (8 + frame.size + callDepth frame site) % 16 = 0 := by
  obtain ⟨hlt, hmod⟩ := alignPad_spec (8 + frame.size + stackedBytes site)
  refine ⟨callPad frame (stackedBytes site), hlt, rfl, ?_⟩
  rw [callDepth, callPad]
  omega

theorem callDepth_lt (frame : Frame) {site : CallSite} (hargs : site.args.length < 2 ^ 27) :
    callDepth frame site < 2 ^ 30 + 16 := by
  obtain ⟨pad, hpad, hdepth, -⟩ := callDepth_spec frame site
  have hsize := slotsSize_le (stackPassed site)
  have hlen := length_passedOnStack_le (registerCount site.convention) site.args
  rw [hdepth, stackedBytes]
  rw [stackPassed] at hsize ⊢
  omega

theorem stackBytes_classify (site : CallSite) :
    stackBytes (classify site.convention site.types) site.args = stackedBytes site := by
  rw [stackBytes, Plan.stackOperandsRev_eq, stackOperands_classify, stackedBytes,
    ← slotsSize_reverse, slotsSize, ← List.foldr_map]
  exact List.sum_eq_foldr.symm

/-- The first part of a call: padding, pushes and loads.  The address of the callee is loaded in
the second part when the call is far. -/
def readying (frame : Frame) (site : CallSite) (pushes : List (List Instr)) (loads : List Instr) :
    List Instr :=
  adjustStack .sub (callPad frame (stackedBytes site)) ++ (pushes.flatten ++ (loads ++
    if site.far then [] else [.loadImm .eax site.callee.toUInt32]))

/-- The second part of a call: the code segment, when the call is far. -/
def segment (site : CallSite) : List Instr :=
  if site.far then [.pushCs, .loadImm .eax site.callee.toUInt32] else []

/-- The bytes that the caller takes off the stack after a call. -/
def cleanup (frame : Frame) (site : CallSite) : Nat :=
  cleanupBytes site.convention (stackedBytes site) (callPad frame (stackedBytes site))

theorem callInstrs_eq_ok {frame : Frame} {site : CallSite} {is : List Instr}
    (h : callInstrs frame site = .ok is) :
    ∃ (pushes : List (List Instr)) (loads : List Instr),
      List.Forall₂ (fun a is => pushOperand frame a = .ok is) (stackPassed site).reverse pushes ∧
      List.Forall₂ (fun x i => loadOperand frame x.1 x.2 = .ok i)
        ((classify site.convention site.types).registerLoads site.args) loads ∧
      is = readying frame site pushes loads ++
        (segment site ++ .call .eax :: adjustStack .add (cleanup frame site)) := by
  obtain ⟨pushes, hpushes, h⟩ := bind_eq_ok.mp h
  obtain ⟨loads, hloads, h⟩ := bind_eq_ok.mp h
  refine ⟨pushes, loads, ?_, ?_, ?_⟩
  · rw [← stackOperands_classify, ← Plan.stackOperandsRev_eq]
    exact mapM_eq_ok.mp hpushes
  · rw [← Plan.registerOperands_map, List.forall₂_map_left_iff]
    exact mapM_eq_ok.mp hloads
  · obtain rfl := Except.ok.inj h
    rw [stackBytes_classify, readying, segment, cleanup]
    cases site.far <;>
      simp only [List.append_assoc, List.cons_append, List.nil_append, if_true, if_false,
        Bool.false_eq_true]

/-- The registers that the code of a call uses for itself get no arguments. -/
theorem notMem_registerLoads (site : CallSite) {q : Gpr} (hq : q ≠ .ecx) (hq' : q ≠ .edx) :
    q ∉ ((classify site.convention site.types).registerLoads site.args).map (·.1) := by
  intro hmem
  obtain ⟨x, hx, rfl⟩ := List.mem_map.mp hmem
  obtain ⟨i, -, hreg⟩ := register_of_mem_registerLoads hx
  rcases (register?_eq_some hreg).2 with h | h
  · exact hq h
  · exact hq' h

/-- An argument in a register fits it. -/
theorem slotBytes_of_mem_registerLoads {site : CallSite} {x : Gpr × Operand}
    (h : x ∈ (classify site.convention site.types).registerLoads site.args) :
    x.2.slotBytes ≤ 4 := by
  obtain ⟨i, -, hreg⟩ := register_of_mem_registerLoads h
  have hfits := (register?_eq_some hreg).1
  rw [Operand.slotBytes]
  revert hfits
  cases x.2.type <;> decide

/-! ### Ready to call -/

/-- A state in which the return frame of a call is about to be built: the stack arguments are at
the stack pointer, in argument order. -/
structure Ready (frame : Frame) (site : CallSite) (fp : BitVec 32) (t : State) : Prop where
  ebp : t.gpr .ebp = fp
  esp : t.gpr .esp = offset fp (-(frame.size + callDepth frame site : Nat))
  slots : ∀ (k : Nat) (a : Operand), (stackPassed site)[k]? = some a →
    t.mem.read (offset (t.gpr .esp) (slotsSize ((stackPassed site).take k))) a.slotBytes
      = a.bytesIn32 frame fp t.mem

/-- What a call has in registers in `t`, from the state `s` in which it starts: every register of an
argument has its value, and the others are as they were. -/
structure Loaded (frame : Frame) (site : CallSite) (s t : State) : Prop where
  values : ∀ (r : Gpr) (a : Operand),
    (r, a) ∈ (classify site.convention site.types).registerLoads site.args →
      littleEndian a.slotBytes (t.gpr r).toNat = a.bytesIn32 frame (s.gpr .ebp) s.mem
  others : ∀ q, q ≠ .esp → q ≠ .eax →
    q ∉ ((classify site.convention site.types).registerLoads site.args).map (·.1) →
      t.gpr q = s.gpr q

theorem mem_of_mem_stackPassed {site : CallSite} {a : Operand} (h : a ∈ stackPassed site) :
    a ∈ site.args := by
  rw [← stackOperands_classify] at h
  exact Plan.mem_of_mem_stackOperands h

/-- What is pushed up to an argument, in the order of the pushes, are the slots from this argument
on. -/
theorem slotsSize_take_reverse (ops : List Operand) {k : Nat} (hk : k < ops.length) :
    slotsSize (ops.reverse.take (ops.length - 1 - k + 1)) + slotsSize (ops.take k)
      = slotsSize ops := by
  have hdrop : ops.length - (ops.length - 1 - k + 1) = k := by omega
  rw [List.take_reverse, hdrop, slotsSize_reverse, Nat.add_comm, ← slotsSize_append,
    List.take_append_drop]

/-- The address of the callee is loaded into `eax`, which is the last step of the first part. -/
theorem runs_target {P : BitVec 32 → Prop} (site : CallSite) (s : State) :
    let is : List Instr := if site.far then [] else [.loadImm .eax site.callee.toUInt32]
    ∃ t, Runs P is s t ∧ t.mem = s.mem ∧ (∀ q, q ≠ .eax → t.gpr q = s.gpr q) ∧
      (site.far = false → t.gpr .eax = site.callee.toUInt32.toBitVec) ∧
      is.countP Instr.isPush = 0 := by
  cases site.far with
  | true => exact ⟨s, .nil s, rfl, fun _ _ => rfl, fun h => (Bool.false_ne_true h.symm).elim, rfl⟩
  | false =>
      obtain ⟨hquiet, hset⟩ := loadImm_spec .eax site.callee.toUInt32 s
      refine ⟨_, .quiet hquiet, hset.mem_eq, hset.gpr_ne, fun _ => hset.gpr_self, ?_⟩
      rw [if_neg Bool.false_ne_true, List.countP_singleton, Instr.isPush_eq_false hquiet.2]
      rfl

section

variable {params : List ValueType} {scratch : List UInt32} {frame : Frame} {site : CallSite}
  {fp : BitVec 32} {s : State}

/-- The first part of a call pushes exactly the bytes of the stack arguments and makes the call
ready; it stores below the frame only.  A near call has the address of its callee then. -/
theorem runs_readying (hl : frame.Laid params scratch) (hargs : site.args.length < 2 ^ 27)
    (hvalid : ∀ a ∈ site.args, a.ValidIn frame) {pushes : List (List Instr)} {loads : List Instr}
    (hpushes : List.Forall₂ (fun a is => pushOperand frame a = .ok is)
      (stackPassed site).reverse pushes)
    (hloads : List.Forall₂ (fun x i => loadOperand frame x.1 x.2 = .ok i)
      ((classify site.convention site.types).registerLoads site.args) loads)
    (hfp : s.gpr .ebp = fp) (hsp : s.gpr .esp = offset fp (-frame.size)) :
    ∃ t, Runs (Between fp (-(frame.size + callDepth frame site : Nat)) (-frame.size))
        (readying frame site pushes loads) s t ∧
      Ready frame site fp t ∧ Loaded frame site s t ∧
      (site.far = false → t.gpr .eax = site.callee.toUInt32.toBitVec) ∧
      4 * (readying frame site pushes loads).countP Instr.isPush = stackedBytes site := by
  have hsize := hl.size_lt
  have hdepthlt := callDepth_lt frame hargs
  have hdepth : callDepth frame site
      = slotsSize (stackPassed site) + callPad frame (stackedBytes site) := rfl
  -- the padding
  obtain ⟨s₁, hruns₁, hesp₁, hgpr₁, hmem₁⟩ := runs_adjustStack
    (P := Between fp (-(frame.size + callDepth frame site : Nat)) (-frame.size))
    .sub (callPad frame (stackedBytes site)) s
  set pad := callPad frame (stackedBytes site) with hpad
  have hesp₁' : s₁.gpr .esp = offset fp (-(frame.size + pad : Nat)) := by
    rw [hesp₁, hsp, Memory.offset_offset]
    congr 1
    simp only [Memory.moved]
    omega
  -- the pushes
  have hvalid' : ∀ a ∈ (stackPassed site).reverse, a.ValidIn frame :=
    fun a ha => hvalid a (mem_of_mem_stackPassed (List.mem_reverse.mp ha))
  obtain ⟨s₂, hruns₂, hlow₂, hcount₂, hread₂⟩ := runs_pushes hl hvalid' hpushes
    ((hgpr₁ _ (by decide)).trans hfp) hesp₁' (by omega) (by rw [slotsSize_reverse]; omega)
  rw [slotsSize_reverse] at hruns₂ hlow₂ hcount₂
  -- the loads
  have hebp₂ : s₂.gpr .ebp = fp := by
    rw [hlow₂.gpr _ (by decide) (by decide), hgpr₁ _ (by decide), hfp]
  obtain ⟨s₃, hruns₃, hmem₃, hothers₃, hvalues₃, hcount₃⟩ := runs_loads
    (P := Between fp (-(frame.size + callDepth frame site : Nat)) (-frame.size)) hl hloads
    (fun x hx => slotBytes_of_mem_registerLoads hx)
    (Plan.registerLoads_nodup (by cases site.convention <;> decide) _ _)
    (notMem_registerLoads site (by decide) (by decide)) hebp₂
  obtain ⟨t, hruns₄, hmem₄, hgpr₄, hcallee, hcount₄⟩ := runs_target
    (P := Between fp (-(frame.size + callDepth frame site : Nat)) (-frame.size)) site s₃
  have hkeep : ∀ {q : Gpr}, q ≠ .eax → q ≠ .ecx → q ≠ .edx → t.gpr q = s₂.gpr q :=
    fun hax h h' => (hgpr₄ _ hax).trans (hothers₃ _ (notMem_registerLoads site h h'))
  have hebp : t.gpr .ebp = fp := by
    rw [hkeep (by decide) (by decide) (by decide), hebp₂]
  have hesp : t.gpr .esp = offset fp (-(frame.size + callDepth frame site : Nat)) := by
    rw [hkeep (by decide) (by decide) (by decide), hlow₂.esp]
    congr 1
    omega
  have hruns := hruns₁.append
    ((hruns₂.widen (by omega) (by omega)).append (hruns₃.append hruns₄))
  refine ⟨t, hruns, ⟨hebp, hesp, ?_⟩, ⟨?_, ?_⟩, hcallee, ?_⟩
  · intro k a ha
    -- argument `k` was pushed as number `n - 1 - k`
    obtain ⟨hk, -⟩ := List.getElem?_eq_some_iff.mp ha
    have hrev : (stackPassed site).reverse[(stackPassed site).length - 1 - k]? = some a := by
      rw [List.getElem?_reverse (by omega), Nat.sub_sub_self (by omega), ha]
    have hread := hread₂ _ a hrev
    have htake := slotsSize_take_reverse (stackPassed site) hk
    have hsame : a.bytesIn32 frame fp t.mem = a.bytesIn32 frame fp s.mem :=
      hl.bytesIn32_congr (fun z n hz hz' => hruns.read_offset (.inr hz) (by omega) (by omega)) a
    rw [hmem₁] at hread
    rw [hsame, ← hread, hmem₄, hmem₃, hesp, Memory.offset_offset]
    congr 2
    omega
  · intro r a ha
    have hax : r ≠ .eax := by
      rintro rfl
      exact notMem_registerLoads site (q := .eax) (by decide) (by decide) (List.mem_map_of_mem ha)
    have hsame : a.bytesIn32 frame fp s₂.mem = a.bytesIn32 frame fp s₁.mem :=
      hl.bytesIn32_congr (fun z n hz hz' => hruns₂.read_offset (.inr (by omega)) (by omega)
        (by omega)) a
    rw [hgpr₄ r hax, hvalues₃ _ ha, hsame, hmem₁, hfp]
  · intro q hsp hax hq
    rw [hgpr₄ q hax, hothers₃ q hq, hlow₂.gpr q hsp hax, hgpr₁ q hsp]
  · rw [readying, List.countP_append, List.countP_append, List.countP_append, countP_adjustStack,
      hcount₃, hcount₄, Nat.zero_add, Nat.add_zero, hcount₂]
    rfl

/-- The bytes of a return frame above the return address. -/
def segmentBytes (site : CallSite) : Nat := if site.far then 4 else 0

/-- The second part of a call is empty or pushes the code segment, and then loads the address of the
callee. -/
theorem Ready.runs_segment {t : State} (h : Ready frame site fp t) :
    ∃ u, Runs (Between fp (-(frame.size + callDepth frame site + segmentBytes site : Nat))
        (-(frame.size + callDepth frame site : Nat))) (segment site) t u ∧
      u.gpr .esp = offset (t.gpr .esp) (-segmentBytes site) ∧
      (∀ q, q ≠ .esp → q ≠ .eax → u.gpr q = t.gpr q) ∧
      ((site.far = false → t.gpr .eax = site.callee.toUInt32.toBitVec) →
        u.gpr .eax = site.callee.toUInt32.toBitVec) ∧
      (site.far = true → u.mem.read (u.gpr .esp) 4 = littleEndian 4 t.cs.toNat) := by
  rw [segment, segmentBytes]
  cases site.far with
  | false =>
      exact ⟨t, .nil t, (Memory.offset_zero _).symm, fun _ _ _ => rfl, fun hcallee => hcallee rfl,
        fun hfar => (Bool.false_ne_true hfar).elim⟩
  | true =>
      have hpush : Instr.pushCs.Pushes t (t.cs.setWidth 32) := ⟨rfl, trivial, rfl, rfl⟩
      obtain ⟨hruns, hlow, hread⟩ := hpush.runs h.esp
      obtain ⟨hquiet, hset⟩ := loadImm_spec .eax site.callee.toUInt32 (perform Instr.pushCs t)
      have hesp := (hset.gpr_ne .esp (by decide)).trans hlow.esp
      have hcs : (t.cs.setWidth 32).toNat = t.cs.toNat := by
        rw [BitVec.toNat_setWidth]
        omega
      refine ⟨_, (hruns.widen ?_ (le_refl _)).append (.quiet hquiet),
        ?_, ?_, fun _ => hset.gpr_self, fun _ => ?_⟩
      · rw [if_pos rfl]
        omega
      · rw [hesp, h.esp, Memory.offset_offset]
        rfl
      · intro q hsp hax
        rw [hset.gpr_ne q hax, hlow.gpr q hsp hax]
      · rw [hesp, hset.mem_eq, hread 4 (le_refl 4), hcs]

end

end Trampoline.Ia32
