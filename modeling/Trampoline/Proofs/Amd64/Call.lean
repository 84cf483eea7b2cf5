/-
Trampoline/Proofs/Amd64/Call.lean

The code of one call, up to the call instruction and after it.

Between calls the stack pointer stands `frame.size` bytes below the frame
pointer.  A call pads the stack, pushes, leaves the shadow space, loads registers
and is then *ready* (`Ready`): the stack pointer is `callDepth` bytes lower, every
stack argument is in its slot, `r11` has the address of the callee.  What was
stored on the way lies below the frame.  The one instruction after the call takes
the same number of bytes off again.
-/
import Mathlib
import Trampoline.Proofs.Amd64.Operands

namespace Trampoline.Amd64

open Memory (offset Between)

/-! ### The pieces of a call -/

/-- The bytes that a call takes below the frame. -/
def callDepth (abi : Abi) (frame : Frame) (site : CallSite) : Nat :=
  stackBytes (abi.classify site.types) + callPad frame (abi.classify site.types) + abi.shadowSpace

/-- A call takes its stack arguments, less than sixteen bytes of padding and the shadow space, and
with the frame it takes a multiple of sixteen. -/
theorem callDepth_spec {abi : Abi} (hlaw : abi.Lawful) (frame : Frame) (site : CallSite) :
    ∃ pad < 16, callDepth abi frame site = abi.shadowSpace + 8 * abi.stacked site.types + pad ∧
      (frame.size + callDepth abi frame site) % 16 = 0 := by
  obtain ⟨hlt, hmod⟩ := alignPad_spec (frame.size + stackBytes (abi.classify site.types))
  have hshadow := hlaw.shadow_mod
  refine ⟨callPad frame (abi.classify site.types), hlt, ?_, ?_⟩
  · rw [callDepth, stackBytes, abi.stackCount_classify]
    omega
  · rw [callDepth, callPad]
    omega

theorem callDepth_lt {abi : Abi} (hlaw : abi.Lawful) (frame : Frame) {site : CallSite}
    (hargs : site.args.length < 2 ^ 27) : callDepth abi frame site < 2 ^ 30 + 48 := by
  obtain ⟨pad, hpad, hdepth, -⟩ := callDepth_spec hlaw frame site
  have hstacked := abi.stacked_le site.types
  have hshadow := hlaw.shadow_le
  rw [CallSite.types, List.length_map] at hstacked
  rw [hdepth, CallSite.types]
  omega

theorem callLines_eq_ok {abi : Abi} {frame : Frame} {site : CallSite} {lines : List Line} :
    callLines abi frame site = .ok lines ↔
      ∃ (pushes : List (List Instr)) (loads : List Line),
        List.Forall₂ (fun a is => pushOperand frame a = .ok is)
          ((abi.classify site.types).stackOperands site.args).reverse pushes ∧
        List.Forall₂ (fun x line => loadOperand frame x.1 x.2 = .ok line)
          ((abi.classify site.types).registerLoads site.args) loads ∧
        lines = (adjustStack .sub (callPad frame (abi.classify site.types)) ++
            (pushes.flatten ++ adjustStack .sub abi.shadowSpace)).map .instr ++
          (loads ++ (countVectors abi ((abi.classify site.types).floatRegCount site.args) ++
            ([Instr.loadImm .w64 .r11 site.callee] ++
              Instr.call .r11 :: adjustStack .add (callDepth abi frame site))).map .instr) := by
  have hloads : ∀ ls, ((abi.classify site.types).registerOperands site.args).mapM
        (fun x => loadOperand frame x.2.1 x.2.2) = .ok ls ↔
      List.Forall₂ (fun x line => loadOperand frame x.1 x.2 = .ok line)
        ((abi.classify site.types).registerLoads site.args) ls := by
    intro ls
    rw [mapM_eq_ok, ← Plan.registerOperands_map, List.forall₂_map_left_iff]
  rw [callLines, bind_eq_ok]
  constructor
  · rintro ⟨pushes, hpushes, h⟩
    obtain ⟨loads, hl, h⟩ := bind_eq_ok.mp h
    refine ⟨pushes, loads, ?_, (hloads _).mp hl, ?_⟩
    · rw [← Plan.stackOperandsRev_eq]
      exact mapM_eq_ok.mp hpushes
    · obtain rfl := Except.ok.inj h
      simp only [List.append_assoc, callDepth, List.cons_append, List.nil_append]
  · rintro ⟨pushes, loads, hpushes, hl, rfl⟩
    refine ⟨pushes, ?_, bind_eq_ok.mpr ⟨loads, (hloads _).mpr hl, ?_⟩⟩
    · rw [Plan.stackOperandsRev_eq]
      exact mapM_eq_ok.mpr hpushes
    · simp only [List.append_assoc, callDepth, List.cons_append, List.nil_append]
      rfl

theorem exists_pushOperand {frame : Frame} {a : Operand} (h : a.ValidIn frame) :
    ∃ is, pushOperand frame a = .ok is := by
  rw [pushOperand]
  cases hsource : a.source with
  | literal => exact ⟨_, rfl⟩
  | forwarded index =>
      obtain ⟨d, hd⟩ := h.homeOffset hsource
      exact ⟨_, map_eq_ok.mpr ⟨d, hd, rfl⟩⟩
  | scratch index =>
      obtain ⟨-, d, hd⟩ := h.scratchOffset hsource
      exact ⟨_, map_eq_ok.mpr ⟨d, hd, rfl⟩⟩

/-- An argument of the frame can be loaded into a register of its class.  The address of a scratch
buffer is no floating value, so it never meets an SSE register. -/
theorem exists_loadOperand {frame : Frame} {a : Operand} {dst : Reg} (h : a.ValidIn frame)
    (hfile : dst.isXmm = a.isFloat) : ∃ line, loadOperand frame dst a = .ok line := by
  unfold loadOperand
  cases hsource : a.source with
  | literal => cases dst <;> exact ⟨_, rfl⟩
  | forwarded index =>
      obtain ⟨d, hd⟩ := h.homeOffset hsource
      cases dst <;> exact ⟨_, map_eq_ok.mpr ⟨d, hd, rfl⟩⟩
  | scratch index =>
      obtain ⟨ha, d, hd⟩ := h.scratchOffset hsource
      cases dst with
      | gpr r => exact ⟨_, map_eq_ok.mpr ⟨d, hd, rfl⟩⟩
      | xmm x =>
          rw [ha] at hfile
          cases hfile

/-- The code of a call with arguments of the frame can be written. -/
theorem exists_callLines {abi : Abi} (hlaw : abi.Lawful) {frame : Frame} {site : CallSite}
    (h : ∀ a ∈ site.args, a.ValidIn frame) : ∃ lines, callLines abi frame site = .ok lines := by
  have hpushes : ∀ a ∈ ((abi.classify site.types).stackOperands site.args).reverse,
      ∃ is, pushOperand frame a = .ok is := by
    intro a ha
    exact exists_pushOperand (h a (Plan.mem_of_mem_stackOperands (List.mem_reverse.mp ha)))
  have hloads : ∀ x ∈ (abi.classify site.types).registerLoads site.args,
      ∃ line, loadOperand frame x.1 x.2 = .ok line := by
    intro x hx
    obtain ⟨i, hi, -⟩ := Plan.exists_of_mem_registerLoads hx
    exact exists_loadOperand (h x.2 (List.mem_of_getElem? hi)) (hlaw.register hx rfl).1
  obtain ⟨pushes, hp⟩ := exists_mapM_eq_ok hpushes
  obtain ⟨loads, hl⟩ := exists_mapM_eq_ok hloads
  exact ⟨_, callLines_eq_ok.mpr ⟨pushes, loads, mapM_eq_ok.mp hp, mapM_eq_ok.mp hl, rfl⟩⟩

theorem callFragment_eq_ok {abi : Abi} {frame : Frame} {site : CallSite} {f : Fragment} :
    callFragment abi frame site = .ok f ↔
      ∃ lines, callLines abi frame site = .ok lines ∧ f = draft lines := by
  rw [callFragment, bind_eq_ok]
  constructor
  · rintro ⟨lines, hlines, h⟩
    rw [assemble_eq] at h
    exact ⟨lines, hlines, (Except.ok.inj h).symm⟩
  · rintro ⟨lines, hlines, rfl⟩
    exact ⟨lines, hlines, assemble_eq lines⟩

theorem mapM_callFragment_eq_ok {abi : Abi} {frame : Frame} {sites : List CallSite}
    {fragments : List Fragment} :
    sites.mapM (callFragment abi frame) = .ok fragments ↔
      ∃ blocks, sites.mapM (callLines abi frame) = .ok blocks ∧ fragments = blocks.map draft := by
  simp only [mapM_eq_ok]
  constructor
  · intro h
    induction h with
    | nil => exact ⟨[], .nil, rfl⟩
    | cons hsite _ ih =>
        obtain ⟨lines, hlines, rfl⟩ := callFragment_eq_ok.mp hsite
        obtain ⟨blocks, hblocks, rfl⟩ := ih
        exact ⟨lines :: blocks, .cons hlines hblocks, rfl⟩
  · rintro ⟨blocks, hblocks, rfl⟩
    rw [List.forall₂_map_right_iff]
    exact hblocks.imp fun site lines h => callFragment_eq_ok.mpr ⟨lines, h, rfl⟩

theorem callFragment_of_abi {target : Target} {abi : Abi}
    (h : target.abi? = some abi) (frame : Frame) :
    target.callFragment frame = callFragment abi frame := by
  funext site
  rw [Target.callFragment, h]

/-! ### Ready to call -/

/-- A state in which a call is about to be made: what it needs is on the stack below the frame,
and `r11` has the address of the callee. -/
structure Ready (abi : Abi) (frame : Frame) (site : CallSite) (fp : BitVec 64) (t : State) :
    Prop where
  rbp : t.gpr .rbp = fp
  rsp : t.gpr .rsp = offset fp (-(frame.size + callDepth abi frame site : Nat))
  callee : t.gpr .r11 = site.callee.toBitVec
  slots : ∀ (k : Nat) (a : Operand),
    ((abi.classify site.types).stackOperands site.args)[k]? = some a →
    t.mem.read (offset (t.gpr .rsp) (abi.shadowSpace + 8 * k : Nat)) a.type.size
      = a.bytesIn frame fp t.mem
  vectors : abi.vectorCount = true →
    (t.gpr .rax).toNat = min (Budget.floatsIn site.types) abi.budget.floats.length

/-- The last two registers of a call: the number of SSE arguments, where it is asked for, and the
address of the callee. -/
theorem runs_target {P : BitVec 64 → Prop} (abi : Abi) (count : Nat) (callee : UInt64)
    (s : State) :
    ∃ t, Runs P (countVectors abi count ++ [Instr.loadImm .w64 .r11 callee]) s t ∧
      t.mem = s.mem ∧ (∀ q, q ≠ Reg.gpr .rax → q ≠ .gpr .r11 → t.reg q = s.reg q) ∧
      t.gpr .r11 = callee.toBitVec ∧
      (abi.vectorCount = true → count < 2 ^ 32 → (t.gpr .rax).toNat = count) := by
  rw [countVectors]
  split
  · obtain ⟨hquiet, hset⟩ := loadImm_spec .w32 .rax (UInt64.ofNat count) s
    obtain ⟨hquiet', hset'⟩ := loadImm_spec .w64 .r11 callee
      (perform (Instr.loadImm .w32 .rax (UInt64.ofNat count)) s)
    refine ⟨_, (Runs.quiet hquiet).append (.quiet hquiet'), ?_, ?_, ?_, ?_⟩
    · rw [hset'.mem_eq, hset.mem_eq]
    · intro q hax hr11
      rw [hset'.reg_ne q hr11, hset.reg_ne q hax]
    · exact BitVec.eq_of_toNat_eq hset'.reg_self
    · intro _ hlt
      have hrax : (perform (Instr.loadImm .w32 .rax (UInt64.ofNat count)) s).reg (.gpr .rax)
          = count := by
        rw [hset.reg_self, Width.cut, UInt64.toNat_ofNat']
        omega
      rw [hset'.gpr_ne (by decide)]
      exact hrax
  · rename_i hcount
    obtain ⟨hquiet, hset⟩ := loadImm_spec .w64 .r11 callee s
    exact ⟨_, .quiet hquiet, hset.mem_eq, fun q _ hq => hset.reg_ne q hq,
      BitVec.eq_of_toNat_eq hset.reg_self, fun h => absurd h hcount⟩

section

variable {params : List ValueType} {scratch : List UInt32} {frame : Frame} {abi : Abi}
  {site : CallSite} {fp : BitVec 64} {s : State}

/-- Padding, pushes and shadow space: the stack pointer goes down, and the stack arguments are in
their slots in argument order. -/
theorem runs_before (hl : frame.Laid params scratch) (hlaw : abi.Lawful)
    (hargs : site.args.length < 2 ^ 27) {pushes : List (List Instr)}
    (hpushes : List.Forall₂ (fun a is => pushOperand frame a = .ok is)
      ((abi.classify site.types).stackOperands site.args).reverse pushes)
    (hfp : s.gpr .rbp = fp) (hsp : s.gpr .rsp = offset fp (-frame.size)) :
    ∃ t, Runs (Between fp (-(frame.size + callDepth abi frame site : Nat)) (-frame.size))
        (adjustStack .sub (callPad frame (abi.classify site.types)) ++
          (pushes.flatten ++ adjustStack .sub abi.shadowSpace)) s t ∧
      State.Lowered fp (-(frame.size + callDepth abi frame site : Nat)) s t ∧
      ∀ (k : Nat) (a : Operand),
        ((abi.classify site.types).stackOperands site.args)[k]? = some a →
        t.mem.read (offset (t.gpr .rsp) (abi.shadowSpace + 8 * k : Nat)) a.type.size
          = a.bytesIn frame fp s.mem := by
  set plan := abi.classify site.types with hplan
  set ops := plan.stackOperands site.args with hops
  set pad := callPad frame plan with hpad
  have hpadlt : pad < 16 := (alignPad_spec _).1
  have hsize := hl.size_lt
  have hshadow := hlaw.shadow_le
  have hlen : ops.length = plan.stackCount := by
    rw [hplan, abi.stackCount_classify]
    exact abi.length_stackOperands site.args
  have hdepth : callDepth abi frame site = 8 * ops.length + pad + abi.shadowSpace := by
    rw [callDepth, stackBytes, hlen]
  have hdepthlt := callDepth_lt hlaw frame hargs
  -- the padding
  obtain ⟨s₁, hruns₁, hrsp₁, hreg₁, hmem₁⟩ := runs_adjustStack
    (P := Between fp (-(frame.size + callDepth abi frame site : Nat)) (-frame.size))
    .sub (n := pad) (by omega) s
  have hfp₁ : s₁.gpr .rbp = fp := (State.gpr_eq_of_reg (hreg₁ _ (by decide))).trans hfp
  have hsp₁ : s₁.gpr .rsp = offset fp (-(frame.size + pad : Nat)) := by
    rw [hrsp₁, hsp, Memory.offset_offset]
    congr 1
    simp only [Memory.moved]
    omega
  -- the pushes
  obtain ⟨s₂, hruns₂, hlow₂, hread₂⟩ := runs_pushes hl hpushes hfp₁ hsp₁ (by omega)
    (by rw [List.length_reverse]; omega)
  rw [List.length_reverse] at hruns₂ hlow₂
  -- the shadow space
  obtain ⟨t, hruns₃, hrsp₃, hreg₃, hmem₃⟩ := runs_adjustStack
    (P := Between fp (-(frame.size + callDepth abi frame site : Nat)) (-frame.size))
    .sub (n := abi.shadowSpace) (by omega) s₂
  have hrsp : t.gpr .rsp = offset fp (-(frame.size + callDepth abi frame site : Nat)) := by
    rw [hrsp₃, hlow₂.rsp, Memory.offset_offset]
    congr 1
    simp only [Memory.moved]
    omega
  refine ⟨t, hruns₁.append ((hruns₂.widen (by omega) (by omega)).append hruns₃),
    ⟨hrsp, ?_, ?_⟩, ?_⟩
  · intro r hsp' hax
    have hne : Reg.gpr r ≠ .gpr .rsp := fun h => hsp' (Reg.gpr.inj h)
    rw [State.gpr_eq_of_reg (hreg₃ _ hne), hlow₂.gpr r hsp' hax, State.gpr_eq_of_reg (hreg₁ _ hne)]
  · funext x
    have h₃ : t.xmm x = s₂.xmm x := BitVec.eq_of_toNat_eq (hreg₃ (.xmm x) (by simp))
    have h₁ : s₁.xmm x = s.xmm x := BitVec.eq_of_toNat_eq (hreg₁ (.xmm x) (by simp))
    rw [h₃, hlow₂.xmm, h₁]
  · intro k a ha
    -- argument `k` was pushed as number `n - 1 - k`
    obtain ⟨hk, -⟩ := List.getElem?_eq_some_iff.mp ha
    have hrev : ops.reverse[ops.length - 1 - k]? = some a := by
      rw [List.getElem?_reverse (by omega)]
      rw [show ops.length - 1 - (ops.length - 1 - k) = k by omega]
      exact ha
    have hread := hread₂ _ a hrev
    rw [hmem₁] at hread
    rw [hmem₃, hrsp, Memory.offset_offset, ← hread]
    congr 2
    omega

/-- The registers that the code of a call uses for itself get no arguments. -/
theorem notMem_registerLoads (hlaw : abi.Lawful) {q : Reg}
    (hq : q ∈ [Reg.gpr .rax, .gpr .rsp, .gpr .rbp, .gpr .r11]) :
    q ∉ ((abi.classify site.types).registerLoads site.args).map (·.1) := by
  intro hmem
  obtain ⟨x, hx, rfl⟩ := List.mem_map.mp hmem
  exact (hlaw.register hx rfl).2 hq

/-- The code of a call up to the call instruction makes everything ready, stores below the frame
only, and leaves the registers alone that it has no use for.  Where literals are found, the
register arguments carry their values. -/
theorem runs_call (hl : frame.Laid params scratch) (hlaw : abi.Lawful)
    (hargs : site.args.length < 2 ^ 27) {lines : List Line} {is : List Instr}
    {found : BitVec 64 → Code → Prop} (hlines : callLines abi frame site = .ok lines)
    (hr : Realizes found s.rip lines is) (hfp : s.gpr .rbp = fp)
    (hsp : s.gpr .rsp = offset fp (-frame.size)) :
    ∃ before t, is = before ++ .call .r11 :: adjustStack .add (callDepth abi frame site) ∧
      Runs (Between fp (-(frame.size + callDepth abi frame site : Nat)) (-frame.size))
        before s t ∧
      Ready abi frame site fp t ∧
      (∀ q, q ≠ Reg.gpr .rsp → q ≠ .gpr .rax → q ≠ .gpr .r11 →
        q ∉ ((abi.classify site.types).registerLoads site.args).map (·.1) → t.reg q = s.reg q) ∧
      ((∀ x bytes, found x bytes → t.mem.read x bytes.length = bytes) →
        ∀ x ∈ (abi.classify site.types).registerLoads site.args,
          Carries frame fp t.mem x.2 (t.reg x.1)) := by
  obtain ⟨pushes, loads, hpushes, hloads, rfl⟩ := callLines_eq_ok.mp hlines
  -- the lines are instructions, loads, and instructions again
  obtain ⟨js, ks, rfl, hbefore, hrest⟩ := hr.append_left
  obtain rfl := hbefore.instrs
  obtain ⟨ls, ms, rfl, hmiddle, hafter⟩ := hrest.append_left
  obtain rfl := hafter.instrs
  obtain ⟨s₁, hruns₁, hlow₁, hslots⟩ := runs_before hl hlaw hargs hpushes hfp hsp
  rw [← hruns₁.rip_eq] at hmiddle
  have hfp₁ : s₁.gpr .rbp = fp := (hlow₁.gpr _ (by decide) (by decide)).trans hfp
  obtain ⟨s₂, hruns₂, hmem₂, hothers₂, hcarries⟩ := runs_loads hl hloads
    (fun x hx => (hlaw.register hx rfl).1) (Plan.registerLoads_nodup hlaw.nodup _ _)
    (notMem_registerLoads hlaw (by simp)) hmiddle hfp₁
  obtain ⟨t, hruns₃, hmem₃, hothers₃, hcallee, hrax⟩ :=
    runs_target abi ((abi.classify site.types).floatRegCount site.args) site.callee s₂
  have hmem : t.mem = s₁.mem := hmem₃.trans hmem₂
  have hrbp : t.gpr .rbp = fp := by
    refine (State.gpr_eq_of_reg ?_).trans hfp₁
    rw [hothers₃ _ (by decide) (by decide), hothers₂ _ (notMem_registerLoads hlaw (by simp))]
  have hrsp : t.gpr .rsp = s₁.gpr .rsp := by
    refine State.gpr_eq_of_reg ?_
    rw [hothers₃ _ (by decide) (by decide), hothers₂ _ (notMem_registerLoads hlaw (by simp))]
  have hsize := hl.size_lt
  have hdepth := callDepth_lt hlaw frame hargs
  have hbytes : ∀ a : Operand, a.bytesIn frame fp s₁.mem = a.bytesIn frame fp s.mem :=
    hl.bytesIn_congr fun z n hz hz' => hruns₁.read_offset (.inr hz) (by omega) (by omega)
  refine ⟨_, t, ?_, hruns₁.append (hruns₂.append hruns₃), ?_, ?_, ?_⟩
  · simp only [List.append_assoc, List.cons_append, List.nil_append]
  · refine ⟨hrbp, hrsp.trans hlow₁.rsp, hcallee, ?_, ?_⟩
    · intro k a ha
      rw [hmem, hrsp, hslots k a ha, hbytes]
    · intro hv
      have hcount := hlaw.floatRegCount_eq hv site.args
      have hfloats := (hlaw.counts hv).2
      rw [CallSite.types, ← hcount]
      refine hrax hv ?_
      rw [CallSite.types, hcount]
      omega
  · intro q hsp' hax hr11 hload
    rw [hothers₃ q hax hr11, hothers₂ q hload]
    cases q with
    | gpr r =>
        have hr := hlow₁.gpr r (fun h => hsp' (by rw [h])) (fun h => hax (by rw [h]))
        exact congrArg BitVec.toNat hr
    | xmm x => exact congrArg (fun f => (f x).toNat) hlow₁.xmm
  · intro hfound x hx
    rw [hmem] at hfound ⊢
    have hsafe := (hlaw.register hx rfl).2
    simp only [List.mem_cons, List.not_mem_nil, or_false, not_or] at hsafe
    rw [hothers₃ _ hsafe.1 hsafe.2.2.2]
    exact hcarries hfound x hx

/-! ### The callee -/

/-- A call stores its return address just below what is ready for the callee. -/
theorem Ready.between_of_writes {t : State} (h : Ready abi frame site fp t) {x : BitVec 64}
    (hx : Writes (Instr.call .r11) t x) :
    Between fp (-(frame.size + callDepth abi frame site + 8 : Nat)) (-frame.size) x := by
  have hstores : (Instr.call .r11).stores t
      = some (offset fp (-(frame.size + callDepth abi frame site : Nat) - 8), 8) := by
    show some (offset (t.gpr .rsp) (-8), 8) = _
    rw [h.rsp, Memory.offset_offset]
    rfl
  obtain ⟨z, hz, hz', rfl⟩ := hx.between hstores
  exact ⟨z, by omega, by omega, rfl⟩

/-- The state at the first instruction of the callee: the return address is on the stack, below
everything that was there. -/
theorem Ready.enter (hl : frame.Laid params scratch) (hlaw : abi.Lawful)
    (hargs : site.args.length < 2 ^ 27) {t : State} (h : Ready abi frame site fp t) :
    let e := perform (Instr.call .r11) t
    e.rip = site.callee.toBitVec ∧ e.gpr .rbp = fp ∧ e.gpr .rsp = offset (t.gpr .rsp) (-8) ∧
      (∀ q, q ≠ Reg.gpr .rsp → e.reg q = t.reg q) ∧
      e.mem.read (e.gpr .rsp) 8
        = littleEndian 8 (offset t.rip (Instr.call .r11).encode.length).toNat ∧
      ∀ (z : Int) (n : Nat), -(frame.size + callDepth abi frame site : Nat) ≤ z → z + n ≤ 2 ^ 62 →
        e.mem.read (offset fp z) n = t.mem.read (offset fp z) n := by
  intro e
  have hsize := hl.size_lt
  have hdepth := callDepth_lt hlaw frame hargs
  let next := offset t.rip (Instr.call .r11).encode.length
  have hrsp : e.gpr .rsp = offset (t.gpr .rsp) (-8) :=
    State.gpr_push_rsp { t with rip := next } next
  have hmem : e.mem = t.mem.writeNat (offset (t.gpr .rsp) (-8)) 8 next.toNat :=
    State.mem_push { t with rip := next } next
  have hgpr : ∀ r, r ≠ Gpr.rsp → e.gpr r = t.gpr r :=
    fun r hr => State.gpr_push_ne { t with rip := next } next hr
  refine ⟨h.callee, (hgpr _ (by decide)).trans h.rbp, hrsp, ?_, ?_, ?_⟩
  · intro q hq
    cases q with
    | gpr r => exact congrArg BitVec.toNat (hgpr r fun he => hq (by rw [he]))
    | xmm x => rfl
  · rw [hmem, hrsp]
    exact Memory.read_writeNat_self _ _ _ (le_refl 8) (by decide)
  · intro z n hz hz'
    rw [hmem, h.rsp, Memory.offset_offset]
    refine Memory.read_writeNat_of_apart _ _ (Memory.apart_offset (.inr ?_) ?_ ?_) <;> omega

end

end Trampoline.Amd64
