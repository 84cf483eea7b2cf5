/-
Trampoline/Proofs/Amd64/Correctness.lean

A finished trampoline does what was asked for.

The bytes of the code are placed anywhere in memory and executed by the machine,
which knows nothing of instruction lists, fragments or literals.  Whatever the
callees do within their contract (`Returned`), the machine enters exactly the
callees that were asked for, each with its arguments where the convention wants
them (`Arrives`), and returns to the caller with the stack as it found it.  The
contract binds a callee in the state in which this run enters it, so it may well
write through a pointer that it was passed.

Between calls the machine is `Settled`: the stack pointer is at the end of the
frame, the code is as it was placed, and the home slots with the two words above
them are as the prologue left them.  One call keeps a settled machine settled
(`settled_call`), any number of calls do by induction on the list
(`settled_calls`), and the theorem puts the prologue and the epilogue around it.
-/
import Mathlib
import Trampoline.Proofs.Amd64.Execution
import Trampoline.Proofs.Amd64.Literals

namespace Trampoline

open Memory (offset Between StandsAt)

/-! ### What arrives -/

/-- The bytes that an argument stands for, when the entry parameters have the given values: those
of the literal, of the parameter, or of the address of the scratch buffer. -/
def Operand.valueBytes (frame : Frame) (values : Nat → Nat) (fp : BitVec 64) (a : Operand) : Code :=
  match a.source with
  | .literal => a.literalBytes
  | .forwarded index => littleEndian a.type.size (values index.toNat)
  | .scratch index =>
      match frame.scratch? index with
      | some slot => littleEndian a.type.size (offset fp (-slot.offset.toInt)).toNat
      | none => []

/-- Whether the home slots of a frame hold the values of the entry parameters. -/
def Frame.Holds (frame : Frame) (values : Nat → Nat) (fp : BitVec 64) (m : Memory 64) : Prop :=
  ∀ (i : Nat) (slot : HomeSlot), frame.homes[i]? = some slot →
    m.read (offset fp (-slot.offset.toInt)) slot.type.size
      = littleEndian slot.type.size (values i)

/-- Memory that agrees with `m` on the home slots holds the same parameters. -/
theorem Frame.Holds.congr {params : List ValueType} {scratch : List UInt32} {frame : Frame}
    (hl : frame.Laid params scratch) {values : Nat → Nat} {fp : BitVec 64} {m m' : Memory 64}
    (hm : frame.Holds values fp m)
    (h : m'.read (offset fp (-frame.homeBytes.toNat)) (frame.homeBytes.toNat + 16)
      = m.read (offset fp (-frame.homeBytes.toNat)) (frame.homeBytes.toNat + 16)) :
    frame.Holds values fp m' := by
  intro i slot hslot
  obtain ⟨-, hle, -⟩ := hl.home_bounds hslot
  obtain ⟨-, hhi⟩ := hl.home_inside hslot slot.type
  have hbytes := hl.homeBytes_eq
  rw [← hm i slot hslot]
  exact Memory.read_part h (by omega) (by omega)

theorem Operand.Declared.bytesIn_eq {params : List ValueType} {scratch : List UInt32}
    {frame : Frame} (hl : frame.Laid params scratch) {values : Nat → Nat} {fp : BitVec 64}
    {m : Memory 64} (hm : frame.Holds values fp m) {a : Operand} (h : a.Declared params scratch) :
    a.bytesIn frame fp m = a.valueBytes frame values fp := by
  rw [Declared] at h
  rw [valueBytes]
  cases hsource : a.source with
  | literal => exact bytesIn_literal hsource
  | forwarded index =>
      rw [hsource] at h
      obtain ⟨type, htype, ha⟩ := h
      have hlt := (List.getElem?_eq_some_iff.mp htype).1
      rw [← hl.homes_length] at hlt
      have hslot : frame.home? index = some (frame.homes[index.toNat]) :=
        List.getElem?_eq_getElem hlt
      have hsame := hl.type_of_home hslot
      rw [htype, Option.some.injEq] at hsame
      have hwidth : a.type = (frame.homes[index.toNat]).type := by
        rw [ha]
        exact hsame
      rw [bytesIn_forwarded hsource hslot, hwidth]
      exact hm _ _ hslot
  | scratch index =>
      cases hslot : frame.scratch? index with
      | none => simp only [bytesIn, hsource, hslot]
      | some slot => simp only [bytesIn_scratch hsource hslot, hslot]

namespace Amd64

/-- The state at the first instruction of a callee: it is the right one, every argument is in its
place, with nothing but zeros above it in a register, and the SSE arguments are counted where the
convention asks for it. -/
structure Arrives (abi : Abi) (frame : Frame) (values : Nat → Nat) (fp : BitVec 64)
    (site : CallSite) (e : State) : Prop where
  rip : e.rip = site.callee.toBitVec
  args : ∀ (i : Nat) (a : Operand) (loc : Location), site.args[i]? = some a →
    abi.location site.types i = some loc →
    loc.bytes abi e a.type.size = a.valueBytes frame values fp
  extended : ∀ (i : Nat) (a : Operand) (r : Reg), site.args[i]? = some a →
    abi.location site.types i = some (.reg r) → e.reg r < 256 ^ a.type.size
  vectors : abi.vectorCount = true →
    (e.gpr .rax).toNat = min (Budget.floatsIn site.types) abi.budget.floats.length

section

variable {params : List ValueType} {scratch : List UInt32} {frame : Frame} {abi : Abi}
  {site : CallSite} {fp : BitVec 64} {values : Nat → Nat}

/-- The address of a buffer arrives as a whole. -/
theorem Arrives.address {e : State} (h : Arrives abi frame values fp site e) {i : Nat}
    {index : UInt8} {slot : ScratchSlot} {r : Gpr} (ha : site.args[i]? = some (.scratch index))
    (hloc : abi.location site.types i = some (.reg (.gpr r)))
    (hslot : frame.scratch? index = some slot) : e.gpr r = offset fp (-slot.offset.toInt) := by
  have hword : ∀ x : BitVec 64, x.toNat % 256 ^ 8 = x.toNat := fun x => Nat.mod_eq_of_lt x.isLt
  have hbytes : littleEndian 8 (e.gpr r).toNat
      = (Operand.scratch index).valueBytes frame values fp := h.args i _ _ ha hloc
  have hvalue : (Operand.scratch index).valueBytes frame values fp
      = littleEndian 8 (offset fp (-slot.offset.toInt)).toNat := by
    simp only [Operand.valueBytes, Operand.scratch, hslot]
    rfl
  have hnumbers := congrArg ofLittleEndian (hbytes.trans hvalue)
  rw [ofLittleEndian_littleEndian, ofLittleEndian_littleEndian, hword, hword] at hnumbers
  exact BitVec.eq_of_toNat_eq hnumbers

/-- What is ready for a callee arrives. -/
theorem Ready.arrives (hl : frame.Laid params scratch) (hlaw : abi.Lawful)
    (hargs : site.args.length < 2 ^ 27)
    (hdeclared : ∀ a ∈ site.args, a.Declared params scratch) {t : State}
    (h : Ready abi frame site fp t) (hm : frame.Holds values fp t.mem)
    (hcarries : ∀ x ∈ (abi.classify site.types).registerLoads site.args,
      Carries frame fp t.mem x.2 (t.reg x.1)) :
    Arrives abi frame values fp site (perform (Instr.call .r11) t) := by
  obtain ⟨hrip, -, hrsp, hreg, -, hmem⟩ := h.enter hl hlaw hargs
  -- no argument is in the stack pointer
  have hload : ∀ {i : Nat} {a : Operand} {r : Reg}, site.args[i]? = some a →
      abi.location site.types i = some (.reg r) →
      (perform (Instr.call .r11) t).reg r = t.reg r ∧ Carries frame fp t.mem a (t.reg r) := by
    intro i a r ha hloc
    have hmem := Abi.mem_registerLoads ha hloc
    have hsafe := (hlaw.register hmem rfl).2
    simp only [List.mem_cons, List.not_mem_nil, or_false, not_or] at hsafe
    exact ⟨hreg r hsafe.2.1, hcarries _ hmem⟩
  refine ⟨hrip, ?_, ?_, ?_⟩
  · intro i a loc ha hloc
    rw [← (hdeclared a (List.mem_of_getElem? ha)).bytesIn_eq hl hm]
    cases loc with
    | reg r =>
        obtain ⟨hsame, hvalue, -⟩ := hload ha hloc
        rw [Location.bytes, hsame, hvalue]
    | slot k =>
        have hsize := hl.size_lt
        have hdepth := callDepth_lt hlaw frame hargs
        have hk := abi.getElem?_stackOperands ha hloc
        obtain ⟨pad, -, hdepth', -⟩ := callDepth_spec hlaw frame site
        have hlt : k < abi.stacked site.types := by
          rw [CallSite.types, ← abi.length_stackOperands]
          exact (List.getElem?_eq_some_iff.mp hk).1
        have ha8 := a.type.size_le
        rw [Location.bytes, hrsp, Memory.offset_offset]
        rw [← h.slots k a hk, h.rsp, Memory.offset_offset, Memory.offset_offset]
        rw [show -((frame.size + callDepth abi frame site : Nat) : Int)
            + (-8 + ((8 + abi.shadowSpace + 8 * k : Nat) : Int))
          = -((frame.size + callDepth abi frame site : Nat) : Int)
            + ((abi.shadowSpace + 8 * k : Nat) : Int) by omega]
        exact hmem _ _ (by omega) (by omega)
  · intro i a r ha hloc
    have ha' := hdeclared a (List.mem_of_getElem? ha)
    obtain ⟨hsame, -, hlt⟩ := hload ha hloc
    rw [hsame]
    refine hlt (ha'.validIn hl) ?_
    intro hsource
    rw [Operand.Declared, hsource] at ha'
    exact ha'
  · intro hv
    rw [← h.vectors hv]
    exact hreg (.gpr .rax) (by decide)

end

/-! ### Callees and calls -/

/-- The contract of a callee that was entered in the state `t` and returned in the state `u`: it
returns to the address on the stack, gives back both pointers, and has not written the code, the
home slots and the two words above them, the saved frame pointer and the return address.  It may
have written anything else. -/
structure Returned (base : BitVec 64) (code : Code) (frame : Frame) (fp : BitVec 64)
    (t u : State) : Prop where
  rip : u.rip = t.fetch 64 8 (t.gpr .rsp)
  rsp : u.gpr .rsp = offset (t.gpr .rsp) 8
  rbp : u.gpr .rbp = t.gpr .rbp
  code : u.mem.read base code.length = t.mem.read base code.length
  homes : u.mem.read (offset fp (-frame.homeBytes.toNat)) (frame.homeBytes.toNat + 16)
    = t.mem.read (offset fp (-frame.homeBytes.toNat)) (frame.homeBytes.toNat + 16)

/-- A state between calls: the code is in place, and the home slots and the two words above them
are as in the memory `m`. -/
structure Settled (base : BitVec 64) (code : Code) (frame : Frame) (fp : BitVec 64)
    (m : Memory 64) (s : State) : Prop where
  resting : Resting frame fp s
  code : s.mem.read base code.length = code
  homes : s.mem.read (offset fp (-frame.homeBytes.toNat)) (frame.homeBytes.toNat + 16)
    = m.read (offset fp (-frame.homeBytes.toNat)) (frame.homeBytes.toNat + 16)

section

variable {params : List ValueType} {scratch : List UInt32} {frame : Frame} {abi : Abi}
  {fp base : BitVec 64} {code : Code} {values : Nat → Nat} {callees : Callees State} {m : Memory 64}
  {reach : Nat}

/-- One call: the machine enters the callee with everything in its place, and is settled again
after the code of the call. -/
theorem settled_call (hl : frame.Laid params scratch) (hlaw : abi.Lawful) {site : CallSite}
    (hargs : site.args.length < 2 ^ 27)
    (hdeclared : ∀ a ∈ site.args, a.Declared params scratch)
    (hreach : frame.size + 16 + callDepth abi frame site ≤ reach)
    (hclear : ∀ k < code.length, ¬ Between fp (8 - reach) 8 (base + BitVec.ofNat 64 k))
    (hm : frame.Holds values fp m) {n : Nat} {s : State}
    (hcallee : ∀ e, ReachesCallee s e → Arrives abi frame values fp site e →
      Returned base code frame fp e (callees n e))
    {lines : List Line} {is : List Instr} (hlines : callLines abi frame site = .ok lines)
    (hs : Settled base code frame fp m s)
    (hr : Realizes (StandsAt base code) s.rip lines is)
    (hstands : StandsAt base code s.rip (encodeAll is)) :
    ∃ t u, let e := perform (Instr.call .r11) t
      Ready abi frame site fp t ∧ Arrives abi frame values fp site e ∧
      Settled base code frame fp m u ∧ u.rip = offset s.rip (encodeAll is).length ∧
      (∀ q, q ≠ Reg.gpr .rsp → u.reg q = (callees n e).reg q) ∧
      ReachesCallee s e ∧ Reaches (callees n e) u := by
  have hsize := hl.size_lt
  have hdepth := callDepth_lt hlaw frame hargs
  have hbytes : frame.homeBytes.toNat ≤ frame.size := by
    rw [hl.homeBytes_eq, hl.size_eq]
    omega
  obtain ⟨before, t, rfl, hruns, hready, -, hcarries⟩ :=
    runs_call hl hlaw hargs hlines hr hs.resting.rbp hs.resting.rsp
  -- up to the call
  have hbelow : Runs (Between fp (8 - reach) 8) before s t :=
    hruns.widen (by omega) (by omega)
  have htcode := hbelow.code_eq hclear hs.code
  have hthomes := (hruns.read_offset (z := -frame.homeBytes.toNat)
    (n := frame.homeBytes.toNat + 16) (.inr (by omega)) (by omega) (by omega)).trans hs.homes
  rw [encodeAll_append, encodeAll_cons] at hstands
  have hcall := hstands.right
  rw [← hruns.rip_eq] at hcall
  -- the callee
  obtain ⟨-, herbp, hersp, -, hereturn, hemem⟩ := hready.enter hl hlaw hargs
  set e := perform (Instr.call .r11) t with he
  have hecode : e.mem.read base code.length = code := by
    refine (read_perform fun k hk hw => ?_).trans htcode
    obtain ⟨z, hz, hz', hx⟩ := hready.between_of_writes hw
    exact hclear k hk ⟨z, by omega, by omega, hx⟩
  have hehomes := (hemem (-frame.homeBytes.toNat) (frame.homeBytes.toNat + 16) (by omega)
    (by omega)).trans hthomes
  have hreaches : ReachesCallee s e :=
    .of_reaches (hbelow.reaches hclear hs.code hstands.left)
      (reachesCallee_of_standsAt htcode hcall.left)
  have harrives : Arrives abi frame values fp site e :=
    hready.arrives hl hlaw hargs hdeclared (hm.congr hl hthomes)
      (hcarries fun x bytes hfound => hfound.read_eq htcode)
  have hreturned := hcallee e hreaches harrives
  set c := callees n e with hc
  have hcrip : c.rip = offset t.rip (Instr.call .r11).encode.length := by
    apply BitVec.eq_of_toNat_eq
    rw [hreturned.rip, State.toNat_fetch _ _ (by decide), Memory.readNat, hereturn,
      ofLittleEndian_littleEndian]
    exact Nat.mod_eq_of_lt (BitVec.isLt _)
  have hcrsp : c.gpr .rsp = t.gpr .rsp := by
    rw [hreturned.rsp, hersp, Memory.offset_offset]
    exact Memory.offset_zero _
  -- the cleanup
  obtain ⟨u, hclean, hu, hureg, humem⟩ := hready.cleanup (P := fun _ => False) hl hlaw hargs hcrsp
    (hreturned.rbp.trans herbp)
  have hafter := hcall.right
  rw [← hcrip] at hafter
  have hccode : c.mem.read base code.length = code := hreturned.code.trans hecode
  refine ⟨t, u, hready, harrives, ⟨hu, ?_, ?_⟩, ?_, hureg, hreaches, ?_⟩
  · rw [humem]
    exact hccode
  · rw [humem]
    exact hreturned.homes.trans hehomes
  · rw [hclean.rip_eq, hcrip, hruns.rip_eq, encodeAll_append, encodeAll_cons, List.length_append,
      List.length_append, Memory.offset_offset, Memory.offset_offset]
    rfl
  · exact hclean.reaches (fun _ _ h => h) hccode hafter

/-- Any number of calls: the machine enters their callees in order, and is settled at the end.
Registers are then as the last callee left them. -/
theorem settled_calls (hl : frame.Laid params scratch) (hlaw : abi.Lawful)
    {sites : List CallSite} {blocks : List (List Line)}
    (hblocks : List.Forall₂ (fun site lines => callLines abi frame site = .ok lines) sites blocks)
    (hargs : ∀ site ∈ sites, site.args.length < 2 ^ 27)
    (hdeclared : ∀ site ∈ sites, ∀ a ∈ site.args, a.Declared params scratch)
    (hreach : stackReach abi frame sites ≤ reach)
    (hclear : ∀ k < code.length, ¬ Between fp (8 - reach) 8 (base + BitVec.ofNat 64 k))
    (hm : frame.Holds values fp m) (n : Nat) {s : State}
    (hcallees : ∀ k site e, sites[k]? = some site → EntersCallee callees n s (n + k) e →
      Arrives abi frame values fp site e → Returned base code frame fp e (callees (n + k) e))
    {is : List Instr} (hs : Settled base code frame fp m s)
    (hr : Realizes (StandsAt base code) s.rip blocks.flatten is)
    (hstands : StandsAt base code s.rip (encodeAll is)) :
    ∃ ts u, let es := ts.map (perform (Instr.call .r11))
      List.Forall₂ (fun site t => Ready abi frame site fp t ∧
        Arrives abi frame values fp site (perform (Instr.call .r11) t)) sites ts ∧
      Settled base code frame fp m u ∧ u.rip = offset s.rip (encodeAll is).length ∧
      (es = [] → u = s) ∧
      (∀ e, es.getLast? = some e → ∀ q, q ≠ Reg.gpr .rsp →
        u.reg q = (callees (n + es.length - 1) e).reg q) ∧
      ∀ es' last, Executes callees (n + es.length) u es' last →
        Executes callees n s (es ++ es') last := by
  induction hblocks generalizing n is s with
  | nil =>
      cases hr
      refine ⟨[], s, .nil, hs, ?_, fun _ => rfl, ?_, fun es' last h => h⟩
      · exact (Memory.offset_zero s.rip).symm
      · intro e he
        cases he
  | @cons site lines sites blocks hlines _ ih =>
      obtain ⟨hfirst, hothers⟩ := stackReach_cons abi frame site sites
      rw [List.flatten_cons] at hr
      obtain ⟨js, ks, rfl, hrfirst, hrrest⟩ := hr.append_left
      rw [encodeAll_append] at hstands
      -- the first call
      obtain ⟨t, v, hready, harrives, hv, hvrip, hvreg, hcall, hback⟩ :=
        settled_call hl hlaw (hargs site (by simp)) (hdeclared site (by simp)) (by omega) hclear hm
          (fun e h => hcallees 0 site e rfl (.first h)) hlines hs hrfirst hstands.left
      -- the others
      have hlater : ∀ k site' e, sites[k]? = some site' →
          EntersCallee callees (n + 1) v (n + 1 + k) e → Arrives abi frame values fp site' e →
          Returned base code frame fp e (callees (n + 1 + k) e) := by
        intro k site' e hk henters harrives
        rw [Nat.add_right_comm n 1 k] at henters ⊢
        exact hcallees (k + 1) site' e hk (.later hcall (.of_reaches hback henters)) harrives
      have hstandsRest := hstands.right
      rw [← hvrip] at hrrest hstandsRest
      obtain ⟨ts, u, hts, hu, hurip, hempty, hulast, huexec⟩ :=
        ih (fun site' h => hargs site' (by simp [h])) (fun site' h => hdeclared site' (by simp [h]))
          (by omega) (n + 1) hlater hv hrrest hstandsRest
      refine ⟨t :: ts, u, .cons ⟨hready, harrives⟩ hts, hu, ?_, ?_, ?_, ?_⟩
      · rw [hurip, hvrip, Memory.offset_offset, encodeAll_append, List.length_append,
          Nat.cast_add]
      · intro h
        cases h
      · intro e he q hq
        rw [List.map_cons] at he ⊢
        rcases hcase : ts.map (perform (Instr.call .r11)) with - | ⟨e', es⟩
        · rw [hcase, List.getLast?_singleton, Option.some.injEq] at he
          rw [hempty hcase, ← he]
          exact hvreg q hq
        · rw [hcase, List.getLast?_cons_cons] at he
          have h := hulast e (by rw [hcase]; exact he) q hq
          rw [hcase, List.length_cons] at h
          rw [List.length_cons, List.length_cons, h]
          congr 2
          omega
      · intro es' last h
        refine hcall.executes (.of_reaches hback (huexec es' last ?_))
        rw [List.map_cons, List.length_cons] at h
        rw [Nat.add_assoc, Nat.add_comm 1]
        exact h

end

/-! ### The bytes of a finished trampoline -/

section

variable {target : Target} {abi : Abi} {frame : Frame}

/-- The code of a finished trampoline decodes to its lines, wherever it is placed, and every load
of a literal finds it behind the instructions. -/
theorem realizes_assembly (htarget : target.abi? = some abi) {h : Builder.History} {b : Builder}
    (hf : Builder.Follows target h b) (hphase : b.phase = .finished) (hlt : b.assembly.length < 2 ^ 31) :
    ∃ blocks is literals,
      List.Forall₂ (fun site lines => callLines abi b.frame site = .ok lines) h.sites blocks ∧
      b.assembly = encodeAll is ++ literals ∧
      ∀ base, Realizes (StandsAt base b.assembly) base
        ((prologue abi b.frame).map .instr ++ blocks.flatten ++ (epilogue b.frame).map .instr) is := by
  obtain ⟨blocks, placed, hblocks, -, hresolve⟩ := exists_resolve_lines htarget hf hphase
  set lines := trampolineLines abi b.frame blocks with hlines
  obtain ⟨-, hlength, -, -⟩ := Fragment.resolve_spec (closed_draft lines) hresolve
  have hsmall : (draft lines).code.length +
      (Fragment.literalBytes (draft lines).literals).length < 2 ^ 31 := by
    rw [← hlength]
    exact hlt
  have hcode : b.assembly = encodeAll (realize 0 (draft lines).code.length lines) ++
      Fragment.literalBytes (draft lines).literals := (resolve_draft hresolve).1
  refine ⟨blocks, _, _, mapM_eq_ok.mp hblocks, hcode, ?_⟩
  intro base
  have hreal : Realizes (StandsAt base b.assembly) (offset base (0 : Nat)) lines _ :=
    realizes_realize lines (Nat.le_of_eq (Nat.zero_add _)) hsmall ?_
  · rwa [Nat.cast_zero, Memory.offset_zero] at hreal
  · intro front d back hsplit
    rw [hsplit] at hcode
    have hstands := standsAt_literal base hcode
    rwa [length_encodeAll_realize] at hstands

end

/-! ### From entry to return -/

/-- A state at the first byte of a trampoline that stands at `base`: the code is in place, apart
from the `reach` bytes below the stack pointer, and the entry parameters have the given values
where the convention puts them. -/
structure Enters (abi : Abi) (params : List ValueType) (values : Nat → Nat) (base : BitVec 64)
    (code : Code) (reach : Nat) (s : State) : Prop where
  rip : s.rip = base
  placed : s.mem.read base code.length = code
  apart : Memory.Apart base code.length (offset (s.gpr .rsp) (-reach)) reach
  params : ∀ (i : Nat) (t : ValueType) (loc : Location), params[i]? = some t →
    abi.location params i = some loc →
    loc.bytes abi s t.size = littleEndian t.size (values i)

section

variable {params : List ValueType} {scratch : List UInt32} {frame : Frame} {abi : Abi}
  {base : BitVec 64} {code : Code} {values : Nat → Nat} {callees : Callees State} {reach : Nat}
  {s : State}

/-- The code does not meet the stack. -/
theorem Enters.clear (h : Enters abi params values base code reach s) :
    ∀ k < code.length,
      ¬ Between (offset (s.gpr .rsp) (-8)) (8 - reach) 8 (base + BitVec.ofNat 64 k) := by
  rintro k hk ⟨z, hz, hz', hx⟩
  obtain ⟨j, hj⟩ := Int.eq_ofNat_of_zero_le (show 0 ≤ z - 8 + reach by omega)
  refine h.apart k hk j (by omega) ?_
  rw [hx, Memory.add_ofNat_eq_offset (offset _ _), Memory.offset_offset, Memory.offset_offset]
  congr 1
  omega

/-- The prologue settles the machine: the home slots hold the entry parameters, and the words above
them the caller's frame pointer and the return address. -/
theorem settled_prologue (hl : frame.Laid params scratch) (hlaw : abi.Lawful)
    (hreach : frame.size + 16 ≤ reach) (hs : Enters abi params values base code reach s)
    (hstands : StandsAt base code s.rip (encodeAll (prologue abi frame))) :
    ∃ t, let fp := offset (s.gpr .rsp) (-8)
      Settled base code frame fp t.mem t ∧ frame.Holds values fp t.mem ∧
      t.rip = offset s.rip (encodeAll (prologue abi frame)).length ∧
      t.mem.read fp 8 = littleEndian 8 (s.gpr .rbp).toNat ∧
      t.mem.read (offset fp 8) 8 = s.mem.read (s.gpr .rsp) 8 ∧ Reaches s t := by
  have hsize := hl.size_lt
  obtain ⟨t, hruns, hopened, -⟩ := runs_prologue hl hlaw s
  have hbelow : Runs (Between (offset (s.gpr .rsp) (-8)) (8 - reach) 8) (prologue abi frame) s t :=
    hruns.widen (by omega) (le_refl _)
  have hcode := hbelow.code_eq hs.clear hs.placed
  refine ⟨t, ⟨⟨hopened.rbp, hopened.rsp⟩, hcode, rfl⟩, ?_, hruns.rip_eq, hopened.saved, ?_, ?_⟩
  · intro i slot hslot
    have htype := hl.type_of_home hslot
    obtain ⟨loc, hloc⟩ := abi.exists_location htype
    rw [hopened.home i slot loc hslot hloc _ slot.type.size_le,
      hs.params i slot.type loc htype hloc]
  · have hplace : offset (offset (s.gpr .rsp) (-8)) 8 = s.gpr .rsp := by
      rw [Memory.offset_offset]
      exact Memory.offset_zero _
    have hkeep := hruns.read_offset (z := 8) (n := 8) (.inr (le_refl 8)) (by omega) (by omega)
    rw [hplace] at hkeep ⊢
    exact hkeep
  · exact hbelow.reaches hs.clear hs.placed hstands

theorem perform_ret (s : State) :
    (perform Instr.ret s).rip = s.fetch 64 8 (s.gpr .rsp) ∧
      (perform Instr.ret s).gpr .rsp = offset (s.gpr .rsp) 8 ∧
      ∀ q, q ≠ Reg.gpr .rsp → (perform Instr.ret s).reg q = s.reg q := by
  refine ⟨rfl, ?_, ?_⟩
  · have hadd : s.gpr .rsp + 8 = offset (s.gpr .rsp) 8 :=
      Memory.add_ofNat_eq_offset (s.gpr .rsp) 8
    rw [← hadd]
    simp [perform_eq, Instr.exec, State.pop, State.setGpr]
  · rintro (r | x) hq
    · have hne : r ≠ .rsp := fun h => hq (by rw [h])
      simp [State.reg, perform_eq, Instr.exec, State.pop, State.setGpr, hne]
    · rfl

/-- The epilogue returns from a settled machine with the pointers of the caller. -/
theorem executes_epilogue (hl : frame.Laid params scratch) {m : Memory 64} {fp : BitVec 64}
    {u : State} (hu : Settled base code frame fp m u)
    (hstands : StandsAt base code u.rip (encodeAll (epilogue frame))) {saved next : BitVec 64}
    (hsaved : m.read fp 8 = littleEndian 8 saved.toNat)
    (hnext : m.read (offset fp 8) 8 = littleEndian 8 next.toNat) (n : Nat) :
    ∃ last, Executes callees n u [] last ∧ last.rip = next ∧ last.gpr .rsp = offset fp 16 ∧
      last.gpr .rbp = saved ∧
      ∀ q, q ≠ Reg.gpr .rsp → q ≠ .gpr .rbp → last.reg q = u.reg q := by
  have hsaved' : u.mem.read fp 8 = littleEndian 8 saved.toNat := by
    have h := Memory.read_part hu.homes (z := 0) (k := 8) (by omega) (by omega)
    rw [Memory.offset_zero] at h
    rw [h, hsaved]
  have hnext' : u.mem.read (offset fp 8) 8 = littleEndian 8 next.toNat := by
    rw [Memory.read_part hu.homes (by omega) (by omega), hnext]
  obtain ⟨before, v, hsplit, hruns, hvrsp, hvrbp, hvmem, hvreg⟩ :=
    runs_epilogue (P := fun _ => False) hl.size_lt hu.resting.rsp hsaved'
  rw [hsplit, encodeAll_append] at hstands
  have hret := hstands.right
  rw [← hruns.rip_eq, encodeAll_cons] at hret
  have hvcode : v.mem.read base code.length = code := hruns.code_eq (fun _ _ h => h) hu.code
  obtain ⟨hrip, hrsp, hreg⟩ := perform_ret v
  refine ⟨perform Instr.ret v, ?_, ?_, ?_, ?_, ?_⟩
  · refine .of_reaches (hruns.reaches (fun _ _ h => h) hu.code hstands.left) (executes_ret ?_)
    exact hret.left.read_eq hvcode
  · apply BitVec.eq_of_toNat_eq
    rw [hrip, State.toNat_fetch _ _ (by decide), Memory.readNat, hvrsp, hvmem, hnext',
      ofLittleEndian_littleEndian]
    exact Nat.mod_eq_of_lt next.isLt
  · rw [hrsp, hvrsp, Memory.offset_offset]
    rfl
  · rw [State.gpr_eq_of_reg (hreg _ (by decide)), hvrbp]
  · intro q hq hq'
    rw [hreg q hq, hvreg q hq hq']

end

/-- A callee may fill a scratch buffer. -/
theorem returned_fill {params : List ValueType} {scratch : List UInt32} {frame : Frame}
    (hl : frame.Laid params scratch) {base fp : BitVec 64} {code : Code}
    (hapart : Memory.Apart base code.length (offset fp (-frame.size)) frame.size) {i : Nat}
    {slot : ScratchSlot} (hslot : frame.scratch[i]? = some slot) {bytes : Code}
    (hbytes : bytes.length ≤ slot.size.toNat) (e : State) :
    Returned base code frame fp e
      { perform Instr.ret e with mem := e.mem.write (offset fp (-slot.offset.toInt)) bytes } := by
  obtain ⟨hrip, hrsp, hreg⟩ := perform_ret e
  obtain ⟨hlow, hhigh⟩ := hl.buffer_bounds hslot
  have hhomes := hl.homeBytes_eq
  have hsize := hl.size_lt
  refine ⟨hrip, hrsp, State.gpr_eq_of_reg (hreg (.gpr .rbp) (by decide)), ?_, ?_⟩
  · exact Memory.read_write_of_apart _ (hapart.part (by omega) (by omega))
  · refine Memory.read_write_of_apart _ (Memory.apart_offset (.inr ?_) ?_ ?_) <;> omega

/-- A finished trampoline, placed anywhere and entered with any values of its parameters, makes
exactly the calls that its history tells, in order, each with its arguments in place, and returns
to its caller with the stack as it was.  The result of the last call is passed on.  Of its callees
it is only assumed that they keep their contract where the trampoline enters them, with their
arguments in place. -/
theorem trampoline_correct {target : Target} {abi : Abi} (htarget : target.abi? = some abi)
    {ops : List Builder.Operation} {entries : List Builder.Entry} {b : Builder}
    (hrun : (Builder.create target).record ops = .ok (entries, b)) (hfinished : b.phase = .finished)
    (hlt : b.assembly.length < 2 ^ 31) {sites : List CallSite}
    (hsites : sites = (Builder.History.ofEntries target.pointerSize entries).sites)
    (hargs : ∀ site ∈ sites, site.args.length < 2 ^ 27) {base fp : BitVec 64} {s : State}
    {values : Nat → Nat} {callees : Callees State} (hfp : fp = offset (s.gpr .rsp) (-8))
    (hs : Enters abi b.params values base b.assembly (stackReach abi b.frame sites) s)
    (hcallees : ∀ n site e, sites[n]? = some site → EntersCallee callees 0 s n e →
      Arrives abi b.frame values fp site e → Returned base b.assembly b.frame fp e (callees n e)) :
    ∃ es last, Executes callees 0 s es last ∧
      List.Forall₂ (Arrives abi b.frame values fp) sites es ∧
      ((s.gpr .rsp).toNat % 16 = 8 → ∀ e ∈ es, (e.gpr .rsp).toNat % 16 = 8) ∧
      last.rip = s.fetch 64 8 (s.gpr .rsp) ∧ last.gpr .rsp = offset (s.gpr .rsp) 8 ∧
      last.gpr .rbp = s.gpr .rbp ∧
      ∀ e, es.getLast? = some e → ∀ q, q ≠ Reg.gpr .rsp → q ≠ .gpr .rbp →
        last.reg q = (callees (es.length - 1) e).reg q := by
  obtain ⟨hb, ht, hf⟩ := Builder.record_follows hrun
  have hne : b.phase ≠ .idle := by
    rw [hfinished]
    decide
  have hl := Frame.laid_of_layout (hb.opened hne).2
  have hlaw := Abi.lawful_of_target htarget
  subst hsites hfp
  obtain rfl := hs.rip
  obtain ⟨blocks, is, literals, hblocks, hcode, hreal⟩ :=
    realizes_assembly htarget hf hfinished hlt
  -- the instructions of the prologue, of the calls and of the epilogue
  obtain ⟨front, closing, rfl, hfront, hclosing⟩ := (hreal s.rip).append_left
  obtain rfl := hclosing.instrs
  obtain ⟨opening, calls, rfl, hopening, hcalls⟩ := hfront.append_left
  obtain rfl := hopening.instrs
  have hstands : StandsAt s.rip b.assembly s.rip
      (encodeAll (prologue abi b.frame ++ calls ++ epilogue b.frame)) :=
    ⟨[], literals, hcode, (Memory.offset_zero s.rip).symm⟩
  rw [encodeAll_append, encodeAll_append, List.append_assoc] at hstands
  -- the prologue
  have hreach : b.frame.size + 16 ≤ stackReach abi b.frame
      (Builder.History.ofEntries target.pointerSize entries).sites := Nat.le_add_right _ _
  obtain ⟨t, ht, hholds, htrip, hsaved, hreturn, hreaches⟩ :=
    settled_prologue hl hlaw hreach hs hstands.left
  have hbody := hstands.right
  rw [← htrip] at hcalls hbody
  -- the calls
  have hentered : ∀ k site e,
      (Builder.History.ofEntries target.pointerSize entries).sites[k]? = some site →
      EntersCallee callees 0 t (0 + k) e →
      Arrives abi b.frame values (offset (s.gpr .rsp) (-8)) site e →
      Returned s.rip b.assembly b.frame (offset (s.gpr .rsp) (-8)) e (callees (0 + k) e) := by
    intro k site e hk henters harrives
    rw [Nat.zero_add] at henters ⊢
    exact hcallees k site e hk (.of_reaches hreaches henters) harrives
  obtain ⟨ts, u, hts, hu, hurip, -, hulast, huexec⟩ := settled_calls hl hlaw hblocks hargs
    (fun site h => (hf.sites site h).2) (le_refl _) hs.clear hholds 0
    hentered ht hcalls hbody.left
  have hend := hbody.right
  rw [← hurip] at hend
  -- the epilogue
  have hnext : t.mem.read (offset (offset (s.gpr .rsp) (-8)) 8) 8
      = littleEndian 8 (s.fetch 64 8 (s.gpr .rsp)).toNat := by
    rw [hreturn, State.toNat_fetch _ _ (by decide), Memory.littleEndian_readNat _ _ (le_refl 8)]
  obtain ⟨last, hlast, hrip, hrsp, hrbp, hreg⟩ :=
    executes_epilogue hl hu hend hsaved hnext (0 + (ts.map (perform (Instr.call .r11))).length)
  have hall := Executes.of_reaches hreaches (huexec [] last hlast)
  rw [List.append_nil] at hall
  refine ⟨_, last, hall, ?_, ?_, hrip, ?_, hrbp, ?_⟩
  · rw [List.forall₂_map_right_iff]
    exact hts.imp fun site t h => h.2
  · intro hentry e he
    obtain ⟨t, hmem, rfl⟩ := List.mem_map.mp he
    obtain ⟨site, hsite, hready, -⟩ := exists_of_forall₂ hts hmem
    have haligned := hready.aligned hlaw hentry
    obtain ⟨-, -, hersp, -⟩ := hready.enter hl hlaw (hargs site hsite)
    have hmod : (offset (t.gpr .rsp) (-8)).toNat % 16 = ((t.gpr .rsp).toNat + (16 - 8 % 16)) % 16 :=
      Memory.toNat_offset_neg_mod (by decide) (t.gpr .rsp) 8
    rw [hersp]
    omega
  · rw [hrsp, Memory.offset_offset]
    rfl
  · intro e he q hq hq'
    rw [hreg q hq hq', hulast e he q hq, Nat.zero_add]

/-- Two calls that forward a parameter and pass literals and a buffer, among refused operations,
with callees that fill the buffer and return. -/
theorem trampoline_correct_two_calls :
    let ops : List Builder.Operation := [
      .declareParameters [.qword, .byte], .declareScratch 24, .start,
      .pushScratch 0, .pushForwarded 1, .pushLiteral (.double 11), .pushForwarded 7,
      .call 4096 .cdecl false, .pushLiteral (.byte 3), .call 4096 .cdecl true,
      .pushScratch 0, .pushLiteral (.float 13), .call 8192 .stdcall false, .finish]
    let values : Nat → Nat := fun _ => 5
    let callees : Callees State := fun _ e =>
      { perform Instr.ret e with mem := e.mem.write (e.gpr .rdi) (List.replicate 24 0xFF) }
    ∃ entries b s, (Builder.create .systemV).record ops = .ok (entries, b) ∧
      let sites := (Builder.History.ofEntries Target.systemV.pointerSize entries).sites
      sites.map (·.callee) = [4096, 8192] ∧
      Enters .systemV b.params values 0 b.assembly (stackReach .systemV b.frame sites) s ∧
      ∃ es last, Executes callees 0 s es last ∧
        List.Forall₂ (Arrives .systemV b.frame values (offset (s.gpr .rsp) (-8))) sites es := by
  intro ops values callees
  -- everything about the run that can be computed
  have hfacts : ((Builder.create .systemV).record ops).map (fun r =>
      let sites := (Builder.History.ofEntries Target.systemV.pointerSize r.1).sites
      decide (r.2.phase = .finished ∧ r.2.params = [.qword, .byte] ∧
        r.2.frame = ⟨[⟨.qword, 8⟩, ⟨.byte, 16⟩], [⟨24, 40⟩], 16, 24⟩ ∧
        r.2.assembly.length < 2 ^ 31 ∧ stackReach .systemV r.2.frame sites < 2 ^ 32 ∧
        sites.map (·.callee) = [4096, 8192] ∧ ∀ site ∈ sites, site.args.length < 2 ^ 27 ∧
          site.args[0]? = some (.scratch 0) ∧
          Abi.systemV.location site.types 0 = some (.reg (.gpr .rdi))))
      = .ok true := by decide +kernel
  obtain ⟨⟨entries, b⟩, hrun, hrest⟩ := map_eq_ok.mp hfacts
  obtain ⟨hphase, hparams, hframe, hlength, hreach, hcallees, hsites⟩ := of_decide_eq_true hrest
  dsimp only at hframe hlength hreach
  have hlayout : Frame.layout [.qword, .byte] [24] = .ok b.frame := by
    rw [hframe]
    rfl
  let s : State := ⟨fun r => if r = .rsp then 1099511627776 else 5, fun _ => 0, 0,
    Memory.write (fun _ => 0) 0 b.assembly⟩
  have hs : Enters .systemV b.params values 0 b.assembly (stackReach .systemV b.frame
      (Builder.History.ofEntries Target.systemV.pointerSize entries).sites) s := by
    refine ⟨rfl, ?_, ?_, ?_⟩
    · rw [Memory.read_write_self _ _ (le_refl _) (by omega), List.take_length]
    · have hrsp : s.gpr .rsp = offset 0 1099511627776 :=
        show (1099511627776 : BitVec 64) = offset 0 1099511627776 by decide
      rw [hrsp, Memory.offset_offset, ← Memory.offset_zero (0 : BitVec 64), Memory.offset_offset]
      exact Memory.apart_offset (.inl (by omega)) (by omega) (by omega)
    · rw [hparams]
      intro i t loc ht hloc
      match i with
      | 0 =>
          cases ht
          cases hloc
          rfl
      | 1 =>
          cases ht
          cases hloc
          rfl
      | i + 2 => cases ht
  -- a callee is passed the address of the buffer, so that is what it fills
  have hreturns : ∀ n site e,
      (Builder.History.ofEntries Target.systemV.pointerSize entries).sites[n]? = some site →
      EntersCallee callees 0 s n e →
      Arrives .systemV b.frame values (offset (s.gpr .rsp) (-8)) site e →
      Returned 0 b.assembly b.frame (offset (s.gpr .rsp) (-8)) e (callees n e) := by
    intro n site e hsite _ harrives
    obtain ⟨-, hbuffer, hrdi⟩ := hsites site (List.mem_of_getElem? hsite)
    have hslot : b.frame.scratch? 0 = some ⟨24, 40⟩ := by
      rw [hframe]
      rfl
    have hinside : b.frame.size + 16 ≤ stackReach .systemV b.frame
        (Builder.History.ofEntries Target.systemV.pointerSize entries).sites := Nat.le_add_right _ _
    show Returned _ _ _ _ _ { perform Instr.ret e with mem := e.mem.write (e.gpr .rdi) _ }
    rw [harrives.address hbuffer hrdi hslot]
    refine returned_fill (Frame.laid_of_layout hlayout) ?_ hslot (by decide) e
    rw [Memory.offset_offset]
    exact hs.apart.part (by omega) (by omega)
  obtain ⟨es, last, hexec, harrives, -⟩ :=
    trampoline_correct rfl hrun hphase hlength rfl (fun site h => (hsites site h).1) rfl hs hreturns
  exact ⟨entries, b, s, hrun, hcallees, hs, es, last, hexec, harrives⟩

end Amd64

end Trampoline
