/-
Trampoline/Proofs/Amd64/StackDiscipline.lean

How the stack pointer and the frame pointer move through a trampoline.

The instructions are those that the code decodes to, followed one after the
other (`moments`, `outcome`).  Nothing is assumed about a callee but that it gives
back both pointers and leaves the saved frame pointer alone (`GivesBack`), and that
only in the state it is entered with.

`StackDiscipline` collects what a convention asks of the stack: where the stack
pointer rests between calls, where it is at each call and that it is aligned
there, where the stack arguments are, that the caller's pointers are back at the
end, and that the frame is never written by the code that comes after the
prologue.  The proof follows one call (`follow_call`), and then any number of
them by induction on the list of calls (`follow_calls`).
-/
import Mathlib
import Trampoline.Proofs.Amd64.Call
import Trampoline.Proofs.Amd64.Prologue
import Trampoline.Proofs.Following

namespace Trampoline.Amd64

open Memory (offset Between)

open InstructionSet (isCall)

/-! ### What callees give back -/

/-- Whether a callee that was entered in the state `e` and returned in the state `c` gave back both
pointers and left the saved frame pointer alone, which the frame pointer points to. -/
structure GivesBack (e c : State) : Prop where
  rsp : c.gpr .rsp = offset (e.gpr .rsp) 8
  rbp : c.gpr .rbp = e.gpr .rbp
  saved : c.mem.read (e.gpr .rbp) 8 = e.mem.read (e.gpr .rbp) 8

/-! ### One call, and any number of them -/

/-- A state between calls: the stack pointer is at the end of the frame. -/
structure Resting (frame : Frame) (fp : BitVec 64) (s : State) : Prop where
  rbp : s.gpr .rbp = fp
  rsp : s.gpr .rsp = offset fp (-frame.size)

section

variable {params : List ValueType} {scratch : List UInt32} {frame : Frame} {abi : Abi}
  {fp : BitVec 64} {callees : Callees State}

/-- The cleanup after a call brings the stack pointer back to the end of the frame. -/
theorem Ready.cleanup {P : BitVec 64 → Prop} (hl : frame.Laid params scratch) (hlaw : abi.Lawful)
    {site : CallSite} (hargs : site.args.length < 2 ^ 27) {t c : State}
    (h : Ready abi frame site fp t) (hrsp : c.gpr .rsp = t.gpr .rsp) (hrbp : c.gpr .rbp = fp) :
    ∃ u, Runs P (adjustStack .add (callDepth abi frame site)) c u ∧ Resting frame fp u ∧
      (∀ q, q ≠ Reg.gpr .rsp → u.reg q = c.reg q) ∧ u.mem = c.mem := by
  have hsize := hl.size_lt
  have hdepth := callDepth_lt hlaw frame hargs
  obtain ⟨u, hruns, hursp, hureg, humem⟩ := runs_adjustStack (P := P) .add
    (show callDepth abi frame site < 2 ^ 31 by omega) c
  refine ⟨u, hruns, ⟨?_, ?_⟩, hureg, humem⟩
  · rw [State.gpr_eq_of_reg (hureg _ (by decide)), hrbp]
  · rw [hursp, hrsp, h.rsp, Memory.offset_offset]
    congr 1
    simp only [Memory.moved]
    omega

theorem follow_call (hl : frame.Laid params scratch) (hlaw : abi.Lawful) {site : CallSite}
    (hargs : site.args.length < 2 ^ 27) {lines : List Line}
    (hlines : callLines abi frame site = .ok lines) {n : Nat} {s : State}
    (hback : AllGiveBack (fun _ => GivesBack) callees n (lines.map Line.toInstr) s)
    (hs : Resting frame fp s) :
    let is := lines.map Line.toInstr
    let u := outcome callees n is s
    Resting frame fp u ∧ u.mem.read fp 8 = s.mem.read fp 8 ∧ is.countP isCall = 1 ∧
      (∃ t, callsOf (moments callees n is s) = [⟨.call .r11, t⟩] ∧ Ready abi frame site fp t) ∧
      ∀ m ∈ moments callees n is s, ∀ x, Writes m.instr m.state x →
        Between fp (-(frame.size + callDepth abi frame site + 8 : Nat)) (-frame.size) x := by
  intro is u
  have hsize := hl.size_lt
  have hdepth := callDepth_lt hlaw frame hargs
  obtain ⟨before, t, his, hruns, hready, -⟩ :=
    runs_call hl hlaw hargs hlines (Realizes.toInstr s.rip lines) hs.rbp hs.rsp
  obtain ⟨-, hrbp, hrsp, -, -, hmem⟩ := hready.enter hl hlaw hargs
  obtain ⟨hout, hcount, hcalls, hwrites⟩ := hruns.follow callees n
  -- the callee returns
  rw [his, allGiveBack_append, hcount, hout, Nat.add_zero] at hback
  obtain ⟨hcrsp, hcrbp, hcmem⟩ := hback.2.1 rfl
  set e := perform (Instr.call .r11) t with he
  have hsaved : (callees n e).mem.read fp 8 = s.mem.read fp 8 := by
    have h₁ := hmem 0 8 (by omega) (by omega)
    have h₂ : t.mem.read fp 8 = s.mem.read fp 8 := hruns.read_fp (by omega) (by omega)
    rw [Memory.offset_zero] at h₁
    rw [hrbp] at hcmem
    rw [hcmem, h₁, h₂]
  have hcrsp' : (callees n e).gpr .rsp = t.gpr .rsp := by
    rw [hcrsp, hrsp, Memory.offset_offset]
    exact Memory.offset_zero _
  -- the cleanup
  obtain ⟨v, hclean, hv, -, hvmem⟩ := hready.cleanup (P := fun _ => False) hl hlaw hargs hcrsp'
    (hcrbp.trans hrbp)
  obtain ⟨hout', hcount', hcalls', hwrites'⟩ := hclean.follow callees (n + 1)
  have hu : u = v := by
    show outcome callees n (lines.map Line.toInstr) s = v
    rw [his, outcome_append, hcount, hout]
    exact hout'
  have hms : moments callees n is s = moments callees n before s ++ ⟨.call .r11, t⟩ ::
      moments callees (n + 1) (adjustStack .add (callDepth abi frame site)) (callees n e) := by
    show moments callees n (lines.map Line.toInstr) s = _
    rw [his, moments_append, hcount, hout]
    rfl
  refine ⟨?_, ?_, ?_, ⟨t, ?_, hready⟩, ?_⟩
  · rw [hu]
    exact hv
  · rw [hu, hvmem, hsaved]
  · show (lines.map Line.toInstr).countP isCall = 1
    rw [his, List.countP_append, hcount, List.countP_cons, hcount']
    rfl
  · rw [hms, callsOf_append, hcalls]
    show ⟨Instr.call .r11, t⟩ :: callsOf _ = _
    rw [hcalls']
  · intro m hm x hx
    rw [hms] at hm
    rcases List.mem_append.mp hm with hm | hm
    · obtain ⟨z, hz, hz', rfl⟩ := hwrites m hm x hx
      exact ⟨z, by omega, hz', rfl⟩
    · rcases List.mem_cons.mp hm with rfl | hm
      · exact hready.between_of_writes hx
      · exact (hwrites' m hm x hx).elim

/-- The bytes below the stack pointer that a trampoline uses, from its entry on: the saved frame
pointer, the frame, the deepest call and a return address. -/
def stackReach (abi : Abi) (frame : Frame) (sites : List CallSite) : Nat :=
  frame.size + 16 + (sites.map (callDepth abi frame)).foldr max 0

theorem stackReach_cons (abi : Abi) (frame : Frame) (site : CallSite) (sites : List CallSite) :
    frame.size + 16 + callDepth abi frame site ≤ stackReach abi frame (site :: sites) ∧
      stackReach abi frame sites ≤ stackReach abi frame (site :: sites) := by
  rw [stackReach, stackReach, List.map_cons, List.foldr_cons]
  omega

theorem follow_calls (hl : frame.Laid params scratch) (hlaw : abi.Lawful)
    {sites : List CallSite} {blocks : List (List Line)}
    (hblocks : List.Forall₂ (fun site lines => callLines abi frame site = .ok lines) sites blocks)
    (hargs : ∀ site ∈ sites, site.args.length < 2 ^ 27) (n : Nat) {s : State}
    (hback : AllGiveBack (fun _ => GivesBack) callees n (blocks.map (·.map Line.toInstr)).flatten s)
    (hs : Resting frame fp s) :
    let is := (blocks.map (·.map Line.toInstr)).flatten
    let u := outcome callees n is s
    Resting frame fp u ∧ u.mem.read fp 8 = s.mem.read fp 8 ∧
      List.Forall₂ (fun site m => m.instr = .call .r11 ∧ Ready abi frame site fp m.state) sites
        (callsOf (moments callees n is s)) ∧
      ∀ m ∈ moments callees n is s, ∀ x, Writes m.instr m.state x →
        Between fp (8 - stackReach abi frame sites) (-frame.size) x := by
  induction hblocks generalizing n s with
  | nil => exact ⟨hs, rfl, .nil, fun m hm => absurd hm (by simp [moments])⟩
  | @cons site lines sites blocks hlines _ ih =>
      intro is u
      rw [List.map_cons, List.flatten_cons, allGiveBack_append] at hback
      obtain ⟨hs₁, hsaved₁, hcount, ⟨t, hcalls₁, hready⟩, hwrites₁⟩ :=
        follow_call hl hlaw (hargs site (by simp)) hlines hback.1 hs
      rw [hcount] at hback
      obtain ⟨hu, hsaved, hcalls, hwrites⟩ :=
        ih (fun site' h => hargs site' (by simp [h])) (n + 1) hback.2 hs₁
      have his : is = lines.map Line.toInstr ++ (blocks.map (·.map Line.toInstr)).flatten := rfl
      have hout : u = outcome callees (n + 1) (blocks.map (·.map Line.toInstr)).flatten
          (outcome callees n (lines.map Line.toInstr) s) := by
        rw [← hcount, ← outcome_append, ← his]
      have hms : moments callees n is s = moments callees n (lines.map Line.toInstr) s ++
          moments callees (n + 1) (blocks.map (·.map Line.toInstr)).flatten
            (outcome callees n (lines.map Line.toInstr) s) := by
        rw [his, moments_append, hcount]
      obtain ⟨hfirst, hrest⟩ := stackReach_cons abi frame site sites
      rw [hout, hms, callsOf_append, hcalls₁]
      refine ⟨hu, hsaved.trans hsaved₁, .cons ⟨rfl, hready⟩ hcalls, ?_⟩
      intro m hm x hx
      rcases List.mem_append.mp hm with hm | hm
      · obtain ⟨z, hz, hz', rfl⟩ := hwrites₁ m hm x hx
        exact ⟨z, by omega, hz', rfl⟩
      · obtain ⟨z, hz, hz', rfl⟩ := hwrites m hm x hx
        exact ⟨z, by omega, hz', rfl⟩

/-- The prologue saves the frame pointer, and the stack pointer rests. -/
theorem follow_prologue (hl : frame.Laid params scratch) (hlaw : abi.Lawful)
    (callees : Callees State) (s : State) :
    let fp := offset (s.gpr .rsp) (-8)
    let b := outcome callees 0 (prologue abi frame) s
    Resting frame fp b ∧ b.mem.read fp 8 = littleEndian 8 (s.gpr .rbp).toNat ∧
      (prologue abi frame).countP isCall = 0 ∧
      callsOf (moments callees 0 (prologue abi frame) s) = [] := by
  obtain ⟨b, hruns, hopened, -⟩ := runs_prologue hl hlaw s
  obtain ⟨rfl, hcount, hcalls, -⟩ := hruns.follow callees 0
  exact ⟨⟨hopened.rbp, hopened.rsp⟩, hopened.saved, hcount, hcalls⟩

/-- The epilogue calls and stores nothing, and its return finds the pointers of the caller. -/
theorem follow_epilogue (hl : frame.Laid params scratch) (callees : Callees State) (n : Nat)
    {u : State} (hu : Resting frame fp u) {saved : BitVec 64}
    (hsaved : u.mem.read fp 8 = littleEndian 8 saved.toNat) :
    ∃ ms t, moments callees n (epilogue frame) u = ms ++ [⟨.ret, t⟩] ∧
      callsOf (ms ++ [⟨.ret, t⟩]) = [] ∧
      (∀ m ∈ ms ++ [⟨.ret, t⟩], ∀ x, ¬ Writes m.instr m.state x) ∧
      t.gpr .rsp = offset fp 8 ∧ t.gpr .rbp = saved := by
  obtain ⟨before, t, hsplit, hruns, hrsp, hrbp, -, -⟩ :=
    runs_epilogue (P := fun _ => False) hl.size_lt hu.rsp hsaved
  obtain ⟨hout, -, hcalls, hwrites⟩ := hruns.follow callees n
  refine ⟨moments callees n before u, t, ?_, ?_, ?_, hrsp, hrbp⟩
  · rw [hsplit, moments_append, hout]
    rfl
  · rw [callsOf_append, hcalls]
    rfl
  · intro m hm x hx
    rcases List.mem_append.mp hm with hm | hm
    · exact hwrites m hm x hx
    · obtain rfl := List.mem_singleton.mp hm
      obtain ⟨a, k, hstores, -⟩ := hx
      cases hstores

end

/-! ### Stack discipline -/

/-- What holds when a call is about to be made: the stack pointer is exactly as far below the
frame as the shadow space, the stack arguments and less than sixteen bytes of padding, and the
stack arguments are in argument order above the shadow space. -/
structure AtCall (abi : Abi) (frame : Frame) (site : CallSite) (m : Moment Instr State) : Prop where
  depth : ∃ pad < 16, m.state.gpr .rsp = offset (m.state.gpr .rbp)
    (-(frame.size + (abi.shadowSpace + 8 * abi.stacked site.types + pad) : Nat))
  args : ∀ (i : Nat) (a : Operand) (k : Nat), site.args[i]? = some a →
    abi.location site.types i = some (.slot k) →
    m.state.mem.read (offset (m.state.gpr .rsp) (abi.shadowSpace + 8 * k : Nat)) a.type.size
      = a.bytesIn frame (m.state.gpr .rbp) m.state.mem

/-- The discipline of a trampoline's stack, for an entry state, the instructions of the prologue,
those of each call and those of the epilogue. -/
structure StackDiscipline (abi : Abi) (frame : Frame) (sites : List CallSite)
    (callees : Callees State) (s : State) (opening : List Instr) (calls : List (List Instr)) (closing : List Instr) :
    Prop where
  /-- After the prologue and after each call the stack pointer is at the end of the frame. -/
  resting : ∀ k ≤ sites.length,
    let u := outcome callees 0 (opening ++ (calls.take k).flatten) s
    u.gpr .rbp = offset (s.gpr .rsp) (-8) ∧ u.gpr .rsp = offset (u.gpr .rbp) (-frame.size)
  /-- The calls that are made, in order. -/
  called : List.Forall₂ (AtCall abi frame) sites
    (callsOf (moments callees 0 (opening ++ calls.flatten ++ closing) s))
  /-- The stack is aligned at every call. -/
  aligned : (s.gpr .rsp).toNat % 16 = 8 →
    ∀ m ∈ callsOf (moments callees 0 (opening ++ calls.flatten ++ closing) s),
      (m.state.gpr .rsp).toNat % 16 = 0
  /-- The return finds both pointers as they were on entry. -/
  returned : ∃ ms t, moments callees 0 (opening ++ calls.flatten ++ closing) s = ms ++ [⟨.ret, t⟩] ∧
    t.gpr .rsp = s.gpr .rsp ∧ t.gpr .rbp = s.gpr .rbp
  /-- Nothing after the prologue is stored at the end of the frame or above. -/
  stored : let body := outcome callees 0 opening s
    ∀ m ∈ moments callees (opening.countP isCall) (calls.flatten ++ closing) body,
      ∀ x, Writes m.instr m.state x → x.toNat < (offset (body.gpr .rbp) (-frame.size)).toNat

theorem Ready.atCall {frame : Frame} {abi : Abi}
    (hlaw : abi.Lawful) {site : CallSite} {fp : BitVec 64} {m : Moment Instr State}
    (h : Ready abi frame site fp m.state) : AtCall abi frame site m := by
  obtain ⟨pad, hpad, hdepth, -⟩ := callDepth_spec hlaw frame site
  refine ⟨⟨pad, hpad, ?_⟩, ?_⟩
  · rw [h.rsp, h.rbp, hdepth]
  · intro i a k ha hloc
    rw [h.rbp]
    exact h.slots k a (abi.getElem?_stackOperands ha hloc)

/-- The stack is aligned at a call when it was on entry. -/
theorem Ready.aligned {frame : Frame} {abi : Abi} (hlaw : abi.Lawful) {site : CallSite}
    {rsp : BitVec 64} {t : State} (h : Ready abi frame site (offset rsp (-8)) t)
    (hentry : rsp.toNat % 16 = 8) : (t.gpr .rsp).toNat % 16 = 0 := by
  obtain ⟨pad, -, -, hmod⟩ := callDepth_spec hlaw frame site
  rw [h.rsp, Memory.offset_offset]
  rw [show (-8 + -((frame.size + callDepth abi frame site : Nat) : Int))
    = -((frame.size + callDepth abi frame site + 8 : Nat) : Int) by omega,
    Memory.toNat_offset_neg_mod (by decide)]
  omega

/-- A trampoline keeps the discipline of the stack, whatever its frame, its calls and its callees,
on a stack that does not wrap around.  Its callees give back the pointers in the states in which it
enters them; what they would do in other states does not matter. -/
theorem stack_discipline {target : Target} {abi : Abi} (htarget : target.abi? = some abi)
    {params : List ValueType} {scratch : List UInt32} {frame : Frame}
    (hframe : Frame.layout params scratch = .ok frame) {sites : List CallSite}
    (hsites : ∀ site ∈ sites, site.args.length < 2 ^ 27 ∧ ∀ a ∈ site.args, a.ValidIn frame) :
    ∃ fragments opening calls closing,
      sites.mapM (target.callFragment frame) = .ok fragments ∧
      decodeAll (target.prologueCode frame) = some opening ∧
      fragments.map (fun f => decodeAll f.code) = calls.map some ∧
      decodeAll (target.epilogueCode frame) = some closing ∧
      ∀ (callees : Callees State) (s : State),
        AllGiveBack (fun _ => GivesBack) callees 0 (opening ++ calls.flatten ++ closing) s →
        stackReach abi frame sites ≤ (s.gpr .rsp).toNat →
        StackDiscipline abi frame sites callees s opening calls closing := by
  have hl := Frame.laid_of_layout hframe
  have hlaw := Abi.lawful_of_target htarget
  have hargs : ∀ site ∈ sites, site.args.length < 2 ^ 27 := fun site h => (hsites site h).1
  obtain ⟨blocks, hmap⟩ := exists_mapM_eq_ok fun site h => exists_callLines hlaw (hsites site h).2
  have hblocks := mapM_eq_ok.mp hmap
  refine ⟨blocks.map draft, prologue abi frame, blocks.map (·.map Line.toInstr), epilogue frame,
    ?_, ?_, ?_, ?_, ?_⟩
  · rw [callFragment_of_abi htarget]
    exact mapM_callFragment_eq_ok.mpr ⟨blocks, hmap, rfl⟩
  · rw [Target.prologueCode, htarget, decodeAll_encodeAll]
  · rw [List.map_map, List.map_map]
    refine List.map_congr_left fun lines _ => ?_
    rw [Function.comp_apply, Function.comp_apply, code_draft, decodeAll_encodeAll]
  · rw [Target.epilogueCode, htarget, decodeAll_encodeAll]
  intro callees s hback hroom
  -- the prologue, the calls and the epilogue, one after the other
  obtain ⟨hb, hsaved, hcount, hcalls⟩ := follow_prologue hl hlaw callees s
  rw [allGiveBack_append, allGiveBack_append, hcount] at hback
  set b := outcome callees 0 (prologue abi frame) s with hbdef
  obtain ⟨hu, hkept, hcalled, hwrites⟩ := follow_calls hl hlaw hblocks hargs 0 hback.1.2 hb
  set is := (blocks.map (·.map Line.toInstr)).flatten with his
  obtain ⟨ms, t, hend, hcalls', hquiet, htrsp, htrbp⟩ :=
    follow_epilogue hl callees (is.countP isCall) hu (hkept.trans hsaved)
  have hbody : moments callees 0 (is ++ epilogue frame) b
      = moments callees 0 is b ++ (ms ++ [⟨.ret, t⟩]) := by
    rw [moments_append, Nat.zero_add, ← hend]
  have hwhole : moments callees 0 (prologue abi frame ++ is ++ epilogue frame) s
      = moments callees 0 (prologue abi frame) s ++
        (moments callees 0 is b ++ (ms ++ [⟨.ret, t⟩])) := by
    rw [List.append_assoc, moments_append, hcount, ← hbody]
  have hcallsOf : callsOf (moments callees 0 (prologue abi frame ++ is ++ epilogue frame) s)
      = callsOf (moments callees 0 is b) := by
    rw [hwhole, callsOf_append, callsOf_append, hcalls, hcalls', List.nil_append, List.append_nil]
  refine ⟨?_, ?_, ?_, ?_, ?_⟩
  · intro k hk
    have htake := List.forall₂_take k hblocks
    have hbackTake := hback.1.2
    rw [his, ← List.take_append_drop k blocks, List.map_append, List.flatten_append,
      allGiveBack_append] at hbackTake
    obtain ⟨hrest, -⟩ := follow_calls hl hlaw htake
      (fun site h => hargs site (List.mem_of_mem_take h)) 0 hbackTake.1 hb
    rw [← List.map_take, outcome_append, hcount]
    exact ⟨hrest.rbp, hrest.rsp.trans (by rw [hrest.rbp])⟩
  · rw [hcallsOf]
    exact hcalled.imp fun site m h => h.2.atCall hlaw
  · intro hentry m hm
    rw [hcallsOf] at hm
    obtain ⟨site, -, -, hready⟩ := exists_of_forall₂ hcalled hm
    exact hready.aligned hlaw hentry
  · refine ⟨_, t, (by rw [hwhole, ← List.append_assoc, ← List.append_assoc]), ?_, htrbp⟩
    rw [htrsp, Memory.offset_offset]
    exact Memory.offset_zero _
  · intro body m hm x hx
    rw [hcount, hbody] at hm
    rw [show body.gpr .rbp = offset (s.gpr .rsp) (-8) from hb.rbp]
    have hbelow : Between (offset (s.gpr .rsp) (-8)) (8 - stackReach abi frame sites)
        (-frame.size) x := by
      rcases List.mem_append.mp hm with hm | hm
      · exact hwrites m hm x hx
      · exact absurd hx (hquiet m hm x)
    obtain ⟨z, hz, hz', rfl⟩ := hbelow
    have hlt := (s.gpr .rsp).isLt
    have hreach : frame.size + 16 ≤ stackReach abi frame sites := Nat.le_add_right _ _
    have h₁ := Memory.toNat_offset (a := s.gpr .rsp) (z := -8 + z) (by omega) (by omega)
    have h₂ := Memory.toNat_offset (a := s.gpr .rsp) (z := -8 + -(frame.size : Int)) (by omega)
      (by omega)
    rw [Memory.offset_offset, Memory.offset_offset]
    omega

/-- Two calls of the Microsoft convention, one of them with a literal, a parameter and the address
of a buffer on the stack, and callees that only return. -/
theorem stack_discipline_microsoft :
    let frame : Frame := ⟨[⟨.qword, 8⟩], [⟨16, 24⟩], 8, 16⟩
    let sites : List CallSite := [
      ⟨List.replicate 5 (.literal .qword 7) ++ [.forwarded .qword 0, .scratch 0], 4096, .cdecl,
        false⟩,
      ⟨[], 8192, .cdecl, false⟩]
    let callees : Callees State := fun _ s => s.setGpr .rsp (offset (s.gpr .rsp) 8)
    let s : State := ⟨fun _ => 65528, fun _ => 0, 0, fun _ => 0⟩
    Frame.layout [.qword] [16] = .ok frame ∧
      (s.gpr .rsp).toNat % 16 = 8 ∧ stackReach .microsoft frame sites = 96 ∧
      ∃ fragments opening calls closing,
        sites.mapM (Target.microsoft.callFragment frame) = .ok fragments ∧
        decodeAll (Target.microsoft.prologueCode frame) = some opening ∧
        fragments.map (fun f => decodeAll f.code) = calls.map some ∧
        decodeAll (Target.microsoft.epilogueCode frame) = some closing ∧
        StackDiscipline .microsoft frame sites callees s opening calls closing := by
  intro frame sites callees s
  have hframe : Frame.layout [.qword] [16] = .ok frame := by decide
  have hreach : stackReach .microsoft frame sites = 96 := by decide
  have hsites : ∀ site ∈ sites, site.args.length < 2 ^ 27 ∧ ∀ a ∈ site.args, a.ValidIn frame := by
    decide
  have hback : ∀ n e, GivesBack e (callees n e) := fun _ _ => ⟨rfl, rfl, rfl⟩
  obtain ⟨fragments, opening, calls, closing, hfragments, hopening, hcalls, hclosing, hkept⟩ :=
    @stack_discipline .microsoft .microsoft rfl _ _ _ hframe _ hsites
  refine ⟨hframe, by decide, hreach, fragments, opening, calls, closing, hfragments, hopening,
    hcalls, hclosing, hkept callees s ?_ ?_⟩
  · exact allGiveBack_of_forall 0 hback _ s
  · rw [hreach]
    decide

end Trampoline.Amd64
