/-
Trampoline/Proofs/Amd64/Literals.lean

The literals of a finished trampoline, and the loads that reach them.

A floating literal in an SSE register is loaded from behind the code.  The code
of a finished trampoline therefore has one load relative to the instruction's end
for each such literal, in the order of the calls and of their arguments, and the
literals follow the code in the same order.  `literal_law` says that the two lists
match: the load has the width and the register of its literal, and its
displacement leads from its end to the literal's first byte.  Everything else in
the code is as it was before the literals had a place.

The argument walks along the lines.  `realize` gives every literal line its
displacement, so the loads of the realized code are the literal lines one for one
(`ripLoads_realize`) as long as no other instruction is such a load (`Line.Plain`), and
each piece of a trampoline says which literal lines it has.
-/
import Mathlib
import Trampoline.Proofs.Builder.Assembly
import Trampoline.Proofs.Amd64.Call

namespace Trampoline.Amd64

/-! ### The lines of a trampoline -/

/-- The lines of a trampoline with the given lines for its calls. -/
def trampolineLines (abi : Abi) (frame : Frame) (blocks : List (List Line)) : List Line :=
  (prologue abi frame).map .instr ++ blocks.flatten ++ (epilogue frame).map .instr

section

variable {target : Target} {abi : Abi} {frame : Frame}

/-- An open trampoline is the draft of its lines. -/
theorem openCode_eq_draft (htarget : target.abi? = some abi) (blocks : List (List Line)) :
    target.openCode frame (blocks.map draft)
      = draft ((prologue abi frame).map .instr ++ blocks.flatten) := by
  induction blocks using List.reverseRecOn with
  | nil =>
      rw [List.map_nil, Target.openCode_nil, List.flatten_nil, List.append_nil, draft_map_instr,
        Target.prologueCode, htarget]
  | append_singleton blocks lines ih =>
      rw [List.map_append, List.map_singleton, Target.openCode_append, ih, ← draft_append,
        List.flatten_append, List.flatten_singleton, List.append_assoc]

theorem draft_trampolineLines (htarget : target.abi? = some abi) (blocks : List (List Line)) :
    draft (trampolineLines abi frame blocks)
      = target.openCode frame (blocks.map draft) ++ { code := target.epilogueCode frame } := by
  rw [trampolineLines, draft_append, ← openCode_eq_draft htarget, draft_map_instr,
    Target.epilogueCode, htarget]

/-- A finished trampoline is the draft of its lines with the literals placed. -/
theorem exists_resolve_lines (htarget : target.abi? = some abi) {h : Builder.History} {b : Builder}
    (hf : Builder.Follows target h b) (hphase : b.phase = .finished) :
    ∃ blocks placed, h.sites.mapM (callLines abi b.frame) = .ok blocks ∧
      h.sites.mapM (target.callFragment b.frame) = .ok (blocks.map draft) ∧
      (draft (trampolineLines abi b.frame blocks)).resolve = .ok (b.draft, placed) := by
  obtain ⟨calls, placed, hcalls, hresolve⟩ := hf.finished hphase
  have hlines := hcalls
  rw [callFragment_of_abi htarget] at hlines
  obtain ⟨blocks, hblocks, rfl⟩ := mapM_callFragment_eq_ok.mp hlines
  refine ⟨blocks, placed, hblocks, hcalls, ?_⟩
  rw [draft_trampolineLines htarget]
  exact hresolve

end

/-! ### Loads relative to their end -/

/-- A scalar load relative to the instruction's end, with the position of that end. -/
structure RipLoad where
  precision : Precision
  dst : Xmm
  disp : Int32
  stop : Nat
  deriving DecidableEq, Repr

/-- The load that an instruction with its end at `stop` is, if it is one. -/
def Instr.ripLoad? (stop : Nat) : Instr → Option RipLoad
  | sseLoadRip p dst disp => some ⟨p, dst, disp, stop⟩
  | _ => none

/-- The loads among instructions that start at `start`, in order. -/
def ripLoads (start : Nat) : List Instr → List RipLoad
  | [] => []
  | i :: is =>
      (i.ripLoad? (start + i.encode.length)).toList ++ ripLoads (start + i.encode.length) is

/-- The literal that a line loads: its precision, its register and its bytes. -/
def Line.literal? : Line → Option (Precision × Xmm × Code)
  | instr _ => none
  | literal p dst bytes => some (p, dst, bytes)

/-- Whether an instruction is no load relative to its end. -/
def Instr.Plain (i : Instr) : Prop := ∀ stop, i.ripLoad? stop = none

/-- Whether a line is a load relative to the instruction's end only if it loads a literal. -/
def Line.Plain : Line → Prop
  | instr i => i.Plain
  | literal _ _ _ => True

/-- The loads of realized lines are the literals of the lines one for one, and each reaches the
place of its literal.  The first literal is at `place`, the others follow it. -/
theorem ripLoads_realize {lines : List Line} {start place : Nat}
    (hplain : ∀ line ∈ lines, line.Plain) (hreached : Reached start place lines)
    (hle : start + (draft lines).code.length ≤ place) :
    (ripLoads start (realize start place lines)).length
        = (lines.filterMap Line.literal?).length ∧
      ∀ (j : Nat) (load : RipLoad) (l : Precision × Xmm × Code),
        (ripLoads start (realize start place lines))[j]? = some load →
        (lines.filterMap Line.literal?)[j]? = some l →
        load.precision = l.1 ∧ load.dst = l.2.1 ∧
          load.stop + load.disp.toInt
            = place + (((lines.filterMap Line.literal?).take j).flatMap (·.2.2)).length := by
  induction lines generalizing start place with
  | nil =>
      refine ⟨rfl, fun j load l _ hl => ?_⟩
      simp at hl
  | cons line lines ih =>
      have hrest : ∀ line ∈ lines, line.Plain := fun l hl => hplain l (List.mem_cons_of_mem _ hl)
      rw [draft, Fragment.code_append, List.length_append] at hle
      cases line with
      | instr i =>
          have hnone : i.Plain := hplain (.instr i) List.mem_cons_self
          simp only [Line.toInstr] at hle
          have h := ih hrest (show Reached (start + i.encode.length) place lines from hreached)
            (by omega)
          simpa only [realize, ripLoads, hnone _, Option.toList_none, List.nil_append,
            List.filterMap_cons, Line.literal?] using h
      | literal p dst bytes =>
          obtain ⟨hlt, hreached⟩ := hreached
          set stop := start + (Instr.sseLoadRip p dst 0).encode.length with hstop
          simp only [Line.toInstr] at hle
          obtain ⟨hlength, hall⟩ := ih hrest hreached (by omega)
          have hloads : ripLoads start (realize start place (.literal p dst bytes :: lines))
              = ⟨p, dst, Int32.ofInt (place - stop), stop⟩ ::
                  ripLoads stop (realize stop (place + bytes.length) lines) := by
            have hsame : start + (Instr.sseLoadRip p dst (Int32.ofInt (place - stop))).encode.length
                = stop := by
              rw [hstop, length_encode_sseLoadRip, length_encode_sseLoadRip]
            show (Instr.ripLoad? _ _).toList ++ ripLoads (start + _) _ = _
            rw [hsame]
            rfl
          rw [hloads, List.filterMap_cons]
          simp only [Line.literal?]
          refine ⟨by simp [hlength], fun j load l hload hl => ?_⟩
          cases j with
          | zero =>
              simp only [List.getElem?_cons_zero, Option.some.injEq] at hload hl
              subst hload hl
              have hdisp : (Int32.ofInt (place - stop)).toInt = place - stop :=
                Int32.toInt_ofInt_of_le (by omega) (by omega)
              refine ⟨rfl, rfl, ?_⟩
              show (stop : Int) + (Int32.ofInt (place - stop)).toInt = place + (0 : Nat)
              rw [hdisp]
              omega
          | succ j =>
              rw [List.getElem?_cons_succ] at hload hl
              obtain ⟨hp, hd, hdisp⟩ := hall j load l hload hl
              refine ⟨hp, hd, ?_⟩
              rw [hdisp, List.take_succ_cons, List.flatMap_cons, List.length_append]
              push_cast
              ring

/-- The open fields of lines are the last four bytes of their loads. -/
theorem map_stop_ripLoads {lines : List Line} (start place : Nat)
    (hplain : ∀ line ∈ lines, line.Plain) :
    (ripLoads start (realize start place lines)).map (·.stop)
      = (draft lines).literals.map fun d => start + d.patchOffset + 4 := by
  induction lines generalizing start place with
  | nil => rfl
  | cons line lines ih =>
      have hrest : ∀ line ∈ lines, line.Plain := fun l hl => hplain l (List.mem_cons_of_mem _ hl)
      have hshift : ∀ n, (draft lines).literals.map (fun d => start + n + d.patchOffset + 4)
          = ((draft lines).literals.map (·.shift n)).map fun d => start + d.patchOffset + 4 := by
        intro n
        rw [List.map_map]
        refine List.map_congr_left fun d _ => ?_
        simp [Deferred.shift, Nat.add_assoc]
      rw [draft, Fragment.literals_append, List.map_append, ← hshift]
      cases line with
      | instr i =>
          have hnone : i.Plain := hplain (.instr i) List.mem_cons_self
          simp only [realize, ripLoads, hnone _, Option.toList_none, List.nil_append, Line.deferred,
            List.map_nil, Line.toInstr]
          exact ih _ _ hrest
      | literal p dst bytes =>
          have hlen := length_encode_sseLoadRip p dst
          simp only [realize, ripLoads, Instr.ripLoad?, Option.toList_some, List.singleton_append,
            List.map_cons, List.map_nil, Line.deferred, Line.toInstr, hlen, ih _ _ hrest,
            Nat.add_assoc]

theorem literalBytes_draft (lines : List Line) :
    Fragment.literalBytes (draft lines).literals
      = (lines.filterMap Line.literal?).flatMap (·.2.2) := by
  induction lines with
  | nil => rfl
  | cons line lines ih =>
      rw [draft, Fragment.literals_append, Fragment.literalBytes_append,
        Fragment.literalBytes_shift, ih]
      cases line with
      | instr i => rfl
      | literal p dst bytes => simp [Line.deferred, Line.literal?]

/-- An instruction at the end of lines is the last one when they are realized. -/
theorem getLast?_realize (lines : List Line) (i : Instr) (start place : Nat) :
    (realize start place (lines ++ [.instr i])).getLast? = some i := by
  induction lines generalizing start place with
  | nil => rfl
  | cons line lines ih =>
      cases line with
      | instr j => rw [List.cons_append, realize, List.getLast?_cons, ih, Option.getD_some]
      | literal p dst bytes =>
          rw [List.cons_append, realize, List.getLast?_cons, ih, Option.getD_some]

/-! ### The literals of the pieces -/

/-- The literal in an SSE register that an argument in a register is, if it is one. -/
def sseLiteral? (x : Reg × Operand) : Option (Xmm × Operand) :=
  match x.1, x.2.source with
  | .xmm r, .literal => some (r, x.2)
  | _, _ => none

/-- The literals of a call that go to SSE registers, in argument order, each with its register. -/
def sseLiterals (abi : Abi) (site : CallSite) : List (Xmm × Operand) :=
  ((abi.classify site.types).registerLoads site.args).filterMap sseLiteral?

/-- What a line has to load for a literal. -/
def loadOf (l : Xmm × Operand) : Precision × Xmm × Code :=
  (.ofType l.2.type, l.1, l.2.literalBytes)

theorem plain_loadImm (w : Width) (dst : Gpr) (value : UInt64) :
    (Instr.loadImm w dst value).Plain := by
  intro stop
  rw [Instr.loadImm]
  split
  · rfl
  split
  · rfl
  split <;> rfl

theorem plain_adjustStack (op : Arith) (n : Nat) : ∀ i ∈ adjustStack op n, i.Plain := by
  rw [adjustStack]
  split
  · exact List.forall_mem_nil _
  · exact List.forall_mem_singleton.mpr fun _ => rfl

theorem plain_homeFrom (abi : Abi) (k : Nat) (l : List (HomeSlot × Placement Reg)) :
    ∀ i ∈ homeFrom abi k l, i.Plain := by
  induction l generalizing k with
  | nil => exact List.forall_mem_nil _
  | cons x l ih =>
      obtain ⟨slot, place⟩ := x
      rcases place with (r | x) | -
      · exact List.forall_mem_cons.mpr ⟨fun _ => rfl, ih k⟩
      · exact List.forall_mem_cons.mpr ⟨fun _ => rfl, ih k⟩
      · exact List.forall_mem_cons.mpr
          ⟨fun _ => rfl, List.forall_mem_cons.mpr ⟨fun _ => rfl, ih (k + 1)⟩⟩

theorem plain_prologue (abi : Abi) (frame : Frame) : ∀ i ∈ prologue abi frame, i.Plain := by
  rw [prologue, List.forall_mem_append, List.forall_mem_append, List.forall_mem_cons,
    List.forall_mem_singleton]
  exact ⟨⟨⟨fun _ => rfl, fun _ => rfl⟩, plain_adjustStack _ _⟩, plain_homeFrom _ _ _⟩

theorem plain_epilogue (frame : Frame) : ∀ i ∈ epilogue frame, i.Plain := by
  rw [epilogue, List.forall_mem_append, List.forall_mem_cons, List.forall_mem_singleton]
  exact ⟨plain_adjustStack _ _, fun _ => rfl, fun _ => rfl⟩

theorem plain_pushOperand {frame : Frame} {a : Operand} {is : List Instr}
    (h : pushOperand frame a = .ok is) : ∀ i ∈ is, i.Plain := by
  rw [pushOperand] at h
  cases hsource : a.source with
  | literal =>
      rw [hsource] at h
      obtain rfl := Except.ok.inj h
      split
      · exact List.forall_mem_singleton.mpr fun _ => rfl
      · exact List.forall_mem_cons.mpr
          ⟨plain_loadImm _ _ _, List.forall_mem_singleton.mpr fun _ => rfl⟩
  | forwarded index =>
      rw [hsource] at h
      obtain ⟨d, -, rfl⟩ := map_eq_ok.mp h
      exact List.forall_mem_singleton.mpr fun _ => rfl
  | scratch index =>
      rw [hsource] at h
      obtain ⟨d, -, rfl⟩ := map_eq_ok.mp h
      exact List.forall_mem_cons.mpr ⟨fun _ => rfl, List.forall_mem_singleton.mpr fun _ => rfl⟩

theorem plain_loadForwarded (type : ValueType) (dst : Gpr) (d : Int32) :
    (loadForwarded type dst d).Plain := by
  cases type <;> exact fun _ => rfl

theorem plain_countVectors (abi : Abi) (count : Nat) : ∀ i ∈ countVectors abi count, i.Plain := by
  rw [countVectors]
  split
  · exact List.forall_mem_singleton.mpr (plain_loadImm _ _ _)
  · exact List.forall_mem_nil _

/-- Loading an argument loads a literal from behind the code just when it is a literal that goes to
an SSE register. -/
theorem literal?_loadOperand {frame : Frame} {r : Reg} {a : Operand} {line : Line}
    (h : loadOperand frame r a = .ok line) :
    line.Plain ∧ line.literal? = (sseLiteral? (r, a)).map loadOf := by
  unfold loadOperand at h
  unfold sseLiteral?
  cases hsource : a.source with
  | literal =>
      cases r with
      | gpr r =>
          rw [hsource] at h
          obtain rfl := Except.ok.inj h
          exact ⟨plain_loadImm _ _ _, rfl⟩
      | xmm x =>
          rw [hsource] at h
          obtain rfl := Except.ok.inj h
          exact ⟨trivial, rfl⟩
  | forwarded index =>
      rw [hsource] at h
      cases r with
      | gpr r =>
          obtain ⟨d, -, rfl⟩ := map_eq_ok.mp h
          exact ⟨plain_loadForwarded _ _ _, rfl⟩
      | xmm x =>
          obtain ⟨d, -, rfl⟩ := map_eq_ok.mp h
          exact ⟨fun _ => rfl, rfl⟩
  | scratch index =>
      rw [hsource] at h
      cases r with
      | gpr r =>
          obtain ⟨d, -, rfl⟩ := map_eq_ok.mp h
          exact ⟨fun _ => rfl, rfl⟩
      | xmm x => cases h

theorem plain_map_instr {is : List Instr} (h : ∀ i ∈ is, i.Plain) :
    ∀ line ∈ is.map Line.instr, line.Plain :=
  List.forall_mem_map.mpr h

theorem filterMap_map_instr (is : List Instr) :
    (is.map Line.instr).filterMap Line.literal? = [] := by
  rw [List.filterMap_map]
  exact List.filterMap_eq_nil_iff.mpr fun _ _ => rfl

theorem literals_loads {frame : Frame} {xs : List (Reg × Operand)} {loads : List Line}
    (h : List.Forall₂ (fun x line => loadOperand frame x.1 x.2 = .ok line) xs loads) :
    (∀ line ∈ loads, line.Plain) ∧
      loads.filterMap Line.literal? = (xs.filterMap sseLiteral?).map loadOf := by
  induction h with
  | nil => exact ⟨List.forall_mem_nil _, rfl⟩
  | @cons x line xs loads hfirst _ ih =>
      obtain ⟨hplain, hliteral⟩ := literal?_loadOperand hfirst
      refine ⟨List.forall_mem_cons.mpr ⟨hplain, ih.1⟩, ?_⟩
      rw [List.filterMap_cons, List.filterMap_cons, hliteral, ih.2]
      cases sseLiteral? x <;> rfl

/-- The code of a call loads its literals for SSE registers, in argument order. -/
theorem literals_callLines {abi : Abi} {frame : Frame} {site : CallSite} {lines : List Line}
    (h : callLines abi frame site = .ok lines) :
    (∀ line ∈ lines, line.Plain) ∧
      lines.filterMap Line.literal? = (sseLiterals abi site).map loadOf := by
  obtain ⟨pushes, loads, hpushes, hloads, rfl⟩ := callLines_eq_ok.mp h
  obtain ⟨hplain, hliterals⟩ := literals_loads hloads
  have hpush : ∀ i ∈ pushes.flatten, i.Plain :=
    forall_mem_flatten_of_forall₂ plain_pushOperand hpushes
  refine ⟨?_, ?_⟩
  · rw [List.forall_mem_append, List.forall_mem_append]
    refine ⟨plain_map_instr ?_, hplain, plain_map_instr ?_⟩
    · rw [List.forall_mem_append, List.forall_mem_append]
      exact ⟨plain_adjustStack _ _, hpush, plain_adjustStack _ _⟩
    · rw [List.forall_mem_append, List.forall_mem_append, List.forall_mem_singleton,
        List.forall_mem_cons]
      exact ⟨plain_countVectors _ _, plain_loadImm _ _ _, fun _ => rfl, plain_adjustStack _ _⟩
  · rw [List.filterMap_append, List.filterMap_append, filterMap_map_instr, filterMap_map_instr,
      List.nil_append, List.append_nil, hliterals, sseLiterals]

/-- A trampoline loads the literals of its calls, in order. -/
theorem literals_trampolineLines {abi : Abi} {frame : Frame} {sites : List CallSite}
    {blocks : List (List Line)} (h : sites.mapM (callLines abi frame) = .ok blocks) :
    (∀ line ∈ trampolineLines abi frame blocks, line.Plain) ∧
      (trampolineLines abi frame blocks).filterMap Line.literal?
        = (sites.flatMap (sseLiterals abi)).map loadOf := by
  have hblocks : (∀ line ∈ blocks.flatten, line.Plain) ∧
      blocks.flatten.filterMap Line.literal? = (sites.flatMap (sseLiterals abi)).map loadOf := by
    have hall := mapM_eq_ok.mp h
    clear h
    induction hall with
    | nil => exact ⟨List.forall_mem_nil _, rfl⟩
    | cons hsite _ ih =>
        obtain ⟨hplain, hliterals⟩ := literals_callLines hsite
        refine ⟨?_, ?_⟩
        · rw [List.flatten_cons, List.forall_mem_append]
          exact ⟨hplain, ih.1⟩
        · rw [List.flatten_cons, List.filterMap_append, hliterals, ih.2, List.flatMap_cons,
            List.map_append]
  rw [trampolineLines]
  refine ⟨?_, ?_⟩
  · rw [List.forall_mem_append, List.forall_mem_append]
    exact ⟨⟨plain_map_instr (plain_prologue abi frame), hblocks.1⟩,
      plain_map_instr (plain_epilogue frame)⟩
  · rw [List.filterMap_append, List.filterMap_append, filterMap_map_instr, filterMap_map_instr,
      List.nil_append, List.append_nil, hblocks.2]

/-! ### The law -/

/-- A literal that goes to an SSE register is a floating one, and its bytes are the bit pattern
that was pushed. -/
theorem pattern_of_mem_sseLiterals {abi : Abi} (hlaw : abi.Lawful) {site : CallSite}
    {params : List ValueType} {scratch : List UInt32}
    (hsite : ∀ a ∈ site.args, a.Declared params scratch) (pointerSize : Nat)
    {l : Xmm × Operand} (hl : l ∈ sseLiterals abi site) :
    (∃ bits : UInt32, l.2 = (Literal.float bits).operand pointerSize ∧
        l.2.literalBytes = Code.ofUInt32 bits) ∨
      ∃ bits : UInt64, l.2 = (Literal.double bits).operand pointerSize ∧
        l.2.literalBytes = Code.ofUInt64 bits := by
  obtain ⟨⟨r, a⟩, hx, hf⟩ := List.mem_filterMap.mp hl
  obtain ⟨hsource, rfl, hxmm⟩ : a.source = .literal ∧ a = l.2 ∧ r.isXmm = true := by
    unfold sseLiteral? at hf
    cases r with
    | gpr r => simp at hf
    | xmm x =>
        cases hsource : a.source with
        | literal =>
            rw [hsource] at hf
            obtain rfl := Option.some.inj hf
            exact ⟨rfl, rfl, rfl⟩
        | forwarded index => simp [hsource] at hf
        | scratch index => simp [hsource] at hf
  obtain ⟨i, hi, -⟩ := Plan.exists_of_mem_registerLoads hx
  have hfits : l.2.value.toNat < 256 ^ l.2.type.size := by
    have h := hsite l.2 (List.mem_of_getElem? hi)
    rw [Operand.Declared, hsource] at h
    exact h
  have hfloat : l.2.type.isFloat = true := (hlaw.register hx rfl).1.symm.trans hxmm
  obtain ⟨x, type, source, value⟩ := l
  dsimp only at hsource hfits hfloat ⊢
  subst hsource
  cases type with
  | float =>
      -- the pattern fits its 32 bits
      have hlow : value.toUInt32.toNat = value.toNat := by
        rw [UInt64.toNat_toUInt32]
        exact Nat.mod_eq_of_lt hfits
      have hvalue : value = value.toUInt32.toUInt64 := by
        apply UInt64.toNat_inj.mp
        rw [UInt32.toNat_toUInt64, hlow]
      refine .inl ⟨value.toUInt32, congrArg (Operand.mk _ _) hvalue, ?_⟩
      rw [Operand.literalBytes, Code.ofUInt32, hlow]
      rfl
  | double => exact .inr ⟨value, rfl, rfl⟩
  | _ => cases hfloat

/-- What finished code and its literals have to do with each other.  `raw` is the code before the
literals had a place, `literals` are the literals behind it. -/
structure LiteralLaw (pointerSize : Nat) (raw code : Code) (is : List Instr)
    (literals : List (Xmm × Operand)) : Prop where
  /-- The code is the bytes of its instructions and decodes to them. -/
  encoded : code = encodeAll is
  decoded : decodeAll code = some is
  returns : is.getLast? = some .ret
  /-- The bytes of a literal are the bit pattern that was pushed. -/
  patterns : ∀ l ∈ literals,
    (∃ bits : UInt32, l.2 = (Literal.float bits).operand pointerSize ∧
        l.2.literalBytes = Code.ofUInt32 bits) ∨
      ∃ bits : UInt64, l.2 = (Literal.double bits).operand pointerSize ∧
        l.2.literalBytes = Code.ofUInt64 bits
  /-- There are as many loads as literals. -/
  count : (ripLoads 0 is).length = literals.length
  /-- A load has the width and the register of its literal and leads to its first byte. -/
  loads : ∀ (j : Nat) (load : RipLoad) (l : Xmm × Operand),
    (ripLoads 0 is)[j]? = some load → literals[j]? = some l →
    load.precision = .ofType l.2.type ∧ load.dst = l.1 ∧
      load.stop + load.disp.toInt
        = code.length + ((literals.take j).flatMap (·.2.literalBytes)).length
  /-- Outside the displacements of the loads nothing has changed. -/
  length_eq : code.length = raw.length
  unchanged : ∀ i < code.length,
    (∀ load ∈ ripLoads 0 is, i + 4 < load.stop ∨ load.stop ≤ i) → code[i]? = raw[i]?

/-- A finished trampoline has its floating literals for SSE registers behind its code, in the order
of the calls and of their arguments, and one load for each that reaches it. -/
theorem literal_law {target : Target} {abi : Abi} (htarget : target.abi? = some abi)
    {ops : List Builder.Operation} {entries : List Builder.Entry} {b : Builder}
    (hrun : (Builder.create target).record ops = .ok (entries, b)) (hphase : b.phase = .finished) :
    let sites := (Builder.History.ofEntries target.pointerSize entries).sites
    let literals := sites.flatMap (sseLiterals abi)
    ∃ calls code is, sites.mapM (target.callFragment b.frame) = .ok calls ∧
      b.assembly = code ++ literals.flatMap (·.2.literalBytes) ∧
      LiteralLaw target.pointerSize
        (target.prologueCode b.frame ++ calls.flatMap (·.code) ++ target.epilogueCode b.frame)
        code is literals := by
  intro sites literals
  obtain ⟨-, -, hf⟩ := Builder.record_follows hrun
  obtain ⟨blocks, placed, hblocks, hcalls, hresolve⟩ := exists_resolve_lines htarget hf hphase
  obtain ⟨hplain, hliterals⟩ := literals_trampolineLines hblocks
  set lines := trampolineLines abi b.frame blocks with hlines
  obtain ⟨hcode, hreached⟩ := resolve_draft hresolve
  obtain ⟨-, -, -, hkeep⟩ := Fragment.resolve_spec (closed_draft lines) hresolve
  set is := realize 0 (draft lines).code.length lines with his
  have hlength : (encodeAll is).length = (draft lines).code.length :=
    length_encodeAll_realize _ _ _
  have hraw : (draft lines).code = target.prologueCode b.frame ++
      (blocks.map draft).flatMap (·.code) ++ target.epilogueCode b.frame := by
    rw [hlines, draft_trampolineLines htarget]
    rfl
  have hbytes : Fragment.literalBytes (draft lines).literals
      = literals.flatMap (·.2.literalBytes) := by
    rw [literalBytes_draft, hliterals, List.flatMap_map]
    rfl
  obtain ⟨hcount, hloads⟩ := ripLoads_realize hplain hreached (Nat.le_of_eq (Nat.zero_add _))
  rw [hliterals] at hcount hloads
  refine ⟨blocks.map draft, encodeAll is, is, hcalls, ?_, rfl, decodeAll_encodeAll is, ?_, ?_, ?_,
    ?_, ?_, ?_⟩
  · rw [← hbytes]
    exact hcode
  · -- the epilogue ends with the return
    have hend : lines = (prologue abi b.frame).map .instr ++ blocks.flatten ++
        (adjustStack .add b.frame.size ++ [Instr.pop .rbp]).map .instr ++ [.instr .ret] := by
      rw [hlines, trampolineLines, epilogue]
      simp
    rw [his, hend]
    exact getLast?_realize _ _ _ _
  · intro l hl
    obtain ⟨site, hsite, hl⟩ := List.mem_flatMap.mp hl
    exact pattern_of_mem_sseLiterals (Abi.lawful_of_target htarget) (hf.sites site hsite).2 _ hl
  · rw [hcount, List.length_map]
  · intro j load l hload hl
    obtain ⟨hp, hd, hdisp⟩ := hloads j load (loadOf l) hload (by rw [List.getElem?_map, hl]; rfl)
    refine ⟨hp, hd, ?_⟩
    rw [hdisp, hlength, ← List.map_take, List.flatMap_map]
    rfl
  · rw [hlength, hraw]
  · intro i hi hout
    rw [hlength] at hi
    rw [← hraw, ← hkeep i hi, hcode, List.getElem?_append_left (by rw [hlength]; exact hi)]
    intro d hd
    have hmem : d.patchOffset + 4 ∈ (ripLoads 0 is).map (·.stop) := by
      rw [map_stop_ripLoads 0 _ hplain]
      exact List.mem_map.mpr ⟨d, hd, by rw [Nat.zero_add]⟩
    obtain ⟨load, hload, hstop⟩ := List.mem_map.mp hmem
    have h := hout load hload
    omega

/-- Two calls with a double, a signalling NaN with a payload and a float, around a refused call and
among arguments that need no literal behind the code. -/
theorem literal_law_two_calls :
    let ops : List Builder.Operation := [
      .declareParameters [.double], .start, .pushLiteral (.qword 5), .pushLiteral (.double 17),
      .pushForwarded 0, .pushLiteral (.float 0x7FA0BEEF), .call 4096 .cdecl false,
      .pushLiteral (.double 3), .call 4096 .cdecl true,
      .pushLiteral (.float 1), .call 8192 .cdecl false, .finish]
    ∃ entries b, (Builder.create .systemV).record ops = .ok (entries, b) ∧ b.phase = .finished ∧
      let sites := (Builder.History.ofEntries Target.systemV.pointerSize entries).sites
      let literals := sites.flatMap (sseLiterals .systemV)
      literals = [(.xmm0, .literal .double 17), (.xmm2, .literal .float 0x7FA0BEEF),
        (.xmm0, .literal .float 1)] ∧
      ∃ calls code is, sites.mapM (Target.systemV.callFragment b.frame) = .ok calls ∧
        b.assembly = code ++ literals.flatMap (·.2.literalBytes) ∧
        LiteralLaw Target.systemV.pointerSize
          (Target.systemV.prologueCode b.frame ++ calls.flatMap (·.code) ++
            Target.systemV.epilogueCode b.frame) code is literals := by
  intro ops
  -- everything about the run that can be computed
  have hfacts : ((Builder.create .systemV).record ops).map (fun r =>
      decide (r.2.phase = .finished ∧
        (Builder.History.ofEntries Target.systemV.pointerSize r.1).sites.flatMap
          (sseLiterals .systemV) = [(.xmm0, .literal .double 17),
            (.xmm2, .literal .float 0x7FA0BEEF), (.xmm0, .literal .float 1)]))
      = .ok true := by decide +kernel
  obtain ⟨⟨entries, b⟩, hrun, hrest⟩ := map_eq_ok.mp hfacts
  obtain ⟨hphase, hliterals⟩ := of_decide_eq_true hrest
  exact ⟨entries, b, hrun, hphase, hliterals, literal_law rfl hrun hphase⟩

end Trampoline.Amd64
