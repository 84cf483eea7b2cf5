/-
Trampoline/Proofs/Writing.lean

Writing a call behind the code that is there.

The code of a call is a fragment of its own, whose positions count from its start
(`Target.callFragment`).  `Target.writeCall` goes the other way about it: it puts one
instruction after another behind the code so far, and records each open field at
its place in all of that code.

What is written is nevertheless the same piece wherever it is written, with its
positions shifted: `Appends` says so of a writer.  It holds of one line, of one
writer after another (`Appends.bind`) and of a list of them (`appends_foldlM`), and
so of a whole call (`Target.appends_writeCall`).
-/
import Mathlib
import Trampoline.Proofs.Target
import Trampoline.Proofs.Ia32.Decode

namespace Trampoline

/-! ### Writers -/

namespace Fragment

/-- Pieces of code one after the other. -/
def concat : List Fragment → Fragment
  | [] => {}
  | f :: fs => f ++ concat fs

theorem append_ofCode (f : Fragment) (code : Code) :
    f ++ ({ code := code } : Fragment) = f.emit code :=
  ext rfl (List.append_nil _)

theorem ofCode_append (c d : Code) :
    ({ code := c ++ d } : Fragment) = ({ code := c } : Fragment) ++ ({ code := d } : Fragment) :=
  rfl

theorem concat_ofCode (codes : List Code) :
    concat (codes.map fun code => { code := code }) = { code := codes.flatten } := by
  induction codes with
  | nil => rfl
  | cons code codes ih =>
      rw [List.map_cons, concat, ih, List.flatten_cons, ofCode_append]

end Fragment

/-- Whether a writer appends the piece `g` to whatever code there is, as long as 64-bit words can
count it. -/
def Appends (write : Fragment → Except Fault Fragment) (g : Fragment) : Prop :=
  ∀ f : Fragment, f.code.length + g.code.length < Code.addressSpace → write f = .ok (f ++ g)

theorem appends_emit (code : Code) : Appends (fun f => .ok (f.emit code)) { code := code } := by
  intro f _
  rw [Fragment.append_ofCode]

theorem Appends.bind {write write' : Fragment → Except Fault Fragment} {g g' : Fragment}
    (h : Appends write g) (h' : Appends write' g') :
    Appends (fun f => write f >>= write') (g ++ g') := by
  intro f hfits
  rw [Fragment.code_append, List.length_append] at hfits
  have hlength : (f ++ g).code.length = f.code.length + g.code.length := by
    rw [Fragment.code_append, List.length_append]
  rw [bind_eq_ok]
  refine ⟨f ++ g, h f (by omega), ?_⟩
  rw [h' (f ++ g) (by omega), Fragment.append_assoc]

theorem appends_foldlM {α : Type} {write : α → Fragment → Except Fault Fragment} {as : List α}
    {gs : List Fragment} (h : List.Forall₂ (fun a g => Appends (write a) g) as gs) :
    Appends (fun f => as.foldlM (fun f a => write a f) f) (Fragment.concat gs) := by
  induction h with
  | nil =>
      intro f _
      exact congrArg Except.ok (Fragment.append_empty f).symm
  | @cons a g as gs ha _ ih =>
      intro f hfits
      exact (ha.bind ih) f hfits

/-! ### Calls on x86-64 -/

namespace Amd64

/-- Writes one line.  A field that stays open is recorded at its place in all of the code. -/
def Line.write (line : Line) (f : Fragment) : Except Fault Fragment :=
  match line with
  | instr i => .ok (f.emit i.encode)
  | literal p dst bytes =>
      let written := f.emit (Instr.sseLoadRip p dst 0).encode
      written.defer bytes (f.code.length + ripField (.sseLoad p) (Instr.xmmField dst))
        written.code.length

/-- Writes the push of one argument. -/
def writePush (frame : Frame) (a : Operand) (f : Fragment) : Except Fault Fragment :=
  (pushOperand frame a).map fun is => f.emit (encodeAll is)

/-- Writes the load of one argument. -/
def writeLoad (frame : Frame) (dst : Reg) (a : Operand) (f : Fragment) : Except Fault Fragment := do
  (← loadOperand frame dst a).write f

/-- Writes a call. -/
def writeCall (abi : Abi) (frame : Frame) (site : CallSite) (f : Fragment) :
    Except Fault Fragment := do
  let plan := abi.classify site.types
  let pad := callPad frame plan
  let f := f.emit (encodeAll (adjustStack .sub pad))
  let f ← (plan.stackOperandsRev site.args).foldlM (fun f a => writePush frame a f) f
  let f := f.emit (encodeAll (adjustStack .sub abi.shadowSpace))
  let f ← (plan.registerOperands site.args).foldlM (fun f x => writeLoad frame x.2.1 x.2.2 f) f
  let f := f.emit (encodeAll (countVectors abi (plan.floatRegCount site.args)))
  let f := f.emit (encodeAll [.loadImm .w64 .r11 site.callee, .call .r11])
  return f.emit (encodeAll (adjustStack .add (stackBytes plan + pad + abi.shadowSpace)))

theorem Line.appends_write (line : Line) :
    Appends line.write ⟨line.toInstr.encode, line.deferred⟩ := by
  cases line with
  | instr i => exact appends_emit i.encode
  | literal p dst bytes =>
      intro f hfits
      have hlen := length_encode_sseLoadRip p dst 0
      have hwritten : (f.emit (Instr.sseLoadRip p dst 0).encode).code.length
          = f.code.length + (ripField (.sseLoad p) (Instr.xmmField dst) + 4) := by
        rw [Fragment.emit, List.length_append, hlen]
      have hfits' : f.code.length + (Instr.sseLoadRip p dst 0).encode.length < Code.addressSpace :=
        hfits
      rw [write, Fragment.defer, bind_eq_ok]
      refine ⟨_, Code.fieldEnd_eq_ok.mpr ⟨?_, rfl⟩, ?_⟩
      · omega
      · rw [if_pos (by omega), hwritten]
        rfl

/-- Instructions without literals are written as the lines they are. -/
theorem appends_instrs (is : List Instr) :
    Appends (fun f => .ok (f.emit (encodeAll is))) (draft (is.map .instr)) := by
  rw [draft_map_instr]
  exact appends_emit _

theorem appends_writePush {frame : Frame} {a : Operand} {is : List Instr}
    (h : pushOperand frame a = .ok is) : Appends (writePush frame a) (draft (is.map .instr)) := by
  intro f hfits
  rw [writePush, h]
  exact appends_instrs is f hfits

theorem appends_writeLoad {frame : Frame} {dst : Reg} {a : Operand} {line : Line}
    (h : loadOperand frame dst a = .ok line) :
    Appends (writeLoad frame dst a) ⟨line.toInstr.encode, line.deferred⟩ := by
  intro f hfits
  rw [writeLoad, h]
  exact line.appends_write f hfits

theorem concat_draft_instrs (blocks : List (List Instr)) :
    Fragment.concat (blocks.map fun is => draft (is.map .instr))
      = draft (blocks.flatten.map .instr) := by
  induction blocks with
  | nil => rfl
  | cons is blocks ih =>
      rw [List.map_cons, Fragment.concat, ih, ← draft_append, ← List.map_append, List.flatten_cons]

theorem concat_draft_lines (lines : List Line) :
    Fragment.concat (lines.map fun line => ⟨line.toInstr.encode, line.deferred⟩) = draft lines := by
  induction lines with
  | nil => rfl
  | cons line lines ih => rw [List.map_cons, Fragment.concat, ih, draft]

theorem appends_writeCall {abi : Abi} {frame : Frame} {site : CallSite} {lines : List Line}
    (h : callLines abi frame site = .ok lines) :
    Appends (writeCall abi frame site) (draft lines) := by
  obtain ⟨pushes, hpushes, h⟩ := bind_eq_ok.mp h
  obtain ⟨loads, hloads, h⟩ := bind_eq_ok.mp h
  obtain rfl := Except.ok.inj h
  let plan := abi.classify site.types
  have hpush : Appends (fun f => (plan.stackOperandsRev site.args).foldlM
      (fun f a => writePush frame a f) f) (draft (pushes.flatten.map .instr)) := by
    rw [← concat_draft_instrs]
    refine appends_foldlM (List.forall₂_map_right_iff.mpr ?_)
    exact (mapM_eq_ok.mp hpushes).imp fun a is ha => appends_writePush ha
  have hload : Appends (fun f => (plan.registerOperands site.args).foldlM
      (fun f x => writeLoad frame x.2.1 x.2.2 f) f) (draft loads) := by
    rw [← concat_draft_lines]
    refine appends_foldlM (List.forall₂_map_right_iff.mpr ?_)
    exact (mapM_eq_ok.mp hloads).imp fun x line hx => appends_writeLoad hx
  -- the other pieces are instructions without literals
  have hpad := appends_instrs (adjustStack .sub (callPad frame plan))
  have hshadow := appends_instrs (adjustStack .sub abi.shadowSpace)
  have hcount := appends_instrs (countVectors abi (plan.floatRegCount site.args))
  have hcall := appends_instrs [.loadImm .w64 .r11 site.callee, .call .r11]
  have hcleanup := appends_instrs
    (adjustStack .add (stackBytes plan + callPad frame plan + abi.shadowSpace))
  simp only [List.map_append, draft_append, Fragment.append_assoc]
  exact hpad.bind (hpush.bind (hshadow.bind (hload.bind (hcount.bind (hcall.bind hcleanup)))))

end Amd64

/-! ### Calls on IA-32 -/

namespace Ia32

/-- Writes the push of one argument. -/
def writePush (frame : Frame) (a : Operand) (f : Fragment) : Except Fault Fragment :=
  (pushOperand frame a).map fun is => f.emit (encodeAll is)

/-- Writes the load of one argument. -/
def writeLoad (frame : Frame) (dst : Gpr) (a : Operand) (f : Fragment) : Except Fault Fragment :=
  (loadOperand frame dst a).map fun i => f.emit i.encode

/-- Writes a call. -/
def writeCall (frame : Frame) (site : CallSite) (f : Fragment) : Except Fault Fragment := do
  let plan := classify site.convention site.types
  let stack := stackBytes plan site.args
  let pad := callPad frame stack
  let f := f.emit (encodeAll (adjustStack .sub pad))
  let f ← (plan.stackOperandsRev site.args).foldlM (fun f a => writePush frame a f) f
  let f ← (plan.registerOperands site.args).foldlM (fun f x => writeLoad frame x.2.1 x.2.2 f) f
  let f := f.emit (encodeAll (if site.far then [.pushCs] else []))
  let f := f.emit (encodeAll [.loadImm .eax site.callee.toUInt32, .call .eax])
  return f.emit (encodeAll (adjustStack .add (cleanupBytes site.convention stack pad)))

theorem concat_encodeAll (blocks : List (List Instr)) :
    Fragment.concat (blocks.map fun is => { code := encodeAll is })
      = { code := encodeAll blocks.flatten } := by
  induction blocks with
  | nil => rfl
  | cons is blocks ih =>
      rw [List.map_cons, Fragment.concat, ih, List.flatten_cons, encodeAll_append,
        Fragment.ofCode_append]

theorem appends_writeCall {frame : Frame} {site : CallSite} {is : List Instr}
    (h : callInstrs frame site = .ok is) :
    Appends (writeCall frame site) { code := encodeAll is } := by
  obtain ⟨pushes, hpushes, h⟩ := bind_eq_ok.mp h
  obtain ⟨loads, hloads, h⟩ := bind_eq_ok.mp h
  obtain rfl := Except.ok.inj h
  let plan := classify site.convention site.types
  let stack := stackBytes plan site.args
  have hpush : Appends (fun f => (plan.stackOperandsRev site.args).foldlM
      (fun f a => writePush frame a f) f) { code := encodeAll pushes.flatten } := by
    rw [← concat_encodeAll]
    refine appends_foldlM (List.forall₂_map_right_iff.mpr ?_)
    refine (mapM_eq_ok.mp hpushes).imp fun a is ha f hfits => ?_
    rw [writePush, ha]
    exact appends_emit _ f hfits
  have hload : Appends (fun f => (plan.registerOperands site.args).foldlM
      (fun f x => writeLoad frame x.2.1 x.2.2 f) f) { code := encodeAll loads } := by
    rw [encodeAll, List.flatMap_def, ← Fragment.concat_ofCode, List.map_map]
    refine appends_foldlM (List.forall₂_map_right_iff.mpr ?_)
    refine (mapM_eq_ok.mp hloads).imp fun x i hx f hfits => ?_
    rw [writeLoad, show loadOperand frame x.2.1 x.2.2 = .ok i from hx]
    exact appends_emit _ f hfits
  have hpad := appends_emit (encodeAll (adjustStack .sub (callPad frame stack)))
  have hsegment := appends_emit (encodeAll (if site.far then [.pushCs] else []))
  have hcall := appends_emit (encodeAll [.loadImm .eax site.callee.toUInt32, .call .eax])
  have hcleanup := appends_emit (encodeAll
    (adjustStack .add (cleanupBytes site.convention stack (callPad frame stack))))
  simp only [encodeAll_append, Fragment.ofCode_append, Fragment.append_assoc]
  exact hpad.bind (hpush.bind (hload.bind (hsegment.bind (hcall.bind hcleanup))))

end Ia32

/-! ### Calls on any target -/

namespace Target

/-- Writes a call behind the code that is there. -/
def writeCall (t : Target) (frame : Frame) (site : CallSite) (f : Fragment) :
    Except Fault Fragment :=
  match t.abi? with
  | some abi => Amd64.writeCall abi frame site f
  | none => Ia32.writeCall frame site f

/-- Where a call is written makes no difference: it is the fragment of the call that is appended. -/
theorem appends_writeCall {t : Target} {frame : Frame} {site : CallSite} {g : Fragment}
    (h : t.callFragment frame site = .ok g) : Appends (t.writeCall frame site) g := by
  intro f
  rw [callFragment] at h
  rw [writeCall]
  cases habi : t.abi? with
  | some abi =>
      rw [habi] at h
      obtain ⟨lines, hlines, rfl⟩ := Amd64.callFragment_eq_ok.mp h
      exact Amd64.appends_writeCall hlines f
  | none =>
      rw [habi] at h
      obtain ⟨is, his, rfl⟩ := map_eq_ok.mp h
      exact Ia32.appends_writeCall his f

/-- Calls that are written one after the other. -/
def writeCalls (t : Target) (frame : Frame) (sites : List CallSite) (f : Fragment) :
    Except Fault Fragment :=
  sites.foldlM (fun f site => t.writeCall frame site f) f

theorem appends_writeCalls {t : Target} {frame : Frame} {sites : List CallSite}
    {calls : List Fragment} (h : sites.mapM (t.callFragment frame) = .ok calls) :
    Appends (t.writeCalls frame sites) (Fragment.concat calls) :=
  appends_foldlM ((mapM_eq_ok.mp h).imp fun _ _ hsite => appends_writeCall hsite)

end Target

end Trampoline
