/-
Trampoline/Proofs/Amd64/Lines.lean

From lines to instructions with all their displacements.

Lines are assembled into a fragment whose literal loads are still open.  Once the
literals stand behind the code, each open field holds the distance from the end
of its instruction to its literal.  `realize` says what instructions these are:
it walks along the lines with two positions, that of the line and that of the
next literal.  `resolve_draft` says that placing literals, when it succeeds, yields
exactly the code of these instructions, followed by the literals, and that every
load reaches its literal (`Reached`).

What a program needs from this is less than the positions: every literal load
finds the bytes of its literal (`Realizes`).  The relation leaves open what
"finds" means, so that code whose literals have no place yet can be followed too.
-/
import Mathlib
import Trampoline.Amd64.Sequence
import Trampoline.Proofs.Fragment
import Trampoline.Proofs.Amd64.Decode

namespace Trampoline.Amd64

open Memory (offset)

/-! ### Assembling -/

/-- The literal that a line waits for, if there is one. -/
def Line.deferred : Line → List Deferred
  | instr _ => []
  | literal p dst bytes =>
      let field := ripField (.sseLoad p) (Instr.xmmField dst)
      [⟨bytes, field, field + 4⟩]

/-- The fragment of lines one after the other. -/
def draft : List Line → Fragment
  | [] => {}
  | line :: lines => ⟨line.toInstr.encode, line.deferred⟩ ++ draft lines

/-- The load of a literal is as long as it will be with its displacement. -/
theorem length_encode_sseLoadRip (p : Precision) (dst : Xmm) (disp : Int32) :
    (Instr.sseLoadRip p dst disp).encode.length
      = ripField (.sseLoad p) (Instr.xmmField dst) + 4 :=
  length_ripRelative _ _ _

theorem Line.fragment_eq (line : Line) :
    line.fragment = .ok ⟨line.toInstr.encode, line.deferred⟩ := by
  cases line with
  | instr i => rfl
  | literal p dst bytes =>
      have hlen := length_encode_sseLoadRip p dst 0
      have hmax := (length_encode (.sseLoadRip p dst 0)).2
      rw [fragment, Fragment.defer, bind_eq_ok]
      refine ⟨_, Code.fieldEnd_eq_ok.mpr ⟨?_, rfl⟩, ?_⟩
      · unfold Code.addressSpace
        unfold maxInstrBytes at hmax
        omega
      · rw [if_pos (by rw [hlen]), hlen]
        rfl

/-- Assembling never fails. -/
theorem assemble_eq (lines : List Line) : assemble lines = .ok (draft lines) := by
  induction lines with
  | nil => rfl
  | cons line lines ih =>
      rw [assemble, line.fragment_eq, ih]
      rfl

theorem draft_append (ls ms : List Line) : draft (ls ++ ms) = draft ls ++ draft ms := by
  induction ls with
  | nil => exact (Fragment.empty_append _).symm
  | cons line ls ih => rw [List.cons_append, draft, draft, ih, Fragment.append_assoc]

/-- Instructions without literals are assembled into their bytes. -/
theorem draft_map_instr (is : List Instr) : draft (is.map .instr) = { code := encodeAll is } := by
  induction is with
  | nil => rfl
  | cons i is ih =>
      rw [List.map_cons, draft, ih, encodeAll_cons]
      rfl

theorem code_draft (lines : List Line) :
    (draft lines).code = encodeAll (lines.map Line.toInstr) := by
  induction lines with
  | nil => rfl
  | cons line lines ih =>
      rw [draft, Fragment.code_append, ih, List.map_cons, encodeAll_cons]

theorem closed_draft (lines : List Line) : (draft lines).Closed := by
  induction lines with
  | nil => exact Fragment.closed_of_literals_eq_nil rfl
  | cons line lines ih =>
      rw [draft]
      refine Fragment.Closed.append ?_ ih
      cases line with
      | instr i => exact Fragment.closed_of_literals_eq_nil rfl
      | literal p dst bytes =>
          intro d hd
          obtain rfl := List.mem_singleton.mp hd
          exact ⟨le_refl _, (length_encode_sseLoadRip p dst 0).ge⟩

/-! ### Placing the literals -/

/-- The instructions of lines that start at `start` and whose literals are placed from `place`
on. -/
def realize (start place : Nat) : List Line → List Instr
  | [] => []
  | .instr i :: lines => i :: realize (start + i.encode.length) place lines
  | .literal p dst bytes :: lines =>
      let stop := start + (Instr.sseLoadRip p dst 0).encode.length
      .sseLoadRip p dst (Int32.ofInt (place - stop)) :: realize stop (place + bytes.length) lines

/-- Whether every literal of such lines is within reach of its load. -/
def Reached (start place : Nat) : List Line → Prop
  | [] => True
  | .instr i :: lines => Reached (start + i.encode.length) place lines
  | .literal p dst bytes :: lines =>
      let stop := start + (Instr.sseLoadRip p dst 0).encode.length
      place < stop + 2 ^ 31 ∧ Reached stop (place + bytes.length) lines

theorem length_encodeAll_realize (start place : Nat) (lines : List Line) :
    (encodeAll (realize start place lines)).length = (draft lines).code.length := by
  induction lines generalizing start place with
  | nil => rfl
  | cons line lines ih =>
      rw [draft, Fragment.code_append, List.length_append]
      cases line with
      | instr i =>
          rw [realize, encodeAll_cons, List.length_append, ih]
          rfl
      | literal p dst bytes =>
          rw [realize, encodeAll_cons, List.length_append, ih, length_encode_sseLoadRip]
          show _ = (Instr.sseLoadRip p dst 0).encode.length + _
          rw [length_encode_sseLoadRip]

/-- Closing the field of a literal load gives the load its displacement. -/
theorem patched_sseLoadRip (front back : Code) (p : Precision) (dst : Xmm) (disp : Int32) :
    Code.patched (front ++ ((Instr.sseLoadRip p dst 0).encode ++ back))
        (front.length + ripField (.sseLoad p) (Instr.xmmField dst)) disp.toUInt32
      = front ++ ((Instr.sseLoadRip p dst disp).encode ++ back) := by
  let op := opcode (.sseLoad p) (Instr.xmmField dst).number 0
  let byte := ((Instr.xmmField dst).bits <<< 3) ||| 5
  have hsplit : ∀ d : Int32, front ++ ((Instr.sseLoadRip p dst d).encode ++ back)
      = (front ++ op ++ [byte]) ++ (Code.ofUInt32 d.toUInt32 ++ back) := by
    intro d
    simp only [Instr.encode, ripRelative, List.append_assoc, List.cons_append, List.nil_append]
    rfl
  have hlen : front.length + ripField (.sseLoad p) (Instr.xmmField dst)
      = (front ++ op ++ [byte]).length := by
    rw [List.length_append, List.length_append, ripField, List.length_singleton, Nat.add_assoc]
  rw [hsplit, hsplit, hlen, Code.patched_append]

/-- Placing the first literal gives its load the displacement; the literal goes behind. -/
theorem placeLiteral_load {front rest back bytes out : Code} {p : Precision} {dst : Xmm}
    {field stop place : Nat} {r : Resolved}
    (hfield : field = ripField (.sseLoad p) (Instr.xmmField dst))
    (hstop : stop = front.length + (Instr.sseLoadRip p dst 0).encode.length)
    (hplace : place = stop + rest.length + back.length)
    (h : Fragment.placeLiteral (front ++ ((Instr.sseLoadRip p dst 0).encode ++ rest) ++ back)
        (Deferred.shift ⟨bytes, field, field + 4⟩ front.length) = .ok (out, r)) :
    place < stop + 2 ^ 31 ∧
      out = front ++ (Instr.sseLoadRip p dst (Int32.ofInt (place - stop))).encode ++ rest
        ++ (back ++ bytes) := by
  obtain ⟨disp, hreach, -, -, rfl, -⟩ := Fragment.placeLiteral_eq_ok.mp h
  have hcode : (front ++ ((Instr.sseLoadRip p dst 0).encode ++ rest) ++ back).length = place := by
    simp only [List.length_append]
    omega
  have hend : front.length + (field + 4) = stop := by
    rw [hstop, length_encode_sseLoadRip, hfield]
  have hreach' : Fragment.reach place stop = .ok disp := by
    rw [← hcode, ← hend]
    exact hreach
  obtain ⟨hlt, rfl⟩ := Fragment.eq_of_reach (by omega) hreach'
  refine ⟨hlt, ?_⟩
  have hpatch := patched_sseLoadRip front (rest ++ (back ++ bytes)) p dst
    (Int32.ofInt (place - stop))
  rw [← hfield] at hpatch
  simp only [List.append_assoc] at hpatch ⊢
  exact hpatch

/-- Placing the literals of lines that stand between two pieces of code.  The code in front is
done; what stands behind are the literals placed so far. -/
theorem placeLiterals_draft {lines : List Line} {out : Code} {rs : List Resolved}
    (front back : Code) (place : Nat)
    (hplace : place = front.length + (draft lines).code.length + back.length)
    (h : Fragment.placeLiterals (front ++ (draft lines).code ++ back)
        ((draft lines).literals.map (·.shift front.length)) = .ok (out, rs)) :
    out = front ++ encodeAll (realize front.length place lines) ++ back
        ++ Fragment.literalBytes (draft lines).literals ∧
      Reached front.length place lines := by
  induction lines generalizing front back rs place with
  | nil =>
      obtain ⟨rfl, -⟩ := Prod.mk.inj (Except.ok.inj h)
      exact ⟨by simp [draft, realize, encodeAll], trivial⟩
  | cons line lines ih =>
      rw [draft, Fragment.code_append, Fragment.literals_append, List.map_append,
        map_shift_shift] at h
      rw [draft, Fragment.code_append, List.length_append] at hplace
      rw [draft, Fragment.literals_append, Fragment.literalBytes_append,
        Fragment.literalBytes_shift]
      cases line with
      | instr i =>
          -- the instruction joins the code in front
          simp only [Line.toInstr, Line.deferred, List.map_nil, List.nil_append,
            ← List.append_assoc front] at h hplace
          rw [← List.length_append] at h
          obtain ⟨rfl, hreached⟩ := ih (front ++ i.encode) back place
            (by rw [List.length_append]; omega) h
          rw [List.length_append] at hreached
          refine ⟨?_, hreached⟩
          simp [realize, encodeAll_cons, Line.deferred, List.append_assoc]
      | literal p dst bytes =>
          -- the first literal is placed and its field closed; then the load joins the code in front
          simp only [Line.toInstr] at h hplace
          obtain ⟨c₁, r, rs', hfirst, hrest, -⟩ := Fragment.placeLiterals_cons_eq_ok.mp h
          set stop := front.length + (Instr.sseLoadRip p dst 0).encode.length with hstop
          obtain ⟨hlt, rfl⟩ := placeLiteral_load rfl hstop
            (show place = stop + (draft lines).code.length + back.length by omega) hfirst
          set load := Instr.sseLoadRip p dst (Int32.ofInt (place - stop)) with hload
          have hfront : (front ++ load.encode).length = stop := by
            rw [List.length_append, hload, length_encode_sseLoadRip, hstop,
              length_encode_sseLoadRip]
          obtain ⟨rfl, hreached⟩ := ih (front ++ load.encode) (back ++ bytes) (place + bytes.length)
            (by rw [hfront, List.length_append]; omega) (by rw [hfront]; exact hrest)
          rw [hfront] at hreached ⊢
          refine ⟨?_, hlt, hreached⟩
          have hrealize : realize front.length place (.literal p dst bytes :: lines)
              = load :: realize stop (place + bytes.length) lines := rfl
          simp [hrealize, encodeAll_cons, Line.deferred, List.append_assoc]

/-- Placing the literals of lines closes their loads and puts the literals behind the code. -/
theorem resolve_draft {lines : List Line} {g : Fragment} {rs : List Resolved}
    (h : (draft lines).resolve = .ok (g, rs)) :
    g.code = encodeAll (realize 0 (draft lines).code.length lines)
        ++ Fragment.literalBytes (draft lines).literals ∧
      Reached 0 (draft lines).code.length lines := by
  obtain ⟨hplace, -⟩ := Fragment.resolve_eq_ok.mp h
  have hshift : (draft lines).literals.map (·.shift 0) = (draft lines).literals := by
    simp [Deferred.shift_zero]
  have hplace' : Fragment.placeLiterals ([] ++ (draft lines).code ++ [])
      ((draft lines).literals.map (·.shift (List.length ([] : Code)))) = .ok (g.code, rs) := by
    rw [List.nil_append, List.append_nil, List.length_nil, hshift]
    exact hplace
  obtain ⟨hcode, hreached⟩ := placeLiterals_draft [] [] (draft lines).code.length (by simp) hplace'
  exact ⟨by simpa using hcode, hreached⟩

/-! ### Lines and instructions at an address -/

/-- Whether an instruction that ends at `next` is what a line stands for.  `found a bytes` says
that the bytes of a literal can be found at the address `a`. -/
def Line.MeansAt (found : BitVec 64 → Code → Prop) (next : BitVec 64) : Line → Instr → Prop
  | instr i, j => j = i
  | literal p dst bytes, j =>
      ∃ disp : Int32, j = .sseLoadRip p dst disp ∧ found (offset next disp.toInt) bytes

/-- Whether instructions from an address on are what lines stand for, one for one. -/
inductive Realizes (found : BitVec 64 → Code → Prop) : BitVec 64 → List Line → List Instr → Prop
  | nil (a : BitVec 64) : Realizes found a [] []
  | cons {a : BitVec 64} {line : Line} {i : Instr} {lines : List Line} {is : List Instr}
      (first : line.MeansAt found (offset a i.encode.length) i)
      (rest : Realizes found (offset a i.encode.length) lines is) :
      Realizes found a (line :: lines) (i :: is)

namespace Realizes

variable {found : BitVec 64 → Code → Prop} {a : BitVec 64}

theorem append_left {ls ms : List Line} {is : List Instr} (h : Realizes found a (ls ++ ms) is) :
    ∃ js ks, is = js ++ ks ∧ Realizes found a ls js ∧
      Realizes found (offset a (encodeAll js).length) ms ks := by
  induction ls generalizing a is with
  | nil => exact ⟨[], is, rfl, .nil a, by simpa [encodeAll] using h⟩
  | cons line ls ih =>
      cases h with
      | @cons _ _ i _ rest first h =>
          obtain ⟨js, ks, rfl, hjs, hks⟩ := ih h
          refine ⟨i :: js, ks, rfl, .cons first hjs, ?_⟩
          rw [Memory.offset_offset] at hks
          rwa [encodeAll_cons, List.length_append, Nat.cast_add]

theorem instrs {is js : List Instr} (h : Realizes found a (is.map .instr) js) : js = is := by
  induction is generalizing a js with
  | nil =>
      cases h
      rfl
  | cons i is ih =>
      cases h with
      | cons first rest =>
          obtain rfl := first
          rw [ih rest]

/-- Lines and what they stand for are of one length. -/
theorem length_eq {lines : List Line} {is : List Instr} (h : Realizes found a lines is) :
    (encodeAll is).length = (draft lines).code.length := by
  induction h with
  | nil => rfl
  | @cons a line i lines is first _ ih =>
      have hsame : i.encode.length = line.toInstr.encode.length := by
        cases line with
        | instr j => rw [show i = j from first, Line.toInstr]
        | literal p dst bytes =>
            obtain ⟨disp, rfl, -⟩ := first
            rw [Line.toInstr, length_encode_sseLoadRip, length_encode_sseLoadRip]
      rw [encodeAll_cons, draft, Fragment.code_append, List.length_append, List.length_append, ih,
        hsame]

/-- Where any bytes count as found, open loads will do. -/
theorem toInstr (a : BitVec 64) (lines : List Line) :
    Realizes (fun _ _ => True) a lines (lines.map Line.toInstr) := by
  induction lines generalizing a with
  | nil => exact .nil a
  | cons line lines ih =>
      refine .cons ?_ (ih _)
      cases line with
      | instr i => exact rfl
      | literal p dst bytes => exact ⟨0, rfl, trivial⟩

end Realizes

/-- Code with its literals behind it and within reach realizes its lines: every load finds its
literal there. -/
theorem realizes_of_reached {found : BitVec 64 → Code → Prop} {base : BitVec 64}
    {start place : Nat} (lines : List Line) (hle : start + (draft lines).code.length ≤ place)
    (hreached : Reached start place lines)
    (hfound : ∀ front d back, (draft lines).literals = front ++ d :: back →
      found (offset base (place + (Fragment.literalBytes front).length : Nat)) d.bytes) :
    Realizes found (offset base start) lines (realize start place lines) := by
  induction lines generalizing start place with
  | nil => exact .nil _
  | cons line lines ih =>
      rw [draft, Fragment.code_append, List.length_append] at hle
      rw [draft, Fragment.literals_append] at hfound
      cases line with
      | instr i =>
          simp only [Line.toInstr, Line.deferred, List.nil_append] at hle hfound
          refine .cons rfl ?_
          rw [Memory.offset_offset, ← Nat.cast_add]
          refine ih (by omega) hreached fun front d back hsplit => ?_
          have h := hfound (front.map (·.shift i.encode.length)) (d.shift i.encode.length)
            (back.map (·.shift i.encode.length)) (by rw [hsplit, List.map_append, List.map_cons])
          rwa [Fragment.literalBytes_shift] at h
      | literal p dst bytes =>
          obtain ⟨hnear, hrest⟩ := hreached
          have hlen := length_encode_sseLoadRip p dst
          set n := (Instr.sseLoadRip p dst 0).encode.length with hn
          simp only [Line.toInstr, ← hn] at hle hfound
          have hdisp : (Int32.ofInt (place - (start + n : Nat))).toInt = place - (start + n : Nat) :=
            Int32.toInt_ofInt_of_le (by omega) (by omega)
          have hsame : (Instr.sseLoadRip p dst
              (Int32.ofInt (place - (start + n : Nat)))).encode.length = n := by
            rw [hn, hlen, hlen]
          refine .cons ⟨_, rfl, ?_⟩ ?_
          · have h := hfound [] _ _ rfl
            rw [hdisp, hsame, Memory.offset_offset, Memory.offset_offset]
            simp only [Fragment.literalBytes_nil, List.length_nil, Nat.add_zero] at h
            convert h using 2
            push_cast
            ring
          · show Realizes found (offset (offset base start)
              (Instr.sseLoadRip p dst (Int32.ofInt (place - (start + n : Nat)))).encode.length)
              lines (realize (start + n) (place + bytes.length) lines)
            rw [hsame, Memory.offset_offset, ← Nat.cast_add]
            refine ih (by omega) hrest fun front d back hsplit => ?_
            have h := hfound (⟨bytes, _, _⟩ :: front.map (·.shift n)) (d.shift n)
              (back.map (·.shift n)) (by rw [hsplit, List.map_append, List.map_cons]; rfl)
            rw [Fragment.literalBytes_cons, Fragment.literalBytes_shift, List.length_append,
              ← Nat.add_assoc] at h
            exact h

/-- In short code every literal is within reach. -/
theorem reached_of_lt (start : Nat) {place : Nat} (lines : List Line)
    (hlt : place + (Fragment.literalBytes (draft lines).literals).length < 2 ^ 31) :
    Reached start place lines := by
  induction lines generalizing start place with
  | nil => trivial
  | cons line lines ih =>
      rw [draft, Fragment.literals_append, Fragment.literalBytes_append,
        Fragment.literalBytes_shift, List.length_append] at hlt
      cases line with
      | instr i => exact ih _ (by omega)
      | literal p dst bytes =>
          simp only [Line.deferred, Fragment.literalBytes_cons, Fragment.literalBytes_nil,
            List.append_nil] at hlt
          exact ⟨by omega, ih _ (by omega)⟩

theorem realizes_realize {found : BitVec 64 → Code → Prop} {base : BitVec 64} {start place : Nat}
    (lines : List Line) (hle : start + (draft lines).code.length ≤ place)
    (hlt : place + (Fragment.literalBytes (draft lines).literals).length < 2 ^ 31)
    (hfound : ∀ front d back, (draft lines).literals = front ++ d :: back →
      found (offset base (place + (Fragment.literalBytes front).length : Nat)) d.bytes) :
    Realizes found (offset base start) lines (realize start place lines) :=
  realizes_of_reached lines hle (reached_of_lt start lines hlt) hfound

end Trampoline.Amd64
