/-
Trampoline/Proofs/Resolution.lean

What closing a fragment does, whoever deferred its literals.

The encoders defer literals one after the other, each with a field of its own
inside the code.  Closing does not rely on that.  It succeeds exactly when each
literal is placeable where it goes (`exists_placeLiterals_iff`): its instruction
reaches it, and its field is inside the code by then.  Fields may overlap, lie
in literals that were placed before, or even in the literal they wait for.  What
closing reports is right in all these cases (`Tells`), because a report is about
positions, and these depend on nothing but the numbers of bytes.

Only the code itself is sensitive to overlaps.  Where the fields are apart and
inside the code that was there before, it is linked (`Linked`): every literal
has its bytes, every field leads to its literal, and everything else is as it
was.  A field keeps its displacement, because nothing that is placed later
writes to it.
-/
import Mathlib
import Trampoline.Proofs.Fragment
import Trampoline.Proofs.Memory

namespace Trampoline

namespace Code

/-! ### Reading a field -/

theorem read32_eq_ok {code : Code} {offset : Nat} {value : UInt32} :
    read32 code offset = .ok value ↔
      offset + 4 < addressSpace ∧ offset + 4 ≤ code.length ∧
        value = UInt32.ofNat (ofLittleEndian ((code.drop offset).take 4)) := by
  rw [read32, bind_eq_ok]
  constructor
  · rintro ⟨stop, hstop, h⟩
    obtain ⟨hspace, rfl⟩ := fieldEnd_eq_ok.mp hstop
    by_cases hin : offset + 4 ≤ code.length
    · rw [if_pos hin] at h
      cases h
      exact ⟨hspace, hin, rfl⟩
    · rw [if_neg hin] at h
      cases h
  · rintro ⟨hspace, hin, rfl⟩
    refine ⟨offset + 4, fieldEnd_eq_ok.mpr ⟨hspace, rfl⟩, ?_⟩
    rw [if_pos hin]
    rfl

/-- What is read from a field that was overwritten. -/
theorem read32_patched {code : Code} {offset : Nat} (value : UInt32)
    (hspace : offset + 4 < addressSpace) (hin : offset + 4 ≤ code.length) :
    read32 (patched code offset value) offset = .ok value := by
  have hfield : ((patched code offset value).drop offset).take 4 = ofUInt32 value := by
    rw [patched, List.append_assoc, List.drop_left' (by rw [List.length_take]; omega),
      List.take_left' (length_ofUInt32 value)]
  refine read32_eq_ok.mpr ⟨hspace, (length_patched value hin).symm ▸ hin, ?_⟩
  have hmod : value.toNat % 256 ^ 4 = value.toNat := Nat.mod_eq_of_lt value.toNat_lt
  rw [hfield, ofUInt32, ofLittleEndian_littleEndian, hmod, UInt32.ofNat_toNat]

/-- A field is read from its own four bytes. -/
theorem read32_of_getElem?_eq {code code' : Code} {offset : Nat} {value : UInt32}
    (hlength : offset + 4 ≤ code'.length)
    (hsame : ∀ i, offset ≤ i → i < offset + 4 → code'[i]? = code[i]?)
    (h : read32 code offset = .ok value) : read32 code' offset = .ok value := by
  obtain ⟨hspace, -, rfl⟩ := read32_eq_ok.mp h
  have hfield : (code'.drop offset).take 4 = (code.drop offset).take 4 := by
    apply List.ext_getElem?
    intro i
    by_cases hi : i < 4
    · rw [List.getElem?_take_of_lt hi, List.getElem?_take_of_lt hi, List.getElem?_drop,
        List.getElem?_drop, hsame (offset + i) (by omega) (by omega)]
    · rw [List.getElem?_take_eq_none (by omega), List.getElem?_take_eq_none (by omega)]
  exact read32_eq_ok.mpr ⟨hspace, hlength, by rw [hfield]⟩

end Code

/-- Whether a report tells that a literal went to `n`. -/
structure Resolved.Tells (r : Resolved) (n : Nat) (d : Deferred) : Prop where
  offset : r.offset = n
  width : r.width = d.bytes.length
  patchOffset : r.patchOffset = d.patchOffset
  displacement : r.displacement.toInt = (n : Int) - d.insnEnd

namespace Fragment

theorem Placeable.toInt_displacementTo {n : Nat} {d : Deferred} (h : Placeable n d) :
    (displacementTo n d).toInt = (n : Int) - d.insnEnd :=
  Int32.toInt_ofInt_of_le h.reach_ge h.reach_lt

/-! ### The reports -/

/-- There is one report for each literal, in order, and it tells where the literal went. -/
theorem placeLiterals_tells {code out : Code} {ds : List Deferred} {rs : List Resolved}
    (hds : ∀ d ∈ ds, Ordinary d) (h : placeLiterals code ds = .ok (out, rs)) :
    rs.length = ds.length ∧
      ∀ (k : Nat) (d : Deferred), ds[k]? = some d →
        ∃ r, rs[k]? = some r ∧ r.Tells (placeOf code.length ds k) d := by
  induction ds generalizing code rs with
  | nil =>
      cases h
      simp
  | cons d ds ih =>
      obtain ⟨c₁, r, rs, h₁, h₂, rfl⟩ := placeLiterals_cons_eq_ok.mp h
      obtain ⟨hplace, rfl, rfl⟩ := (placeLiteral_iff (hds d (by simp))).mp h₁
      obtain ⟨hlength, htells⟩ := ih (fun e he => hds e (by simp [he])) h₂
      refine ⟨by rw [List.length_cons, hlength, List.length_cons], ?_⟩
      intro k e he
      cases k with
      | zero =>
          obtain rfl : d = e := by simpa using he
          rw [placeOf_zero]
          exact ⟨_, rfl, rfl, rfl, rfl, hplace.toInt_displacementTo⟩
      | succ k =>
          rw [placeOf_cons_succ, ← hplace.length_withLiteral]
          simpa using htells k e (by simpa using he)

/-! ### The code -/

/-- Whether two literals have their fields apart. -/
def FieldsApart (d e : Deferred) : Prop :=
  d.patchOffset + 4 ≤ e.patchOffset ∨ e.patchOffset + 4 ≤ d.patchOffset

/-- A literal is found where it was placed. -/
theorem take_drop_literalBytes {n : Nat} {code : Code} {ds : List Deferred} {k : Nat}
    {d : Deferred} (hcode : code.drop n = literalBytes ds) (hk : ds[k]? = some d) :
    (code.drop (placeOf n ds k)).take d.bytes.length = d.bytes := by
  obtain ⟨hlt, rfl⟩ := List.getElem?_eq_some_iff.mp hk
  have hsplit : literalBytes ds
      = literalBytes (ds.take k) ++ (ds[k].bytes ++ literalBytes (ds.drop (k + 1))) := by
    rw [← literalBytes_cons, ← List.drop_eq_getElem_cons hlt, ← literalBytes_append,
      List.take_append_drop]
  rw [placeOf_eq, ← List.drop_drop, hcode, hsplit, List.drop_left, List.take_left]

/-- Where the fields are apart and in the first `n` bytes, every field is left with the
displacement of its literal.  The place of a literal depends on those before it, and its field is
kept from those after it, so both sides move in the induction. -/
theorem placeLiterals_reaches {code out : Code} {ds : List Deferred} {rs : List Resolved} {n : Nat}
    (hds : ∀ d ∈ ds, Ordinary d) (hn : n ≤ code.length) (hin : ∀ d ∈ ds, d.patchOffset + 4 ≤ n)
    (hapart : ds.Pairwise FieldsApart) (h : placeLiterals code ds = .ok (out, rs)) :
    ∀ (k : Nat) (d : Deferred), ds[k]? = some d →
      ∃ v, out.read32 d.patchOffset = .ok v ∧
        v.toInt32.toInt + d.insnEnd = placeOf code.length ds k := by
  induction ds generalizing code rs with
  | nil => simp
  | cons d ds ih =>
      obtain ⟨c₁, r, rs, h₁, h₂, -⟩ := placeLiterals_cons_eq_ok.mp h
      obtain ⟨hplace, rfl, -⟩ := (placeLiteral_iff (hds d (by simp))).mp h₁
      obtain ⟨hd, hapart⟩ := List.pairwise_cons.mp hapart
      have hn₁ : n ≤ (withLiteral code d).length := by
        rw [hplace.length_withLiteral]
        omega
      intro k e he
      cases k with
      | zero =>
          obtain rfl : d = e := by simpa using he
          obtain ⟨hfield, hend⟩ := hds d (by simp)
          obtain ⟨hlength, -, hkept⟩ := placeLiterals_spec hn₁ (fun e he => hin e (by simp [he])) h₂
          have hlast : (withLiteral code d).read32 d.patchOffset
              = .ok (displacementTo code.length d).toUInt32 :=
            Code.read32_patched _ (by unfold Code.addressSpace; omega)
              (by rw [List.length_append]; exact hplace.field_le)
          have hdin := hin d (by simp)
          refine ⟨_, Code.read32_of_getElem?_eq (by omega) (fun i hi hi' => ?_) hlast, ?_⟩
          · refine hkept i (fun e he => ?_) (by omega)
            have := hd e he
            unfold FieldsApart at this
            omega
          · rw [Int32.toInt32_toUInt32, hplace.toInt_displacementTo, placeOf_zero]
            omega
      | succ k =>
          rw [placeOf_cons_succ, ← hplace.length_withLiteral]
          exact ih (fun e he => hds e (by simp [he])) hn₁ (fun e he => hin e (by simp [he])) hapart h₂
            k e (by simpa using he)

/-! ### Closing a fragment -/

/-- Where the literal number `k` of a fragment goes. -/
def place (f : Fragment) (k : Nat) : Nat := placeOf f.code.length f.literals k

/-- Whether the open fields are inside the code and pairwise apart. -/
structure Separate (f : Fragment) : Prop where
  inside : ∀ d ∈ f.literals, d.patchOffset + 4 ≤ f.code.length
  apart : f.literals.Pairwise FieldsApart

/-- The fragment `g` is `f` with every literal in its place. -/
structure Linked (f g : Fragment) : Prop where
  length : g.code.length = f.code.length + (f.literals.map (·.bytes.length)).sum
  bytes : ∀ (k : Nat) (d : Deferred), f.literals[k]? = some d →
    (g.code.drop (f.place k)).take d.bytes.length = d.bytes
  reaches : ∀ (k : Nat) (d : Deferred), f.literals[k]? = some d →
    ∃ v, g.code.read32 d.patchOffset = .ok v ∧ v.toInt32.toInt + d.insnEnd = f.place k
  kept : ∀ i < f.code.length, (∀ d ∈ f.literals, i < d.patchOffset ∨ d.patchOffset + 4 ≤ i) →
    g.code[i]? = f.code[i]?

theorem Separate.linked {f g : Fragment} {rs : List Resolved} (hf : f.Separate)
    (hentries : ∀ d ∈ f.literals, Ordinary d) (h : f.resolve = .ok (g, rs)) : Linked f g := by
  obtain ⟨hplace, -⟩ := resolve_eq_ok.mp h
  obtain ⟨hlength, hdrop, hkept⟩ := placeLiterals_spec (Nat.le_refl _) hf.inside hplace
  rw [List.drop_length, List.nil_append] at hdrop
  refine ⟨?_, fun k d hk => take_drop_literalBytes hdrop hk,
    placeLiterals_reaches hentries (Nat.le_refl _) hf.inside hf.apart hplace,
    fun i hi hout => hkept i hout hi⟩
  rw [hlength, literalBytes, List.length_flatMap]

/-- A fragment can be closed exactly when each literal is placeable where it goes.  Its reports tell
the place of each literal, and where the fields are separate the code is linked. -/
theorem resolution_exact (f : Fragment)
    (hentries : ∀ d ∈ f.literals, d.patchOffset + 4 ≤ d.insnEnd ∧ d.insnEnd < 2 ^ 62) :
    ((∃ r, f.resolve = .ok r) ↔
      ∀ (k : Nat) (d : Deferred), f.literals[k]? = some d → Placeable (f.place k) d) ∧
    ∀ (g : Fragment) (rs : List Resolved), f.resolve = .ok (g, rs) →
      g.literals = [] ∧ rs.length = f.literals.length ∧
      (∀ (k : Nat) (d : Deferred), f.literals[k]? = some d →
        ∃ r, rs[k]? = some r ∧ r.Tells (f.place k) d) ∧
      (f.Separate → Linked f g) := by
  constructor
  · refine Iff.trans ?_ (exists_placeLiterals_iff hentries)
    constructor
    · rintro ⟨⟨g, rs⟩, h⟩
      exact ⟨_, (resolve_eq_ok.mp h).1⟩
    · rintro ⟨⟨code, rs⟩, h⟩
      exact ⟨(⟨code, []⟩, rs), resolve_eq_ok.mpr ⟨h, rfl⟩⟩
  · intro g rs h
    obtain ⟨hplace, hliterals⟩ := resolve_eq_ok.mp h
    obtain ⟨hlength, htells⟩ := placeLiterals_tells hentries hplace
    exact ⟨hliterals, hlength, htells, fun hf => hf.linked hentries h⟩

/-- Three literals behind 20 bytes of code.  The second one is empty, so the third one goes to the
same place, and the instruction of the third one ends behind it. -/
def threeLiterals : Fragment :=
  ⟨List.replicate 20 0x90,
    [⟨[1, 2, 3, 4], 12, 20⟩, ⟨[], 2, 6⟩, ⟨[5, 6, 7, 8, 9, 10, 11, 12], 7, 40⟩]⟩

/-- A literal of two bytes whose field of four bytes would start with it. -/
def shortLiteral : Fragment := ⟨[0x90], [⟨[1, 2], 1, 5⟩]⟩

theorem resolution_exact_three_literals :
    (∃ g rs, threeLiterals.resolve = .ok (g, rs) ∧
      (∃ r, rs[2]? = some r ∧ r.offset = 24 ∧ r.displacement.toInt = -16) ∧
      Linked threeLiterals g) ∧
    ¬ ∃ r, shortLiteral.resolve = .ok r := by
  constructor
  · obtain ⟨hiff, hresult⟩ := resolution_exact threeLiterals (by decide)
    have hplace : ∀ (k : Nat) (d : Deferred), threeLiterals.literals[k]? = some d →
        Placeable (threeLiterals.place k) d := by
      intro k d hk
      have hlt : k < 3 := (List.getElem?_eq_some_iff.mp hk).1
      interval_cases k <;> cases hk <;> constructor <;> decide
    obtain ⟨⟨g, rs⟩, h⟩ := hiff.mpr hplace
    obtain ⟨-, -, htells, hlinked⟩ := hresult g rs h
    obtain ⟨r, hr, ht⟩ := htells 2 _ rfl
    exact ⟨g, rs, h, ⟨r, hr, ht.offset, ht.displacement⟩,
      hlinked ⟨by decide, by simp [threeLiterals, FieldsApart]⟩⟩
  · intro h
    have hfield := ((resolution_exact shortLiteral (by decide)).1.mp h 0 _ rfl).field_le
    exact absurd hfield (by decide)

end Fragment

end Trampoline
