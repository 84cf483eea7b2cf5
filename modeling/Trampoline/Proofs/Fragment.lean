/-
Trampoline/Proofs/Fragment.lean

Fragments form a monoid, and placing literals touches only what it has to.

Appending shifts the positions of the second fragment, so it is associative and
the empty fragment is neutral: the pieces of a trampoline can be regrouped at
will.  Placing literals behind code appends their bytes in order and overwrites
the four bytes of each open field, and nothing else (`placeLiterals_spec`).  It
succeeds exactly when every literal is placeable where it goes: a displacement
reaches it, and the code that ends with it holds its field
(`exists_placeLiterals_iff`).  So it cannot fail when every field lies inside its
instruction, the instructions lie inside the code, and the whole stays below 2 GiB
(`placeLiterals_succeeds`): then every displacement is between zero and the reach of
32 signed bits.

The first section takes successful computations apart, here and in the modules
that follow.
-/
import Mathlib
import Trampoline.Fragment

namespace Trampoline

/-! ### Successes -/

section

variable {ε α β : Type}

theorem bind_eq_ok {x : Except ε α} {f : α → Except ε β} {b : β} :
    (x >>= f) = .ok b ↔ ∃ a, x = .ok a ∧ f a = .ok b := by
  cases x with
  | error e =>
      constructor
      · intro h
        cases h
      · rintro ⟨a, ha, -⟩
        cases ha
  | ok a =>
      constructor
      · intro h
        exact ⟨a, rfl, h⟩
      · rintro ⟨a', ha', h⟩
        cases ha'
        exact h

theorem map_eq_ok {x : Except ε α} {f : α → β} {b : β} :
    x.map f = .ok b ↔ ∃ a, x = .ok a ∧ f a = b := by
  cases x with
  | error e => simp [Except.map]
  | ok a => simp [Except.map]

theorem map_eq_error {x : Except ε α} {f : α → β} {e : ε} :
    x.map f = .error e ↔ x = .error e := by
  cases x with
  | error e => simp [Except.map]
  | ok a => simp [Except.map]

theorem mapM_eq_ok {f : α → Except ε β} {l : List α} {bs : List β} :
    l.mapM f = .ok bs ↔ List.Forall₂ (fun a b => f a = .ok b) l bs := by
  induction l generalizing bs with
  | nil =>
      rw [List.mapM_nil, List.forall₂_nil_left_iff]
      constructor
      · intro h
        cases h
        rfl
      · rintro rfl
        rfl
  | cons a l ih =>
      rw [List.mapM_cons, bind_eq_ok, List.forall₂_cons_left_iff]
      constructor
      · rintro ⟨b, hb, h⟩
        obtain ⟨bs', hbs', h⟩ := bind_eq_ok.mp h
        cases h
        exact ⟨b, bs', hb, ih.mp hbs', rfl⟩
      · rintro ⟨b, bs', hb, hbs', rfl⟩
        exact ⟨b, hb, bind_eq_ok.mpr ⟨bs', ih.mpr hbs', rfl⟩⟩

/-- In lists that are related one by one, what is on the right has something on its left. -/
theorem exists_of_forall₂ {R : α → β → Prop} {l : List α} {bs : List β}
    (h : List.Forall₂ R l bs) {b : β} (hb : b ∈ bs) : ∃ a ∈ l, R a b := by
  induction h with
  | nil => cases hb
  | @cons a b' l bs hab _ ih =>
      rcases List.mem_cons.mp hb with rfl | hb
      · exact ⟨a, by simp, hab⟩
      · obtain ⟨a', ha', hab'⟩ := ih hb
        exact ⟨a', by simp [ha'], hab'⟩

/-- What holds of the members of each list on the right holds of all of them together. -/
theorem forall_mem_flatten_of_forall₂ {R : α → List β → Prop} {P : β → Prop} {l : List α}
    {bss : List (List β)} (hP : ∀ {a bs}, R a bs → ∀ b ∈ bs, P b) (h : List.Forall₂ R l bss) :
    ∀ b ∈ bss.flatten, P b := by
  intro b hb
  obtain ⟨bs, hbs, hb⟩ := List.mem_flatten.mp hb
  obtain ⟨a, -, hab⟩ := exists_of_forall₂ h hbs
  exact hP hab b hb

/-- A list can be mapped when each of its members can. -/
theorem exists_mapM_eq_ok {f : α → Except ε β} {l : List α} (h : ∀ a ∈ l, ∃ b, f a = .ok b) :
    ∃ bs, l.mapM f = .ok bs := by
  induction l with
  | nil => exact ⟨[], rfl⟩
  | cons a l ih =>
      obtain ⟨b, hb⟩ := h a (by simp)
      obtain ⟨bs, hbs⟩ := ih fun x hx => h x (by simp [hx])
      exact ⟨b :: bs, mapM_eq_ok.mpr (.cons hb (mapM_eq_ok.mp hbs))⟩

end

/-! ### Appending fragments -/

theorem Deferred.shift_shift (d : Deferred) (m n : Nat) :
    (d.shift m).shift n = d.shift (n + m) := by
  simp [Deferred.shift, Nat.add_assoc]

theorem Deferred.shift_zero (d : Deferred) : d.shift 0 = d := by
  simp [Deferred.shift]

theorem map_shift_shift (ds : List Deferred) (m n : Nat) :
    (ds.map (·.shift m)).map (·.shift n) = ds.map (·.shift (n + m)) := by
  rw [List.map_map]
  exact List.map_congr_left fun d _ => d.shift_shift m n

namespace Fragment

@[simp] theorem code_append (f g : Fragment) : (f ++ g).code = f.code ++ g.code := rfl

@[simp] theorem literals_append (f g : Fragment) :
    (f ++ g).literals = f.literals ++ g.literals.map (·.shift f.code.length) := rfl

@[ext] theorem ext {f g : Fragment} (hcode : f.code = g.code) (hliterals : f.literals = g.literals) :
    f = g := by
  obtain ⟨c, l⟩ := f
  obtain ⟨c', l'⟩ := g
  cases hcode
  cases hliterals
  rfl

theorem append_assoc (f g h : Fragment) : f ++ g ++ h = f ++ (g ++ h) := by
  apply ext
  · exact List.append_assoc _ _ _
  · simp only [literals_append, code_append, List.map_append, map_shift_shift, List.append_assoc,
      List.length_append]

theorem empty_append (f : Fragment) : ({} : Fragment) ++ f = f := by
  apply ext
  · rfl
  · have hshift : (fun d : Deferred => d.shift 0) = id := by
      funext d
      exact d.shift_zero
    show [] ++ f.literals.map (fun d => d.shift 0) = f.literals
    rw [hshift, List.map_id, List.nil_append]

theorem append_empty (f : Fragment) : f ++ ({} : Fragment) = f :=
  ext (List.append_nil _) (List.append_nil _)

/-! ### Fields inside instructions -/

/-- Whether every open field lies inside its instruction and every instruction inside the
code. -/
def Closed (f : Fragment) : Prop :=
  ∀ d ∈ f.literals, d.patchOffset + 4 ≤ d.insnEnd ∧ d.insnEnd ≤ f.code.length

theorem closed_of_literals_eq_nil {f : Fragment} (h : f.literals = []) : f.Closed := by
  intro d hd
  rw [h] at hd
  cases hd

theorem Closed.append {f g : Fragment} (hf : f.Closed) (hg : g.Closed) : (f ++ g).Closed := by
  intro d hd
  rw [literals_append, List.mem_append] at hd
  rw [code_append, List.length_append]
  rcases hd with hd | hd
  · have h := hf d hd
    omega
  · obtain ⟨e, he, rfl⟩ := List.mem_map.mp hd
    have h := hg e he
    simp only [Deferred.shift]
    omega

end Fragment

/-! ### Overwriting a field -/

namespace Code

/-- The code with the four bytes at `offset` replaced by those of `value`. -/
def patched (code : Code) (offset : Nat) (value : UInt32) : Code :=
  code.take offset ++ ofUInt32 value ++ code.drop (offset + 4)

theorem length_patched {code : Code} {offset : Nat} (value : UInt32)
    (h : offset + 4 ≤ code.length) : (patched code offset value).length = code.length := by
  rw [patched, List.length_append, List.length_append, List.length_take, List.length_drop,
    length_ofUInt32]
  omega

theorem getElem?_patched_of_outside {code : Code} {offset i : Nat} (value : UInt32)
    (h : offset + 4 ≤ code.length) (hi : i < offset ∨ offset + 4 ≤ i) :
    (patched code offset value)[i]? = code[i]? := by
  have htake : (code.take offset).length = offset := by
    rw [List.length_take]
    omega
  rcases hi with hi | hi
  · rw [patched, List.append_assoc, List.getElem?_append_left (by omega),
      List.getElem?_take_of_lt hi]
  · rw [patched, List.getElem?_append_right, List.length_append, htake, length_ofUInt32,
      List.getElem?_drop]
    · congr 1
      omega
    · rw [List.length_append, htake, length_ofUInt32]
      exact hi

/-- Overwriting a field that stands between two pieces of code. -/
theorem patched_append (front back : Code) (old new : UInt32) :
    patched (front ++ (ofUInt32 old ++ back)) front.length new
      = front ++ (ofUInt32 new ++ back) := by
  have hdrop : (front ++ (ofUInt32 old ++ back)).drop (front.length + 4) = back := by
    rw [← List.append_assoc]
    exact List.drop_left' (by rw [List.length_append, length_ofUInt32])
  rw [patched, List.take_left, hdrop, List.append_assoc]

theorem drop_patched {code : Code} {offset n : Nat} (value : UInt32)
    (h : offset + 4 ≤ code.length) (hn : offset + 4 ≤ n) :
    (patched code offset value).drop n = code.drop n := by
  apply List.ext_getElem?
  intro i
  rw [List.getElem?_drop, List.getElem?_drop, getElem?_patched_of_outside value h (by omega)]

theorem fieldEnd_eq_ok {offset stop : Nat} :
    fieldEnd offset = .ok stop ↔ offset + 4 < addressSpace ∧ stop = offset + 4 := by
  rw [fieldEnd]
  split <;> simp_all [eq_comm]

theorem patch32_eq_ok {code c : Code} {offset : Nat} {value : UInt32} :
    patch32 code offset value = .ok c ↔
      offset + 4 < addressSpace ∧ offset + 4 ≤ code.length ∧ c = patched code offset value := by
  rw [patch32, bind_eq_ok]
  constructor
  · rintro ⟨stop, hstop, h⟩
    obtain ⟨hspace, rfl⟩ := fieldEnd_eq_ok.mp hstop
    by_cases hin : offset + 4 ≤ code.length
    · rw [if_pos hin] at h
      cases h
      exact ⟨hspace, hin, rfl⟩
    · rw [if_neg hin] at h
      cases h
  · rintro ⟨hspace, hin, rfl⟩
    refine ⟨offset + 4, fieldEnd_eq_ok.mpr ⟨hspace, rfl⟩, ?_⟩
    rw [if_pos hin]
    rfl

end Code

namespace Fragment

/-! ### Placing literals -/

/-- The bytes that literals take behind the code. -/
def literalBytes (ds : List Deferred) : Code := ds.flatMap (·.bytes)

@[simp] theorem literalBytes_nil : literalBytes [] = [] := rfl

@[simp] theorem literalBytes_cons (d : Deferred) (ds : List Deferred) :
    literalBytes (d :: ds) = d.bytes ++ literalBytes ds := rfl

theorem literalBytes_append (ds es : List Deferred) :
    literalBytes (ds ++ es) = literalBytes ds ++ literalBytes es := by
  simp [literalBytes]

theorem literalBytes_shift (ds : List Deferred) (n : Nat) :
    literalBytes (ds.map (·.shift n)) = literalBytes ds := by
  rw [literalBytes, List.flatMap_map]
  rfl

/-- An end in the lower half of the address space counts as it is. -/
theorem distance_eq_ok {offset insnEnd : Nat} {d : Int} (hend : insnEnd < 2 ^ 63) :
    distance offset insnEnd = .ok d ↔
      d = offset - insnEnd ∧ -0x8000000000000000 ≤ d ∧ d < 0x8000000000000000 := by
  have hbmod : Int.bmod insnEnd Code.addressSpace = insnEnd := by
    rw [Int.bmod_eq_of_le]
    · show -((0x10000000000000000 : Nat) / 2 : Int) ≤ insnEnd
      omega
    · show (insnEnd : Int) < ((0x10000000000000000 : Nat) + 1) / 2
      omega
  rw [distance, hbmod]
  constructor
  · intro h
    split at h
    · rename_i hin
      obtain rfl := Except.ok.inj h
      exact ⟨rfl, hin⟩
    · cases h
  · rintro ⟨rfl, hin⟩
    exact if_pos hin

/-- Exactly the distances of 32 signed bits can be reached. -/
theorem reach_eq_ok {offset insnEnd : Nat} {disp : Int32} (hend : insnEnd < 2 ^ 63) :
    reach offset insnEnd = .ok disp ↔
      (-2 ^ 31 ≤ (offset : Int) - insnEnd ∧ (offset : Int) - insnEnd < 2 ^ 31) ∧
        disp = Int32.ofInt (offset - insnEnd) := by
  rw [reach, bind_eq_ok]
  constructor
  · rintro ⟨d, hd, h⟩
    obtain ⟨rfl, -⟩ := (distance_eq_ok hend).mp hd
    split at h
    · rename_i hin
      obtain rfl := Except.ok.inj h
      exact ⟨hin, rfl⟩
    · cases h
  · rintro ⟨hin, rfl⟩
    exact ⟨_, (distance_eq_ok hend).mpr ⟨rfl, by omega, by omega⟩, if_pos hin⟩

/-- Only forward distances below 2 GiB can be reached, and the displacement is the distance. -/
theorem eq_of_reach {offset insnEnd : Nat} {disp : Int32} (hle : insnEnd ≤ offset)
    (h : reach offset insnEnd = .ok disp) :
    offset < insnEnd + 2 ^ 31 ∧ disp = Int32.ofInt (offset - insnEnd) := by
  obtain ⟨d, hd, h⟩ := bind_eq_ok.mp h
  have hrange : d = offset - Int.bmod insnEnd Code.addressSpace ∧ d < 0x8000000000000000 := by
    rw [distance] at hd
    split at hd
    · rename_i hin
      rw [← Except.ok.inj hd]
      exact ⟨rfl, hin.2⟩
    · cases hd
  -- an end in the upper half of the address space would be out of range
  have hbmod : Int.bmod insnEnd Code.addressSpace = insnEnd := by
    have hlt := @Int.bmod_lt insnEnd Code.addressSpace (by decide)
    have hdvd := Int.dvd_bmod_sub_self (x := insnEnd) (m := Code.addressSpace)
    unfold Code.addressSpace at hlt hdvd hrange ⊢
    omega
  split at h
  · rename_i hin
    obtain rfl := Except.ok.inj h
    refine ⟨by omega, ?_⟩
    rw [hrange.1, hbmod]
  · cases h

theorem placeLiteral_eq_ok {code c : Code} {d : Deferred} {r : Resolved} :
    placeLiteral code d = .ok (c, r) ↔
      ∃ disp, reach code.length d.insnEnd = .ok disp ∧
        d.patchOffset + 4 < Code.addressSpace ∧ d.patchOffset + 4 ≤ code.length + d.bytes.length ∧
        c = Code.patched (code ++ d.bytes) d.patchOffset disp.toUInt32 ∧
        r = ⟨code.length, d.bytes.length, d.patchOffset, disp⟩ := by
  rw [placeLiteral, bind_eq_ok]
  constructor
  · rintro ⟨disp, hreach, h⟩
    obtain ⟨c', hpatch, h⟩ := bind_eq_ok.mp h
    obtain ⟨hspace, hin, rfl⟩ := Code.patch32_eq_ok.mp hpatch
    cases h
    exact ⟨disp, hreach, hspace, by simpa using hin, rfl, rfl⟩
  · rintro ⟨disp, hreach, hspace, hin, rfl, rfl⟩
    refine ⟨disp, hreach, bind_eq_ok.mpr ⟨_, Code.patch32_eq_ok.mpr ⟨hspace, ?_, rfl⟩, rfl⟩⟩
    simpa using hin

theorem placeLiterals_cons_eq_ok {code c : Code} {d : Deferred} {ds : List Deferred}
    {rs : List Resolved} :
    placeLiterals code (d :: ds) = .ok (c, rs) ↔
      ∃ c₁ r rs', placeLiteral code d = .ok (c₁, r) ∧ placeLiterals c₁ ds = .ok (c, rs') ∧
        rs = r :: rs' := by
  rw [placeLiterals, bind_eq_ok]
  constructor
  · rintro ⟨⟨c₁, r⟩, h₁, h⟩
    obtain ⟨⟨c₂, rs'⟩, h₂, h⟩ := bind_eq_ok.mp h
    cases h
    exact ⟨c₁, r, rs', h₁, h₂, rfl⟩
  · rintro ⟨c₁, r, rs', h₁, h₂, rfl⟩
    exact ⟨(c₁, r), h₁, bind_eq_ok.mpr ⟨(c, rs'), h₂, rfl⟩⟩

/-- Placing literals whose fields lie in the first `n` bytes appends the literals in order and
leaves every byte of the code outside the fields as it was. -/
theorem placeLiterals_spec {code out : Code} {ds : List Deferred} {rs : List Resolved} {n : Nat}
    (hn : n ≤ code.length) (hin : ∀ d ∈ ds, d.patchOffset + 4 ≤ n)
    (h : placeLiterals code ds = .ok (out, rs)) :
    out.length = code.length + (literalBytes ds).length ∧
      out.drop n = code.drop n ++ literalBytes ds ∧
      ∀ i, (∀ d ∈ ds, i < d.patchOffset ∨ d.patchOffset + 4 ≤ i) → i < n →
        out[i]? = code[i]? := by
  induction ds generalizing code rs with
  | nil =>
      cases h
      simp
  | cons d ds ih =>
      obtain ⟨c₁, r, rs', h₁, h₂, -⟩ := placeLiterals_cons_eq_ok.mp h
      obtain ⟨disp, -, -, -, rfl, -⟩ := placeLiteral_eq_ok.mp h₁
      have hd := hin d (by simp)
      have hfield : d.patchOffset + 4 ≤ (code ++ d.bytes).length := by
        rw [List.length_append]
        omega
      have hlen := Code.length_patched disp.toUInt32 hfield
      rw [List.length_append] at hlen
      obtain ⟨hlength, hdrop, hkeep⟩ :=
        ih (by omega) (fun e he => hin e (by simp [he])) h₂
      refine ⟨?_, ?_, ?_⟩
      · rw [hlength, hlen, literalBytes_cons, List.length_append]
        omega
      · rw [hdrop, Code.drop_patched _ hfield hd, List.drop_append_of_le_length hn,
          literalBytes_cons, List.append_assoc]
      · intro i hout hi
        rw [hkeep i (fun e he => hout e (by simp [he])) hi,
          Code.getElem?_patched_of_outside _ hfield (hout d (by simp)),
          List.getElem?_append_left (by omega)]

/-- Where the literal number `k` goes when literals are placed behind `n` bytes: the bytes of the
literals before it lie between. -/
def placeOf (n : Nat) (ds : List Deferred) (k : Nat) : Nat :=
  n + ((ds.take k).map (·.bytes.length)).sum

@[simp] theorem placeOf_zero (n : Nat) (ds : List Deferred) : placeOf n ds 0 = n := by
  simp [placeOf]

@[simp] theorem placeOf_cons_succ (n : Nat) (d : Deferred) (ds : List Deferred) (k : Nat) :
    placeOf n (d :: ds) (k + 1) = placeOf (n + d.bytes.length) ds k := by
  simp [placeOf, Nat.add_assoc]

theorem placeOf_eq (n : Nat) (ds : List Deferred) (k : Nat) :
    placeOf n ds k = n + (literalBytes (ds.take k)).length := by
  rw [placeOf, literalBytes, List.length_flatMap]

/-- Whether a literal can be placed at `n`: a displacement reaches it from the end of its
instruction, and the code that ends with the literal holds its field. -/
structure Placeable (n : Nat) (d : Deferred) : Prop where
  reach_ge : -2 ^ 31 ≤ (n : Int) - d.insnEnd
  reach_lt : (n : Int) - d.insnEnd < 2 ^ 31
  field_le : d.patchOffset + 4 ≤ n + d.bytes.length

/-- The displacement of an instruction whose literal is at `n`. -/
def displacementTo (n : Nat) (d : Deferred) : Int32 := Int32.ofInt (n - d.insnEnd)

/-- The code with one literal behind it and the field of the literal closed. -/
def withLiteral (code : Code) (d : Deferred) : Code :=
  Code.patched (code ++ d.bytes) d.patchOffset (displacementTo code.length d).toUInt32

theorem Placeable.length_withLiteral {code : Code} {d : Deferred}
    (h : Placeable code.length d) :
    (withLiteral code d).length = code.length + d.bytes.length := by
  rw [withLiteral, Code.length_patched _ (by rw [List.length_append]; exact h.field_le),
    List.length_append]

/-- Whether the field of a literal lies inside its instruction, and the end of the instruction is
an ordinary position. -/
def Ordinary (d : Deferred) : Prop := d.patchOffset + 4 ≤ d.insnEnd ∧ d.insnEnd < 2 ^ 62

/-- Placing one literal succeeds exactly when there is a place for it. -/
theorem placeLiteral_iff {code c : Code} {d : Deferred} {r : Resolved} (hd : Ordinary d) :
    placeLiteral code d = .ok (c, r) ↔
      Placeable code.length d ∧ c = withLiteral code d ∧
        r = ⟨code.length, d.bytes.length, d.patchOffset, displacementTo code.length d⟩ := by
  obtain ⟨hfield, hend⟩ := hd
  have hspace : d.patchOffset + 4 < Code.addressSpace := by
    unfold Code.addressSpace
    omega
  rw [placeLiteral_eq_ok]
  constructor
  · rintro ⟨disp, hreach, -, hin, rfl, rfl⟩
    obtain ⟨⟨hge, hlt⟩, rfl⟩ := (reach_eq_ok (by omega)).mp hreach
    exact ⟨⟨hge, hlt, hin⟩, rfl, rfl⟩
  · rintro ⟨hplace, rfl, rfl⟩
    exact ⟨_, (reach_eq_ok (by omega)).mpr ⟨⟨hplace.reach_ge, hplace.reach_lt⟩, rfl⟩, hspace,
      hplace.field_le, rfl, rfl⟩

/-- Literals can be placed exactly when there is a place for each of them.  Whether there is depends
on the literals before it, by their number of bytes alone. -/
theorem exists_placeLiterals_iff {code : Code} {ds : List Deferred} (hds : ∀ d ∈ ds, Ordinary d) :
    (∃ r, placeLiterals code ds = .ok r) ↔
      ∀ (k : Nat) (d : Deferred), ds[k]? = some d → Placeable (placeOf code.length ds k) d := by
  induction ds generalizing code with
  | nil => simp [placeLiterals]
  | cons d ds ih =>
      have hd := hds d (by simp)
      have hrest : ∀ e ∈ ds, Ordinary e := fun e he => hds e (by simp [he])
      constructor
      · rintro ⟨⟨c, rs⟩, h⟩ k e he
        obtain ⟨c₁, r, rs', h₁, h₂, -⟩ := placeLiterals_cons_eq_ok.mp h
        obtain ⟨hplace, rfl, -⟩ := (placeLiteral_iff hd).mp h₁
        cases k with
        | zero =>
            obtain rfl : d = e := by simpa using he
            rwa [placeOf_zero]
        | succ k =>
            have hk := (ih hrest).mp ⟨_, h₂⟩ k e (by simpa using he)
            rwa [hplace.length_withLiteral, ← placeOf_cons_succ] at hk
      · intro hall
        have hplace : Placeable code.length d := by simpa using hall 0 d rfl
        have h₁ := (placeLiteral_iff hd).mpr ⟨hplace, rfl, rfl⟩
        obtain ⟨⟨c, rs⟩, h₂⟩ := (@ih (withLiteral code d) hrest).mpr fun k e he => by
          have hk := hall (k + 1) e (by simpa using he)
          rwa [placeOf_cons_succ, ← hplace.length_withLiteral] at hk
        exact ⟨_, placeLiterals_cons_eq_ok.mpr ⟨_, _, _, h₁, h₂, rfl⟩⟩

/-- Literals find their places below 2 GiB. -/
theorem placeLiterals_succeeds {code : Code} {ds : List Deferred} (hin : Closed ⟨code, ds⟩)
    (hlt : code.length + (literalBytes ds).length < 2 ^ 31) :
    ∃ r, placeLiterals code ds = .ok r := by
  have hclosed : ∀ d ∈ ds, d.patchOffset + 4 ≤ d.insnEnd ∧ d.insnEnd ≤ code.length := hin
  refine (exists_placeLiterals_iff fun d hd => ⟨(hclosed d hd).1, ?_⟩).mpr fun k d hk => ?_
  · have := (hclosed d hd).2
    omega
  · obtain ⟨hfield, hend⟩ := hclosed d (List.mem_of_getElem? hk)
    have hsplit := congrArg List.length (literalBytes_append (ds.take k) (ds.drop k))
    rw [List.take_append_drop, List.length_append] at hsplit
    have hplace := placeOf_eq code.length ds k
    exact ⟨by omega, by omega, by omega⟩

theorem resolve_eq_ok {f g : Fragment} {rs : List Resolved} :
    f.resolve = .ok (g, rs) ↔ placeLiterals f.code f.literals = .ok (g.code, rs) ∧ g.literals = [] := by
  rw [resolve, bind_eq_ok]
  constructor
  · rintro ⟨⟨c, rs'⟩, h, he⟩
    cases he
    exact ⟨h, rfl⟩
  · rintro ⟨h, hl⟩
    refine ⟨_, h, ?_⟩
    obtain ⟨c, ls⟩ := g
    cases hl
    rfl

/-- Closing a fragment appends its literals in order and changes nothing but their fields. -/
theorem resolve_spec {f g : Fragment} {rs : List Resolved} (hf : f.Closed)
    (h : f.resolve = .ok (g, rs)) :
    g.literals = [] ∧ g.code.length = f.code.length + (literalBytes f.literals).length ∧
      g.code.drop f.code.length = literalBytes f.literals ∧
      ∀ i < f.code.length, (∀ d ∈ f.literals, i < d.patchOffset ∨ d.patchOffset + 4 ≤ i) →
        g.code[i]? = f.code[i]? := by
  obtain ⟨hplace, hliterals⟩ := resolve_eq_ok.mp h
  obtain ⟨hlength, hdrop, hkeep⟩ := placeLiterals_spec (Nat.le_refl _)
    (fun d hd => Nat.le_trans (hf d hd).1 (hf d hd).2) hplace
  refine ⟨hliterals, hlength, ?_, fun i hi hout => hkeep i hout hi⟩
  rw [hdrop, List.drop_length, List.nil_append]

theorem exists_resolve {f : Fragment} (hf : f.Closed)
    (hlt : f.code.length + (literalBytes f.literals).length < 2 ^ 31) :
    ∃ g rs, f.resolve = .ok (g, rs) := by
  obtain ⟨⟨code, rs⟩, hplace⟩ := @placeLiterals_succeeds f.code f.literals hf hlt
  exact ⟨⟨code, []⟩, rs, resolve_eq_ok.mpr ⟨hplace, rfl⟩⟩

end Fragment

end Trampoline
