/-
Trampoline/Proofs/Listing.lean

A listing can be read back, and its lines are full.

The walk that writes a listing has two cases besides the empty one: the last byte
is its token, and any other byte is its token with a separator after it.  What
does not depend on where lines end is proved along this walk: the pieces between
separators, the number of characters, the character at either end, and that two
listings of the same code differ in their separators only.

For the lines, the code is cut into rows of `perLine` bytes.  A row by itself is
a listing on one line, and the listing of the code is the lines of its rows with
line ends between them (`exists_rows`).

Main result: `render_lists`.
-/
import Mathlib
import Trampoline.Listing

namespace Trampoline.Listing

/-! ### Tokens -/

/-- Whether a character stands between tokens. -/
def isSeparator (c : Char) : Bool := c = ' ' ∨ c = '\n'

theorem isSeparator_separator (perLine index : Nat) : isSeparator (separator perLine index) := by
  rw [separator]
  split <;> rfl

theorem digitValue?_hexDigit : ∀ n < 16, digitValue? (hexDigit n) = some n := by decide

theorem isSeparator_hexDigit : ∀ n < 16, isSeparator (hexDigit n) = false := by decide

theorem readToken_token (b : UInt8) : readToken (token b) = some b := by
  have hb := b.toNat_lt
  have hhigh := digitValue?_hexDigit (b.toNat / 16) (by omega)
  have hlow := digitValue?_hexDigit (b.toNat % 16) (by omega)
  simp only [token, readToken, hhigh, hlow, Option.bind_eq_bind, Option.bind_some, Option.pure_def]
  rw [Nat.div_add_mod, UInt8.ofNat_toNat]

theorem isSeparator_of_mem_token {b : UInt8} {c : Char} (hc : c ∈ token b) :
    isSeparator c = false := by
  have hb := b.toNat_lt
  simp only [token, List.mem_cons, List.not_mem_nil, or_false] at hc
  rcases hc with rfl | rfl | rfl | rfl
  · rfl
  · rfl
  · exact isSeparator_hexDigit _ (by omega)
  · exact isSeparator_hexDigit _ (by omega)

/-! ### The walk over the bytes -/

theorem charsFrom_cons (perLine index : Nat) (b : UInt8) {rest : Code} (h : rest ≠ []) :
    charsFrom perLine index (b :: rest)
      = token b ++ separator perLine index :: charsFrom perLine (index + 1) rest := by
  cases rest with
  | nil => exact absurd rfl h
  | cons c rest => rfl

theorem charsFrom_ne_nil (perLine index : Nat) {code : Code} (h : code ≠ []) :
    charsFrom perLine index code ≠ [] := by
  cases code with
  | nil => exact absurd rfl h
  | cons b rest => cases rest <;> simp [charsFrom, token]

theorem pieces_eq_splitOnP (cs : List Char) : pieces cs = cs.splitOnP isSeparator := by
  induction cs with
  | nil => rfl
  | cons c cs ih =>
      rw [pieces, ih, List.splitOnP_cons_eq_if_modifyHead]
      by_cases hc : c = ' ' ∨ c = '\n'
      · rw [if_pos hc, if_pos (by simpa [isSeparator] using hc)]
      · rw [if_neg hc, if_neg (by simpa [isSeparator] using hc)]
        obtain ⟨piece, rest, hsplit⟩ :=
          List.exists_cons_of_ne_nil (List.splitOnP_ne_nil isSeparator cs)
        rw [hsplit, List.modifyHead_cons]

/-- The pieces of a listing are the tokens of the bytes, wherever its lines end. -/
theorem pieces_charsFrom (perLine index : Nat) {code : Code} (h : code ≠ []) :
    pieces (charsFrom perLine index code) = code.map token := by
  rw [pieces_eq_splitOnP]
  fun_induction charsFrom perLine index code with
  | case1 => exact absurd rfl h
  | case2 index b => exact List.splitOnP_eq_singleton fun c hc => isSeparator_of_mem_token hc
  | case3 index b rest hrest ih =>
      rw [List.splitOnP_append_cons_of_forall_mem (fun c hc => isSeparator_of_mem_token hc) _
        (isSeparator_separator perLine index), ih hrest, List.map_cons]

theorem length_charsFrom (perLine index : Nat) {code : Code} (h : code ≠ []) :
    (charsFrom perLine index code).length + 1 = 5 * code.length := by
  fun_induction charsFrom perLine index code with
  | case1 => exact absurd rfl h
  | case2 index b => rfl
  | case3 index b rest hrest ih =>
      have htoken : (token b).length = 4 := rfl
      have hlength := ih hrest
      rw [List.length_append, List.length_cons, List.length_cons, htoken]
      omega

theorem isSeparator_head (perLine index : Nat) (code : Code) :
    ∀ c ∈ (charsFrom perLine index code).head?, isSeparator c = false := by
  fun_cases charsFrom perLine index code with
  | case1 => simp
  | case2 index b =>
      rintro c ⟨⟩
      rfl
  | case3 index b rest hrest =>
      rintro c ⟨⟩
      rfl

theorem isSeparator_getLast (perLine index : Nat) (code : Code) :
    ∀ c ∈ (charsFrom perLine index code).getLast?, isSeparator c = false := by
  fun_induction charsFrom perLine index code with
  | case1 => simp
  | case2 index b =>
      intro c hc
      exact isSeparator_of_mem_token (List.mem_of_getLast? hc)
  | case3 index b rest hrest ih =>
      rwa [List.getLast?_append_of_ne_nil _ (List.cons_ne_nil _ _),
        List.getLast?_cons_of_ne_nil (charsFrom_ne_nil perLine (index + 1) hrest)]

/-- Two listings of the same code differ in their separators only. -/
theorem charsFrom_differ (perLine other index : Nat) (code : Code) :
    List.Forall₂ (fun c d => c = d ∨ isSeparator c ∧ isSeparator d)
      (charsFrom perLine index code) (charsFrom other index code) := by
  have hsame : ∀ text : List Char,
      List.Forall₂ (fun c d => c = d ∨ isSeparator c ∧ isSeparator d) text text :=
    fun text => List.forall₂_same.mpr fun c _ => .inl rfl
  fun_induction charsFrom perLine index code with
  | case1 => exact .nil
  | case2 index b => exact hsame (token b)
  | case3 index b rest hrest ih =>
      rw [charsFrom_cons other index b hrest]
      refine List.rel_append (hsame (token b)) (.cons (.inr ⟨?_, ?_⟩) ih)
      · exact isSeparator_separator perLine index
      · exact isSeparator_separator other index

/-- A listing depends on its separators only. -/
theorem charsFrom_congr {perLine other index start : Nat} {code : Code}
    (h : ∀ j, j + 1 < code.length → separator perLine (index + j) = separator other (start + j)) :
    charsFrom perLine index code = charsFrom other start code := by
  fun_induction charsFrom perLine index code generalizing start with
  | case1 => rfl
  | case2 index b => rfl
  | case3 index b rest hrest ih =>
      have hpos := List.length_pos_iff.mpr hrest
      have hfirst : separator perLine index = separator other start := by
        simpa using h 0 (by simpa using hpos)
      have hlater : charsFrom perLine (index + 1) rest = charsFrom other (start + 1) rest := by
        refine ih fun j hj => ?_
        have hnext := h (j + 1) (by simpa using hj)
        rwa [Nat.add_right_comm index, Nat.add_right_comm start]
      rw [charsFrom_cons other start b hrest, hfirst, hlater]

/-- The listing of two pieces of code, one after the other. -/
theorem charsFrom_append (perLine index : Nat) {xs ys : Code} (hxs : xs ≠ []) (hys : ys ≠ []) :
    charsFrom perLine index (xs ++ ys)
      = charsFrom perLine index xs ++
        separator perLine (index + (xs.length - 1)) ::
          charsFrom perLine (index + xs.length) ys := by
  fun_induction charsFrom perLine index xs with
  | case1 => exact absurd rfl hxs
  | case2 index b => exact charsFrom_cons perLine index b hys
  | case3 index b rest hrest ih =>
      have hpos := List.length_pos_iff.mpr hrest
      have hcount : index + 1 + (rest.length - 1) = index + ((b :: rest).length - 1) := by
        rw [List.length_cons]
        omega
      have hnext : index + 1 + rest.length = index + (b :: rest).length := by
        rw [List.length_cons]
        omega
      have hne : rest ++ ys ≠ [] := List.append_ne_nil_of_left_ne_nil hrest ys
      rw [List.cons_append, charsFrom_cons perLine index b hne, ih hrest, hcount, hnext,
        List.append_assoc, List.cons_append]

/-! ### Lines -/

/-- The listing of a row of bytes on one line. -/
def line (row : Code) : List Char := charsFrom 0 0 row

theorem newline_notMem_charsFrom_zero (index : Nat) (code : Code) :
    '\n' ∉ charsFrom 0 index code := by
  have htoken : ∀ b, '\n' ∉ token b := fun b hb => by
    cases isSeparator_of_mem_token hb
  fun_induction charsFrom 0 index code with
  | case1 => simp
  | case2 index b => exact htoken b
  | case3 index b rest hrest ih =>
      rw [List.mem_append, List.mem_cons, not_or, not_or]
      exact ⟨htoken b, by simp [separator], ih⟩

/-- Bytes within a line have blanks between them. -/
theorem charsFrom_eq_line {perLine index : Nat} (hindex : perLine ∣ index) {row : Code}
    (hrow : row.length ≤ perLine) : charsFrom perLine index row = line row := by
  apply charsFrom_congr
  intro j hj
  obtain ⟨k, rfl⟩ := hindex
  have hinside : ¬ (0 < perLine ∧ (perLine * k + j + 1) % perLine = 0) := by
    rintro ⟨-, hmod⟩
    rw [Nat.add_assoc, Nat.mul_add_mod, Nat.mod_eq_of_lt (hj.trans_le hrow)] at hmod
    exact Nat.succ_ne_zero j hmod
  rw [separator, separator, if_neg hinside, if_neg (by simp)]

/-- Whether rows are the lines of a listing: full ones, and then a last one. -/
structure Wrapped (perLine : Nat) (rows : List Code) : Prop where
  full : ∀ row ∈ rows.dropLast, row.length = perLine
  last : ∀ row ∈ rows.getLast?, 1 ≤ row.length ∧ row.length ≤ perLine

theorem Wrapped.ne_nil {perLine : Nat} (hpos : 0 < perLine) {rows : List Code}
    (h : Wrapped perLine rows) {row : Code} (hrow : row ∈ rows) : row ≠ [] := by
  rw [← List.length_pos_iff]
  cases hlast : rows.getLast? with
  | none =>
      rw [List.getLast?_eq_none_iff.mp hlast] at hrow
      cases hrow
  | some last =>
      rw [← List.dropLast_append_getLast? last hlast, List.mem_append, List.mem_singleton] at hrow
      rcases hrow with hrow | rfl
      · rw [h.full row hrow]
        exact hpos
      · exact (h.last row hlast).1

/-- A listing is the lines of its rows with line ends between them.  The rows are taken off the
front of the code, by induction on its length. -/
theorem exists_rows {perLine : Nat} (hpos : 0 < perLine) {code : Code} (hcode : code ≠ [])
    {index : Nat} (hindex : perLine ∣ index) :
    ∃ rows : List Code, rows.flatten = code ∧ Wrapped perLine rows ∧
      charsFrom perLine index code = ['\n'].intercalate (rows.map line) := by
  induction hn : code.length using Nat.strong_induction_on generalizing code index with
  | _ n ih =>
  subst hn
  rcases Nat.lt_or_ge perLine code.length with hlong | hshort
  · have hfirst : (code.take perLine).length = perLine := by
      rw [List.length_take]
      omega
    have hrest : code.drop perLine ≠ [] := by
      rw [← List.length_pos_iff, List.length_drop]
      omega
    have hne : code.take perLine ≠ [] := by
      rw [← List.length_pos_iff, hfirst]
      exact hpos
    have hstart : perLine ∣ index + perLine := hindex.add (Nat.dvd_refl perLine)
    have hnewline : separator perLine (index + (perLine - 1)) = '\n' := by
      have hnext : index + (perLine - 1) + 1 = index + perLine := by omega
      rw [separator, hnext, if_pos ⟨hpos, Nat.mod_eq_zero_of_dvd hstart⟩]
    obtain ⟨rows, hflat, hwrapped, htext⟩ :=
      ih _ (by rw [List.length_drop]; omega) hrest hstart rfl
    obtain ⟨row, rows, rfl⟩ : ∃ row rows', rows = row :: rows' := by
      apply List.exists_cons_of_ne_nil
      rintro rfl
      exact hrest hflat.symm
    refine ⟨code.take perLine :: row :: rows, ?_, ⟨?_, hwrapped.last⟩, ?_⟩
    · rw [List.flatten_cons, hflat, List.take_append_drop]
    · rw [List.dropLast_cons_cons, List.forall_mem_cons]
      exact ⟨hfirst, hwrapped.full⟩
    · conv_lhs => rw [← List.take_append_drop perLine code]
      rw [charsFrom_append perLine index hne hrest, hfirst, hnewline, htext,
        charsFrom_eq_line hindex hfirst.le]
      simp [List.intercalate_cons_cons]
  · refine ⟨[code], List.append_nil code, ⟨by simp, ?_⟩, ?_⟩
    · rintro row ⟨⟩
      exact ⟨List.length_pos_iff.mpr hcode, hshort⟩
    · rw [charsFrom_eq_line hindex hshort]
      simp

/-! ### Listings -/

/-- What the listing of `code` with `perLine` bytes on a line looks like. -/
structure Lists (perLine : Nat) (code : Code) (text : String) : Prop where
  /-- Reading the tokens gives the code back. -/
  read : read? text = some code
  empty : code = [] → text = ""
  length : code ≠ [] → text.length = 5 * code.length - 1
  first : ∀ c ∈ text.toList.head?, isSeparator c = false
  last : ∀ c ∈ text.toList.getLast?, isSeparator c = false
  oneLine : perLine = 0 → '\n' ∉ text.toList
  /-- The lines have the tokens of rows of the code, all full but the last. -/
  lines : 0 < perLine → code ≠ [] → ∃ rows : List Code, rows.flatten = code ∧
    (text.toList.splitOn '\n').map pieces = rows.map (·.map token) ∧ Wrapped perLine rows

theorem mapM_readToken (code : Code) : (code.map token).mapM readToken = some code := by
  induction code with
  | nil => rfl
  | cons b rest ih =>
      rw [List.map_cons, List.mapM_cons, readToken_token, ih]
      rfl

theorem read?_render (perLine : Nat) (code : Code) : read? (render perLine code) = some code := by
  by_cases hcode : code = []
  · rw [hcode]
    rfl
  · have hne : render perLine code ≠ "" := by
      intro h
      have hnil := congrArg String.toList h
      rw [render, String.toList_ofList] at hnil
      exact charsFrom_ne_nil perLine 0 hcode hnil
    rw [read?, if_neg hne, render, String.toList_ofList, pieces_charsFrom perLine 0 hcode,
      mapM_readToken]

theorem lines_render {perLine : Nat} (hpos : 0 < perLine) {code : Code} (hcode : code ≠ []) :
    ∃ rows : List Code, rows.flatten = code ∧
      ((render perLine code).toList.splitOn '\n').map pieces = rows.map (·.map token) ∧
      Wrapped perLine rows := by
  obtain ⟨rows, hflat, hwrapped, htext⟩ := exists_rows hpos hcode (Nat.dvd_zero perLine)
  refine ⟨rows, hflat, ?_, hwrapped⟩
  have hsplit : (render perLine code).toList.splitOn '\n' = rows.map line := by
    rw [render, String.toList_ofList, htext]
    apply List.splitOn_intercalate
    · intro l hl
      obtain ⟨row, -, rfl⟩ := List.mem_map.mp hl
      exact newline_notMem_charsFrom_zero 0 row
    · intro hnil
      rw [List.map_eq_nil_iff.mp hnil] at hflat
      exact hcode hflat.symm
  rw [hsplit, List.map_map]
  apply List.map_congr_left
  intro row hrow
  exact pieces_charsFrom 0 0 (hwrapped.ne_nil hpos hrow)

/-- **A listing shows its code.**  It can be read back, it has its separators between tokens only,
and all of its lines but the last are full; another line length changes separators only. -/
theorem render_lists (perLine : Nat) (code : Code) :
    Lists perLine code (render perLine code) ∧
      ∀ other, List.Forall₂ (fun c d => c = d ∨ isSeparator c ∧ isSeparator d)
        (render perLine code).toList (render other code).toList := by
  have htext : ∀ n, (render n code).toList = charsFrom n 0 code := fun n => String.toList_ofList
  refine ⟨?_, ?_⟩
  · refine ⟨read?_render perLine code, ?_, ?_, ?_, ?_, ?_, fun hpos => lines_render hpos⟩
    · rintro rfl
      rfl
    · intro hcode
      have hlength := length_charsFrom perLine 0 hcode
      rw [← String.length_toList, htext]
      omega
    · rw [htext]
      exact isSeparator_head perLine 0 code
    · rw [htext]
      exact isSeparator_getLast perLine 0 code
    · rintro rfl
      rw [htext]
      exact newline_notMem_charsFrom_zero 0 code
  · intro other
    rw [htext, htext]
    exact charsFrom_differ perLine other 0 code

example : render 2 [0x55, 0x48, 0x89, 0xE5, 0xC3] = "0x55 0x48\n0x89 0xE5\n0xC3" := by decide

end Trampoline.Listing
