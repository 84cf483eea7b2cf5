/-
Trampoline/Proofs/Program.lean

How much memory a program takes.

The bytes of its pages are computed by clearing the low bits of a word.  Where a
page has a power of two of bytes, this gives the least size that will do: whole
pages, at least one, and room for all of the code (`isLeast_roundToPage`).  What
a program has beyond its code follows from that alone, whatever the arithmetic.

On the way one sum may wrap around, for a length and a page of 2^64 bytes
together.  `checkedRoundToPage` gives nothing there and the same everywhere else;
no code is long enough to get there.

Whether there is a program at all is up to the kernel (`acquire_eq_ok`,
`acquire_eq_error`).

Main result: `pages_least_sufficient`.
-/
import Mathlib
import Trampoline.Program
import Trampoline.Proofs.Frame
import Trampoline.Proofs.Layout

namespace Trampoline

namespace Mapping

open Trampoline.Frame (checkedAdd checkedSub)

/-- The sizes that will do for `length` bytes in pages of `page` bytes. -/
def sufficient (length page : Nat) : Set Nat := {n | 0 < n ∧ page ∣ n ∧ length ≤ n}

/-- Rounding up to whole pages gives the least size that will do. -/
theorem isLeast_ceilDiv (length : Nat) {page : Nat} (hpage : 0 < page) :
    IsLeast (sufficient length page) (page * (max length 1 ⌈/⌉ page)) := by
  have hle : max length 1 ≤ page * (max length 1 ⌈/⌉ page) := le_smul_ceilDiv hpage
  refine ⟨⟨?_, Nat.dvd_mul_right _ _, ?_⟩, ?_⟩
  · exact (le_max_right length 1).trans hle
  · exact (le_max_left length 1).trans hle
  · rintro n ⟨hpos, ⟨c, rfl⟩, hlength⟩
    apply Nat.mul_le_mul_left
    rw [ceilDiv_le_iff_le_mul hpage]
    exact max_le hlength hpos

theorem exponent_lt {page : UInt64} {k : Nat} (hk : page.toNat = 2 ^ k) : k < 64 := by
  have hlt : page.toNat < 2 ^ 64 := page.toNat_lt
  rw [hk] at hlt
  exact (Nat.pow_lt_pow_iff_right (by decide)).mp hlt

/-- Clearing the low bits rounds up to whole pages.  The sum of a length and a page may just wrap
around to zero, and then taking one off brings it back. -/
theorem toNat_roundToPage {length page : UInt64} (hpage : page.toNat.isPowerOfTwo)
    (hfit : max length.toNat 1 + page.toNat - 1 < 2 ^ 64) :
    (roundToPage length page).toNat = page.toNat * (max length.toNat 1 ⌈/⌉ page.toNat) := by
  obtain ⟨k, hk⟩ := hpage
  have hpos : 0 < page.toNat := hk ▸ Nat.two_pow_pos k
  have hlt : page.toNat < 2 ^ 64 := page.toNat_lt
  have hone : (1 : UInt64).toNat = 1 := rfl
  have hsum : (max length 1 + page - 1).toNat = max length.toNat 1 + page.toNat - 1 := by
    rw [UInt64.toNat_sub, UInt64.toNat_add, UInt64.toNat_max, hone]
    omega
  have hmask : (~~~(page - 1)).toNat = 2 ^ 64 - (2 ^ k - 1 + 1) := by
    rw [UInt64.toNat_not, UInt64.toNat_sub, hone, UInt64.size, ← hk]
    omega
  rw [roundToPage, UInt64.toNat_and, hsum, hmask, Frame.and_high_mask (exponent_lt hk).le hfit,
    ← hk, Nat.ceilDiv_eq_add_pred_div, Nat.mul_comm]

theorem isLeast_roundToPage (length : UInt64) {page : UInt64} (hpage : page.toNat.isPowerOfTwo)
    (hfit : max length.toNat 1 + page.toNat - 1 < 2 ^ 64) :
    IsLeast (sufficient length.toNat page.toNat) (roundToPage length page).toNat := by
  rw [toNat_roundToPage hpage hfit]
  obtain ⟨k, hk⟩ := hpage
  exact isLeast_ceilDiv _ (hk ▸ Nat.two_pow_pos k)

/-- The bytes of the pages that hold `length` bytes, or nothing where an operation on the way has no
exact result. -/
def checkedRoundToPage (length page : UInt64) : Option UInt64 := do
  let sum ← checkedAdd (max length 1) page
  let last ← checkedSub sum 1
  let low ← checkedSub page 1
  return last &&& ~~~low

theorem checkedRoundToPage_eq {length page : UInt64} (hpage : 0 < page.toNat)
    (hfit : max length.toNat 1 + page.toNat < 2 ^ 64) :
    checkedRoundToPage length page = some (roundToPage length page) := by
  have hone : (1 : UInt64).toNat = 1 := rfl
  have hmax : (max length 1).toNat = max length.toNat 1 := by rw [UInt64.toNat_max, hone]
  have hadd : checkedAdd (max length 1) page = some (max length 1 + page) :=
    if_pos (by rwa [hmax])
  have hlast : checkedSub (max length 1 + page) 1 = some (max length 1 + page - 1) := by
    refine if_pos ?_
    rw [UInt64.toNat_add, hmax, Nat.mod_eq_of_lt hfit, hone]
    omega
  have hlow : checkedSub page 1 = some (page - 1) := if_pos hpage
  simp [checkedRoundToPage, roundToPage, hadd, hlast, hlow]

section Least

variable {length page n : Nat}

/-- With one page less there would not be enough. -/
theorem lt_add_of_isLeast (h : IsLeast (sufficient length page) n) (hlength : 0 < length) :
    n < length + page := by
  obtain ⟨⟨-, hdvd, -⟩, hleast⟩ := h
  by_contra hge
  have hfewer : n - page ∈ sufficient length page :=
    ⟨by omega, Nat.dvd_sub hdvd (Nat.dvd_refl page), by omega⟩
  have hle : n ≤ n - page := hleast hfewer
  have hpage : page ≠ 0 := by
    rintro rfl
    have hn := Nat.eq_zero_of_zero_dvd hdvd
    omega
  omega

/-- One page will do for nothing. -/
theorem eq_page_of_isLeast (h : IsLeast (sufficient 0 page) n) (hpage : 0 < page) : n = page := by
  obtain ⟨⟨hpos, hdvd, -⟩, hleast⟩ := h
  apply Nat.le_antisymm
  · exact hleast ⟨hpage, Nat.dvd_refl page, Nat.zero_le page⟩
  · exact Nat.le_of_dvd hpos hdvd

end Least

/-- **Programs take the least number of pages.**  The size of the pages is the least that will do,
so a program has room for its code and for less than a page more, and exactly one page if it has no
code.  Nothing wraps around unless the length and a page have 2^64 bytes together, which no code
comes near. -/
theorem pages_least_sufficient {page : UInt64} (hpage : page.toNat.isPowerOfTwo) :
    (∀ length : UInt64, max length.toNat 1 + page.toNat - 1 < 2 ^ 64 →
      IsLeast (sufficient length.toNat page.toNat) (roundToPage length page).toNat ∧
      (max length.toNat 1 + page.toNat ≠ 2 ^ 64 →
        checkedRoundToPage length page = some (roundToPage length page))) ∧
    ∀ (protection : Protection) (base : UInt64) (code : Code),
      max code.length 1 + page.toNat - 1 < 2 ^ 64 →
      code.length ≤ (Program.inPages protection page base code).capacity.toNat ∧
      (code ≠ [] →
        (Program.inPages protection page base code).capacity.toNat < code.length + page.toNat) ∧
      (code = [] → (Program.inPages protection page base code).capacity = page) ∧
      (code.length < 2 ^ 63 →
        checkedRoundToPage (UInt64.ofNat code.length) page
          = some (Program.inPages protection page base code).capacity) := by
  obtain ⟨k, hk⟩ := id hpage
  have hpos : 0 < page.toNat := hk ▸ Nat.two_pow_pos k
  refine ⟨fun length hfit => ⟨isLeast_roundToPage length hpage hfit, fun hne => ?_⟩, ?_⟩
  · exact checkedRoundToPage_eq hpos (by omega)
  intro protection base code hfit
  have hlength : (UInt64.ofNat code.length).toNat = code.length := by
    apply UInt64.toNat_ofNat_of_lt
    show code.length < 2 ^ 64
    omega
  have hleast : IsLeast (sufficient code.length page.toNat)
      (Program.inPages protection page base code).capacity.toNat := by
    have h := isLeast_roundToPage (UInt64.ofNat code.length) hpage (by rwa [hlength])
    rwa [hlength] at h
  refine ⟨hleast.1.2.2, ?_, ?_, ?_⟩
  · intro hne
    exact lt_add_of_isLeast hleast (List.length_pos_iff.mpr hne)
  · rintro rfl
    exact UInt64.toNat_inj.mp (eq_page_of_isLeast hleast hpos)
  · intro hshort
    have hhalf : page.toNat ≤ 2 ^ 63 := by
      rw [hk]
      exact Nat.pow_le_pow_right (by decide) (Nat.le_of_lt_succ (exponent_lt hk))
    apply checkedRoundToPage_eq hpos
    rw [hlength]
    omega

/-- A length near the end of the address space, five bytes of code, and no code. -/
theorem pages_least_sufficient_five :
    IsLeast (sufficient 0xFFFFFFFFFFFFEFFF 4096)
        (roundToPage 0xFFFFFFFFFFFFEFFF pageSize).toNat ∧
      ((Program.ofCode .writeAndExecute [0x55, 0x48, 0x89, 0xE5, 0xC3]).capacity.toNat
        < 5 + pageSize.toNat) ∧
      (Program.ofCode .writeThenExecute []).capacity = pageSize := by
  have h := @pages_least_sufficient pageSize ⟨12, rfl⟩
  refine ⟨(h.1 0xFFFFFFFFFFFFEFFF (by decide)).1, ?_, ?_⟩
  · exact (h.2 .writeAndExecute placeholder [0x55, 0x48, 0x89, 0xE5, 0xC3] (by decide)).2.1
      (by simp)
  · exact (h.2 .writeThenExecute placeholder [] (by decide)).2.2.1 rfl

end Mapping

/-! ### Asking the kernel -/

namespace Program

variable {kernel : Kernel} {code : Code}

/-- There is a program exactly if the kernel grants pages and lets them become executable. -/
theorem acquire_eq_ok {p : Program} :
    (acquire .writeThenExecute kernel code).result = .ok p ↔
      ∃ base, kernel.pages = .granted base ∧ kernel.execution = .granted () ∧
        p = inPages .writeThenExecute kernel.page base code := by
  rw [acquire]
  cases kernel.pages with
  | refused cause => simp
  | granted base =>
      cases kernel.execution with
      | refused cause => simp
      | granted => simp [eq_comm]

/-- An error has its cause in one of the two answers.  Pages that may not become executable were
mapped before. -/
theorem acquire_eq_error {error : Error} {events : List MemoryEvent} :
    acquire .writeThenExecute kernel code = ⟨.error error, events⟩ ↔
      (∃ cause, kernel.pages = .refused cause ∧ error = .memory "mmap" cause ∧ events = []) ∨
      ∃ base cause, kernel.pages = .granted base ∧ kernel.execution = .refused cause ∧
        error = .memory "mprotect" cause ∧
        events = [.mapped (Mapping.roundToPage (UInt64.ofNat code.length) kernel.page) base
          code.length] := by
  rw [acquire]
  cases kernel.pages with
  | refused cause => simp [eq_comm]
  | granted base =>
      cases kernel.execution with
      | refused cause =>
          simp [eq_comm, inPages, Mapping.forCode, capacity, length]
      | granted => simp

end Program

end Trampoline
