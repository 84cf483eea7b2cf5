/-
Trampoline/Listing.lean

A printed listing of machine code: each byte is a token of `0x` and two
upper-case hexadecimal digits, tokens are separated by single blanks, and after
every `perLine` tokens the separator is a line end.  With `perLine = 0` the
listing is one line.  `read?` takes a listing apart again, however its lines are
broken.
-/
import Trampoline.Code

namespace Trampoline.Listing

/-- The upper-case hexadecimal digit of a number below sixteen. -/
def hexDigit (n : Nat) : Char := Nat.digitChar n |>.toUpper

/-- The token of one byte. -/
def token (b : UInt8) : List Char :=
  ['0', 'x', hexDigit (b.toNat / 16), hexDigit (b.toNat % 16)]

/-- The separator after the token number `index`, counted from zero. -/
def separator (perLine index : Nat) : Char :=
  if 0 < perLine ∧ (index + 1) % perLine = 0 then '\n' else ' '

/-- The characters of a listing whose first token has the number `index`. -/
def charsFrom (perLine : Nat) : Nat → Code → List Char
  | _, [] => []
  | _, [b] => token b
  | index, b :: rest =>
      token b ++ separator perLine index :: charsFrom perLine (index + 1) rest

/-- The listing of `code` with `perLine` bytes on a line. -/
def render (perLine : Nat) (code : Code) : String := String.ofList (charsFrom perLine 0 code)

/-! ### Reading a listing -/

/-- The value of an upper-case hexadecimal digit. -/
def digitValue? (c : Char) : Option Nat :=
  if '0' ≤ c ∧ c ≤ '9' then some (c.toNat - '0'.toNat)
  else if 'A' ≤ c ∧ c ≤ 'F' then some (c.toNat - 'A'.toNat + 10)
  else none

/-- The byte of a token. -/
def readToken : List Char → Option UInt8
  | ['0', 'x', high, low] => do
      let high ← digitValue? high
      let low ← digitValue? low
      return UInt8.ofNat (16 * high + low)
  | _ => none

/-- The pieces of a text between blanks and line ends; there is always at least one. -/
def pieces : List Char → List (List Char)
  | [] => [[]]
  | c :: cs =>
      if c = ' ' ∨ c = '\n' then [] :: pieces cs
      else match pieces cs with
        | [] => [[c]]
        | piece :: rest => (c :: piece) :: rest

/-- The bytes that a listing shows.  The empty text shows none. -/
def read? (s : String) : Option Code :=
  if s = "" then some [] else (pieces s.toList).mapM readToken

end Trampoline.Listing
