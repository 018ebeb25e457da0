/-
  This file reads the decimal text of a signed 64-bit word.

  Key definitions include:
    * `WordLang.Literal.decimal?`
    * `WordLang.Literal.read?`
-/

namespace WordLang

namespace Literal

/- The value of a non-empty list of decimal digits. -/
def decimal?
    (digits : List Char) : Option Nat :=
  if digits.isEmpty || !digits.all Char.isDigit then
    none
  else
    some
      (digits.foldl
        (fun v c => v * 10 + (c.toNat - '0'.toNat)) 0)

/- Words reach from minus this bound up to just below it. -/
def bound : Int := 9223372036854775808

/- A value as a signed 64-bit word, if it is in range. -/
def word?
    (v : Int) : Option Int64 :=
  if -bound ≤ v ∧ v < bound then
    some (Int64.ofInt v)
  else
    none

/-
  The word that a text writes in decimal digits, with at
  most one sign in front of them.
-/
def read?
    (s : String) : Option Int64 :=
  match s.toList with
  | '-' :: digits =>
      (decimal? digits).bind
        (fun (n : Nat) => word? (-(n : Int)))
  | '+' :: digits =>
      (decimal? digits).bind
        (fun (n : Nat) => word? (n : Int))
  | digits =>
      (decimal? digits).bind
        (fun (n : Nat) => word? (n : Int))

end Literal

end WordLang
