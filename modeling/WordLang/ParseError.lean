import WordLang.Token.Basic

/-
  This file defines what can be wrong with a stream of
  tokens.

  Key definitions include:
    * `WordLang.ParseError`
    * `WordLang.ParseError.message`
    * `WordLang.Token.expect`
-/

namespace WordLang

/- Why a stream of tokens is not a program. -/
inductive ParseError where
  | notAssignable
  | noOperand (found : Kind)
  | mismatch (found wanted : Kind)
  | badNumber
deriving DecidableEq, Repr

namespace ParseError

/- The wording of a parse error. -/
def message : ParseError → String
| notAssignable => "invalid assignment target"
| noOperand found =>
    "expected an expression, but got " ++ found.describe
| mismatch found wanted =>
    "expected " ++ wanted.describe ++ ", but got " ++
      found.describe
| badNumber => "parse int error, out of bounds"

end ParseError

/- What a step of a parser answers. -/
abbrev Parsed (α : Type) :=
  Except (Located ParseError) α

namespace Token

/- Require a token to be of the wanted kind. -/
def expect
    (t : Token)
    (wanted : Kind) : Parsed Unit :=
  if t.kind = wanted then
    .ok ()
  else
    .error ⟨.mismatch t.kind wanted, t.span⟩

end Token

end WordLang
