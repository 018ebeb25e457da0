import WordLang.Token.Basic
import WordLang.Text.Bytes

/-
  This file reads a source text into tokens.

  Blanks separate tokens and are dropped. At any other
  character the longest token that starts there is taken: a
  punctuator, a word, or a number. A number is decimal, or
  hexadecimal, octal or binary after `0x`, `0o` or `0b`,
  and must fit into a signed 64-bit word.

  The reader walks down the characters once. After a token
  is found, the characters that belong to it are passed
  over by a count, so the walk is a structural recursion.

  Key definitions include:
    * `WordLang.LexError`
    * `WordLang.LexError.message`
    * `WordLang.Lexer.scan`
    * `WordLang.Lexer.walk`
    * `WordLang.LexFailure`
    * `WordLang.lex`
    * `WordLang.lexInto?`

  The walk is resumed after a token by:
    * `WordLang.Lexer.walk_skip`
-/

namespace WordLang

------------------------------------------------------------
-- Errors
------------------------------------------------------------

/- Why a text cannot be read into tokens. -/
inductive LexError where
  | unexpectedChar (c : Char)
  | missingDigits (radix : Nat)
  | tooLarge
deriving DecidableEq, Repr

namespace LexError

/- The wording of a lexical error. -/
def message : LexError → String
| unexpectedChar c =>
    "unexpected character " ++ Text.quoteChar c
| missingDigits radix =>
    "expected base " ++ toString radix ++
      " digits after number prefix"
| tooLarge => "number literal out of range"

end LexError

namespace Lexer

------------------------------------------------------------
-- Character Classes
------------------------------------------------------------

/- The characters that only separate tokens. -/
def isBlank
    (c : Char) : Bool :=
  c = ' ' || c = '\t' || c = '\n' || c = '\r'

/- The characters a word may start with. -/
def isWordStart
    (c : Char) : Bool :=
  c.isAlpha || c = '_'

/- The characters a word may go on with. -/
def isWordChar
    (c : Char) : Bool :=
  c.isAlphanum || c = '_'

/- The value of a digit, in any radix up to sixteen. -/
def digitValue?
    (c : Char) : Option Nat :=
  if c.isDigit then
    some (c.toNat - '0'.toNat)
  else if 'a' ≤ c ∧ c ≤ 'f' then
    some (c.toNat - 'a'.toNat + 10)
  else if 'A' ≤ c ∧ c ≤ 'F' then
    some (c.toNat - 'A'.toNat + 10)
  else
    none

/- Whether a character is a digit of the given radix. -/
def isDigitOf
    (radix : Nat)
    (c : Char) : Bool :=
  match digitValue? c with
  | some d => d < radix
  | none => false

/- The positional value of a list of digits. -/
def positional
    (radix : Nat)
    (digits : List Char) : Nat :=
  digits.foldl
    (fun v c => v * radix + (digitValue? c).getD 0) 0

------------------------------------------------------------
-- One Token
------------------------------------------------------------

/-
  What starts at a character: a token of some kind, or an
  error. It reaches over the character itself and the next
  `extra` characters.
-/
structure Scan where
  extra : Nat
  result : Except LexError (Kind × String)
deriving Repr

/- The punctuator that a text starts with. -/
def punctuator?
    (cs : List Char) : Option (String × Kind) :=
  punctuators.find?
    (fun p => p.1.toList.isPrefixOf cs)

/- The radix announced by the character after a zero. -/
def radixMark? : List Char → Option Nat
| 'x' :: _ => some 16
| 'o' :: _ => some 8
| 'b' :: _ => some 2
| _ => none

/-
  The least value that does not fit into a signed 64-bit
  word.
-/
def literalBound : Nat := 9223372036854775808

/- The number token of the given digits. -/
def number
    (radix : Nat)
    (digits : List Char) :
    Except LexError (Kind × String) :=
  let v := positional radix digits
  if v < literalBound then
    .ok (.number, toString v)
  else
    .error .tooLarge

/-
  The number that starts with the digit `c`. A radix mark
  after a zero must be followed by a digit of that radix.
-/
def scanNumber
    (c : Char)
    (cs : List Char) : Scan :=
  match (if c = '0' then radixMark? cs else none) with
  | some radix =>
      let digits :=
        (cs.drop 1).takeWhile (isDigitOf radix)
      if digits.isEmpty then
        ⟨1, .error (.missingDigits radix)⟩
      else
        ⟨digits.length + 1, number radix digits⟩
  | none =>
      let digits := cs.takeWhile (isDigitOf 10)
      ⟨digits.length, number 10 (c :: digits)⟩

/-
  The word that starts with the character `c`: a keyword if
  it is spelled like one, a variable name otherwise.
-/
def scanWord
    (c : Char)
    (cs : List Char) : Scan :=
  let more := cs.takeWhile isWordChar
  let word := String.ofList (c :: more)
  ⟨more.length,
    .ok ((keyword? word).getD .identifier, word)⟩

/- What starts at the character `c`, which is not blank. -/
def scan
    (c : Char)
    (cs : List Char) : Scan :=
  match punctuator? (c :: cs) with
  | some (symbol, kind) =>
      ⟨symbol.length - 1, .ok (kind, symbol)⟩
  | none =>
      if c.isDigit then
        scanNumber c cs
      else if isWordStart c then
        scanWord c cs
      else
        ⟨0, .error (.unexpectedChar c)⟩

------------------------------------------------------------
-- The Walk
------------------------------------------------------------

/-
  The tokens of a text that starts at byte `pos`, of which
  the first `skip` characters belong to a token already
  taken. The walk ends with the position of the end of the
  text, or with the first error.
-/
def walk :
    Nat →
    Nat →
    List Char →
    List Token × Except (Located LexError) Nat
| _, pos, [] => ([], .ok pos)
| skip + 1, pos, c :: cs =>
    walk skip (pos + c.utf8Size) cs
| 0, pos, c :: cs =>
    if isBlank c then
      walk 0 (pos + c.utf8Size) cs
    else
      let piece := scan c cs
      let span := Span.between pos
        (pos +
          Text.byteLength (c :: cs.take piece.extra))
      match piece.result with
      | .error e => ([], .error ⟨e, span⟩)
      | .ok (kind, lexeme) =>
          let (tokens, outcome) :=
            walk piece.extra (pos + c.utf8Size) cs
          (⟨kind, lexeme, span⟩ :: tokens, outcome)

/-
  Passing over characters is the same as starting after
  them.
-/
theorem walk_skip
    (skip pos : Nat)
    (cs : List Char) :
    walk skip pos cs =
      walk 0 (pos + Text.byteLength (cs.take skip))
        (cs.drop skip) := by
  induction cs generalizing skip pos with
  | nil =>
      simp [walk, Text.byteLength]
  | cons c cs ih =>
      cases skip with
      | zero =>
          simp [Text.byteLength]
      | succ skip =>
          rw [walk, ih]
          simp [Text.byteLength, Nat.add_assoc]

end Lexer

------------------------------------------------------------
-- Whole Texts
------------------------------------------------------------

/- An error, and the tokens read before it. -/
structure LexFailure where
  before : List Token
  error : Located LexError
deriving DecidableEq, Repr

/- The end-of-input token at a byte position. -/
def Token.eofAt
    (pos : Nat) : Token :=
  ⟨.eof, "", Span.between pos pos⟩

/- Read a source text into a stream of tokens. -/
def lex
    (src : String) : Except LexFailure TokenStream :=
  match Lexer.walk 0 0 src.toList with
  | (tokens, .ok pos) => .ok ⟨tokens, Token.eofAt pos, rfl⟩
  | (tokens, .error e) => .error ⟨tokens, e⟩

/-
  Read a source text into a buffer, which has to be empty.
  The answer is what the buffer then holds, and the error
  that stopped the reading, if there was one.
-/
def lexInto?
    (buffer : List Token)
    (src : String) :
    Option (List Token × Option (Located LexError)) :=
  if buffer.isEmpty then
    match lex src with
    | .ok stream => some (stream.toList, none)
    | .error failure =>
        some (failure.before, some failure.error)
  else
    none

end WordLang
