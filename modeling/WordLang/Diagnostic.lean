import WordLang.Token.Lexer
import WordLang.ParseError
import WordLang.Program.Lowering

/-
  This file reports errors against the source text.

  A report has three lines: the position and the message,
  the line of the source that the error starts on, and a
  marker under the part of that line the error is about.
  Lines and columns count from one, and columns count
  characters. An error that starts past the end of the
  source is placed at its end.

  Key definitions include:
    * `WordLang.CompileError`
    * `WordLang.CompileError.message`
    * `WordLang.CompileError.placed`
    * `WordLang.Excerpt`
    * `WordLang.Excerpt.find?`
    * `WordLang.CompileError.report?`
-/

namespace WordLang

------------------------------------------------------------
-- Errors
------------------------------------------------------------

/-
  Why a source has no code: it has no tokens, it is not a
  program, or the program has a fault.
-/
inductive CompileError where
  | lex (e : Located LexError)
  | parse (e : Located ParseError)
  | internal (e : Located Fault)
deriving DecidableEq, Repr

namespace CompileError

/- The region of the source that an error is about. -/
def span : CompileError → Span
| lex e => e.span
| parse e => e.span
| internal e => e.span

/- The wording of an error. -/
def message : CompileError → String
| lex e => e.value.message
| parse e => e.value.message
| internal e =>
    "internal compiler error: " ++ e.value.message

/-
  The wording with the region in front of it. A fault is
  worded without one.
-/
def placed
    (e : CompileError) : String :=
  match e with
  | internal _ => e.message
  | _ => e.span.text ++ ": " ++ e.message

end CompileError

------------------------------------------------------------
-- Excerpts
------------------------------------------------------------

/-
  The line of a source around a region: its number, the
  part before the region, the line itself without return
  characters at its end, and the number of its characters
  to be marked.
-/
structure Excerpt where
  lineNumber : Nat
  lead : List Char
  line : List Char
  width : Nat
deriving DecidableEq, Repr

namespace Excerpt

/- A text without the return characters at its end. -/
def trimReturns
    (cs : List Char) : List Char :=
  (cs.reverse.dropWhile (· = '\r')).reverse

/-
  The line around a region. There is none when the region
  starts or, within the line, ends inside a character.
-/
def find?
    (src : List Char)
    (span : Span) : Option Excerpt := do
  let lo := min span.lo (Text.byteLength src)
  let (before, after) ← Text.splitAtByte? lo src
  let lead :=
    (before.reverse.takeWhile (· ≠ '\n')).reverse
  let line :=
    trimReturns (lead ++ after.takeWhile (· ≠ '\n'))
  let lineEnd :=
    lo - Text.byteLength lead + Text.byteLength line
  let hi := max (min span.hi lineEnd) lo
  let (inside, _) ← Text.splitAtByte? (hi - lo) after
  return {
    lineNumber := before.count '\n' + 1
    lead := lead
    line := line
    width := max inside.length 1 }

/- The column that the region starts at. -/
def column
    (x : Excerpt) : Nat :=
  x.lead.length + 1

/-
  The marker under the line. Tabs before the region are
  kept, so that it stands below the marked characters.
-/
def marker
    (x : Excerpt) : List Char :=
  x.lead.map (fun c => if c = '\t' then '\t' else ' ') ++
    '^' :: List.replicate (x.width - 1) '~'

end Excerpt

------------------------------------------------------------
-- Reports
------------------------------------------------------------

namespace CompileError

/- The report of an error against a source text. -/
def report?
    (e : CompileError)
    (src : String) : Option String := do
  let x ← Excerpt.find? src.toList e.span
  return toString x.lineNumber ++ ":" ++
    toString x.column ++ ": error: " ++ e.message ++
    "\n" ++ String.ofList x.line ++
    "\n" ++ String.ofList x.marker ++ "\n"

end CompileError

end WordLang
