import WordLang.Assembly.Target
import WordLang.Text.Quoted

/-
  This file reads the arguments of the command line.

  An argument that starts with a hyphen is an option: two
  hyphens and a name, or one hyphen and letters that may be
  joined. The value of an option stands behind an equals
  sign, behind its letter, or in the next argument. All
  arguments after `--` are plain. There is one plain
  argument, the source text, unless a file is named.

  Arguments are read in order, and a request for the
  version or for help is answered as soon as it is met.

  Key definitions include:
    * `WordLang.Stage`
    * `WordLang.Invocation`
    * `WordLang.Invocation.text`
    * `WordLang.Draft`
    * `WordLang.Request`
    * `WordLang.Request.ofArgs?`
-/

namespace WordLang

------------------------------------------------------------
-- Invocations
------------------------------------------------------------

/- The stage whose result is wanted. -/
inductive Stage where
  | asm
  | tokens
  | ast
deriving DecidableEq, Repr

namespace Stage

/- All stages. -/
def all : List Stage :=
  [asm, tokens, ast]

/- The name of a stage on the command line. -/
def name : Stage → String
| asm => "asm"
| tokens => "tokens"
| ast => "ast"

/- The stage with a given name. -/
def ofName?
    (s : String) : Option Stage :=
  all.find? (fun stage => stage.name == s)

/- The name of a stage in the log. -/
def text : Stage → String
| asm => "Asm"
| tokens => "Tokens"
| ast => "Ast"

end Stage

/- Where the source text comes from. -/
inductive Input where
  | source (text : String)
  | file (path : String)
deriving DecidableEq, Repr

/- What the arguments ask for. -/
structure Invocation where
  input : Input
  output? : Option String
  target? : Option Target
  stage : Stage
  verbosity : Nat
deriving DecidableEq, Repr

namespace Invocation

/- An optional part of the arguments as the log shows it. -/
def optionText : Option String → String
| none => "None"
| some s => "Some(" ++ s ++ ")"

/- The arguments as the log shows them. -/
def text
    (inv : Invocation) : String :=
  let (source?, file?) : Option String × Option String :=
    match inv.input with
    | .source s => (some (Text.quote s), none)
    | .file path => (none, some (Text.quote path))
  "Args \x7b source: " ++ optionText source? ++
    ", file: " ++ optionText file? ++
    ", output: " ++
      optionText (inv.output?.map Text.quote) ++
    ", target: " ++
      optionText (inv.target?.map Target.name) ++
    ", emit: " ++ inv.stage.text ++
    ", verbose: " ++ toString inv.verbosity ++ " \x7d"

end Invocation

------------------------------------------------------------
-- Arguments Read So Far
------------------------------------------------------------

/- The options that take a value. -/
inductive ValueOption where
  | file
  | output
  | target
  | emit
deriving DecidableEq, Repr

/- What the arguments so far ask for. -/
structure Draft where
  source? : Option String
  file? : Option String
  output? : Option String
  target? : Option Target
  stage? : Option Stage
  verbosity : Nat
deriving DecidableEq, Repr

namespace Draft

/- No arguments have been read. -/
def empty : Draft :=
  ⟨none, none, none, none, none, 0⟩

/- The greatest verbosity that is counted. -/
def maxVerbosity : Nat := 255

/- Raise the verbosity by one. -/
def louder
    (d : Draft) : Draft :=
  { d with
    verbosity := min (d.verbosity + 1) maxVerbosity }

/-
  Give an option its value. A value may be given only once.
  A path must not be empty, and a target or stage must be
  one of those there are.
-/
def set?
    (d : Draft)
    (value : String) :
    ValueOption → Option Draft
| .file =>
    if d.file?.isSome || value.isEmpty then
      none
    else
      some { d with file? := some value }
| .output =>
    if d.output?.isSome || value.isEmpty then
      none
    else
      some { d with output? := some value }
| .target =>
    match d.target?, Target.ofName? value with
    | none, some t => some { d with target? := some t }
    | _, _ => none
| .emit =>
    match d.stage?, Stage.ofName? value with
    | none, some stage =>
        some { d with stage? := some stage }
    | _, _ => none

/- Take a plain argument as the source text. -/
def setSource?
    (d : Draft)
    (text : String) : Option Draft :=
  if d.source?.isSome then
    none
  else
    some { d with source? := some text }

/-
  The finished invocation, which has exactly one of a source
  text and a file.
-/
def finish?
    (d : Draft) : Option Invocation := do
  let input ← match d.source?, d.file? with
    | some text, none => some (Input.source text)
    | none, some path => some (Input.file path)
    | _, _ => none
  return ⟨input, d.output?, d.target?,
    d.stage?.getD .asm, d.verbosity⟩

end Draft

------------------------------------------------------------
-- Options
------------------------------------------------------------

/- What the command line is used for. -/
inductive Request where
  | run (inv : Invocation)
  | version
  | help
deriving DecidableEq, Repr

/- How one argument affects what is asked for. -/
inductive Effect where
  | refused
  | answer (r : Request)
  | next (d : Draft)
  | needs (option : ValueOption) (d : Draft)
deriving DecidableEq, Repr

namespace Effect

/- The effect of an option with its value. -/
def ofValue
    (d : Draft)
    (option : ValueOption)
    (value : List Char) : Effect :=
  match d.set? (String.ofList value) option with
  | some d => next d
  | none => refused

/- The effect of a letter whose value may be joined to it. -/
def ofLetter
    (d : Draft)
    (option : ValueOption) :
    List Char → Effect
| [] => needs option d
| '=' :: value => ofValue d option value
| value => ofValue d option value

/- The effect of joined letters. -/
def ofLetters
    (d : Draft) :
    List Char → Effect
| [] => next d
| 'v' :: cs => ofLetters d.louder cs
| 'V' :: _ => answer .version
| 'h' :: _ => answer .help
| 'f' :: cs => ofLetter d .file cs
| 'o' :: cs => ofLetter d .output cs
| _ => refused

/- The option with a given long name. -/
def longOption? : String → Option ValueOption
| "file" => some .file
| "output" => some .output
| "target" => some .target
| "emit" => some .emit
| _ => none

/- The effect of a long option, with its value if it has one. -/
def ofLong
    (d : Draft)
    (cs : List Char) : Effect :=
  let name := String.ofList (cs.takeWhile (· ≠ '='))
  match cs.dropWhile (· ≠ '='), longOption? name with
  | _ :: value, some option => ofValue d option value
  | [], some option => needs option d
  | [], none =>
      if name = "version" then
        answer .version
      else if name = "help" then
        answer .help
      else
        refused
  | _ :: _, none => refused

/- The effect of an argument before `--`. -/
def ofArg
    (d : Draft)
    (arg : String) : Effect :=
  match arg.toList with
  | '-' :: '-' :: cs => ofLong d cs
  | '-' :: c :: cs => ofLetters d (c :: cs)
  | _ =>
      match d.setSource? arg with
      | some d => next d
      | none => refused

end Effect

------------------------------------------------------------
-- Argument Lists
------------------------------------------------------------

namespace Request

/- Whether an argument cannot be the value of the last one. -/
def isOption
    (arg : String) : Bool :=
  match arg.toList with
  | '-' :: _ :: _ => true
  | _ => false

/- The request once all arguments have been read. -/
def ofDraft?
    (d : Draft) : Option Request :=
  d.finish?.map run

/- The request when only plain arguments follow. -/
def ofPlain? :
    Draft →
    List String →
    Option Request
| d, [] => ofDraft? d
| d, arg :: args =>
    match d.setSource? arg with
    | some d => ofPlain? d args
    | none => none

/- The request that the arguments after a draft complete. -/
def ofRest? :
    Draft →
    List String →
    Option Request
| d, [] => ofDraft? d
| d, arg :: args =>
    if arg = "--" then
      ofPlain? d args
    else
      match Effect.ofArg d arg, args with
      | .refused, _ => none
      | .answer r, _ => some r
      | .next d, args => ofRest? d args
      | .needs _ _, [] => none
      | .needs option d, value :: args =>
          if isOption value then
            none
          else
            match d.set? value option with
            | some d => ofRest? d args
            | none => none

/- The request that a list of arguments makes, if any. -/
def ofArgs?
    (args : List String) : Option Request :=
  ofRest? .empty args

end Request

end WordLang
