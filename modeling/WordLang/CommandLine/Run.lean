import WordLang.CommandLine.Disk
import WordLang.CommandLine.Options
import WordLang.Compile
import WordLang.Program.Outline

/-
  This file defines what the command does.

  The source text is read, compiled up to the wanted stage,
  and the result goes to the output file or to the standard
  output. The first failure ends the run with its message,
  if there is one, and leaves the disk as it was. Records of
  the progress precede the message on the standard error
  stream; how many of them depends on the verbosity.

  Key definitions include:
    * `WordLang.Invocation.result`
    * `WordLang.Invocation.events`
    * `WordLang.Text.trimEnd`
    * `WordLang.Failure`
    * `WordLang.Outcome`
    * `WordLang.Invocation.run`
    * `WordLang.Request.perform?`
    * `WordLang.runCommand?`
-/

namespace WordLang

------------------------------------------------------------
-- Stages
------------------------------------------------------------

/- The listing of a stream of tokens. -/
def TokenStream.listing
    (stream : TokenStream) : String :=
  Assembly.unlines (stream.toList.map Token.text)

namespace Invocation

/- The system that code is written for. -/
def target
    (inv : Invocation) : Target :=
  inv.target?.getD .linux

/-
  The text of the wanted stage for a source, which goes
  through the stages up to that one. The outline of a
  program may be too deep to be written.
-/
def result
    (inv : Invocation)
    (src : String) :
    Except CompileError (Option String) := do
  let stream ← tokensOf src
  match inv.stage with
  | .tokens => return some stream.listing
  | .ast => return (← programOfTokens stream).outlineText?
  | .asm =>
      let p ← programOfTokens stream
      match p.generate inv.target with
      | .ok text => return some text
      | .error fault => throw (.internal fault)

/- The records of compiling a source to the wanted stage. -/
def compileEvents
    (inv : Invocation)
    (stream : TokenStream) : List Log.Event :=
  match inv.stage, programOfTokens stream with
  | .tokens, _ => []
  | _, .error _ => []
  | .ast, .ok p => p.events
  | .asm, .ok p =>
      p.events ++ .generating inv.target ::
        p.generateEvents inv.target

/- The records of a run once its source has been read. -/
def events
    (inv : Invocation)
    (src : String) : List Log.Event :=
  .compiling src.utf8ByteSize ::
    match tokensOf src with
    | .error _ => []
    | .ok stream =>
        stream.events ++ inv.compileEvents stream

end Invocation

------------------------------------------------------------
-- Messages
------------------------------------------------------------

/- Why a run fails. -/
inductive Failure where
  | unread (path : String) (e : FileError)
  | rejected (src : String) (e : CompileError)
  | tooDeep
  | unwritten (e : FileError)
deriving DecidableEq, Repr

namespace Text

/- The code points of white space, as ranges. -/
def spaceRanges : List (Nat × Nat) :=
  [(0x9, 0xD), (0x20, 0x20), (0x85, 0x85), (0xA0, 0xA0),
   (0x1680, 0x1680), (0x2000, 0x200A), (0x2028, 0x2029),
   (0x202F, 0x202F), (0x205F, 0x205F), (0x3000, 0x3000)]

/- Whether a character is white space. -/
def isSpace
    (c : Char) : Bool :=
  spaceRanges.any
    (fun (lo, hi) => lo ≤ c.toNat && c.toNat ≤ hi)

/- A text without the white space at its end. -/
def trimEnd
    (s : String) : String :=
  String.ofList
    (s.toList.reverse.dropWhile isSpace).reverse

end Text

namespace Failure

/-
  The message of a failure, with its line end. A program
  that is nested too deeply ends the run before the command
  has a message for it.
-/
def message? : Failure → Option String
| unread path e =>
    some
      ("failed to read " ++ path ++ ": " ++ e.reason ++
        "\n")
| rejected src e =>
    some
      (Text.trimEnd ((e.report? src).getD e.message) ++
        "\n")
| tooDeep => none
| unwritten e =>
    some ("failed to write output: " ++ e.reason ++ "\n")

/- The exit status of a failure. -/
def status : Failure → Nat
| tooDeep => 101
| _ => 1

end Failure

/- The least verbosity at which a level is shown. -/
def Log.Level.threshold : Level → Nat
| debug => 2
| trace => 3

/- The records that are shown, one to a line. -/
def Invocation.logText
    (inv : Invocation)
    (events : List Log.Event) : String :=
  Assembly.unlines
    ((events.filter
        (fun e => e.level.threshold ≤ inv.verbosity)).map
      Log.Event.line)

------------------------------------------------------------
-- Runs
------------------------------------------------------------

/-
  What a run leaves behind: its exit status, what it wrote
  itself to the two standard streams, and the disk.
-/
structure Outcome where
  status : Nat
  stdout : String
  stderr : String
  disk : Disk

namespace Invocation

/- The source text, read from a disk if it is in a file. -/
def readInput
    (inv : Invocation)
    (disk : Disk) : Except Failure String :=
  match inv.input with
  | .source text => .ok text
  | .file path =>
      match disk.read path with
      | .ok text => .ok text
      | .error e => .error (.unread path e)

/-
  Send a text to where the output goes: what the standard
  output receives, and the disk.
-/
def deliver
    (inv : Invocation)
    (disk : Disk)
    (text : String) : Except Failure (String × Disk) :=
  match inv.output? with
  | none => .ok (text, disk)
  | some path =>
      match disk.write path text with
      | .ok disk => .ok ("", disk)
      | .error e => .error (.unwritten e)

/- The text that a source yields, or the failure to. -/
def produce
    (inv : Invocation)
    (src : String) : Except Failure String :=
  match inv.result src with
  | .ok (some text) => .ok text
  | .ok none => .error .tooDeep
  | .error e => .error (.rejected src e)

/- The log of a run whose source has or has not been read. -/
def log
    (inv : Invocation)
    (input : Except Failure String) : String :=
  inv.logText
    (.starting inv.text ::
      match input with
      | .ok src => inv.events src
      | .error _ => [])

/- The run of an invocation. -/
def run
    (inv : Invocation)
    (disk : Disk) : Outcome :=
  let input := inv.readInput disk
  let delivered := do
    inv.deliver disk (← inv.produce (← input))
  match delivered with
  | .ok (stdout, disk) => ⟨0, stdout, inv.log input, disk⟩
  | .error failure =>
      ⟨failure.status, "",
        inv.log input ++ failure.message?.getD "", disk⟩

end Invocation

namespace Request

/- What the version request prints. -/
def versionText : String :=
  "mincc-bin 0.0.1\n"

/- The exit status when the arguments are refused. -/
def refusedStatus : Nat := 2

/- The run of a request, unless it asks for help. -/
def perform?
    (r : Request)
    (disk : Disk) : Option Outcome :=
  match r with
  | .run inv => some (inv.run disk)
  | .version => some ⟨0, versionText, "", disk⟩
  | .help => none

end Request

/-
  The run of the command with some arguments, unless the
  arguments are refused or ask for help.
-/
def runCommand?
    (args : List String)
    (disk : Disk) : Option Outcome :=
  (Request.ofArgs? args).bind
    (fun r => r.perform? disk)

end WordLang
