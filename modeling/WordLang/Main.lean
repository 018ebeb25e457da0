import WordLang.CommandLine.Run

/-
  This file is the command itself: it reads and writes the
  files and streams of the system, and leaves all decisions
  to the definitions of a run.

  Key definitions include:
    * `WordLang.Command.perform`
    * `main`
-/

namespace WordLang

namespace Command

/- The file error that a failed system call stands for. -/
def fileError : IO.Error → FileError
| .noFileOrDirectory .. => .notFound
| .inappropriateType _ 20 _ => .notFolder
| .inappropriateType _ 21 _ => .isFolder
| e => .other (toString e)

/- Read the source text of an invocation. -/
def readInput
    (inv : Invocation) : IO (Except Failure String) := do
  match inv.input with
  | .source text => return .ok text
  | .file path =>
      let bytes : Except FileError ByteArray ←
        try
          pure (.ok (← IO.FS.readBinFile path))
        catch e =>
          pure (.error (fileError e))
      match bytes >>= textOfBytes with
      | .ok text => return .ok text
      | .error e => return .error (.unread path e)

/- Send a text to where the output goes. -/
def deliver
    (inv : Invocation)
    (text : String) : IO (Except Failure Unit) := do
  try
    match inv.output? with
    | none => IO.print text
    | some path => IO.FS.writeFile path text
    return .ok ()
  catch e =>
    return .error (.unwritten (fileError e))

/- Run an invocation and answer its exit status. -/
def perform
    (inv : Invocation) : IO UInt32 := do
  let input ← readInput inv
  IO.eprint (inv.log input)
  let delivered ←
    match input >>= inv.produce with
    | .ok text => deliver inv text
    | .error failure => pure (.error failure)
  match delivered with
  | .ok () => return 0
  | .error failure =>
      IO.eprint (failure.message?.getD "")
      return UInt32.ofNat failure.status

end Command

end WordLang

/- Run the command with the arguments it was given. -/
def main
    (args : List String) : IO UInt32 := do
  match WordLang.Request.ofArgs? args with
  | none =>
      return UInt32.ofNat WordLang.Request.refusedStatus
  | some .version =>
      IO.print WordLang.Request.versionText
      return 0
  | some .help => return 0
  | some (.run inv) => WordLang.Command.perform inv
