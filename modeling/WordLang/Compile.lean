import WordLang.Diagnostic
import WordLang.Log
import WordLang.Assembly.Text
import WordLang.Program.Reader

/-
  This file compiles source texts.

  A source is read into tokens, the tokens into a program,
  and the program is turned into assembly text. The first
  error of any stage ends the compilation. The stages leave
  records of their progress, also before an error.

  Key definitions include:
    * `WordLang.tokensOf`
    * `WordLang.programOf`
    * `WordLang.Program.generate`
    * `WordLang.Program.generateInto`
    * `WordLang.compile`
    * `WordLang.compileEvents`
-/

namespace WordLang

------------------------------------------------------------
-- Stages
------------------------------------------------------------

/- Read a source into tokens. -/
def tokensOf
    (src : String) : Except CompileError TokenStream :=
  match lex src with
  | .ok stream => .ok stream
  | .error failure => .error (.lex failure.error)

/- Read a stream of tokens as a program. -/
def programOfTokens
    (stream : TokenStream) : Except CompileError Program :=
  match Program.parse stream with
  | .ok p => .ok p
  | .error e => .error (.parse e)

/- Read a source as a program. -/
def programOf
    (src : String) : Except CompileError Program := do
  programOfTokens (← tokensOf src)

/- Read a source as an expression. -/
def exprOf
    (src : String) :
    Except CompileError (Expr × Locals) := do
  match Expr.parse (← tokensOf src) with
  | .ok result => return result
  | .error e => throw (.parse e)

namespace Program

/- The assembly text of a program. -/
def generate
    (p : Program)
    (target : Target) : Except (Located Fault) String :=
  let emission := p.lower
  match emission.fault? with
  | some fault => .error fault
  | none =>
      .ok (Assembly.text target p.name emission.lines)

/-
  Write the assembly text of a program after what a text
  already holds. A fault keeps what was written before it.
-/
def generateInto
    (p : Program)
    (target : Target)
    (written : String) :
    String × Option (Located Fault) :=
  let emission := p.lower
  (written ++
      Assembly.text target p.name emission.lines,
    emission.fault?)

end Program

/- Compile a source text for a system. -/
def compile
    (src : String)
    (target : Target) : Except CompileError String := do
  let p ← programOf src
  match p.generate target with
  | .ok text => return text
  | .error fault => throw (.internal fault)

------------------------------------------------------------
-- Records
------------------------------------------------------------

namespace TokenStream

/- The records of reading a source into tokens. -/
def events
    (stream : TokenStream) : List Log.Event :=
  [.lexed stream.toList.length]

end TokenStream

namespace Program

/- The records of reading tokens as a program. -/
def events
    (p : Program) : List Log.Event :=
  [.parsed p.body.length p.locals.size]

/- The records of turning a program into assembly text. -/
def generateEvents
    (p : Program)
    (target : Target) : List Log.Event :=
  let emission := p.lower
  .reserving (frameSize p.locals) p.locals.size ::
    (List.range emission.labels).map
      (fun i => .allocated (UInt32.ofNat (i + 1))) ++
    match p.generate target with
    | .ok text => [.generated text.utf8ByteSize target]
    | .error _ => []

end Program

/- The records of compiling a source text for a system. -/
def compileEvents
    (src : String)
    (target : Target) : List Log.Event :=
  match tokensOf src with
  | .error _ => []
  | .ok stream =>
      stream.events ++
        match programOfTokens stream with
        | .error _ => []
        | .ok p => p.events ++ p.generateEvents target

end WordLang
