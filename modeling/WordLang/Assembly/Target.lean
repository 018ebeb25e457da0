/-
  This file defines the systems that code is written for.

  The systems share their instructions. They differ in how
  the start of execution is named, in the directives at the
  head of a file, and in how local labels start.

  Key definitions include:
    * `WordLang.Target`
    * `WordLang.Target.entryPoint`
    * `WordLang.Target.labelStem`
-/

namespace WordLang

/- A system to write code for. -/
inductive Target where
  | darwin
  | linux
deriving DecidableEq, Repr

namespace Target

/- All systems, in the order they are listed. -/
def all : List Target :=
  [darwin, linux]

/- The name of a system on the command line. -/
def name : Target → String
| darwin => "x86_64_darwin"
| linux => "x86_64_linux"

/- The system with a given name. -/
def ofName?
    (s : String) : Option Target :=
  all.find? (fun t => t.name == s)

/- The system as toolchains name it. -/
def triple : Target → String
| darwin => "x86_64-apple-darwin"
| linux => "x86_64-unknown-linux-gnu"

/- The symbol where execution starts. -/
def entryPoint : Target → String
| darwin => "_main"
| linux => "main"

/- The directives at the head of a file. -/
def directives : Target → List String
| darwin => [".intel_syntax noprefix"]
| linux =>
    [".intel_syntax noprefix",
     ".section .note.GNU-stack,\"\",@progbits"]

/- The section that holds code. -/
def textSection : Target → String
| darwin => "__TEXT,__text,regular,pure_instructions"
| linux => ".text"

/- What every local label starts with. -/
def labelStem : Target → String
| darwin => "L."
| linux => ".L."

end Target

end WordLang
