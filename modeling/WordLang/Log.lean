import WordLang.Assembly.Target

/-
  This file defines the records that a compilation leaves
  behind about its progress.

  Key definitions include:
    * `WordLang.Log.Level`
    * `WordLang.Log.Event`
    * `WordLang.Log.Event.level`
    * `WordLang.Log.Event.origin`
    * `WordLang.Log.Event.text`
-/

namespace WordLang

namespace Log

/- How much detail a record is about. -/
inductive Level where
  | debug
  | trace
deriving DecidableEq, Repr

/- The name of a level. -/
def Level.name : Level → String
| debug => "DEBUG"
| trace => "TRACE"

/- Something worth a record. -/
inductive Event where
  | starting (args : String)
  | compiling (bytes : Nat)
  | lexed (tokens : Nat)
  | parsed (stmts locals : Nat)
  | generating (target : Target)
  | reserving (bytes : UInt32) (locals : Nat)
  | allocated (label : UInt32)
  | generated (bytes : Nat) (target : Target)
deriving DecidableEq, Repr

namespace Event

/- The level of a record. -/
def level : Event → Level
| starting _ => .trace
| allocated _ => .trace
| _ => .debug

/- The part of the program that a record comes from. -/
def origin : Event → String
| starting _ => "mincc"
| compiling _ => "mincc"
| generating _ => "mincc"
| lexed _ => "mincc::lexer"
| parsed .. => "mincc::parser"
| reserving .. => "mincc::codegen::x86_64"
| allocated _ => "mincc::codegen::x86_64"
| generated .. => "mincc::codegen::interface"

/- The wording of a record. -/
def text : Event → String
| starting args => "starting mincc with args: " ++ args
| compiling bytes =>
    "compiling " ++ toString bytes ++ " bytes of source"
| lexed tokens =>
    "lexed " ++ toString tokens ++ " tokens"
| parsed stmts locals =>
    "parsed " ++ toString stmts ++ " statements with " ++
      toString locals ++ " locals"
| generating target =>
    "generating code for " ++ target.name
| reserving bytes locals =>
    "reserving " ++ toString bytes.toNat ++
      " bytes of stack for " ++ toString locals ++ " locals"
| allocated label =>
    "allocated label id " ++ toString label.toNat
| generated bytes target =>
    "generated " ++ toString bytes ++
      " bytes of assembly for " ++ target.triple

/- A record as a line of the log. -/
def line
    (e : Event) : String :=
  "[" ++ e.level.name ++ " " ++ e.origin ++ "] " ++ e.text

end Event

end Log

end WordLang
