import WordLang.Stmt.Basic

/-
  This file defines programs.

  Key definitions include:
    * `WordLang.Program`
    * `WordLang.Program.mainName`
-/

namespace WordLang

/-
  A program is one routine: its name, its statements, and
  the table of the variables they use.
-/
structure Program where
  name : String
  body : List Stmt
  locals : Locals
deriving DecidableEq, Repr

namespace Program

/- The name of the routine where execution starts. -/
def mainName : String := "main"

end Program

end WordLang
