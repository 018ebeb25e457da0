import WordLang.Assembly.Instr
import WordLang.Assembly.Target
import WordLang.Program.Basic

/-
  This file writes machine code as assembly text.

  The text has a head (directives, an empty line, section
  and symbol), one line for every instruction and label of
  the routine, and an empty line at its end. Instructions
  are indented; labels are not.

  Key definitions include:
    * `WordLang.Instr.text`
    * `WordLang.Label.text`
    * `WordLang.Line.text`
    * `WordLang.Assembly.header`
    * `WordLang.Assembly.text`
-/

namespace WordLang

------------------------------------------------------------
-- Operands
------------------------------------------------------------

/- The name of a register. -/
def Reg.text : Reg → String
| rax => "rax"
| rdi => "rdi"
| rsp => "rsp"
| rbp => "rbp"

/- The suffix of an instruction that tests a comparison. -/
def Cond.text : Cond → String
| equal => "e"
| notEqual => "ne"
| less => "l"
| lessEqual => "le"

namespace Label

/- The word for what a label marks. -/
def Role.text : Role → String
| begin => "begin"
| orElse => "else"
| finish => "end"
| exit => "return"

/- A label as it is written for a system. -/
def text
    (target : Target)
    (l : Label) : String :=
  target.labelStem ++ l.role.text ++ "." ++
    toString l.id.toNat

end Label

------------------------------------------------------------
-- Lines
------------------------------------------------------------

/- An instruction as it is written for a system. -/
def Instr.text
    (target : Target) :
    Instr → String
| push src => "push " ++ src.text
| pop dst => "pop " ++ dst.text
| mov dst src => "mov " ++ dst.text ++ ", " ++ src.text
| movImm dst value =>
    "mov " ++ dst.text ++ ", " ++ toString value.toInt
| load dst base =>
    "mov " ++ dst.text ++ ", [" ++ base.text ++ "]"
| store base src =>
    "mov [" ++ base.text ++ "], " ++ src.text
| lea dst offset =>
    "lea " ++ dst.text ++ ", [rbp - " ++ offset.text ++ "]"
| add dst src => "add " ++ dst.text ++ ", " ++ src.text
| sub dst src => "sub " ++ dst.text ++ ", " ++ src.text
| imul dst src => "imul " ++ dst.text ++ ", " ++ src.text
| subImm dst bytes =>
    "sub " ++ dst.text ++ ", " ++ toString bytes.toNat
| cqo => "cqo"
| idiv src => "idiv " ++ src.text
| cmp lhs rhs => "cmp " ++ lhs.text ++ ", " ++ rhs.text
| cmpZero lhs => "cmp " ++ lhs.text ++ ", 0"
| setcc cond => "set" ++ cond.text ++ " al"
| movzx => "movzx rax, al"
| jmp label => "jmp " ++ label.text target
| je label => "je " ++ label.text target
| ret => "ret"

/- A line of a routine as it is written for a system. -/
def Line.text
    (target : Target) :
    Line → String
| instr i => "    " ++ i.text target
| label l => l.text target ++ ":"

------------------------------------------------------------
-- Files
------------------------------------------------------------

namespace Assembly

/- The symbol of a routine with the given name. -/
def symbol
    (target : Target)
    (name : String) : String :=
  if name = Program.mainName then
    target.entryPoint
  else
    name

/- The lines before the code of a routine. -/
def header
    (target : Target)
    (name : String) : List String :=
  target.directives ++
    ["",
     ".section " ++ target.textSection,
     ".globl " ++ symbol target name,
     symbol target name ++ ":"]

/- Lines of text, each with its line end. -/
def unlines
    (lines : List String) : String :=
  String.join (lines.map (fun line => line ++ "\n"))

/- The text of a routine, closed by an empty line. -/
def text
    (target : Target)
    (name : String)
    (lines : List Line) : String :=
  unlines
    (header target name ++ lines.map (Line.text target) ++
      [""])

end Assembly

end WordLang
