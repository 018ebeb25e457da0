import WordLang.Program.Basic
import WordLang.Text.Bytes

/-
  This file writes programs as indented outlines.

  An outline has one line for each variable, statement and
  expression. A line is indented by two spaces for every
  level of nesting and ends with the region of its node.
  The number of spaces has to fit into 16 bits, so a line
  that is nested too deeply cannot be written.

  Key definitions include:
    * `WordLang.Outline.Line`
    * `WordLang.Outline.Line.fits`
    * `WordLang.Outline.text?`
    * `WordLang.Expr.outlineOnto`
    * `WordLang.Stmt.outlineOnto`
    * `WordLang.Program.outline`
    * `WordLang.Outline.bounded`

  An outline never looks at the lines that follow it:
    * `WordLang.Expr.outlineOnto_eq_append`
-/

namespace WordLang

------------------------------------------------------------
-- Lines
------------------------------------------------------------

namespace Outline

/- One line of an outline, at a level of nesting. -/
structure Line where
  level : Nat
  label : String
deriving DecidableEq, Repr

/- The line of a node: what it is, and where it stands. -/
def Line.ofNode
    (level : Nat)
    (label : String)
    (span : Span) : Line :=
  ⟨level, label ++ " (" ++ span.text ++ ")"⟩

/- The number of spaces before a line. -/
def Line.indent
    (line : Line) : Nat :=
  2 * line.level

/- The greatest number of spaces that can be written. -/
def maxIndent : Nat := 65535

/- Whether a line can be written. -/
def Line.fits
    (line : Line) : Bool :=
  line.indent ≤ maxIndent

/- A line as text, with its indentation and line end. -/
def Line.text
    (line : Line) : String :=
  String.ofList (List.replicate line.indent ' ') ++
    line.label ++ "\n"

/- The text of an outline, if all its lines can be written. -/
def text?
    (lines : List Line) : Option String :=
  if lines.all Line.fits then
    some (String.join (lines.map Line.text))
  else
    none

/-
  Write an outline where there is room for `room` bytes:
  what is written, and whether that is all. Lines are
  written in order until the room is used up. There is no
  answer when a line that cannot be written comes first.
-/
def bounded :
    Nat →
    List Line →
    Option (String × Bool)
| _, [] => some ("", true)
| room, line :: rest =>
    if line.fits then
      let size := Text.byteLength line.text.toList
      if size ≤ room then
        (bounded (room - size) rest).map
          (fun (written, all) =>
            (line.text ++ written, all))
      else
        some
          (String.ofList
            (Text.takeBytes room line.text.toList), false)
    else
      none

end Outline

------------------------------------------------------------
-- Expressions
------------------------------------------------------------

/- The name of an operation in an outline. -/
def BinOp.name : BinOp → String
| add => "Add"
| sub => "Sub"
| mul => "Mul"
| div => "Div"
| eq => "Eq"
| ne => "Ne"
| lt => "Lt"
| le => "Le"

namespace Expr

/- The name that stands for a variable not in the table. -/
def unresolvedName : String := "<unresolved>"

/- The lines of an expression, then those of `rest`. -/
def outlineOnto
    (locals : Locals)
    (level : Nat) :
    Expr →
    List Outline.Line →
    List Outline.Line
| int value span, rest =>
    .ofNode level ("int " ++ toString value.toInt) span ::
      rest
| var offset span, rest =>
    let name :=
      (locals.nameOf? offset).getD unresolvedName
    .ofNode level
      ("local " ++ name ++ " @" ++ offset.text) span :: rest
| binary op lhs rhs span, rest =>
    .ofNode level ("binary " ++ op.name) span ::
      outlineOnto locals (level + 1) lhs
        (outlineOnto locals (level + 1) rhs rest)
| assign target value span, rest =>
    .ofNode level "binary Assign" span ::
      outlineOnto locals (level + 1) target
        (outlineOnto locals (level + 1) value rest)

/-
  The lines of an optional part under its own heading, then
  those of `rest`.
-/
def clauseOnto
    (locals : Locals)
    (level : Nat)
    (heading : String) :
    Option Expr →
    List Outline.Line →
    List Outline.Line
| none, rest => rest
| some e, rest =>
    ⟨level, heading⟩ :: outlineOnto locals (level + 1) e rest

/- The lines of an expression. -/
def outline
    (locals : Locals)
    (level : Nat)
    (e : Expr) : List Outline.Line :=
  outlineOnto locals level e []

/- The lines that follow an expression are left alone. -/
theorem outlineOnto_eq_append
    (locals : Locals)
    (level : Nat)
    (e : Expr)
    (rest : List Outline.Line) :
    outlineOnto locals level e rest =
      outline locals level e ++ rest := by
  induction e generalizing level rest with
  | int value span =>
      simp [outline, outlineOnto]
  | var offset span =>
      simp [outline, outlineOnto]
  | binary op lhs rhs span ihL ihR =>
      simp only [outline, outlineOnto, List.cons_append]
      rw [ihL, ihR, ihL (level + 1)
        (outlineOnto locals (level + 1) rhs [])]
      simp [outline]
  | assign target value span ihT ihV =>
      simp only [outline, outlineOnto, List.cons_append]
      rw [ihT, ihV, ihT (level + 1)
        (outlineOnto locals (level + 1) value [])]
      simp [outline]

end Expr

------------------------------------------------------------
-- Statements
------------------------------------------------------------

namespace Stmt

mutual

/- The lines of a statement, then those of `rest`. -/
def outlineOnto
    (locals : Locals)
    (level : Nat) :
    Stmt →
    List Outline.Line →
    List Outline.Line
| expr e span, rest =>
    .ofNode level "expr" span ::
      e.outlineOnto locals (level + 1) rest
| ret e span, rest =>
    .ofNode level "return" span ::
      e.outlineOnto locals (level + 1) rest
| ifThen predicate thenArm span, rest =>
    .ofNode level "if" span ::
      predicate.outlineOnto locals (level + 1)
        (outlineOnto locals (level + 1) thenArm rest)
| ifElse predicate thenArm elseArm span, rest =>
    .ofNode level "if" span ::
      predicate.outlineOnto locals (level + 1)
        (outlineOnto locals (level + 1) thenArm
          (⟨level + 1, "else"⟩ ::
            outlineOnto locals (level + 2) elseArm rest))
| whileLoop predicate body span, rest =>
    .ofNode level "while" span ::
      predicate.outlineOnto locals (level + 1)
        (outlineOnto locals (level + 1) body rest)
| forLoop init predicate step body span, rest =>
    .ofNode level "for" span ::
      Expr.clauseOnto locals (level + 1) "init" init
        (Expr.clauseOnto locals (level + 1) "predicate"
          predicate
          (Expr.clauseOnto locals (level + 1) "step" step
            (⟨level + 1, "body"⟩ ::
              outlineOnto locals (level + 2) body rest)))
| block body span, rest =>
    .ofNode level "block" span ::
      outlineAllOnto locals (level + 1) body rest

/- The lines of a list of statements, then `rest`. -/
def outlineAllOnto
    (locals : Locals)
    (level : Nat) :
    List Stmt →
    List Outline.Line →
    List Outline.Line
| [], rest => rest
| s :: ss, rest =>
    outlineOnto locals level s
      (outlineAllOnto locals level ss rest)

end

/- The lines of a statement. -/
def outline
    (locals : Locals)
    (level : Nat)
    (s : Stmt) : List Outline.Line :=
  outlineOnto locals level s []

end Stmt

------------------------------------------------------------
-- Programs
------------------------------------------------------------

namespace Locals

/- One line for each variable. -/
def outline
    (t : Locals) : List Outline.Line :=
  t.entries.map
    (fun (name, offset) =>
      ⟨0, "local " ++ name ++ " @" ++ offset.text⟩)

end Locals

namespace Program

/- The lines of a program: its variables, then its body. -/
def outline
    (p : Program) : List Outline.Line :=
  p.locals.outline ++
    Stmt.outlineAllOnto p.locals 0 p.body []

/- The text of a program's outline, if it can be written. -/
def outlineText?
    (p : Program) : Option String :=
  Outline.text? p.outline

end Program

end WordLang
