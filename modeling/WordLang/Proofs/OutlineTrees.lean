import WordLang.Compile
import WordLang.Proofs.Concatenation
import WordLang.Proofs.OutlineLines
import WordLang.Proofs.Spelling

/-
  This file proves that a program is told by its outline.

  The lines of a node do not say how many parts it has. That
  is told by the levels: the parts of a node stand deeper
  than the node, and the line after the last of them does
  not. The optional parts of a node have headings of their
  own, and lines of the table start with another letter than
  those of statements.

  Key definitions include:
    * `WordLang.Outline.AreLabels`
    * `WordLang.Outline.StartsBelow`
    * `WordLang.Locals.InLine`

  Key theorems include:
    * `WordLang.Expr.outlineOnto_injective`
    * `WordLang.Stmt.outlineOnto_injective`
    * `WordLang.Locals.outline_injective`
    * `WordLang.Program.outline_injective`
    * `WordLang.Program.outlineText_faithful`
-/

namespace WordLang

------------------------------------------------------------
-- Labels
------------------------------------------------------------

namespace Outline

/- Lines that can be taken apart when they are written. -/
def AreLabels
    (lines : List Line) : Prop :=
  ∀ line ∈ lines, IsLabel line.label

theorem AreLabels.cons
    {line : Line}
    {lines : List Line}
    (hLine : IsLabel line.label)
    (hLines : AreLabels lines) :
    AreLabels (line :: lines) :=
  List.forall_mem_cons.mpr ⟨hLine, hLines⟩

end Outline

open Outline (AreLabels IsLabel)

namespace Locals

/- The names of a table do not run over a line end. -/
def InLine
    (t : Locals) : Prop :=
  ∀ name ∈ t.names, '\n' ∉ name.toList

/- The name at an offset is in the table. -/
theorem mem_of_nameOf?
    {t : Locals}
    {o : Offset}
    {name : String}
    (hName : t.nameOf? o = some name) :
    name ∈ t.names := by
  unfold nameOf? at hName
  split at hName
  · exact List.mem_of_getElem? hName
  · cases hName

end Locals

variable {t : Locals}

namespace Expr

/- The label of the first line of an expression. -/
def label
    (t : Locals) :
    Expr →
    String
| int value _ => "int " ++ toString value.toInt
| var offset _ =>
    "local " ++ (t.nameOf? offset).getD unresolvedName ++
      " @" ++ offset.text
| binary op _ _ _ => "binary " ++ op.name
| assign _ _ _ => "binary Assign"

theorem isLabel_label
    (hTable : t.InLine)
    (e : Expr) :
    IsLabel (e.label t) := by
  cases e with
  | int value span =>
      have hWord : IsLabel "int " := by decide
      apply hWord.append
      intro hMem
      exact absurd
        (Literal.isDigit_or_eq_of_mem_toString hMem)
        (by decide)
  | var offset span =>
      apply Outline.isLabel_var
      cases hName : t.nameOf? offset with
      | none =>
          decide
      | some name =>
          exact hTable name (Locals.mem_of_nameOf? hName)
  | binary op lhs rhs span =>
      rw [label]
      cases op <;> decide
  | assign target value span =>
      rw [label]
      decide

/- The lines of an expression can be taken apart. -/
theorem areLabels_outlineOnto
    (hTable : t.InLine)
    (e : Expr)
    {level : Nat}
    {rest : List Outline.Line}
    (hRest : AreLabels rest) :
    AreLabels (e.outlineOnto t level rest) := by
  induction e generalizing level rest with
  | int value span =>
      exact hRest.cons
        (isLabel_label hTable (int value span)).ofNode
  | var offset span =>
      exact hRest.cons
        (isLabel_label hTable (var offset span)).ofNode
  | binary op lhs rhs span ihL ihR =>
      exact (ihL (ihR hRest)).cons
        (isLabel_label hTable (binary op lhs rhs span)).ofNode
  | assign target value span ihT ihV =>
      exact (ihT (ihV hRest)).cons
        (isLabel_label hTable
          (assign target value span)).ofNode

theorem areLabels_clauseOnto
    (hTable : t.InLine)
    {level : Nat}
    {heading : String}
    (hHeading : IsLabel heading)
    (clause : Option Expr)
    {rest : List Outline.Line}
    (hRest : AreLabels rest) :
    AreLabels (clauseOnto t level heading clause rest) := by
  cases clause with
  | none =>
      exact hRest
  | some e =>
      exact (areLabels_outlineOnto hTable e hRest).cons
        hHeading

end Expr

namespace Stmt

/- The label of the first line of a statement. -/
def label : Stmt → String
| expr _ _ => "expr"
| ret _ _ => "return"
| ifThen _ _ _ => "if"
| ifElse _ _ _ _ => "if"
| whileLoop _ _ _ => "while"
| forLoop _ _ _ _ _ => "for"
| block _ _ => "block"

theorem isLabel_label
    (s : Stmt) :
    IsLabel s.label := by
  cases s <;> rw [label] <;> decide

mutual

/- The lines of a statement can be taken apart. -/
theorem areLabels_outlineOnto
    (hTable : t.InLine)
    (s : Stmt)
    {level : Nat}
    {rest : List Outline.Line}
    (hRest : AreLabels rest) :
    AreLabels (s.outlineOnto t level rest) := by
  have hHead :
      ∀ lines,
        AreLabels lines →
        AreLabels
          (.ofNode level s.label s.span :: lines) :=
    fun _ hLines => hLines.cons (isLabel_label s).ofNode
  cases s with
  | expr e span | ret e span =>
      exact hHead _
        (e.areLabels_outlineOnto hTable hRest)
  | ifThen predicate thenArm span
  | whileLoop predicate thenArm span =>
      exact hHead _
        (predicate.areLabels_outlineOnto hTable
          (areLabels_outlineOnto hTable thenArm hRest))
  | ifElse predicate thenArm elseArm span =>
      have hElse : IsLabel "else" := by decide
      apply hHead
      apply predicate.areLabels_outlineOnto hTable
      apply areLabels_outlineOnto hTable thenArm
      exact
        (areLabels_outlineOnto hTable elseArm hRest).cons
          hElse
  | forLoop init predicate step body span =>
      have hBody : IsLabel "body" := by decide
      apply hHead
      apply Expr.areLabels_clauseOnto hTable (by decide)
      apply Expr.areLabels_clauseOnto hTable (by decide)
      apply Expr.areLabels_clauseOnto hTable (by decide)
      exact
        (areLabels_outlineOnto hTable body hRest).cons hBody
  | block body span =>
      exact hHead _
        (areLabels_outlineAllOnto hTable body hRest)

theorem areLabels_outlineAllOnto
    (hTable : t.InLine)
    (ss : List Stmt)
    {level : Nat}
    {rest : List Outline.Line}
    (hRest : AreLabels rest) :
    AreLabels (outlineAllOnto t level ss rest) := by
  cases ss with
  | nil =>
      exact hRest
  | cons s ss =>
      exact areLabels_outlineOnto hTable s
        (areLabels_outlineAllOnto hTable ss hRest)

end

end Stmt

------------------------------------------------------------
-- Expressions
------------------------------------------------------------

/- An operation is told by its name. -/
theorem BinOp.name_injective
    {op op' : BinOp}
    (hSame : op.name = op'.name) :
    op = op' := by
  cases op <;> cases op' <;>
    first | rfl | exact absurd hSame (by decide)

/- No operation has the label of an assignment. -/
theorem BinOp.label_ne_assign
    (op : BinOp) :
    "binary " ++ op.name ≠ "binary Assign" := by
  cases op <;> decide

namespace Expr

/- The first letter of the label of an expression. -/
def initial : Expr → Char
| int _ _ => 'i'
| var _ _ => 'l'
| binary _ _ _ _ => 'b'
| assign _ _ _ => 'b'

theorem head?_label
    (e : Expr) :
    (e.label t).toList.head? = some e.initial := by
  cases e <;> simp [label, initial]

/- The first line of an expression, and those after it. -/
theorem outlineOnto_eq_cons
    (e : Expr)
    (level : Nat)
    (rest : List Outline.Line) :
    ∃ parts,
      e.outlineOnto t level rest =
        .ofNode level (e.label t) e.span :: parts := by
  cases e <;> exact ⟨_, rfl⟩

/- The first line of an expression tells its label. -/
theorem label_eq_of_outlineOnto_eq
    {e e' : Expr}
    {level : Nat}
    {rest rest' : List Outline.Line}
    (hSame :
      e.outlineOnto t level rest =
        e'.outlineOnto t level rest') :
    e.label t = e'.label t ∧
      e.span = e'.span ∧ e.initial = e'.initial := by
  rcases e.outlineOnto_eq_cons (t := t) level rest with
    ⟨parts, hFirst⟩
  rcases e'.outlineOnto_eq_cons (t := t) level rest' with
    ⟨parts', hFirst'⟩
  rw [hFirst, hFirst'] at hSame
  rcases Outline.Line.ofNode_injective
      (List.cons.inj hSame).1 with
    ⟨-, hLabel, hSpan⟩
  have hHead := congrArg (·.toList.head?) hLabel
  simp only [head?_label] at hHead
  exact ⟨hLabel, hSpan, Option.some.inj hHead⟩

/-
  An expression is told by its lines, and so is what follows
  them.
-/
theorem outlineOnto_injective
    {e e' : Expr}
    {level : Nat}
    {rest rest' : List Outline.Line}
    (hSame :
      e.outlineOnto t level rest =
        e'.outlineOnto t level rest') :
    e = e' ∧ rest = rest' := by
  induction e generalizing e' level rest rest' with
  | int value span =>
      rcases label_eq_of_outlineOnto_eq hSame with
        ⟨hLabel, hSpan, hInitial⟩
      cases e' with
      | int value' span' =>
          cases hSpan
          cases Literal.toString_toInt_injective
            ((String.append_right_inj _).mp hLabel)
          exact ⟨rfl, (List.cons.inj hSame).2⟩
      | _ => cases hInitial
  | var offset span =>
      rcases label_eq_of_outlineOnto_eq hSame with
        ⟨hLabel, hSpan, hInitial⟩
      cases e' with
      | var offset' span' =>
          cases hSpan
          cases (Outline.varLabel_injective hLabel).2
          exact ⟨rfl, (List.cons.inj hSame).2⟩
      | _ => cases hInitial
  | binary op lhs rhs span ihL ihR =>
      rcases label_eq_of_outlineOnto_eq hSame with
        ⟨hLabel, hSpan, hInitial⟩
      cases e' with
      | binary op' lhs' rhs' span' =>
          cases hSpan
          cases BinOp.name_injective
            ((String.append_right_inj _).mp hLabel)
          rcases ihL (List.cons.inj hSame).2 with
            ⟨rfl, hRhs⟩
          rcases ihR hRhs with ⟨rfl, hRest⟩
          exact ⟨rfl, hRest⟩
      | assign target value span' =>
          exact absurd hLabel op.label_ne_assign
      | _ => cases hInitial
  | assign target value span ihT ihV =>
      rcases label_eq_of_outlineOnto_eq hSame with
        ⟨hLabel, hSpan, hInitial⟩
      cases e' with
      | assign target' value' span' =>
          cases hSpan
          rcases ihT (List.cons.inj hSame).2 with
            ⟨rfl, hValue⟩
          rcases ihV hValue with ⟨rfl, hRest⟩
          exact ⟨rfl, hRest⟩
      | binary op lhs rhs span' =>
          exact absurd hLabel.symm op.label_ne_assign
      | _ => cases hInitial

/- What starts a clause, or what follows if it is left out. -/
theorem mem_head?_clauseOnto
    {level : Nat}
    {heading : String}
    {clause : Option Expr}
    {rest : List Outline.Line}
    {line : Outline.Line}
    (hLine :
      line ∈ (clauseOnto t level heading clause rest).head?) :
    line.label = heading ∨ line ∈ rest.head? := by
  cases clause with
  | none =>
      exact .inr hLine
  | some e =>
      cases hLine
      exact .inl rfl

/-
  A clause is told by its lines, if what follows it does not
  start with its heading.
-/
theorem clauseOnto_injective
    {level : Nat}
    {heading : String}
    {clause clause' : Option Expr}
    {rest rest' : List Outline.Line}
    (hRest : ∀ line ∈ rest.head?, line.label ≠ heading)
    (hRest' : ∀ line ∈ rest'.head?, line.label ≠ heading)
    (hSame :
      clauseOnto t level heading clause rest =
        clauseOnto t level heading clause' rest') :
    clause = clause' ∧ rest = rest' := by
  cases clause with
  | none =>
      cases clause' with
      | none =>
          exact ⟨rfl, hSame⟩
      | some e' =>
          simp only [clauseOnto] at hSame
          rw [hSame] at hRest
          exact absurd rfl (hRest _ rfl)
  | some e =>
      cases clause' with
      | none =>
          simp only [clauseOnto] at hSame
          rw [← hSame] at hRest'
          exact absurd rfl (hRest' _ rfl)
      | some e' =>
          rcases outlineOnto_injective
              (List.cons.inj hSame).2 with
            ⟨rfl, hTail⟩
          exact ⟨rfl, hTail⟩

end Expr

------------------------------------------------------------
-- Statements
------------------------------------------------------------

/- Lines whose first one, if any, is above a level. -/
def Outline.StartsBelow
    (level : Nat)
    (lines : List Line) : Prop :=
  ∀ line ∈ lines.head?, line.level < level

open Outline (StartsBelow)

theorem Outline.StartsBelow.mono
    {level level' : Nat}
    {lines : List Line}
    (hLines : StartsBelow level lines)
    (hLevel : level ≤ level') :
    StartsBelow level' lines :=
  fun line hLine =>
    Nat.lt_of_lt_of_le (hLines line hLine) hLevel

/- The line at a level does not start below it. -/
theorem Outline.StartsBelow.ne_cons
    {level : Nat}
    {label : String}
    {lines more : List Line}
    (hLines : StartsBelow level lines) :
    lines ≠ ⟨level, label⟩ :: more := by
  rintro rfl
  exact absurd (hLines _ rfl) (Nat.lt_irrefl level)

namespace Stmt

/- The first line of a statement, and those after it. -/
theorem outlineOnto_eq_cons
    (s : Stmt)
    (level : Nat)
    (rest : List Outline.Line) :
    ∃ parts,
      s.outlineOnto t level rest =
        .ofNode level s.label s.span :: parts := by
  cases s <;> exact ⟨_, rfl⟩

/- The first line of a statement tells its label. -/
theorem label_eq_of_outlineOnto_eq
    {s s' : Stmt}
    {level : Nat}
    {rest rest' : List Outline.Line}
    (hSame :
      s.outlineOnto t level rest =
        s'.outlineOnto t level rest') :
    s.label = s'.label ∧ s.span = s'.span := by
  rcases s.outlineOnto_eq_cons (t := t) level rest with
    ⟨parts, hFirst⟩
  rcases s'.outlineOnto_eq_cons (t := t) level rest' with
    ⟨parts', hFirst'⟩
  rw [hFirst, hFirst'] at hSame
  exact (Outline.Line.ofNode_injective
    (List.cons.inj hSame).1).2

/- What follows a statement of a list starts at its level. -/
theorem startsBelow_outlineAllOnto
    (ss : List Stmt)
    {level : Nat}
    {rest : List Outline.Line}
    (hRest : StartsBelow level rest) :
    StartsBelow (level + 1)
      (outlineAllOnto t level ss rest) := by
  cases ss with
  | nil =>
      exact hRest.mono (Nat.le_succ level)
  | cons s ss =>
      rcases s.outlineOnto_eq_cons (t := t) level
          (outlineAllOnto t level ss rest) with
        ⟨parts, hFirst⟩
      rw [outlineAllOnto, hFirst]
      intro line hLine
      cases hLine
      exact Nat.lt_succ_self level

/-
  The lines of the head and the body of a `for` tell which
  clauses there are.
-/
theorem clauses_injective
    {init init' predicate predicate' : Option Expr}
    {step step' : Option Expr}
    {level : Nat}
    {rest rest' : List Outline.Line}
    (hSame :
      Expr.clauseOnto t level "init" init
        (Expr.clauseOnto t level "predicate" predicate
          (Expr.clauseOnto t level "step" step
            (⟨level, "body"⟩ :: rest))) =
      Expr.clauseOnto t level "init" init'
        (Expr.clauseOnto t level "predicate" predicate'
          (Expr.clauseOnto t level "step" step'
            (⟨level, "body"⟩ :: rest')))) :
    init = init' ∧
      predicate = predicate' ∧
      step = step' ∧ rest = rest' := by
  -- The headings that can still come after each clause.
  have hBody :
      ∀ lines : List Outline.Line,
        ∀ line ∈
            ((⟨level, "body"⟩ : Outline.Line) ::
              lines).head?,
          line.label = "body" := by
    intro lines line hLine
    cases hLine
    rfl
  have hStep :
      ∀ (clause : Option Expr) (lines : List Outline.Line),
        ∀ line ∈
            (Expr.clauseOnto t level "step" clause
              (⟨level, "body"⟩ :: lines)).head?,
          line.label = "step" ∨ line.label = "body" := by
    intro clause lines line hLine
    exact (Expr.mem_head?_clauseOnto hLine).imp_right
      (hBody lines line)
  have hPredicate :
      ∀ (clause clause' : Option Expr)
        (lines : List Outline.Line),
        ∀ line ∈
            (Expr.clauseOnto t level "predicate" clause
              (Expr.clauseOnto t level "step" clause'
                (⟨level, "body"⟩ :: lines))).head?,
          line.label = "predicate" ∨
            line.label = "step" ∨ line.label = "body" := by
    intro clause clause' lines line hLine
    exact (Expr.mem_head?_clauseOnto hLine).imp_right
      (hStep clause' lines line)
  rcases Expr.clauseOnto_injective
      (by grind) (by grind) hSame with
    ⟨rfl, hAfterInit⟩
  rcases Expr.clauseOnto_injective
      (by grind) (by grind) hAfterInit with
    ⟨rfl, hAfterPredicate⟩
  rcases Expr.clauseOnto_injective
      (by grind) (by grind) hAfterPredicate with
    ⟨rfl, hAfterStep⟩
  exact ⟨rfl, rfl, rfl, (List.cons.inj hAfterStep).2⟩

mutual

/-
  A statement is told by its lines, and so is what follows
  them, if that does not start with a part of a statement.
-/
theorem outlineOnto_injective
    (s : Stmt)
    {s' : Stmt}
    {level : Nat}
    {rest rest' : List Outline.Line}
    (hRest : StartsBelow (level + 1) rest)
    (hRest' : StartsBelow (level + 1) rest')
    (hSame :
      s.outlineOnto t level rest =
        s'.outlineOnto t level rest') :
    s = s' ∧ rest = rest' := by
  rcases label_eq_of_outlineOnto_eq hSame with
    ⟨hLabel, hSpan⟩
  have hDeep := hRest.mono (Nat.le_succ (level + 1))
  have hDeep' := hRest'.mono (Nat.le_succ (level + 1))
  have hDeeper := hDeep.mono (Nat.le_succ (level + 2))
  have hDeeper' := hDeep'.mono (Nat.le_succ (level + 2))
  have hElse :
      ∀ lines,
        StartsBelow (level + 2)
          (⟨level + 1, "else"⟩ :: lines) := by
    intro lines line hLine
    cases hLine
    exact Nat.lt_succ_self (level + 1)
  cases s with
  | expr e span =>
      cases s' with
      | expr e' span' =>
          cases hSpan
          rcases Expr.outlineOnto_injective
              (List.cons.inj hSame).2 with
            ⟨rfl, hTail⟩
          exact ⟨rfl, hTail⟩
      | _ => simp [label] at hLabel
  | ret e span =>
      cases s' with
      | ret e' span' =>
          cases hSpan
          rcases Expr.outlineOnto_injective
              (List.cons.inj hSame).2 with
            ⟨rfl, hTail⟩
          exact ⟨rfl, hTail⟩
      | _ => simp [label] at hLabel
  | ifThen predicate thenArm span =>
      cases s' with
      | ifThen predicate' thenArm' span' =>
          cases hSpan
          rcases Expr.outlineOnto_injective
              (List.cons.inj hSame).2 with
            ⟨rfl, hArms⟩
          rcases outlineOnto_injective thenArm hDeep hDeep'
              hArms with
            ⟨rfl, hTail⟩
          exact ⟨rfl, hTail⟩
      | ifElse predicate' thenArm' elseArm' span' =>
          rcases Expr.outlineOnto_injective
              (List.cons.inj hSame).2 with
            ⟨rfl, hArms⟩
          rcases outlineOnto_injective thenArm hDeep
              (hElse _) hArms with
            ⟨-, hTail⟩
          exact absurd hTail hRest.ne_cons
      | _ => simp [label] at hLabel
  | ifElse predicate thenArm elseArm span =>
      cases s' with
      | ifThen predicate' thenArm' span' =>
          rcases Expr.outlineOnto_injective
              (List.cons.inj hSame).2 with
            ⟨rfl, hArms⟩
          rcases outlineOnto_injective thenArm (hElse _)
              hDeep' hArms with
            ⟨-, hTail⟩
          exact absurd hTail.symm hRest'.ne_cons
      | ifElse predicate' thenArm' elseArm' span' =>
          cases hSpan
          rcases Expr.outlineOnto_injective
              (List.cons.inj hSame).2 with
            ⟨rfl, hArms⟩
          rcases outlineOnto_injective thenArm (hElse _)
              (hElse _) hArms with
            ⟨rfl, hElseArm⟩
          rcases outlineOnto_injective elseArm hDeeper
              hDeeper' (List.cons.inj hElseArm).2 with
            ⟨rfl, hTail⟩
          exact ⟨rfl, hTail⟩
      | _ => simp [label] at hLabel
  | whileLoop predicate body span =>
      cases s' with
      | whileLoop predicate' body' span' =>
          cases hSpan
          rcases Expr.outlineOnto_injective
              (List.cons.inj hSame).2 with
            ⟨rfl, hBody⟩
          rcases outlineOnto_injective body hDeep hDeep'
              hBody with
            ⟨rfl, hTail⟩
          exact ⟨rfl, hTail⟩
      | _ => simp [label] at hLabel
  | forLoop init predicate step body span =>
      cases s' with
      | forLoop init' predicate' step' body' span' =>
          cases hSpan
          rcases clauses_injective
              (List.cons.inj hSame).2 with
            ⟨rfl, rfl, rfl, hBody⟩
          rcases outlineOnto_injective body hDeeper hDeeper'
              hBody with
            ⟨rfl, hTail⟩
          exact ⟨rfl, hTail⟩
      | _ => simp [label] at hLabel
  | block body span =>
      cases s' with
      | block body' span' =>
          cases hSpan
          rcases outlineAllOnto_injective body hRest hRest'
              (List.cons.inj hSame).2 with
            ⟨rfl, hTail⟩
          exact ⟨rfl, hTail⟩
      | _ => simp [label] at hLabel

/- Statements in a row are told by their lines. -/
theorem outlineAllOnto_injective
    (ss : List Stmt)
    {ss' : List Stmt}
    {level : Nat}
    {rest rest' : List Outline.Line}
    (hRest : StartsBelow level rest)
    (hRest' : StartsBelow level rest')
    (hSame :
      outlineAllOnto t level ss rest =
        outlineAllOnto t level ss' rest') :
    ss = ss' ∧ rest = rest' := by
  cases ss with
  | nil =>
      cases ss' with
      | nil =>
          exact ⟨rfl, hSame⟩
      | cons s' ss' =>
          rcases s'.outlineOnto_eq_cons (t := t) level
              (outlineAllOnto t level ss' rest') with
            ⟨parts, hFirst⟩
          rw [outlineAllOnto, outlineAllOnto,
            hFirst] at hSame
          exact absurd hSame hRest.ne_cons
  | cons s ss =>
      cases ss' with
      | nil =>
          rcases s.outlineOnto_eq_cons (t := t) level
              (outlineAllOnto t level ss rest) with
            ⟨parts, hFirst⟩
          rw [outlineAllOnto, outlineAllOnto,
            hFirst] at hSame
          exact absurd hSame.symm hRest'.ne_cons
      | cons s' ss' =>
          rcases outlineOnto_injective s
              (startsBelow_outlineAllOnto ss hRest)
              (startsBelow_outlineAllOnto ss' hRest')
              hSame with
            ⟨rfl, hTail⟩
          rcases outlineAllOnto_injective ss hRest hRest'
              hTail with
            ⟨rfl, hEnd⟩
          exact ⟨rfl, hEnd⟩

end

end Stmt

------------------------------------------------------------
-- Programs
------------------------------------------------------------

namespace Locals

/- The line of the variable with the given index. -/
def lineAt
    (name : String)
    (index : Nat) : Outline.Line :=
  ⟨0, "local " ++ name ++ " @" ++ (offsetAt index).text⟩

theorem outline_eq_map
    (t : Locals) :
    t.outline =
      t.names.zipIdx.map (fun p => lineAt p.1 p.2) := by
  simp [outline, entries, lineAt]

/- The lines of a table can be taken apart. -/
theorem areLabels_outline
    (hTable : t.InLine) :
    AreLabels t.outline := by
  rw [outline_eq_map]
  intro line hLine
  rcases List.mem_map.mp hLine with ⟨⟨name, i⟩, hMem, rfl⟩
  have hName : name ∈ t.names :=
    List.fst_mem_of_mem_zipIdx hMem
  exact Outline.isLabel_var (hTable name hName) _

/-
  Names from an index on are told by their lines, if what
  follows them does not start with the letter of a line of
  the table.
-/
theorem lines_injective
    {names names' : List String}
    {index : Nat}
    {rest rest' : List Outline.Line}
    (hRest :
      ∀ line ∈ rest.head?,
        line.label.toList.head? ≠ some 'l')
    (hRest' :
      ∀ line ∈ rest'.head?,
        line.label.toList.head? ≠ some 'l')
    (hSame :
      (names.zipIdx index).map
          (fun p => lineAt p.1 p.2) ++ rest =
        (names'.zipIdx index).map
          (fun p => lineAt p.1 p.2) ++ rest') :
    names = names' ∧ rest = rest' := by
  have hLetter :
      ∀ (name : String) (i : Nat),
        (lineAt name i).label.toList.head? = some 'l' := by
    intro name i
    simp [lineAt]
  induction names generalizing names' index with
  | nil =>
      cases names' with
      | nil =>
          exact ⟨rfl, hSame⟩
      | cons name' names' =>
          rw [show rest = _ from hSame] at hRest
          exact absurd (hLetter name' index)
            (hRest _ rfl)
  | cons name names ih =>
      cases names' with
      | nil =>
          rw [show rest' = _ from hSame.symm] at hRest'
          exact absurd (hLetter name index)
            (hRest' _ rfl)
      | cons name' names' =>
          rcases List.cons.inj hSame with ⟨hLine, hLines⟩
          have hLabel := congrArg Outline.Line.label hLine
          cases (Outline.varLabel_injective hLabel).1
          rcases ih hLines with ⟨rfl, hEnd⟩
          exact ⟨rfl, hEnd⟩

/- A table is told by its lines, whatever follows them. -/
theorem outline_injective
    {t t' : Locals}
    {rest rest' : List Outline.Line}
    (hRest :
      ∀ line ∈ rest.head?,
        line.label.toList.head? ≠ some 'l')
    (hRest' :
      ∀ line ∈ rest'.head?,
        line.label.toList.head? ≠ some 'l')
    (hSame : t.outline ++ rest = t'.outline ++ rest') :
    t = t' ∧ rest = rest' := by
  rw [outline_eq_map, outline_eq_map] at hSame
  rcases lines_injective hRest hRest' hSame with
    ⟨hNames, hEnd⟩
  rcases t with ⟨names⟩
  rcases t' with ⟨names'⟩
  cases hNames
  exact ⟨rfl, hEnd⟩

end Locals

/- Statements do not start like a line of a table. -/
theorem Stmt.head?_label_outlineAllOnto
    {level : Nat}
    {ss : List Stmt}
    {line : Outline.Line}
    (hLine :
      line ∈ (outlineAllOnto t level ss []).head?) :
    line.label.toList.head? ≠ some 'l' := by
  cases ss with
  | nil =>
      cases hLine
  | cons s ss =>
      rcases s.outlineOnto_eq_cons (t := t) level
          (outlineAllOnto t level ss []) with
        ⟨parts, hFirst⟩
      rw [outlineAllOnto, hFirst] at hLine
      cases hLine
      cases s <;> simp [label, Outline.Line.ofNode]

namespace Program

/- The table and the body are told by the lines of both. -/
theorem outline_injective
    {p q : Program}
    (hSame : p.outline = q.outline) :
    p.locals = q.locals ∧ p.body = q.body := by
  rcases Locals.outline_injective
      (fun _ => Stmt.head?_label_outlineAllOnto)
      (fun _ => Stmt.head?_label_outlineAllOnto) hSame with
    ⟨hLocals, hLines⟩
  have hEnd : StartsBelow 0 [] := by
    intro line hLine
    cases hLine
  rw [hLocals] at hLines
  exact ⟨hLocals,
    (Stmt.outlineAllOnto_injective p.body hEnd hEnd
      hLines).1⟩

/- The lines of a program can be taken apart. -/
theorem areLabels_outline
    {p : Program}
    (hTable : p.locals.InLine) :
    AreLabels p.outline := by
  have hEnd : AreLabels [] := by
    intro line hLine
    cases hLine
  exact List.forall_mem_append.mpr
    ⟨Locals.areLabels_outline hTable,
      Stmt.areLabels_outlineAllOnto hTable p.body hEnd⟩

/- The variables of a program are named in its source. -/
theorem isName_of_parse
    {src : String}
    {s : TokenStream}
    {p : Program}
    (hLex : lex src = .ok s)
    (hParse : parse s = .ok p) :
    ∀ name ∈ p.locals.names, IsName name := by
  have hInside := isEof_eq_false_of_lex hLex
  rcases exists_phrases hInside hParse with
    ⟨-, -, -, hLocals, -⟩
  rw [hLocals]
  intro name hName
  rcases List.mem_map.mp
      (Locals.names_after_subset s.tokens hName) with
    ⟨token, hToken, rfl⟩
  rcases List.mem_filter.mp hToken with ⟨hMem, hKind⟩
  have hTerminal :
      token.terminal = .name token.lexeme := by
    simp only [decide_eq_true_eq] at hKind
    simp [Token.terminal, hKind]
  have hSpellable := spellable_of_lex hLex token.terminal
    (by
      rw [TokenStream.terminals_eq_map hInside]
      exact List.mem_map_of_mem hMem)
  rw [hTerminal] at hSpellable
  exact hSpellable

/- The names in a source do not run over a line end. -/
theorem inLine_of_parse
    {src : String}
    {s : TokenStream}
    {p : Program}
    (hLex : lex src = .ok s)
    (hParse : parse s = .ok p) :
    p.locals.InLine := by
  intro name hName hMem
  have hWord := (isName_of_parse hLex hParse name hName).1
  have hToken : IsTokenText name.toList := ⟨.word, hWord⟩
  exact hToken.not_isBlank _ hMem (.inr (.inr (.inl rfl)))

/- The text of an outline is that of its lines. -/
theorem outlineText?_eq_some
    {p : Program}
    {text : String}
    (hText : p.outlineText? = some text) :
    String.join (p.outline.map Outline.Line.text) =
      text := by
  unfold outlineText? Outline.text? at hText
  split at hText
  · exact Option.some.inj hText
  · cases hText

/-
  Programs read from two sources are equal, regions, table
  and all, if their outlines are the same text.
-/
theorem outlineText_faithful
    {src src' : String}
    {s s' : TokenStream}
    {p q : Program}
    {text : String}
    (hLex : lex src = .ok s)
    (hLex' : lex src' = .ok s')
    (hParse : parse s = .ok p)
    (hParse' : parse s' = .ok q)
    (hText : p.outlineText? = some text)
    (hText' : q.outlineText? = some text) :
    p = q := by
  have hSame :
      String.join (p.outline.map Outline.Line.text) =
        String.join (q.outline.map Outline.Line.text) := by
    rw [outlineText?_eq_some hText,
      outlineText?_eq_some hText']
  have hLines : p.outline = q.outline :=
    Outline.lines_injective
      (areLabels_outline (inLine_of_parse hLex hParse))
      (areLabels_outline (inLine_of_parse hLex' hParse'))
      hSame
  rcases outline_injective hLines with ⟨hLocals, hBody⟩
  rcases run_of_parse hParse with ⟨r, -, rfl⟩
  rcases run_of_parse hParse' with ⟨r', -, rfl⟩
  simp only at hLocals hBody
  rw [hLocals, hBody]

/-
  Two sources that write a number in different ways, and
  the outline that their programs have in common.
-/
theorem spellings_have_one_outline :
    let text :=
      "local a @8\nif (0..12)\n  local a @8 (3..4)\n" ++
        "  expr (5..12)\n    binary Assign (5..11)\n" ++
        "      local a @8 (5..6)\n      int 31 (7..11)\n"
    ∃ s s' p q,
      lex "if(a)a=0x1F;" = .ok s ∧
      lex "if(a)a=0031;\n" = .ok s' ∧
      parse s = .ok p ∧
      parse s' = .ok q ∧
      p.outlineText? = some text ∧
      q.outlineText? = some text ∧
      p = q := by
  intro text
  let tokens : List Token :=
    [⟨.kwIf, "if", ⟨0, 2⟩⟩, ⟨.lparen, "(", ⟨2, 1⟩⟩,
      ⟨.identifier, "a", ⟨3, 1⟩⟩, ⟨.rparen, ")", ⟨4, 1⟩⟩,
      ⟨.identifier, "a", ⟨5, 1⟩⟩, ⟨.assign, "=", ⟨6, 1⟩⟩,
      ⟨.number, "31", ⟨7, 4⟩⟩, ⟨.semicolon, ";", ⟨11, 1⟩⟩]
  let s : TokenStream := ⟨tokens, .eofAt 12, rfl⟩
  let s' : TokenStream := ⟨tokens, .eofAt 13, rfl⟩
  let p : Program :=
    ⟨mainName,
      [.ifThen (.var ⟨8⟩ ⟨3, 1⟩)
        (.expr
          (.assign (.var ⟨8⟩ ⟨5, 1⟩) (.int 31 ⟨7, 4⟩)
            ⟨5, 6⟩)
          ⟨5, 7⟩)
        ⟨0, 12⟩],
      ⟨["a"]⟩⟩
  have hLex : lex "if(a)a=0x1F;" = .ok s := by
    decide +kernel
  have hLex' : lex "if(a)a=0031;\n" = .ok s' := by
    decide +kernel
  have hParse : parse s = .ok p := by decide +kernel
  have hParse' : parse s' = .ok p := by decide +kernel
  have hText : p.outlineText? = some text := by
    decide +kernel
  exact ⟨s, s', p, p, hLex, hLex', hParse, hParse', hText,
    hText,
    outlineText_faithful hLex hLex' hParse hParse' hText
      hText⟩

end Program

end WordLang
