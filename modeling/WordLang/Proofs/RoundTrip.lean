import WordLang.Proofs.ParserSafety
import WordLang.Proofs.Printer
import WordLang.Proofs.Resolution

/-
  This file proves that parsing undoes printing.

  Statements that can be written are read back from their
  source. The regions are those of the source, and the
  offsets of the variables are given out anew, so that the
  variables are compared by their names. Whatever is read
  from a source can be written. These are then exactly the
  statements that the parser gives.

  Key definitions include:
    * `WordLang.Expr.SameByName`
    * `WordLang.Stmt.SameByName`

  Key theorems include:
    * `WordLang.Program.parse_source`
    * `WordLang.Program.writable_of_parse`
    * `WordLang.Program.parse_undoes_printing`
-/

namespace WordLang

------------------------------------------------------------
-- Comparison by Names
------------------------------------------------------------

/-
  Two expressions are the same, but for their regions and
  the offsets of variables with the same name.
-/
inductive Expr.SameByName
    (names names' : Naming) :
    Expr →
    Expr →
    Prop where
  | int
      {value : Int64}
      {span span' : Span} :
      SameByName names names'
        (.int value span) (.int value span')
  | var
      {offset offset' : Offset}
      {span span' : Span} :
      names offset = names' offset' →
      SameByName names names'
        (.var offset span) (.var offset' span')
  | binary
      {op : BinOp}
      {l r l' r' : Expr}
      {span span' : Span} :
      SameByName names names' l l' →
      SameByName names names' r r' →
      SameByName names names'
        (.binary op l r span) (.binary op l' r' span')
  | assign
      {d v d' v' : Expr}
      {span span' : Span} :
      SameByName names names' d d' →
      SameByName names names' v v' →
      SameByName names names'
        (.assign d v span) (.assign d' v' span')

namespace Stmt

mutual

/- The same, for statements. -/
inductive SameByName
    (names names' : Naming) :
    Stmt →
    Stmt →
    Prop where
  | expr
      {e e' : Expr}
      {span span' : Span} :
      e.SameByName names names' e' →
      SameByName names names' (.expr e span) (.expr e' span')
  | ret
      {e e' : Expr}
      {span span' : Span} :
      e.SameByName names names' e' →
      SameByName names names' (.ret e span) (.ret e' span')
  | ifThen
      {p p' : Expr}
      {s s' : Stmt}
      {span span' : Span} :
      p.SameByName names names' p' →
      SameByName names names' s s' →
      SameByName names names'
        (.ifThen p s span) (.ifThen p' s' span')
  | ifElse
      {p p' : Expr}
      {s s' a a' : Stmt}
      {span span' : Span} :
      p.SameByName names names' p' →
      SameByName names names' s s' →
      SameByName names names' a a' →
      SameByName names names'
        (.ifElse p s a span) (.ifElse p' s' a' span')
  | whileLoop
      {p p' : Expr}
      {s s' : Stmt}
      {span span' : Span} :
      p.SameByName names names' p' →
      SameByName names names' s s' →
      SameByName names names'
        (.whileLoop p s span) (.whileLoop p' s' span')
  | forLoop
      {i p n i' p' n' : Option Expr}
      {s s' : Stmt}
      {span span' : Span} :
      Option.Rel (Expr.SameByName names names') i i' →
      Option.Rel (Expr.SameByName names names') p p' →
      Option.Rel (Expr.SameByName names names') n n' →
      SameByName names names' s s' →
      SameByName names names'
        (.forLoop i p n s span) (.forLoop i' p' n' s' span')
  | block
      {ss ss' : List Stmt}
      {span span' : Span} :
      SameAllByName names names' ss ss' →
      SameByName names names'
        (.block ss span) (.block ss' span')

/- The same, for statements one after another. -/
inductive SameAllByName
    (names names' : Naming) :
    List Stmt →
    List Stmt →
    Prop where
  | nil :
      SameAllByName names names' [] []
  | cons
      {s s' : Stmt}
      {ss ss' : List Stmt} :
      SameByName names names' s s' →
      SameAllByName names names' ss ss' →
      SameAllByName names names' (s :: ss) (s' :: ss')

end

end Stmt

------------------------------------------------------------
-- What Is the Same Can Be Written Alike
------------------------------------------------------------

namespace Expr

variable {names names' : Naming}

theorem SameByName.isVar_eq
    {e e' : Expr}
    (hSame : e.SameByName names names' e') :
    e.isVar = e'.isVar := by
  cases hSame <;> rfl

/- An expression can be written if one like it can. -/
theorem SameByName.writable
    {e e' : Expr}
    (hSame : e.SameByName names names' e')
    (hWritable : e'.Writable names') :
    e.Writable names := by
  induction hSame with
  | int =>
      exact hWritable
  | var hName =>
      rw [Writable, hName]
      exact hWritable
  | binary hLeft hRight ihLeft ihRight =>
      exact ⟨ihLeft hWritable.1, ihRight hWritable.2⟩
  | assign hTarget hValue ihTarget ihValue =>
      rcases hWritable with
        ⟨hVar, hTargetWritable, hValueWritable⟩
      exact ⟨by rw [hTarget.isVar_eq, hVar],
        ihTarget hTargetWritable, ihValue hValueWritable⟩

theorem SameByName.writable_option
    {e e' : Option Expr}
    (hSame : Option.Rel (SameByName names names') e e')
    (hWritable : ∀ a ∈ e', a.Writable names') :
    ∀ a ∈ e, a.Writable names := by
  cases hSame with
  | none =>
      simp
  | some hSome =>
      simpa using hSome.writable (hWritable _ rfl)

/- Regions make no difference. -/
theorem sameByName_bare
    (e : Expr) :
    e.SameByName names names e.bare := by
  induction e with
  | int value span =>
      exact .int
  | var offset span =>
      exact .var rfl
  | binary op lhs rhs span ihLhs ihRhs =>
      exact .binary ihLhs ihRhs
  | assign target value span ihTarget ihValue =>
      exact .assign ihTarget ihValue

theorem sameByName_map_bare
    (e : Option Expr) :
    Option.Rel (SameByName names names) e
      (e.map Expr.bare) := by
  cases e with
  | none =>
      exact .none
  | some e =>
      exact .some e.sameByName_bare

end Expr

namespace Stmt

variable {names names' : Naming}

theorem SameByName.endsOpen_eq
    {s s' : Stmt}
    (hSame : s.SameByName names names' s') :
    s.endsOpen = s'.endsOpen := by
  match hSame with
  | .expr _ | .ret _ | .ifThen _ _ | .block _ =>
      rfl
  | .ifElse _ _ hElse =>
      exact hElse.endsOpen_eq
  | .whileLoop _ hBody | .forLoop _ _ _ hBody =>
      exact hBody.endsOpen_eq

mutual

/- A statement can be written if one like it can. -/
theorem SameByName.writable
    {s s' : Stmt}
    (hSame : s.SameByName names names' s')
    (hWritable : s'.Writable names') :
    s.Writable names := by
  match hSame with
  | .expr hExpr | .ret hExpr =>
      exact hExpr.writable hWritable
  | .ifThen hPredicate hArm | .whileLoop hPredicate hArm =>
      exact ⟨hPredicate.writable hWritable.1,
        hArm.writable hWritable.2⟩
  | .ifElse hPredicate hThen hElse =>
      rcases hWritable with
        ⟨hFirst, hClosed, hSecond, hThird⟩
      exact ⟨hPredicate.writable hFirst,
        by rw [hThen.endsOpen_eq, hClosed],
        hThen.writable hSecond, hElse.writable hThird⟩
  | .forLoop hInit hPredicate hStep hBody =>
      rcases hWritable with
        ⟨hFirst, hSecond, hThird, hFourth⟩
      exact ⟨Expr.SameByName.writable_option hInit hFirst,
        Expr.SameByName.writable_option hPredicate hSecond,
        Expr.SameByName.writable_option hStep hThird,
        hBody.writable hFourth⟩
  | .block hBody =>
      exact hBody.writable hWritable

/- The same, for statements one after another. -/
theorem SameAllByName.writable
    {ss ss' : List Stmt}
    (hSame : SameAllByName names names' ss ss')
    (hWritable : WritableAll names' ss') :
    WritableAll names ss := by
  match hSame with
  | .nil =>
      trivial
  | .cons hFirst hRest =>
      exact ⟨hFirst.writable hWritable.1,
        hRest.writable hWritable.2⟩

end

mutual

/- Regions make no difference. -/
theorem sameByName_bare
    (s : Stmt) :
    s.SameByName names names s.bare := by
  match s with
  | expr e _ =>
      exact .expr e.sameByName_bare
  | ret e _ =>
      exact .ret e.sameByName_bare
  | ifThen p s _ =>
      exact .ifThen p.sameByName_bare (sameByName_bare s)
  | ifElse p s s' _ =>
      exact .ifElse p.sameByName_bare (sameByName_bare s)
        (sameByName_bare s')
  | whileLoop p s _ =>
      exact .whileLoop p.sameByName_bare (sameByName_bare s)
  | forLoop i p n s _ =>
      exact .forLoop (Expr.sameByName_map_bare i)
        (Expr.sameByName_map_bare p)
        (Expr.sameByName_map_bare n) (sameByName_bare s)
  | block ss _ =>
      exact .block (sameAllByName_bareAll ss)

/- The same, for statements one after another. -/
theorem sameAllByName_bareAll
    (ss : List Stmt) :
    SameAllByName names names ss (bareAll ss) := by
  match ss with
  | [] =>
      exact .nil
  | s :: ss =>
      exact .cons (sameByName_bare s)
        (sameAllByName_bareAll ss)

end

end Stmt

------------------------------------------------------------
-- Reading What Is Written
------------------------------------------------------------

namespace Expr

variable {names : Naming}
variable {t : Locals}

/- What is written for an expression is read as the same. -/
theorem sameByName_of_lower?
    (hSize : t.size < 2 ^ 29)
    {e e' : Expr}
    (hWritable : e.Writable names)
    (hLower : (e.tree names).lower? t = some e'.bare) :
    e.SameByName names t.nameOf? e' := by
  induction e generalizing e' with
  | int value span =>
      rw [tree, ExprTree.lower?,
        Literal.read?_toString_toInt] at hLower
      cases e' with
      | int value' span' =>
          cases hLower
          exact .int
      | _ =>
          cases hLower
  | var offset span =>
      rcases hWritable with ⟨name, hName, -⟩
      rw [Option.mem_def] at hName
      rw [tree, hName, Option.getD_some] at hLower
      rcases Option.map_eq_some_iff.mp hLower with
        ⟨offset', hOffset, hVar⟩
      cases e' with
      | var offset'' span' =>
          cases hVar
          have hFound := Locals.nameOf?_of_offset? hSize hOffset
          exact .var (hName.trans hFound.symm)
      | _ =>
          cases hVar
  | binary op lhs rhs span ihLhs ihRhs =>
      rcases ExprTree.lower?_chain.mp hLower with
        ⟨a, b, hLeft, hRight, hBinary⟩
      rw [op.combine_connective] at hBinary
      cases e' with
      | binary op' lhs' rhs' span' =>
          cases hBinary
          exact .binary (ihLhs hWritable.1 hLeft)
            (ihRhs hWritable.2 hRight)
      | _ =>
          cases hBinary
  | assign target value span ihTarget ihValue =>
      rcases ExprTree.lower?_assign.mp hLower with
        ⟨a, b, hTarget, hValue, hAssign⟩
      rcases hWritable with
        ⟨-, hTargetWritable, hValueWritable⟩
      cases e' with
      | assign target' value' span' =>
          cases hAssign
          exact .assign (ihTarget hTargetWritable hTarget)
            (ihValue hValueWritable hValue)
      | _ =>
          cases hAssign

theorem sameByName_of_lowerOption?
    (hSize : t.size < 2 ^ 29)
    {e e' : Option Expr}
    (hWritable : ∀ a ∈ e, a.Writable names)
    (hLower :
      ExprTree.lowerOption? t (e.map (tree names)) =
        some (e'.map bare)) :
    Option.Rel (SameByName names t.nameOf?) e e' := by
  cases e with
  | none =>
      cases e' with
      | none =>
          exact .none
      | some a' =>
          cases hLower
  | some a =>
      rcases Option.map_eq_some_iff.mp hLower with
        ⟨b, hExpr, hSome⟩
      cases e' with
      | none =>
          cases hSome
      | some a' =>
          cases hSome
          exact .some
            (sameByName_of_lower? hSize (hWritable a rfl)
              hExpr)

end Expr

namespace Stmt

variable {names : Naming}
variable {t : Locals}

mutual

/- What is written for a statement is read as the same. -/
theorem sameByName_of_lower?
    (hSize : t.size < 2 ^ 29)
    {s s' : Stmt}
    (hWritable : s.Writable names)
    (hLower : (s.tree names).lower? t = some s'.bare) :
    s.SameByName names t.nameOf? s' := by
  match s with
  | expr e _ =>
      rcases StmtTree.lower?_expr.mp hLower with
        ⟨a, hExpr, hStmt⟩
      cases s' with
      | expr e' span' =>
          cases hStmt
          exact .expr
            (Expr.sameByName_of_lower? hSize hWritable hExpr)
      | _ =>
          cases hStmt
  | ret e _ =>
      rcases StmtTree.lower?_ret.mp hLower with
        ⟨a, hExpr, hStmt⟩
      cases s' with
      | ret e' span' =>
          cases hStmt
          exact .ret
            (Expr.sameByName_of_lower? hSize hWritable hExpr)
      | _ =>
          cases hStmt
  | ifThen p s _ =>
      rcases StmtTree.lower?_ifThen.mp hLower with
        ⟨e, a, hPredicate, hArm, hStmt⟩
      cases s' with
      | ifThen p' s' span' =>
          cases hStmt
          exact .ifThen
            (Expr.sameByName_of_lower? hSize hWritable.1
              hPredicate)
            (sameByName_of_lower? hSize hWritable.2 hArm)
      | _ =>
          cases hStmt
  | ifElse p s a _ =>
      rcases StmtTree.lower?_ifElse.mp hLower with
        ⟨e, b, c, hPredicate, hThen, hElse, hStmt⟩
      rcases hWritable with ⟨hFirst, -, hSecond, hThird⟩
      cases s' with
      | ifElse p' s' a' span' =>
          cases hStmt
          exact .ifElse
            (Expr.sameByName_of_lower? hSize hFirst
              hPredicate)
            (sameByName_of_lower? hSize hSecond hThen)
            (sameByName_of_lower? hSize hThird hElse)
      | _ =>
          cases hStmt
  | whileLoop p s _ =>
      rcases StmtTree.lower?_whileLoop.mp hLower with
        ⟨e, a, hPredicate, hBody, hStmt⟩
      cases s' with
      | whileLoop p' s' span' =>
          cases hStmt
          exact .whileLoop
            (Expr.sameByName_of_lower? hSize hWritable.1
              hPredicate)
            (sameByName_of_lower? hSize hWritable.2 hBody)
      | _ =>
          cases hStmt
  | forLoop i p n s _ =>
      rcases StmtTree.lower?_forLoop.mp hLower with
        ⟨b, c, d, a, hInit, hPredicate, hStep, hBody,
          hStmt⟩
      rcases hWritable with
        ⟨hFirst, hSecond, hThird, hFourth⟩
      cases s' with
      | forLoop i' p' n' s' span' =>
          cases hStmt
          exact .forLoop
            (Expr.sameByName_of_lowerOption? hSize hFirst
              hInit)
            (Expr.sameByName_of_lowerOption? hSize hSecond
              hPredicate)
            (Expr.sameByName_of_lowerOption? hSize hThird
              hStep)
            (sameByName_of_lower? hSize hFourth hBody)
      | _ =>
          cases hStmt
  | block ss _ =>
      rcases StmtTree.lower?_block.mp hLower with
        ⟨body, hBody, hStmt⟩
      cases s' with
      | block ss' span' =>
          cases hStmt
          exact .block
            (sameAllByName_of_lowerAll? hSize hWritable
              hBody)
      | _ =>
          cases hStmt

/- The same, for statements one after another. -/
theorem sameAllByName_of_lowerAll?
    (hSize : t.size < 2 ^ 29)
    {ss ss' : List Stmt}
    (hWritable : WritableAll names ss)
    (hLower :
      StmtTree.lowerAll? t (treeAll names ss) =
        some (bareAll ss')) :
    SameAllByName names t.nameOf? ss ss' := by
  match ss with
  | [] =>
      cases ss' with
      | nil =>
          exact .nil
      | cons s' ss' =>
          cases hLower
  | s :: ss =>
      rcases StmtTree.lowerAll?_cons.mp hLower with
        ⟨a, body, hFirst, hRest, hStmts⟩
      cases ss' with
      | nil =>
          cases hStmts
      | cons s' ss' =>
          cases hStmts
          exact .cons
            (sameByName_of_lower? hSize hWritable.1 hFirst)
            (sameAllByName_of_lowerAll? hSize hWritable.2
              hRest)

end

end Stmt

------------------------------------------------------------
-- Writing What Was Read
------------------------------------------------------------

namespace Connective

/- An operation can be written if its operands can. -/
theorem writable_combine
    (c : Connective)
    {names : Naming}
    {a b : Expr}
    (hLeft : a.Writable names)
    (hRight : b.Writable names) :
    (c.combine a b).Writable names := by
  cases c with
  | greater | greaterEqual =>
      exact ⟨hRight, hLeft⟩
  | _ =>
      exact ⟨hLeft, hRight⟩

end Connective

namespace ExprTree

variable {t : Locals}

/- A numeral that can be written is not negative. -/
theorem nonneg_of_read?
    {s : String}
    {v : Int64}
    (hSpellable : (Terminal.number s).Spellable)
    (hRead : Literal.read? s = some v) :
    0 ≤ v.toInt := by
  rcases hSpellable with ⟨n, hRange, rfl⟩
  have hRange : n < 2 ^ 63 := hRange
  rw [Literal.read?_toString hRange] at hRead
  cases hRead
  rw [Int64.toInt_ofNat_of_lt hRange]
  exact Int.natCast_nonneg n

/- What is read as an expression can be written. -/
theorem writable_of_lower?
    (hSize : t.size < 2 ^ 29)
    {d : ExprTree}
    {e : Expr}
    (hValid : d.Valid)
    (hSpellable : d.Spellable)
    (hLower : d.lower? t = some e) :
    e.Writable t.nameOf? := by
  induction d generalizing e with
  | number s =>
      rcases Option.map_eq_some_iff.mp hLower with
        ⟨v, hRead, rfl⟩
      exact nonneg_of_read?
        (hSpellable _ List.mem_cons_self) hRead
  | name s =>
      rcases Option.map_eq_some_iff.mp hLower with
        ⟨offset, hOffset, rfl⟩
      exact ⟨s, Locals.nameOf?_of_offset? hSize hOffset,
        hSpellable _ List.mem_cons_self⟩
  | paren d ih =>
      simp only [Spellable, terminals,
        List.forall_mem_append] at hSpellable
      exact ih hValid hSpellable.1.2 hLower
  | signed negative d ih =>
      have hOperand : d.Spellable := by
        intro x hMem
        exact hSpellable x (List.mem_cons_of_mem _ hMem)
      cases negative with
      | false =>
          exact ih hValid hOperand hLower
      | true =>
          rcases lower?_negative.mp hLower with
            ⟨a, hInner, rfl⟩
          exact ⟨Int.le_refl 0, ih hValid hOperand hInner⟩
  | chain c l r ihLeft ihRight =>
      simp only [Spellable, terminals,
        List.forall_mem_append] at hSpellable
      rcases lower?_chain.mp hLower with
        ⟨a, b, hLeft, hRight, rfl⟩
      exact c.writable_combine
        (ihLeft hValid.1 hSpellable.1.1 hLeft)
        (ihRight hValid.2 hSpellable.2 hRight)
  | assign d v ihTarget ihValue =>
      simp only [Spellable, terminals,
        List.forall_mem_append] at hSpellable
      rcases hValid with ⟨hPlace, hTargetValid, hValueValid⟩
      rcases lower?_assign.mp hLower with
        ⟨a, b, hTarget, hValue, rfl⟩
      have hVar : a.isVar = true := by
        rw [isVar_of_lower? hTarget, hPlace]
      exact ⟨hVar,
        ihTarget hTargetValid hSpellable.1.1 hTarget,
        ihValue hValueValid hSpellable.2 hValue⟩

/- The same, for one that may be left out. -/
theorem writable_of_lowerOption?
    (hSize : t.size < 2 ^ 29)
    {d : Option ExprTree}
    {e : Option Expr}
    (hValid : ∀ d' ∈ d, d'.Valid)
    (hSpellable : ∀ d' ∈ d, d'.Spellable)
    (hLower : lowerOption? t d = some e) :
    ∀ e' ∈ e, e'.Writable t.nameOf? := by
  cases d with
  | none =>
      cases hLower
      simp
  | some d =>
      rcases Option.map_eq_some_iff.mp hLower with
        ⟨a, hExpr, rfl⟩
      intro e' hMem
      cases hMem
      exact writable_of_lower? hSize (hValid d rfl)
        (hSpellable d rfl) hExpr

end ExprTree

namespace StmtTree

variable {t : Locals}

/- A statement is read as open as it is. -/
theorem endsOpen_of_lower?
    {d : StmtTree}
    {s : Stmt}
    (hLower : d.lower? t = some s) :
    s.endsOpen = d.endsOpen := by
  match d with
  | ret d | expr d =>
      simp only [lower?_ret, lower?_expr] at hLower
      rcases hLower with ⟨e, -, rfl⟩
      rfl
  | ifThen p d =>
      rcases lower?_ifThen.mp hLower with
        ⟨e, a, -, -, rfl⟩
      rfl
  | ifElse p d d' =>
      rcases lower?_ifElse.mp hLower with
        ⟨e, a, b, -, -, hElse, rfl⟩
      exact endsOpen_of_lower? (d := d') (s := b) hElse
  | whileLoop p d =>
      rcases lower?_whileLoop.mp hLower with
        ⟨e, a, -, hBody, rfl⟩
      exact endsOpen_of_lower? (d := d) (s := a) hBody
  | forLoop i p n d =>
      rcases lower?_forLoop.mp hLower with
        ⟨i', p', n', a, -, -, -, hBody, rfl⟩
      exact endsOpen_of_lower? (d := d) (s := a) hBody
  | block ds =>
      rcases lower?_block.mp hLower with ⟨body, -, rfl⟩
      rfl

mutual

/- What is read as a statement can be written. -/
theorem writable_of_lower?
    (hSize : t.size < 2 ^ 29)
    {d : StmtTree}
    {s : Stmt}
    (hValid : d.AllExprs (·.Valid))
    (hSpellable : d.AllExprs ExprTree.Spellable)
    (hNearest : d.NearestElse)
    (hLower : d.lower? t = some s) :
    s.Writable t.nameOf? := by
  match d with
  | ret d | expr d =>
      simp only [lower?_ret, lower?_expr] at hLower
      rcases hLower with ⟨e, hExpr, rfl⟩
      exact ExprTree.writable_of_lower? hSize hValid
        hSpellable hExpr
  | ifThen p d | whileLoop p d =>
      simp only [lower?_ifThen, lower?_whileLoop] at hLower
      rcases hLower with ⟨e, a, hPredicate, hArm, rfl⟩
      exact
        ⟨ExprTree.writable_of_lower? hSize hValid.1
          hSpellable.1 hPredicate,
        writable_of_lower? hSize hValid.2 hSpellable.2
          hNearest hArm⟩
  | ifElse p d d' =>
      rcases hValid with ⟨hValid, hValidThen, hValidElse⟩
      rcases hSpellable with
        ⟨hSpellable, hSpellableThen, hSpellableElse⟩
      rcases hNearest with
        ⟨hClosed, hNearestThen, hNearestElse⟩
      rcases lower?_ifElse.mp hLower with
        ⟨e, a, b, hPredicate, hThen, hElse, rfl⟩
      exact
        ⟨ExprTree.writable_of_lower? hSize hValid hSpellable
          hPredicate,
        by rw [endsOpen_of_lower? hThen, hClosed],
        writable_of_lower? hSize hValidThen hSpellableThen
          hNearestThen hThen,
        writable_of_lower? hSize hValidElse hSpellableElse
          hNearestElse hElse⟩
  | forLoop i p n d =>
      rcases hValid with
        ⟨hValidInit, hValid, hValidStep, hValidBody⟩
      rcases hSpellable with
        ⟨hSpellableInit, hSpellable, hSpellableStep,
          hSpellableBody⟩
      rcases lower?_forLoop.mp hLower with
        ⟨i', p', n', a, hInit, hPredicate, hStep, hBody,
          rfl⟩
      exact
        ⟨ExprTree.writable_of_lowerOption? hSize hValidInit
          hSpellableInit hInit,
        ExprTree.writable_of_lowerOption? hSize hValid
          hSpellable hPredicate,
        ExprTree.writable_of_lowerOption? hSize hValidStep
          hSpellableStep hStep,
        writable_of_lower? hSize hValidBody hSpellableBody
          hNearest hBody⟩
  | block ds =>
      rcases lower?_block.mp hLower with ⟨body, hBody, rfl⟩
      exact writableAll_of_lowerAll? hSize hValid hSpellable
        hNearest hBody

/- The same, for statements one after another. -/
theorem writableAll_of_lowerAll?
    (hSize : t.size < 2 ^ 29)
    {ds : List StmtTree}
    {ss : List Stmt}
    (hValid : AllExprsAll (·.Valid) ds)
    (hSpellable : AllExprsAll ExprTree.Spellable ds)
    (hNearest : NearestElseAll ds)
    (hLower : lowerAll? t ds = some ss) :
    Stmt.WritableAll t.nameOf? ss := by
  match ds with
  | [] =>
      cases hLower
      trivial
  | d :: ds =>
      rcases lowerAll?_cons.mp hLower with
        ⟨a, body, hFirst, hRest, rfl⟩
      exact
        ⟨writable_of_lower? hSize hValid.1 hSpellable.1
          hNearest.1 hFirst,
        writableAll_of_lowerAll? hSize hValid.2 hSpellable.2
          hNearest.2 hRest⟩

end

end StmtTree

------------------------------------------------------------
-- Programs
------------------------------------------------------------

namespace Program

/- Statements are read back from what is written for them. -/
theorem parse_source
    {names : Naming}
    {ss : List Stmt}
    (hWritable : Stmt.WritableAll names ss)
    (hSize :
      (Stmt.source names ss).utf8ByteSize < 2 ^ 28) :
    ∃ s p,
      lex (Stmt.source names ss) = .ok s ∧
      parse s = .ok p ∧
      p.locals.size < 2 ^ 28 ∧
      Stmt.SameAllByName names p.locals.nameOf? ss p.body := by
  have hBytes :
      Text.byteLength
          (Terminal.spell
            (StmtTree.terminalsAll
              (Stmt.treeAll names ss))) ≤
        Span.maxLen := by
    rw [Text.utf8ByteSize_eq_byteLength, Stmt.source,
      String.toList_ofList] at hSize
    have hMax : Span.maxLen = 2 ^ 32 - 1 := rfl
    omega
  rcases Terminal.lex_spell
      (Stmt.spellable_treeAll hWritable) hBytes with
    ⟨s, hLex, hTerminals⟩
  have hTrees :
      StmtTree.ofTerminals? s.terminals =
        some (Stmt.treeAll names ss) := by
    rw [hTerminals]
    exact StmtTree.ofTerminals?_eq_some_iff.mpr
      (Stmt.isDerivation_treeAll hWritable)
  have hAgrees := parse_agrees s
  rcases hAgrees.isOk_iff.mpr ⟨_, hTrees⟩ with ⟨p, hParse⟩
  have hLocals : p.locals.size < 2 ^ 28 :=
    calc
      p.locals.size
          ≤ s.tokens.length :=
            size_locals_le_of_parse hParse
      _ ≤ (Stmt.source names ss).utf8ByteSize :=
            length_tokens_le_of_lex hLex
      _ < 2 ^ 28 := hSize
  have hMeans := hAgrees.related hTrees hParse
  exact ⟨s, p, hLex, hParse, hLocals,
    Stmt.sameAllByName_of_lowerAll?
      (Nat.lt_trans hLocals (by decide)) hWritable
      hMeans.2⟩

/- What is read from a source can be written. -/
theorem writable_of_parse
    {src : String}
    {s : TokenStream}
    {p : Program}
    (hLex : lex src = .ok s)
    (hParse : parse s = .ok p)
    (hSize : p.locals.size < 2 ^ 29) :
    Stmt.WritableAll p.locals.nameOf? p.body := by
  rcases derivation_of_parse hParse with
    ⟨ds, hDerivation, hLower⟩
  have hSpellable :
      StmtTree.AllExprsAll ExprTree.Spellable ds := by
    rw [← StmtTree.spellable_terminalsAll,
      hDerivation.terminals]
    exact spellable_of_lex hLex
  have hBare :=
    StmtTree.writableAll_of_lowerAll? hSize
      hDerivation.valid hSpellable hDerivation.nearestElse
      hLower
  exact (Stmt.sameAllByName_bareAll p.body).writable hBare

/-
  Statements that can be written are read back from their
  source. What was read from any source can be written, as
  long as there are offsets for all of its variables. So
  what can be written is, by its names, exactly what the
  parser gives.
-/
theorem parse_undoes_printing :
    (∀ (names : Naming) (ss : List Stmt),
      Stmt.WritableAll names ss →
      (Stmt.source names ss).utf8ByteSize < 2 ^ 28 →
      ∃ s p,
        lex (Stmt.source names ss) = .ok s ∧
        parse s = .ok p ∧
        Stmt.SameAllByName names p.locals.nameOf? ss
          p.body) ∧
    (∀ src s p,
      lex src = .ok s →
      parse s = .ok p →
      p.locals.size < 2 ^ 29 →
      Stmt.WritableAll p.locals.nameOf? p.body) ∧
    (∀ (names : Naming) (ss : List Stmt),
      (Stmt.source names ss).utf8ByteSize < 2 ^ 28 →
      (Stmt.WritableAll names ss ↔
        ∃ src s p,
          lex src = .ok s ∧
          parse s = .ok p ∧
          p.locals.size < 2 ^ 29 ∧
          Stmt.SameAllByName names p.locals.nameOf? ss
            p.body)) := by
  refine ⟨?_, ?_, ?_⟩
  · intro names ss hWritable hSize
    rcases parse_source hWritable hSize with
      ⟨s, p, hLex, hParse, -, hSame⟩
    exact ⟨s, p, hLex, hParse, hSame⟩
  · intro src s p hLex hParse hSize
    exact writable_of_parse hLex hParse hSize
  · intro names ss hSize
    constructor
    · intro hWritable
      rcases parse_source hWritable hSize with
        ⟨s, p, hLex, hParse, hLocals, hSame⟩
      exact ⟨Stmt.source names ss, s, p, hLex, hParse,
        Nat.lt_trans hLocals (by decide), hSame⟩
    · rintro ⟨src, s, p, hLex, hParse, hLocals, hSame⟩
      exact hSame.writable
        (writable_of_parse hLex hParse hLocals)

/-
  The block keeps the `else` from the inner `if`. The name
  that is used first has the second offset, and is given the
  first one.
-/
theorem guarded_else_is_read_back :
    let names : Naming := Locals.nameOf? ⟨["low", "high"]⟩
    let low := Expr.var ⟨8⟩ .nowhere
    let high := Expr.var ⟨16⟩ .nowhere
    let ss :=
      [Stmt.ifElse (.binary .lt high low .nowhere)
        (.block
          [.ifThen low (.ret high .nowhere) .nowhere]
          .nowhere)
        (.expr
          (.assign low (.int 7 .nowhere) .nowhere)
          .nowhere)
        .nowhere]
    Stmt.WritableAll names ss ∧
      Stmt.source names ss =
        "if ( ( high ) < ( low ) ) \x7b if ( low ) " ++
          "return high ; \x7d else low = ( 7 ) ; " ∧
      ∃ s p,
        lex (Stmt.source names ss) = .ok s ∧
        parse s = .ok p ∧
        p.locals = ⟨["high", "low"]⟩ ∧
        Stmt.SameAllByName names p.locals.nameOf? ss
          p.body ∧
        Stmt.WritableAll p.locals.nameOf? p.body := by
  intro names low high ss
  have hLow : low.Writable names :=
    ⟨"low", by decide, by decide +kernel⟩
  have hHigh : high.Writable names :=
    ⟨"high", by decide, by decide +kernel⟩
  have hSeven : 0 ≤ (7 : Int64).toInt := by decide
  have hWritable : Stmt.WritableAll names ss :=
    ⟨⟨⟨hHigh, hLow⟩, rfl, ⟨⟨hLow, hHigh⟩, trivial⟩,
      rfl, hLow, hSeven⟩, trivial⟩
  have hSource :
      Stmt.source names ss =
        "if ( ( high ) < ( low ) ) \x7b if ( low ) " ++
          "return high ; \x7d else low = ( 7 ) ; " := by
    decide +kernel
  have hSize :
      (Stmt.source names ss).utf8ByteSize < 2 ^ 28 := by
    rw [hSource]
    decide
  rcases parse_undoes_printing.1 names ss hWritable hSize
    with ⟨s, p, hLex, hParse, hSame⟩
  have hTable :
      ((lex (Stmt.source names ss)).toOption.bind
        (fun s => (parse s).toOption)).map
          Program.locals =
        some ⟨["high", "low"]⟩ := by
    decide +kernel
  rw [hLex] at hTable
  simp only [Except.toOption, Option.bind_some, hParse,
    Option.map_some, Option.some.injEq] at hTable
  have hAgain :=
    parse_undoes_printing.2.1 _ s p hLex hParse
      (by rw [hTable]; decide)
  exact ⟨hWritable, hSource, s, p, hLex, hParse, hTable,
    hSame, hAgain⟩

end Program

end WordLang
