import WordLang.Proofs.Numeral
import WordLang.Proofs.Spelling

/-
  This file writes statements as a source.

  Every operand of an operation is put in parentheses, and
  so is the value of an assignment. Its target is not. The
  variables are written with the names that a naming gives
  to their offsets.

  Not all statements can be written. No constant is
  negative, values are assigned to variables only, every
  variable has a name, and no `else` could be taken for that
  of another `if`.

  Key definitions include:
    * `WordLang.Naming`
    * `WordLang.Expr.tree`
    * `WordLang.Stmt.tree`
    * `WordLang.Stmt.source`
    * `WordLang.Expr.Writable`
    * `WordLang.Stmt.Writable`

  Key theorems include:
    * `WordLang.Stmt.isDerivation_treeAll`
    * `WordLang.Stmt.spellable_treeAll`
-/

namespace WordLang

/- What names the variables have. -/
def Naming : Type :=
  Offset → Option String

------------------------------------------------------------
-- Derivations of What Is Written
------------------------------------------------------------

/- The operator that is written for an operation. -/
def BinOp.connective : BinOp → Connective
| add => .plus
| sub => .minus
| mul => .times
| div => .dividedBy
| eq => .equal
| ne => .notEqual
| lt => .less
| le => .lessEqual

/- It stands for that operation. -/
theorem BinOp.combine_connective
    (op : BinOp)
    (a b : Expr) :
    op.connective.combine a b =
      .binary op a b .nowhere := by
  cases op <;> rfl

/- How an expression is written. -/
def Expr.tree
    (names : Naming) :
    Expr → ExprTree
| int value _ => .number (toString value.toInt)
| var offset _ => .name ((names offset).getD "")
| binary op lhs rhs _ =>
    .chain op.connective (.paren (lhs.tree names))
      (.paren (rhs.tree names))
| assign target value _ =>
    .assign (target.tree names) (.paren (value.tree names))

namespace Stmt

mutual

/- How a statement is written. -/
def tree
    (names : Naming) :
    Stmt → StmtTree
| expr e _ => .expr (e.tree names)
| ret e _ => .ret (e.tree names)
| ifThen p s _ => .ifThen (p.tree names) (tree names s)
| ifElse p s s' _ =>
    .ifElse (p.tree names) (tree names s) (tree names s')
| whileLoop p s _ =>
    .whileLoop (p.tree names) (tree names s)
| forLoop i p n s _ =>
    .forLoop (i.map (Expr.tree names))
      (p.map (Expr.tree names)) (n.map (Expr.tree names))
      (tree names s)
| block ss _ => .block (treeAll names ss)

/- How statements are written one after another. -/
def treeAll
    (names : Naming) :
    List Stmt → List StmtTree
| [] => []
| s :: ss => tree names s :: treeAll names ss

end

/- Statements as a source, with a blank after each token. -/
def source
    (names : Naming)
    (ss : List Stmt) : String :=
  String.ofList
    (Terminal.spell
      (StmtTree.terminalsAll (treeAll names ss)))

end Stmt

------------------------------------------------------------
-- What Can Be Written
------------------------------------------------------------

/-
  No constant is negative, every variable has a name, and
  values are assigned to variables only.
-/
def Expr.Writable
    (names : Naming) :
    Expr → Prop
| int value _ => 0 ≤ value.toInt
| var offset _ => ∃ name ∈ names offset, IsName name
| binary _ lhs rhs _ =>
    lhs.Writable names ∧ rhs.Writable names
| assign target value _ =>
    target.isVar = true ∧
      target.Writable names ∧ value.Writable names

namespace Stmt

/-
  Whether a statement ends in an `if` without `else`, which
  an `else` after it would belong to.
-/
def endsOpen : Stmt → Bool
| ifThen _ _ _ => true
| ifElse _ _ s _ => s.endsOpen
| whileLoop _ s _ => s.endsOpen
| forLoop _ _ _ s _ => s.endsOpen
| _ => false

mutual

/-
  Every expression in a statement can be written, and no
  `if` with an `else` has a first arm that ends open.
-/
def Writable
    (names : Naming) :
    Stmt → Prop
| expr e _ => e.Writable names
| ret e _ => e.Writable names
| ifThen p s _ => p.Writable names ∧ Writable names s
| ifElse p s s' _ =>
    p.Writable names ∧
      s.endsOpen = false ∧
      Writable names s ∧ Writable names s'
| whileLoop p s _ => p.Writable names ∧ Writable names s
| forLoop i p n s _ =>
    (∀ e ∈ i, e.Writable names) ∧
      (∀ e ∈ p, e.Writable names) ∧
      (∀ e ∈ n, e.Writable names) ∧
      Writable names s
| block ss _ => WritableAll names ss

/- All of some statements can be written. -/
def WritableAll
    (names : Naming) :
    List Stmt → Prop
| [] => True
| s :: ss => Writable names s ∧ WritableAll names ss

end

end Stmt

------------------------------------------------------------
-- Expressions
------------------------------------------------------------

namespace Expr

variable {names : Naming}
variable {e : Expr}

/- A variable is written as a name, which is an operand. -/
theorem isPlace_tree
    (hVar : e.isVar = true) :
    (e.tree names).isPlace = true ∧
      (e.tree names).IsA 6 := by
  cases e with
  | var offset span =>
      exact ⟨rfl, Nat.le_refl 6⟩
  | int value span | binary op lhs rhs span
  | assign target value span =>
      cases hVar

/- What is written for an expression is derived. -/
theorem derives_tree
    (hWritable : e.Writable names) :
    (e.tree names).Derives .assign := by
  rw [ExprTree.derives_iff]
  induction e with
  | int value span | var offset span =>
      exact Nat.zero_le 6
  | binary op lhs rhs span ihLhs ihRhs =>
      -- Parentheses bind as strongly as any operand.
      have hBounds := op.connective.rank_level_bounds
      exact ⟨Nat.zero_le _,
        ⟨by omega, ihLhs hWritable.1⟩,
        ⟨by omega, ihRhs hWritable.2⟩⟩
  | assign target value span ihTarget ihValue =>
      rcases hWritable with ⟨hVar, -, hValue⟩
      exact ⟨rfl, (isPlace_tree hVar).2.mono (by decide),
        by decide, ihValue hValue⟩

/- It is valid. -/
theorem valid_tree
    (hWritable : e.Writable names) :
    (e.tree names).Valid := by
  induction e with
  | int value span =>
      show (Literal.read? _).isSome = true
      rw [Literal.read?_toString_toInt]
      rfl
  | var offset span =>
      trivial
  | binary op lhs rhs span ihLhs ihRhs =>
      exact ⟨ihLhs hWritable.1, ihRhs hWritable.2⟩
  | assign target value span ihTarget ihValue =>
      rcases hWritable with ⟨hVar, hTarget, hValue⟩
      exact ⟨(isPlace_tree hVar).1, ihTarget hTarget,
        ihValue hValue⟩

/- A constant that is not negative has a numeral. -/
theorem spellable_number
    {v : Int64}
    (hValue : 0 ≤ v.toInt) :
    (Terminal.number (toString v.toInt)).Spellable := by
  have hRange := Int64.toInt_lt v
  refine ⟨v.toInt.toNat, ?_, ?_⟩
  · show v.toInt.toNat < 9223372036854775808
    omega
  · rw [← Int.toNat_of_nonneg hValue]
    rfl

/- All its terminals can be written. -/
theorem spellable_tree
    (hWritable : e.Writable names) :
    ∀ x ∈ (e.tree names).terminals, x.Spellable := by
  induction e with
  | int value span =>
      simpa [tree, ExprTree.terminals] using
        spellable_number hWritable
  | var offset span =>
      rcases hWritable with ⟨name, hName, hWord⟩
      rw [Option.mem_def] at hName
      simpa [tree, ExprTree.terminals, hName,
        Terminal.Spellable] using hWord
  | binary op lhs rhs span ihLhs ihRhs =>
      have hSymbol :
          (Terminal.symbol op.connective.kind).Spellable := by
        cases op <;> rfl
      have hParens :
          (Terminal.symbol .lparen).Spellable ∧
            (Terminal.symbol .rparen).Spellable :=
        ⟨rfl, rfl⟩
      simp only [tree, ExprTree.terminals,
        List.forall_mem_append, List.forall_mem_singleton]
      exact
        ⟨⟨⟨⟨hParens.1, ihLhs hWritable.1⟩, hParens.2⟩,
          hSymbol⟩,
          ⟨hParens.1, ihRhs hWritable.2⟩, hParens.2⟩
  | assign target value span ihTarget ihValue =>
      rcases hWritable with ⟨-, hTarget, hValue⟩
      simp only [tree, ExprTree.terminals,
        List.forall_mem_append, List.forall_mem_singleton]
      exact ⟨⟨ihTarget hTarget, rfl⟩,
        ⟨rfl, ihValue hValue⟩, rfl⟩

end Expr

------------------------------------------------------------
-- Statements
------------------------------------------------------------

/- An expression whose terminals can be written. -/
def ExprTree.Spellable
    (d : ExprTree) : Prop :=
  ∀ x ∈ d.terminals, x.Spellable

theorem ExprTree.spellable_terminalsOption
    {d : Option ExprTree} :
    (∀ x ∈ terminalsOption d, x.Spellable) ↔
      ∀ d' ∈ d, d'.Spellable := by
  cases d <;> simp [terminalsOption, Spellable]

namespace StmtTree

mutual

/-
  The terminals of a statement can be written if those of
  its expressions can.
-/
theorem spellable_terminals
    (d : StmtTree) :
    (∀ x ∈ d.terminals, x.Spellable) ↔
      d.AllExprs ExprTree.Spellable := by
  have hSymbol (k : Kind) :
      (Terminal.symbol k).Spellable ↔
        k.symbol?.isSome = true :=
    Iff.rfl
  match d with
  | ret d | expr d =>
      simp [terminals, AllExprs, ExprTree.Spellable,
        or_imp, forall_and, hSymbol, Kind.symbol?]
  | ifThen p d | whileLoop p d =>
      simp [terminals, AllExprs, ExprTree.Spellable,
        or_imp, forall_and, hSymbol, Kind.symbol?,
        spellable_terminals d]
  | ifElse p d d' =>
      simp [terminals, AllExprs, ExprTree.Spellable,
        or_imp, forall_and, hSymbol, Kind.symbol?,
        spellable_terminals d, spellable_terminals d']
  | forLoop i p n d =>
      simp [terminals, AllExprs,
        or_imp, forall_and, hSymbol, Kind.symbol?,
        ExprTree.spellable_terminalsOption,
        spellable_terminals d]
  | block ds =>
      simp [terminals, AllExprs, or_imp, forall_and,
        hSymbol, Kind.symbol?, spellable_terminalsAll ds]

/- The same, for statements one after another. -/
theorem spellable_terminalsAll
    (ds : List StmtTree) :
    (∀ x ∈ terminalsAll ds, x.Spellable) ↔
      AllExprsAll ExprTree.Spellable ds := by
  match ds with
  | [] =>
      simp [terminalsAll, AllExprsAll]
  | d :: ds =>
      simp [terminalsAll, AllExprsAll, or_imp, forall_and,
        spellable_terminals d, spellable_terminalsAll ds]

end

end StmtTree

namespace Stmt

variable {names : Naming}

mutual

/-
  What holds of every expression that is written holds of
  all expressions in a statement that is written.
-/
theorem allExprs_tree
    {P : ExprTree → Prop}
    (hExpr :
      ∀ e : Expr, e.Writable names → P (e.tree names))
    {s : Stmt}
    (hWritable : s.Writable names) :
    (s.tree names).AllExprs P := by
  match s with
  | expr e _ | ret e _ =>
      exact hExpr e hWritable
  | ifThen p s _ | whileLoop p s _ =>
      exact ⟨hExpr p hWritable.1,
        allExprs_tree hExpr hWritable.2⟩
  | ifElse p s s' _ =>
      rcases hWritable with ⟨hPredicate, -, hThen, hElse⟩
      exact ⟨hExpr p hPredicate,
        allExprs_tree hExpr hThen,
        allExprs_tree hExpr hElse⟩
  | forLoop i p n s _ =>
      rcases hWritable with
        ⟨hInit, hPredicate, hStep, hBody⟩
      have hOption
          {e : Option Expr}
          (hPart : ∀ a ∈ e, a.Writable names) :
          ∀ d ∈ e.map (Expr.tree names), P d := by
        intro d hMem
        rcases Option.map_eq_some_iff.mp hMem with
          ⟨a, hSome, rfl⟩
        exact hExpr a (hPart a hSome)
      exact ⟨hOption hInit, hOption hPredicate,
        hOption hStep, allExprs_tree hExpr hBody⟩
  | block ss _ =>
      exact allExprsAll_treeAll hExpr hWritable

/- The same, for statements one after another. -/
theorem allExprsAll_treeAll
    {P : ExprTree → Prop}
    (hExpr :
      ∀ e : Expr, e.Writable names → P (e.tree names))
    {ss : List Stmt}
    (hWritable : WritableAll names ss) :
    StmtTree.AllExprsAll P (treeAll names ss) := by
  match ss with
  | [] =>
      trivial
  | s :: ss =>
      exact ⟨allExprs_tree hExpr hWritable.1,
        allExprsAll_treeAll hExpr hWritable.2⟩

end

/- A statement is written as open as it is. -/
theorem endsOpen_tree
    (s : Stmt) :
    (s.tree names).endsOpen = s.endsOpen := by
  match s with
  | expr e _ | ret e _ | ifThen p s _ | block ss _ =>
      rfl
  | ifElse p s s' _ =>
      exact endsOpen_tree s'
  | whileLoop p s _ | forLoop i p n s _ =>
      exact endsOpen_tree s

mutual

/- Each `else` is written after its own `if`. -/
theorem nearestElse_tree
    {s : Stmt}
    (hWritable : s.Writable names) :
    (s.tree names).NearestElse := by
  match s with
  | expr e _ | ret e _ =>
      trivial
  | ifThen p s _ | whileLoop p s _ =>
      exact nearestElse_tree (s := s) hWritable.2
  | ifElse p s s' _ =>
      rcases hWritable with ⟨-, hClosed, hThen, hElse⟩
      exact ⟨by rw [endsOpen_tree, hClosed],
        nearestElse_tree hThen, nearestElse_tree hElse⟩
  | forLoop i p n s _ =>
      exact nearestElse_tree (s := s) hWritable.2.2.2
  | block ss _ =>
      exact nearestElseAll_treeAll hWritable

/- The same, for statements one after another. -/
theorem nearestElseAll_treeAll
    {ss : List Stmt}
    (hWritable : WritableAll names ss) :
    StmtTree.NearestElseAll (treeAll names ss) := by
  match ss with
  | [] =>
      trivial
  | s :: ss =>
      exact ⟨nearestElse_tree hWritable.1,
        nearestElseAll_treeAll hWritable.2⟩

end

variable {ss : List Stmt}

/- What is written for statements is a program. -/
theorem isDerivation_treeAll
    (hWritable : WritableAll names ss) :
    Program.IsDerivation (treeAll names ss)
      (StmtTree.terminalsAll (treeAll names ss)) where
  derives :=
    allExprsAll_treeAll (fun _ => Expr.derives_tree)
      hWritable
  valid :=
    allExprsAll_treeAll (fun _ => Expr.valid_tree) hWritable
  nearestElse := nearestElseAll_treeAll hWritable
  terminals := rfl

/- All its terminals can be written. -/
theorem spellable_treeAll
    (hWritable : WritableAll names ss) :
    ∀ x ∈ StmtTree.terminalsAll (treeAll names ss),
      x.Spellable := by
  rw [StmtTree.spellable_terminalsAll]
  exact allExprsAll_treeAll (fun _ => Expr.spellable_tree)
    hWritable

end Stmt

end WordLang
