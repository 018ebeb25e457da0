import WordLang.Expr.Literal
import WordLang.Program.Basic
import WordLang.Token.Basic

/-
  This file defines the grammar of the language.

    program    ::= stmt*
    stmt       ::= 'return' assign ';'
                 | 'if' '(' assign ')' stmt
                   ['else' stmt]
                 | 'while' '(' assign ')' stmt
                 | 'for' '(' [assign] ';' [assign] ';'
                   [assign] ')' stmt
                 | '{' stmt* '}'
                 | assign ';'
    assign     ::= equality ['=' assign]
    equality   ::= relational (('==' | '!=') relational)*
    relational ::= add (('<' | '<=' | '>' | '>=') add)*
    add        ::= mul (('+' | '-') mul)*
    mul        ::= unary (('*' | '/') unary)*
    unary      ::= ['+' | '-'] primary
    primary    ::= number | name | '(' assign ')'

  A derivation is a tree. Its terminals, from left to right,
  are what it derives. The tree also says what program the
  terminals stand for, once a table gives every name its
  place; the regions of the source are left out of it.

  Key definitions include:
    * `WordLang.Terminal`
    * `WordLang.Connective`
    * `WordLang.ExprTree`
    * `WordLang.ExprTree.Derives`
    * `WordLang.ExprTree.Valid`
    * `WordLang.ExprTree.lower?`
    * `WordLang.StmtTree`
    * `WordLang.StmtTree.NearestElse`
    * `WordLang.StmtTree.lower?`
    * `WordLang.Expr.IsDerivation`
    * `WordLang.Program.IsDerivation`

  Key theorems include:
    * `WordLang.ExprTree.derives_iff`
-/

namespace WordLang

------------------------------------------------------------
-- Terminals
------------------------------------------------------------

/- A symbol that is not derived further. -/
inductive Terminal where
  | symbol (kind : Kind)
  | number (lexeme : String)
  | name (lexeme : String)
deriving DecidableEq, Repr

/- What a token is to the grammar. -/
def Token.terminal
    (t : Token) : Terminal :=
  match t.kind with
  | .number => .number t.lexeme
  | .identifier => .name t.lexeme
  | kind => .symbol kind

------------------------------------------------------------
-- Expressions
------------------------------------------------------------

/- The nonterminals of expressions. -/
inductive Nonterminal where
  | assign
  | equality
  | relational
  | add
  | mul
  | unary
  | primary
deriving DecidableEq, Repr

namespace Nonterminal

/- The nonterminal that binds the next more strongly. -/
def next : Nonterminal → Nonterminal
| assign => equality
| equality => relational
| relational => add
| add => mul
| mul => unary
| unary => primary
| primary => primary

/- How strongly a nonterminal binds. -/
def rank : Nonterminal → Nat
| assign => 0
| equality => 1
| relational => 2
| add => 3
| mul => 4
| unary => 5
| primary => 6

end Nonterminal

/- The operators that stand between two operands. -/
inductive Connective where
  | equal
  | notEqual
  | less
  | lessEqual
  | greater
  | greaterEqual
  | plus
  | minus
  | times
  | dividedBy
deriving DecidableEq, Repr

namespace Connective

/- The kind of token that writes an operator. -/
def kind : Connective → Kind
| equal => .eqEq
| notEqual => .notEq
| less => .less
| lessEqual => .lessEq
| greater => .greater
| greaterEqual => .greaterEq
| plus => .plus
| minus => .minus
| times => .star
| dividedBy => .slash

/- The nonterminal whose repetition has an operator. -/
def level : Connective → Nonterminal
| equal | notEqual => .equality
| less | lessEqual | greater | greaterEqual => .relational
| plus | minus => .add
| times | dividedBy => .mul

end Connective

/-
  A derivation of an expression. Derivations that differ
  only in steps from one nonterminal to the next are one
  tree. A repetition is split before its last operator.
-/
inductive ExprTree where
  | number (lexeme : String)
  | name (lexeme : String)
  | paren (inner : ExprTree)
  | signed (negative : Bool) (operand : ExprTree)
  | chain (c : Connective) (lhs rhs : ExprTree)
  | assign (target value : ExprTree)
deriving DecidableEq, Repr

namespace ExprTree

/- The terminals of a derivation. -/
def terminals : ExprTree → List Terminal
| number s => [.number s]
| name s => [.name s]
| paren d =>
    [.symbol .lparen] ++ d.terminals ++ [.symbol .rparen]
| signed negative d =>
    .symbol (if negative then .minus else .plus) ::
      d.terminals
| chain c l r =>
    l.terminals ++ [.symbol c.kind] ++ r.terminals
| assign t v =>
    t.terminals ++ [.symbol .assign] ++ v.terminals

/- What is derived from a nonterminal. -/
inductive Derives : Nonterminal → ExprTree → Prop where
  | number (s : String) :
      Derives .primary (number s)
  | name (s : String) :
      Derives .primary (name s)
  | paren {d : ExprTree} :
      Derives .assign d →
      Derives .primary (paren d)
  | signed (negative : Bool) {d : ExprTree} :
      Derives .primary d →
      Derives .unary (signed negative d)
  | chain (c : Connective) {l r : ExprTree} :
      Derives c.level l →
      Derives c.level.next r →
      Derives c.level (chain c l r)
  | assign {t v : ExprTree} :
      Derives .equality t →
      Derives .assign v →
      Derives .assign (assign t v)
  | next {N : Nonterminal} {d : ExprTree} :
      Derives N.next d →
      Derives N d

/-
  What is derived from a nonterminal of a given rank, by
  the form of the tree.
-/
def IsA : ExprTree → Nat → Prop
| number _, n => n ≤ 6
| name _, n => n ≤ 6
| paren d, n => n ≤ 6 ∧ d.IsA 0
| signed _ d, n => n ≤ 5 ∧ d.IsA 6
| chain c l r, n =>
    n ≤ c.level.rank ∧
      l.IsA c.level.rank ∧
      r.IsA (c.level.rank + 1)
| assign t v, n => n = 0 ∧ t.IsA 1 ∧ v.IsA 0

/- Whether an expression stands for a variable. -/
def isPlace : ExprTree → Bool
| name _ => true
| paren d => d.isPlace
| signed false d => d.isPlace
| _ => false

/-
  All numbers are words, and values are assigned to
  variables only.
-/
def Valid : ExprTree → Prop
| number s => (Literal.read? s).isSome = true
| name _ => True
| paren d => d.Valid
| signed _ d => d.Valid
| chain _ l r => l.Valid ∧ r.Valid
| assign t v => t.isPlace = true ∧ t.Valid ∧ v.Valid

end ExprTree

------------------------------------------------------------
-- Statements
------------------------------------------------------------

/- A derivation of a statement. -/
inductive StmtTree where
  | ret (value : ExprTree)
  | ifThen (predicate : ExprTree) (thenArm : StmtTree)
  | ifElse
      (predicate : ExprTree)
      (thenArm elseArm : StmtTree)
  | whileLoop (predicate : ExprTree) (body : StmtTree)
  | forLoop
      (init predicate step : Option ExprTree)
      (body : StmtTree)
  | block (body : List StmtTree)
  | expr (value : ExprTree)

/- The terminals of an expression that may be left out. -/
def ExprTree.terminalsOption :
    Option ExprTree →
    List Terminal
| none => []
| some d => d.terminals

namespace StmtTree

mutual

/- The terminals of a derivation. -/
def terminals : StmtTree → List Terminal
| ret d =>
    [.symbol .kwReturn] ++ d.terminals ++
      [.symbol .semicolon]
| ifThen p s =>
    [.symbol .kwIf, .symbol .lparen] ++ p.terminals ++
      [.symbol .rparen] ++ terminals s
| ifElse p s s' =>
    [.symbol .kwIf, .symbol .lparen] ++ p.terminals ++
      [.symbol .rparen] ++ terminals s ++
      [.symbol .kwElse] ++ terminals s'
| whileLoop p s =>
    [.symbol .kwWhile, .symbol .lparen] ++ p.terminals ++
      [.symbol .rparen] ++ terminals s
| forLoop i p n s =>
    [.symbol .kwFor, .symbol .lparen] ++
      ExprTree.terminalsOption i ++ [.symbol .semicolon] ++
      ExprTree.terminalsOption p ++ [.symbol .semicolon] ++
      ExprTree.terminalsOption n ++ [.symbol .rparen] ++
      terminals s
| block ss =>
    [.symbol .lbrace] ++ terminalsAll ss ++
      [.symbol .rbrace]
| expr d => d.terminals ++ [.symbol .semicolon]

/- The terminals of statements one after another. -/
def terminalsAll : List StmtTree → List Terminal
| [] => []
| s :: ss => terminals s ++ terminalsAll ss

end

mutual

/- Every expression in a statement satisfies a condition. -/
def AllExprs
    (P : ExprTree → Prop) :
    StmtTree → Prop
| ret d => P d
| ifThen p s => P p ∧ AllExprs P s
| ifElse p s s' => P p ∧ AllExprs P s ∧ AllExprs P s'
| whileLoop p s => P p ∧ AllExprs P s
| forLoop i p n s =>
    (∀ d ∈ i, P d) ∧ (∀ d ∈ p, P d) ∧ (∀ d ∈ n, P d) ∧
      AllExprs P s
| block ss => AllExprsAll P ss
| expr d => P d

/- Every expression in some statements does. -/
def AllExprsAll
    (P : ExprTree → Prop) :
    List StmtTree → Prop
| [] => True
| s :: ss => AllExprs P s ∧ AllExprsAll P ss

end

/-
  Whether a statement ends in an `if` without `else`, which
  an `else` after it would belong to.
-/
def endsOpen : StmtTree → Bool
| ifThen _ _ => true
| ifElse _ _ s => s.endsOpen
| whileLoop _ s => s.endsOpen
| forLoop _ _ _ s => s.endsOpen
| _ => false

mutual

/- Each `else` belongs to the nearest `if` it can. -/
def NearestElse : StmtTree → Prop
| ifThen _ s => NearestElse s
| ifElse _ s s' =>
    s.endsOpen = false ∧ NearestElse s ∧ NearestElse s'
| whileLoop _ s => NearestElse s
| forLoop _ _ _ s => NearestElse s
| block ss => NearestElseAll ss
| ret _ => True
| expr _ => True

/- Each `else` in some statements does. -/
def NearestElseAll : List StmtTree → Prop
| [] => True
| s :: ss => NearestElse s ∧ NearestElseAll ss

end

end StmtTree

------------------------------------------------------------
-- Derivations
------------------------------------------------------------

/- A tree that derives some terminals as an expression. -/
structure Expr.IsDerivation
    (d : ExprTree)
    (xs : List Terminal) : Prop where
  derives : d.Derives .assign
  valid : d.Valid
  terminals : d.terminals = xs

/- Trees that derive some terminals as a program. -/
structure Program.IsDerivation
    (ss : List StmtTree)
    (xs : List Terminal) : Prop where
  derives : StmtTree.AllExprsAll (·.Derives .assign) ss
  valid : StmtTree.AllExprsAll (·.Valid) ss
  nearestElse : StmtTree.NearestElseAll ss
  terminals : StmtTree.terminalsAll ss = xs

------------------------------------------------------------
-- Programs Without Regions
------------------------------------------------------------

/- The region of a node that was not read from a source. -/
def Span.nowhere : Span := ⟨0, 0⟩

/- An expression without its regions. -/
def Expr.bare : Expr → Expr
| int value _ => int value .nowhere
| var offset _ => var offset .nowhere
| binary op lhs rhs _ =>
    binary op lhs.bare rhs.bare .nowhere
| assign target value _ =>
    assign target.bare value.bare .nowhere

namespace Stmt

mutual

/- A statement without its regions. -/
def bare : Stmt → Stmt
| expr e _ => expr e.bare .nowhere
| ret e _ => ret e.bare .nowhere
| ifThen p s _ => ifThen p.bare (bare s) .nowhere
| ifElse p s s' _ =>
    ifElse p.bare (bare s) (bare s') .nowhere
| whileLoop p s _ => whileLoop p.bare (bare s) .nowhere
| forLoop i p n s _ =>
    forLoop (i.map Expr.bare) (p.map Expr.bare)
      (n.map Expr.bare) (bare s) .nowhere
| block ss _ => block (bareAll ss) .nowhere

/- Statements without their regions. -/
def bareAll : List Stmt → List Stmt
| [] => []
| s :: ss => bare s :: bareAll ss

end

end Stmt

------------------------------------------------------------
-- Meaning
------------------------------------------------------------

namespace Connective

/- The operation that an operator stands for. -/
def combine
    (c : Connective)
    (a b : Expr) : Expr :=
  match c with
  | equal => .binary .eq a b .nowhere
  | notEqual => .binary .ne a b .nowhere
  | less => .binary .lt a b .nowhere
  | lessEqual => .binary .le a b .nowhere
  | greater => .binary .lt b a .nowhere
  | greaterEqual => .binary .le b a .nowhere
  | plus => .binary .add a b .nowhere
  | minus => .binary .sub a b .nowhere
  | times => .binary .mul a b .nowhere
  | dividedBy => .binary .div a b .nowhere

end Connective

namespace ExprTree

/- The expression that a derivation stands for. -/
def lower?
    (locals : Locals) :
    ExprTree → Option Expr
| number s =>
    (Literal.read? s).map (fun v => .int v .nowhere)
| name s =>
    (locals.offset? s).map (fun o => .var o .nowhere)
| paren d => d.lower? locals
| signed false d => d.lower? locals
| signed true d => do
    let a ← d.lower? locals
    return .binary .sub (.int 0 .nowhere) a .nowhere
| chain c l r => do
    let a ← l.lower? locals
    let b ← r.lower? locals
    return c.combine a b
| assign t v => do
    let a ← t.lower? locals
    let b ← v.lower? locals
    return .assign a b .nowhere

/- An expression that may be left out. -/
def lowerOption?
    (locals : Locals) :
    Option ExprTree →
    Option (Option Expr)
| none => some none
| some d => (d.lower? locals).map some

end ExprTree

namespace StmtTree

mutual

/- The statement that a derivation stands for. -/
def lower?
    (locals : Locals) :
    StmtTree → Option Stmt
| ret d => do
    let e ← d.lower? locals
    return .ret e .nowhere
| ifThen p s => do
    let e ← p.lower? locals
    let a ← lower? locals s
    return .ifThen e a .nowhere
| ifElse p s s' => do
    let e ← p.lower? locals
    let a ← lower? locals s
    let b ← lower? locals s'
    return .ifElse e a b .nowhere
| whileLoop p s => do
    let e ← p.lower? locals
    let a ← lower? locals s
    return .whileLoop e a .nowhere
| forLoop i p n s => do
    let i ← ExprTree.lowerOption? locals i
    let p ← ExprTree.lowerOption? locals p
    let n ← ExprTree.lowerOption? locals n
    let a ← lower? locals s
    return .forLoop i p n a .nowhere
| block ss => do
    let body ← lowerAll? locals ss
    return .block body .nowhere
| expr d => do
    let e ← d.lower? locals
    return .expr e .nowhere

/- The statements that derivations stand for. -/
def lowerAll?
    (locals : Locals) :
    List StmtTree →
    Option (List Stmt)
| [] => some []
| s :: ss => do
    let a ← lower? locals s
    let body ← lowerAll? locals ss
    return a :: body

end

end StmtTree

------------------------------------------------------------
-- Parts of What Derivations Stand for
------------------------------------------------------------

namespace ExprTree

variable {t : Locals}
variable {e : Expr}

theorem lower?_negative
    {d : ExprTree} :
    (signed true d).lower? t = some e ↔
      ∃ a,
        d.lower? t = some a ∧
        .binary .sub (.int 0 .nowhere) a .nowhere = e := by
  simp [lower?, Option.bind_eq_some_iff]

theorem lower?_chain
    {c : Connective}
    {l r : ExprTree} :
    (chain c l r).lower? t = some e ↔
      ∃ a b,
        l.lower? t = some a ∧
        r.lower? t = some b ∧
        c.combine a b = e := by
  simp [lower?, Option.bind_eq_some_iff]

theorem lower?_assign
    {d v : ExprTree} :
    (assign d v).lower? t = some e ↔
      ∃ a b,
        d.lower? t = some a ∧
        v.lower? t = some b ∧
        .assign a b .nowhere = e := by
  simp [lower?, Option.bind_eq_some_iff]

end ExprTree

namespace StmtTree

variable {t : Locals}
variable {s : Stmt}

attribute [local simp] lower? lowerAll?

theorem lower?_ret
    {d : ExprTree} :
    (ret d).lower? t = some s ↔
      ∃ e, d.lower? t = some e ∧ .ret e .nowhere = s := by
  simp [Option.bind_eq_some_iff]

theorem lower?_expr
    {d : ExprTree} :
    (expr d).lower? t = some s ↔
      ∃ e, d.lower? t = some e ∧ .expr e .nowhere = s := by
  simp [Option.bind_eq_some_iff]

theorem lower?_ifThen
    {p : ExprTree}
    {d : StmtTree} :
    (ifThen p d).lower? t = some s ↔
      ∃ e a,
        p.lower? t = some e ∧
        d.lower? t = some a ∧
        .ifThen e a .nowhere = s := by
  simp [Option.bind_eq_some_iff]

theorem lower?_ifElse
    {p : ExprTree}
    {d d' : StmtTree} :
    (ifElse p d d').lower? t = some s ↔
      ∃ e a b,
        p.lower? t = some e ∧
        d.lower? t = some a ∧
        d'.lower? t = some b ∧
        .ifElse e a b .nowhere = s := by
  simp [Option.bind_eq_some_iff]

theorem lower?_whileLoop
    {p : ExprTree}
    {d : StmtTree} :
    (whileLoop p d).lower? t = some s ↔
      ∃ e a,
        p.lower? t = some e ∧
        d.lower? t = some a ∧
        .whileLoop e a .nowhere = s := by
  simp [Option.bind_eq_some_iff]

theorem lower?_forLoop
    {i p n : Option ExprTree}
    {d : StmtTree} :
    (forLoop i p n d).lower? t = some s ↔
      ∃ i' p' n' a,
        ExprTree.lowerOption? t i = some i' ∧
        ExprTree.lowerOption? t p = some p' ∧
        ExprTree.lowerOption? t n = some n' ∧
        d.lower? t = some a ∧
        .forLoop i' p' n' a .nowhere = s := by
  simp [Option.bind_eq_some_iff]

theorem lower?_block
    {ds : List StmtTree} :
    (block ds).lower? t = some s ↔
      ∃ body,
        lowerAll? t ds = some body ∧
        .block body .nowhere = s := by
  simp [Option.bind_eq_some_iff]

theorem lowerAll?_cons
    {d : StmtTree}
    {ds : List StmtTree}
    {ss : List Stmt} :
    lowerAll? t (d :: ds) = some ss ↔
      ∃ a body,
        d.lower? t = some a ∧
        lowerAll? t ds = some body ∧
        a :: body = ss := by
  simp [Option.bind_eq_some_iff]

end StmtTree

------------------------------------------------------------
-- Ranks
------------------------------------------------------------

namespace Connective

/- Operators are between assignments and operands. -/
theorem rank_level_bounds
    (c : Connective) :
    1 ≤ c.level.rank ∧ c.level.rank ≤ 4 := by
  cases c <;> decide

/- The right operand of an operator binds more strongly. -/
theorem rank_next_level
    (c : Connective) :
    c.level.next.rank = c.level.rank + 1 := by
  cases c <;> rfl

end Connective

namespace Nonterminal

theorem rank_le_six
    (N : Nonterminal) :
    N.rank ≤ 6 := by
  cases N <;> decide

/- A nonterminal does not bind more than the next. -/
theorem rank_le_rank_next
    (N : Nonterminal) :
    N.rank ≤ N.next.rank := by
  cases N <;> decide

/- There is no nonterminal between one and the next. -/
theorem rank_next_of_lt
    {M N : Nonterminal}
    (hLt : M.rank < N.rank) :
    M.next.rank = M.rank + 1 := by
  have hBound := N.rank_le_six
  cases M with
  | primary =>
      simp only [rank] at hLt hBound
      omega
  | _ =>
      rfl

/- Nonterminals of one rank are the same. -/
theorem rank_injective
    {M N : Nonterminal}
    (hRank : M.rank = N.rank) :
    M = N := by
  cases M <;> cases N <;> first | rfl | contradiction

end Nonterminal

namespace ExprTree

/- What binds strongly enough binds more strongly. -/
theorem IsA.mono
    {d : ExprTree}
    {m n : Nat}
    (hIsA : d.IsA n)
    (hLe : m ≤ n) :
    d.IsA m := by
  cases d with
  | number s | name s =>
      exact Nat.le_trans hLe hIsA
  | paren d | signed negative d | chain c l r =>
      exact ⟨Nat.le_trans hLe hIsA.1, hIsA.2⟩
  | assign t v =>
      obtain ⟨hZero, hParts⟩ := hIsA
      exact ⟨by omega, hParts⟩

/-
  A tree that is derived from a nonterminal is derived from
  those that bind less.
-/
theorem Derives.mono
    {d : ExprTree}
    {M N : Nonterminal}
    (hDerives : d.Derives N)
    (hLe : M.rank ≤ N.rank) :
    d.Derives M := by
  -- Induction on the number of nonterminals in between.
  obtain ⟨k, hDistance⟩ := Nat.exists_eq_add_of_le hLe
  induction k generalizing M with
  | zero =>
      have hSame : M = N :=
        Nonterminal.rank_injective hDistance.symm
      exact hSame ▸ hDerives
  | succ k ih =>
      have hNext : M.next.rank = M.rank + 1 :=
        Nonterminal.rank_next_of_lt (N := N) (by omega)
      exact .next (ih (by omega) (by omega))

/-
  Derivation from a nonterminal can be seen from the form of
  the tree.
-/
theorem derives_iff
    {d : ExprTree}
    {N : Nonterminal} :
    d.Derives N ↔ d.IsA N.rank := by
  constructor
  · intro hDerives
    induction hDerives with
    | number s | name s =>
        exact Nat.le_refl 6
    | paren hInner ih =>
        exact ⟨Nat.le_refl 6, ih⟩
    | signed negative hOperand ih =>
        exact ⟨Nat.le_refl 5, ih⟩
    | chain c hLeft hRight ihLeft ihRight =>
        rw [c.rank_next_level] at ihRight
        exact ⟨Nat.le_refl _, ihLeft, ihRight⟩
    | assign hTarget hValue ihTarget ihValue =>
        exact ⟨rfl, ihTarget, ihValue⟩
    | next hNext ih =>
        exact ih.mono (Nonterminal.rank_le_rank_next _)
  · intro hIsA
    induction d generalizing N with
    | number s =>
        exact (Derives.number s).mono N.rank_le_six
    | name s =>
        exact (Derives.name s).mono N.rank_le_six
    | paren d ih =>
        exact (Derives.paren (ih hIsA.2)).mono
          N.rank_le_six
    | signed negative d ih =>
        exact
          (Derives.signed negative (ih hIsA.2)).mono hIsA.1
    | chain c l r ihLeft ihRight =>
        obtain ⟨hRank, hLeft, hRight⟩ := hIsA
        rw [← c.rank_next_level] at hRight
        exact
          (Derives.chain c (ihLeft hLeft)
            (ihRight hRight)).mono hRank
    | assign t v ihTarget ihValue =>
        obtain ⟨hRank, hTarget, hValue⟩ := hIsA
        exact
          (Derives.assign (ihTarget hTarget)
            (ihValue hValue)).mono (Nat.le_of_eq hRank)

end ExprTree

end WordLang
