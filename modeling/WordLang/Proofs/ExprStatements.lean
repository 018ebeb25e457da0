import WordLang.Proofs.Concatenation
import WordLang.Proofs.VariableNodes

/-
  This file compares the two ways to read an expression.

  An expression can be read on its own, up to the end of
  input, and as a statement, up to a semicolon. Either way
  it is read from the same phrase, since no operator and no
  parenthesis takes the token that ends it. A program of one
  expression statement has no other phrase, since no other
  statement is read as an expression.

  Key theorems include:
    * `WordLang.Expr.ofTokens?_concat`
    * `WordLang.Expr.ofTokens?_eq_ok_iff`
    * `WordLang.StmtPhrase.eq_expr_of_stmtAll`
    * `WordLang.Program.ofTokens?_eq_statement_iff`
    * `WordLang.Program.expr_alone_iff_statement`
-/

namespace WordLang

------------------------------------------------------------
-- Expressions on Their Own
------------------------------------------------------------

namespace Expr

variable {xs : List Token}
variable {stop : Token}

/- A list that ends the input is a stream. -/
theorem ofTokens?_concat
    (hStop : stop.isEof = true) :
    ofTokens? (xs ++ [stop]) =
      some (parse ⟨xs, stop, hStop⟩) := by
  have hList :=
    TokenStream.ofList?_toList ⟨xs, stop, hStop⟩
  rw [TokenStream.toList] at hList
  rw [ofTokens?, hList, Option.map_some]

/- What is read from tokens is what their phrase says. -/
theorem ofTokens?_eq_ok_iff
    (hInside : ∀ a ∈ xs, a.isEof = false)
    (hStop : stop.isEof = true)
    {e : Expr}
    {t : Locals} :
    ofTokens? (xs ++ [stop]) = some (.ok (e, t)) ↔
      ∃ φ : ExprPhrase,
        φ.tokens = xs ∧
        φ.tree.Sound ∧
        t = Locals.empty.after xs ∧
        e = φ.expr t := by
  rw [ofTokens?_concat hStop, Option.some.injEq]
  constructor
  · intro hParse
    exact exists_phrase
      (s := ⟨xs, stop, hStop⟩) hInside hParse
  · rintro ⟨φ, rfl, hSound, rfl, rfl⟩
    exact parse_phrase hSound rfl

end Expr

------------------------------------------------------------
-- Expressions as Statements
------------------------------------------------------------

/-
  Phrases that are read as one expression statement are the
  phrase of an expression and a semicolon.
-/
theorem StmtPhrase.eq_expr_of_stmtAll
    {t : Locals}
    {σs : List StmtPhrase}
    {e : Expr}
    {span : Span}
    (hStmts : stmtAll t σs = [.expr e span]) :
    ∃ φ semicolon,
      σs = [.expr φ semicolon] ∧ φ.expr t = e := by
  match σs with
  | [] =>
      cases hStmts
  | σ :: σ' :: σs =>
      simp [stmtAll] at hStmts
  | [σ] =>
      cases σ with
      | expr φ semicolon =>
          cases hStmts
          exact ⟨φ, semicolon, rfl, rfl⟩
      | ret | ifThen | ifElse | whileLoop | forLoop
      | block =>
          cases hStmts

namespace Program

variable {xs : List Token}
variable {semicolon stop : Token}

/- An expression statement is what its phrase says. -/
theorem ofTokens?_eq_statement_iff
    (hInside : ∀ a ∈ xs, a.isEof = false)
    (hSemicolon : semicolon.kind = .semicolon)
    (hStop : stop.isEof = true)
    {e : Expr}
    {t : Locals} :
    (∃ p span,
      ofTokens? (xs ++ [semicolon, stop]) = some (.ok p) ∧
      p.body = [.expr e span] ∧
      p.locals = t) ↔
      ∃ φ : ExprPhrase,
        φ.tokens = xs ∧
        φ.tree.Sound ∧
        t = Locals.empty.after xs ∧
        e = φ.expr t := by
  let last : TokenOf .semicolon := ⟨semicolon, hSemicolon⟩
  have hTable :
      Locals.empty.after (xs ++ [semicolon]) =
        Locals.empty.after xs :=
    Locals.after_ended .empty xs last (by decide)
  have hList :
      xs ++ [semicolon, stop] =
        xs ++ [semicolon] ++ [stop] :=
    by simp
  rw [hList, ofTokens?_concat hStop]
  simp only [Option.some.injEq]
  constructor
  · rintro ⟨p, span, hParse, hBody, rfl⟩
    have hEnds :
        ∀ a ∈ xs ++ [semicolon], a.isEof = false := by
      intro a hMem
      rcases List.mem_append.mp hMem with hMem | hMem
      · exact hInside a hMem
      · rw [List.mem_singleton.mp hMem]
        exact last.isEof_eq_false (by decide)
    rcases exists_phrases hEnds hParse with
      ⟨σs, hTokens, hSound, hLocals, hStmts⟩
    rcases StmtPhrase.eq_expr_of_stmtAll
        (hStmts.symm.trans hBody) with
      ⟨φ, semicolon', rfl, rfl⟩
    have hSound' : φ.tree.Sound :=
      (StmtTree.soundAll_cons.mp hSound).1.1
    simp only [StmtPhrase.tokensAll, StmtPhrase.tokens,
      List.append_nil] at hTokens
    rcases List.append_inj' hTokens rfl with ⟨hPhrase, -⟩
    exact ⟨φ, hPhrase, hSound', hLocals.trans hTable, rfl⟩
  · rintro ⟨φ, rfl, hSound, rfl, rfl⟩
    let σ : StmtPhrase := .expr φ last
    have hSound' :
        StmtTree.SoundAll (StmtPhrase.treeAll [σ]) :=
      StmtTree.soundAll_cons.mpr
        ⟨⟨hSound, trivial⟩, trivial, trivial⟩
    have hParse :=
      parse_phrases
        (s := ⟨φ.tokens ++ [semicolon], stop, hStop⟩) hSound'
        (List.append_nil _).symm
    rw [hTable] at hParse
    exact ⟨_, _, hParse, rfl, rfl⟩

/-
  An expression is read on its own exactly when it is read,
  the same one and with the same variables, as the only
  statement of a program.
-/
theorem expr_alone_iff_statement
    {stop' : Token}
    (hInside : ∀ a ∈ xs, a.isEof = false)
    (hSemicolon : semicolon.kind = .semicolon)
    (hStop : stop.isEof = true)
    (hStop' : stop'.isEof = true)
    (e : Expr)
    (t : Locals) :
    Expr.ofTokens? (xs ++ [stop]) = some (.ok (e, t)) ↔
      ∃ p span,
        ofTokens? (xs ++ [semicolon, stop']) =
          some (.ok p) ∧
        p.body = [.expr e span] ∧
        p.locals = t := by
  rw [Expr.ofTokens?_eq_ok_iff hInside hStop,
    ofTokens?_eq_statement_iff hInside hSemicolon hStop']

/-
  A sign in front of a parenthesis, with an assignment and
  a comparison that changes its operands inside.
-/
theorem assigned_comparison_is_statement :
    let xs : List Token :=
      [⟨.minus, "-", ⟨0, 1⟩⟩, ⟨.lparen, "(", ⟨1, 1⟩⟩,
        ⟨.identifier, "a", ⟨2, 1⟩⟩, ⟨.assign, "=", ⟨4, 1⟩⟩,
        ⟨.identifier, "b", ⟨6, 1⟩⟩, ⟨.greater, ">", ⟨8, 1⟩⟩,
        ⟨.number, "2", ⟨10, 1⟩⟩, ⟨.rparen, ")", ⟨11, 1⟩⟩]
    let e : Expr :=
      .binary .sub (.int 0 ⟨0, 1⟩)
        (.assign (.var ⟨8⟩ ⟨2, 1⟩)
          (.binary .lt (.int 2 ⟨10, 1⟩) (.var ⟨16⟩ ⟨6, 1⟩)
            ⟨6, 5⟩)
          ⟨1, 11⟩)
        ⟨0, 12⟩
    Expr.ofTokens? (xs ++ [.eofAt 12]) =
      some (.ok (e, ⟨["a", "b"]⟩)) ∧
    ∃ p span,
      ofTokens?
          (xs ++ [⟨.semicolon, ";", ⟨12, 1⟩⟩, .eofAt 14]) =
        some (.ok p) ∧
      p.body = [.expr e span] ∧
      p.locals = ⟨["a", "b"]⟩ := by
  intro xs e
  have hAlone :
      Expr.ofTokens? (xs ++ [.eofAt 12]) =
        some (.ok (e, ⟨["a", "b"]⟩)) := by
    decide +kernel
  exact ⟨hAlone,
    (expr_alone_iff_statement (by decide) rfl rfl rfl e
      ⟨["a", "b"]⟩).mp hAlone⟩

end Program

end WordLang
