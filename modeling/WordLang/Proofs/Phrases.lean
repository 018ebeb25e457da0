import WordLang.Proofs.SourceCuts

/-
  This file defines phrases, the derivations of the grammar
  with the token of each of their terminals.

  A phrase says what is read from its tokens, regions
  included. A table gives every name its offset. Phrases are
  read off the tokens of a derivation, and their regions run
  from their first token to their last.

  Key definitions include:
    * `WordLang.TokenOf`
    * `WordLang.ExprPhrase`
    * `WordLang.ExprPhrase.expr`
    * `WordLang.StmtPhrase`
    * `WordLang.StmtPhrase.stmt`

  Key theorems include:
    * `WordLang.ExprPhrase.exists_of_terminals`
    * `WordLang.ExprPhrase.covers`
    * `WordLang.StmtPhrase.existsAll_of_terminals`
    * `WordLang.StmtPhrase.covers`
-/

namespace WordLang

------------------------------------------------------------
-- Regions
------------------------------------------------------------

namespace Token

/- The region of what stands between two tokens. -/
theorem covers_enclosed
    {first last : Token}
    {ts : List Token}
    (hOrder : InOrder (first :: (ts ++ [last]))) :
    Covers (first :: (ts ++ [last]))
      (first.span.through last.span) := by
  have hLast : Covers [last] last.span :=
    covers_singleton (hOrder.fits last (by simp))
  have hFirst : StartAt (first :: ts) first.span.lo :=
    ⟨first, rfl, rfl⟩
  exact hLast.through hFirst hOrder

/- The region of two phrases with a token between them. -/
theorem covers_between
    {us vs : List Token}
    {sign : Token}
    {s s' : Span}
    (hStart : StartAt us s.lo)
    (hOrder : InOrder (us ++ sign :: vs))
    (hCovers : InOrder vs → Covers vs s') :
    Covers (us ++ sign :: vs) (s.through s') := by
  rw [List.append_cons] at hOrder ⊢
  have hRight : InOrder vs :=
    hOrder.sublist (List.sublist_append_right _ vs)
  exact (hCovers hRight).through (hStart.append _) hOrder

end Token

------------------------------------------------------------
-- Tokens of a Kind
------------------------------------------------------------

/- A token at another place. -/
def Token.relocate
    (place : Span → Span)
    (t : Token) : Token :=
  { t with span := place t.span }

/- A token of a given kind. -/
abbrev TokenOf (k : Kind) :=
  { t : Token // t.kind = k }

namespace TokenOf

variable {k : Kind}

/- A token of a given kind at another place. -/
def relocate
    (place : Span → Span)
    (t : TokenOf k) : TokenOf k :=
  ⟨t.1.relocate place, t.2⟩

/- A token that is moved back is where it was. -/
theorem relocate_relocate
    {place back : Span → Span}
    (t : TokenOf k)
    (hBack : back (place t.1.span) = t.1.span) :
    (t.relocate place).relocate back = t := by
  apply Subtype.ext
  show { t.1 with span := back (place t.1.span) } = t.1
  rw [hBack]

/- The token of the next terminal. -/
theorem exists_of_map_eq_cons
    {ts : List Token}
    {xs : List Terminal}
    (hTerminals : ts.map Token.terminal = .symbol k :: xs) :
    ∃ (t : TokenOf k) (us : List Token),
      ts = t.1 :: us ∧ us.map Token.terminal = xs := by
  rcases List.map_eq_cons_iff.mp hTerminals with
    ⟨t, us, rfl, hSymbol, hRest⟩
  exact ⟨⟨t, Token.kind_of_terminal hSymbol⟩, us, rfl,
    hRest⟩

end TokenOf

------------------------------------------------------------
-- Expressions
------------------------------------------------------------

/- The operator that is written. -/
def Connective.operator : Connective → Operator
| equal => ⟨.eq, false, 1⟩
| notEqual => ⟨.ne, false, 1⟩
| less => ⟨.lt, false, 2⟩
| lessEqual => ⟨.le, false, 2⟩
| greater => ⟨.lt, true, 2⟩
| greaterEqual => ⟨.le, true, 2⟩
| plus => ⟨.add, false, 3⟩
| minus => ⟨.sub, false, 3⟩
| times => ⟨.mul, false, 4⟩
| dividedBy => ⟨.div, false, 4⟩

theorem Connective.operator?_kind
    (c : Connective) :
    c.kind.operator? = some c.operator := by
  cases c <;> rfl

/- The kind of token that a sign is. -/
def Kind.ofSign
    (negative : Bool) : Kind :=
  if negative then .minus else .plus

namespace Expr

/- An operand with the sign in front of it. -/
def withSign
    (e : Expr)
    (s : Span) :
    Bool → Expr
| true => .join .sub (.int 0 s) e
| false => e.respan (s.through e.span)

theorem span_withSign
    (e : Expr)
    (s : Span)
    (negative : Bool) :
    (e.withSign s negative).span = s.through e.span := by
  cases negative with
  | false => exact e.span_respan _
  | true => rfl

theorem isVar_respan
    (e : Expr)
    (s : Span) :
    (e.respan s).isVar = e.isVar := by
  cases e <;> rfl

end Expr

/- An expression as it is written. -/
inductive ExprPhrase where
  | number (token : TokenOf .number)
  | name (token : TokenOf .identifier)
  | paren
      (lparen : TokenOf .lparen)
      (inner : ExprPhrase)
      (rparen : TokenOf .rparen)
  | signed
      (negative : Bool)
      (sign : TokenOf (.ofSign negative))
      (operand : ExprPhrase)
  | chain
      (c : Connective)
      (lhs : ExprPhrase)
      (sign : TokenOf c.kind)
      (rhs : ExprPhrase)
  | assign
      (target : ExprPhrase)
      (sign : TokenOf .assign)
      (value : ExprPhrase)

namespace ExprPhrase

/- The tokens of a phrase. -/
def tokens : ExprPhrase → List Token
| number token => [token.1]
| name token => [token.1]
| paren l d r => l.1 :: (d.tokens ++ [r.1])
| signed _ sign d => sign.1 :: d.tokens
| chain _ l sign r => l.tokens ++ sign.1 :: r.tokens
| assign d sign v => d.tokens ++ sign.1 :: v.tokens

/- The derivation without its tokens. -/
def tree : ExprPhrase → ExprTree
| number token => .number token.1.lexeme
| name token => .name token.1.lexeme
| paren _ d _ => .paren d.tree
| signed negative _ d => .signed negative d.tree
| chain c l _ r => .chain c l.tree r.tree
| assign d _ v => .assign d.tree v.tree

/-
  The expression that is read from a phrase, if its numbers
  are words and its names are in the table.
-/
def expr
    (t : Locals) :
    ExprPhrase → Expr
| number token =>
    .int ((Literal.read? token.1.lexeme).getD 0)
      token.1.span
| name token =>
    .var ((t.offset? token.1.lexeme).getD ⟨0⟩) token.1.span
| paren l d r =>
    (d.expr t).respan (l.1.span.through r.1.span)
| signed negative sign d =>
    (d.expr t).withSign sign.1.span negative
| chain c l _ r => c.operator.apply (l.expr t) (r.expr t)
| assign d _ v => .store (d.expr t) (v.expr t)

/- A phrase at another place. -/
def relocate
    (place : Span → Span) :
    ExprPhrase → ExprPhrase
| number token => number (token.relocate place)
| name token => name (token.relocate place)
| paren l d r =>
    paren (l.relocate place) (d.relocate place)
      (r.relocate place)
| signed negative sign d =>
    signed negative (sign.relocate place) (d.relocate place)
| chain c l sign r =>
    chain c (l.relocate place) (sign.relocate place)
      (r.relocate place)
| assign d sign v =>
    assign (d.relocate place) (sign.relocate place)
      (v.relocate place)

theorem tokens_relocate
    (place : Span → Span)
    (φ : ExprPhrase) :
    (φ.relocate place).tokens =
      φ.tokens.map (Token.relocate place) := by
  induction φ with
  | number token | name token =>
      rfl
  | paren l d r ih =>
      simp [relocate, tokens, TokenOf.relocate, ih]
  | signed negative sign d ih =>
      simp [relocate, tokens, TokenOf.relocate, ih]
  | chain c l sign r ihLeft ihRight =>
      simp [relocate, tokens, TokenOf.relocate, ihLeft,
        ihRight]
  | assign d sign v ihTarget ihValue =>
      simp [relocate, tokens, TokenOf.relocate, ihTarget,
        ihValue]

theorem tree_relocate
    (place : Span → Span)
    (φ : ExprPhrase) :
    (φ.relocate place).tree = φ.tree := by
  induction φ with
  | number token | name token =>
      rfl
  | paren l d r ih | signed negative sign d ih =>
      simp only [relocate, tree, ih]
  | chain c l sign r ihLeft ihRight =>
      simp only [relocate, tree, ihLeft, ihRight]
  | assign d sign v ihTarget ihValue =>
      simp only [relocate, tree, ihTarget, ihValue]

/- A phrase that is moved back is where it was. -/
theorem relocate_relocate
    {place back : Span → Span}
    (φ : ExprPhrase)
    (hBack :
      ∀ t ∈ φ.tokens, back (place t.span) = t.span) :
    (φ.relocate place).relocate back = φ := by
  induction φ with
  | number token | name token =>
      simp only [tokens, List.forall_mem_singleton] at hBack
      simp only [relocate, token.relocate_relocate hBack]
  | paren l d r ih =>
      simp only [tokens, List.forall_mem_cons,
        List.forall_mem_append] at hBack
      simp only [relocate, l.relocate_relocate hBack.1,
        ih hBack.2.1, r.relocate_relocate hBack.2.2.1]
  | signed negative sign d ih =>
      simp only [tokens, List.forall_mem_cons] at hBack
      simp only [relocate, sign.relocate_relocate hBack.1,
        ih hBack.2]
  | chain c l sign r ihLeft ihRight
  | assign l sign r ihLeft ihRight =>
      simp only [tokens, List.forall_mem_append,
        List.forall_mem_cons] at hBack
      simp only [relocate, ihLeft hBack.1,
        sign.relocate_relocate hBack.2.1, ihRight hBack.2.2]

/- The tokens of a derivation make it a phrase. -/
theorem exists_of_terminals
    {d : ExprTree}
    {ts : List Token}
    (hTerminals : ts.map Token.terminal = d.terminals) :
    ∃ φ : ExprPhrase, φ.tokens = ts ∧ φ.tree = d := by
  induction d generalizing ts with
  | number s =>
      rcases List.map_eq_singleton_iff.mp hTerminals with
        ⟨t, rfl, hNumber⟩
      unfold Token.terminal at hNumber
      split at hNumber <;> cases hNumber
      rename_i hKind
      exact ⟨.number ⟨t, hKind⟩, rfl, rfl⟩
  | name s =>
      rcases List.map_eq_singleton_iff.mp hTerminals with
        ⟨t, rfl, hName⟩
      unfold Token.terminal at hName
      split at hName <;> cases hName
      rename_i hKind
      exact ⟨.name ⟨t, hKind⟩, rfl, rfl⟩
  | paren d ih =>
      rw [ExprTree.terminals, List.append_assoc,
        List.singleton_append] at hTerminals
      rcases TokenOf.exists_of_map_eq_cons hTerminals with
        ⟨l, us, rfl, hInner⟩
      rcases List.map_eq_append_iff.mp hInner with
        ⟨vs, ws, rfl, hVs, hWs⟩
      rcases TokenOf.exists_of_map_eq_cons hWs with
        ⟨r, ws, rfl, hNil⟩
      rcases ih hVs with ⟨φ, rfl, rfl⟩
      rw [List.map_eq_nil_iff.mp hNil]
      exact ⟨.paren l φ r, rfl, rfl⟩
  | signed negative d ih =>
      rcases TokenOf.exists_of_map_eq_cons hTerminals with
        ⟨sign, us, rfl, hOperand⟩
      rcases ih hOperand with ⟨φ, rfl, rfl⟩
      exact ⟨.signed negative sign φ, rfl, rfl⟩
  | chain c l r ihLeft ihRight =>
      rw [ExprTree.terminals, List.append_assoc,
        List.singleton_append] at hTerminals
      rcases List.map_eq_append_iff.mp hTerminals with
        ⟨us, vs, rfl, hLeft, hRest⟩
      rcases TokenOf.exists_of_map_eq_cons hRest with
        ⟨sign, vs, rfl, hRight⟩
      rcases ihLeft hLeft with ⟨φ, rfl, rfl⟩
      rcases ihRight hRight with ⟨ψ, rfl, rfl⟩
      exact ⟨.chain c φ sign ψ, rfl, rfl⟩
  | assign d v ihTarget ihValue =>
      rw [ExprTree.terminals, List.append_assoc,
        List.singleton_append] at hTerminals
      rcases List.map_eq_append_iff.mp hTerminals with
        ⟨us, vs, rfl, hTarget, hRest⟩
      rcases TokenOf.exists_of_map_eq_cons hRest with
        ⟨sign, vs, rfl, hValue⟩
      rcases ihTarget hTarget with ⟨φ, rfl, rfl⟩
      rcases ihValue hValue with ⟨ψ, rfl, rfl⟩
      exact ⟨.assign φ sign ψ, rfl, rfl⟩

/- A phrase for a variable is read as one. -/
theorem isVar_expr
    (t : Locals)
    (φ : ExprPhrase) :
    (φ.expr t).isVar = φ.tree.isPlace := by
  induction φ with
  | number token | name token | assign d sign v =>
      rfl
  | paren l d r ih =>
      rw [expr, Expr.isVar_respan, ih]
      rfl
  | signed negative sign d ih =>
      cases negative with
      | false =>
          rw [expr, Expr.withSign, Expr.isVar_respan, ih]
          rfl
      | true =>
          rfl
  | chain c l sign r =>
      cases c <;> rfl

------------------------------------------------------------
-- Regions of Expressions
------------------------------------------------------------

/- The region starts with the first token. -/
theorem startAt
    (t : Locals)
    (φ : ExprPhrase) :
    Token.StartAt φ.tokens (φ.expr t).span.lo := by
  induction φ with
  | number token | name token =>
      exact ⟨token.1, rfl, rfl⟩
  | paren l d r ih =>
      rw [expr, Expr.span_respan]
      exact ⟨l.1, rfl, rfl⟩
  | signed negative sign d ih =>
      rw [expr, Expr.span_withSign]
      exact ⟨sign.1, rfl, rfl⟩
  | chain c l sign r ihLeft ihRight =>
      rw [expr, Operator.span_apply]
      exact ihLeft.append _
  | assign d sign v ihTarget ihValue =>
      exact ihTarget.append _

/- The region runs from the first token to the last. -/
theorem covers
    (t : Locals)
    {φ : ExprPhrase}
    (hOrder : Token.InOrder φ.tokens) :
    Token.Covers φ.tokens (φ.expr t).span := by
  induction φ with
  | number token | name token =>
      exact Token.covers_singleton
        (hOrder.fits _ List.mem_cons_self)
  | paren l d r ih =>
      rw [expr, Expr.span_respan]
      exact Token.covers_enclosed hOrder
  | signed negative sign d ih =>
      rw [expr, Expr.span_withSign]
      have hOperand :=
        ih (hOrder.sublist (List.sublist_cons_self _ _))
      have hFirst : Token.StartAt [sign.1] sign.1.span.lo :=
        ⟨sign.1, rfl, rfl⟩
      exact hOperand.through hFirst hOrder
  | chain c l sign r ihLeft ihRight =>
      rw [expr, Operator.span_apply]
      exact Token.covers_between (l.startAt t) hOrder ihRight
  | assign d sign v ihTarget ihValue =>
      exact Token.covers_between (d.startAt t) hOrder ihValue

------------------------------------------------------------
-- Expressions That May Be Left Out
------------------------------------------------------------

/- The tokens of a phrase that may be left out. -/
def tokensOption :
    Option ExprPhrase →
    List Token
| none => []
| some φ => φ.tokens

theorem tokensOption_relocate
    (place : Span → Span)
    (φ : Option ExprPhrase) :
    tokensOption (φ.map (relocate place)) =
      (tokensOption φ).map (Token.relocate place) := by
  cases φ with
  | none => rfl
  | some φ => exact φ.tokens_relocate place

theorem tree_relocate_option
    (place : Span → Span)
    (φ : Option ExprPhrase) :
    (φ.map (relocate place)).map tree = φ.map tree := by
  cases φ with
  | none => rfl
  | some φ => exact congrArg some (φ.tree_relocate place)

theorem relocate_relocate_option
    {place back : Span → Span}
    (φ : Option ExprPhrase)
    (hBack :
      ∀ t ∈ tokensOption φ,
        back (place t.span) = t.span) :
    (φ.map (relocate place)).map (relocate back) = φ := by
  cases φ with
  | none => rfl
  | some φ =>
      exact congrArg some (φ.relocate_relocate hBack)

theorem exists_option_of_terminals
    {d : Option ExprTree}
    {ts : List Token}
    (hTerminals :
      ts.map Token.terminal = ExprTree.terminalsOption d) :
    ∃ φ : Option ExprPhrase,
      tokensOption φ = ts ∧ φ.map tree = d := by
  cases d with
  | none =>
      rw [List.map_eq_nil_iff.mp hTerminals]
      exact ⟨none, rfl, rfl⟩
  | some d =>
      rcases exists_of_terminals hTerminals with
        ⟨φ, hTokens, rfl⟩
      exact ⟨some φ, hTokens, rfl⟩

end ExprPhrase

------------------------------------------------------------
-- Heads
------------------------------------------------------------

/- The head of a statement that has a predicate only. -/
structure HeadPhrase (k : Kind) where
  keyword : TokenOf k
  lparen : TokenOf .lparen
  predicate : ExprPhrase
  rparen : TokenOf .rparen

namespace HeadPhrase

variable {k : Kind}

/- The tokens of a head. -/
def tokens
    (h : HeadPhrase k) : List Token :=
  h.keyword.1 :: h.lparen.1 ::
    (h.predicate.tokens ++ [h.rparen.1])

/- A head at another place. -/
def relocate
    (place : Span → Span)
    (h : HeadPhrase k) : HeadPhrase k where
  keyword := h.keyword.relocate place
  lparen := h.lparen.relocate place
  predicate := h.predicate.relocate place
  rparen := h.rparen.relocate place

theorem tokens_relocate
    (place : Span → Span)
    (h : HeadPhrase k) :
    (h.relocate place).tokens =
      h.tokens.map (Token.relocate place) := by
  simp [relocate, tokens, TokenOf.relocate,
    ExprPhrase.tokens_relocate]

theorem relocate_relocate
    {place back : Span → Span}
    (h : HeadPhrase k)
    (hBack :
      ∀ t ∈ h.tokens, back (place t.span) = t.span) :
    (h.relocate place).relocate back = h := by
  simp only [tokens, List.forall_mem_cons,
    List.forall_mem_append] at hBack
  rcases hBack with ⟨hKeyword, hLparen, hInner, hRparen, -⟩
  simp only [relocate,
    h.keyword.relocate_relocate hKeyword,
    h.lparen.relocate_relocate hLparen,
    h.predicate.relocate_relocate hInner,
    h.rparen.relocate_relocate hRparen]

theorem exists_of_terminals
    {d : ExprTree}
    {ts : List Token}
    {xs : List Terminal}
    (hTerminals :
      ts.map Token.terminal =
        .symbol k :: .symbol .lparen ::
          (d.terminals ++ .symbol .rparen :: xs)) :
    ∃ (h : HeadPhrase k) (us : List Token),
      ts = h.tokens ++ us ∧
      h.predicate.tree = d ∧
      us.map Token.terminal = xs := by
  rcases TokenOf.exists_of_map_eq_cons hTerminals with
    ⟨keyword, ts, rfl, hHead⟩
  rcases TokenOf.exists_of_map_eq_cons hHead with
    ⟨lparen, ts, rfl, hInner⟩
  rcases List.map_eq_append_iff.mp hInner with
    ⟨vs, ws, rfl, hPredicate, hClose⟩
  rcases TokenOf.exists_of_map_eq_cons hClose with
    ⟨rparen, us, rfl, hRest⟩
  rcases ExprPhrase.exists_of_terminals hPredicate with
    ⟨φ, rfl, hTree⟩
  exact ⟨⟨keyword, lparen, φ, rparen⟩, us,
    by simp [tokens], hTree, hRest⟩

end HeadPhrase

/- The head of a `for`. -/
structure ForPhrase where
  keyword : TokenOf .kwFor
  lparen : TokenOf .lparen
  init : Option ExprPhrase
  first : TokenOf .semicolon
  predicate : Option ExprPhrase
  second : TokenOf .semicolon
  step : Option ExprPhrase
  rparen : TokenOf .rparen

namespace ForPhrase

open ExprPhrase (tokensOption)

/- The tokens of a head. -/
def tokens
    (h : ForPhrase) : List Token :=
  h.keyword.1 :: h.lparen.1 ::
    (tokensOption h.init ++ h.first.1 ::
      (tokensOption h.predicate ++ h.second.1 ::
        (tokensOption h.step ++ [h.rparen.1])))

/- A head at another place. -/
def relocate
    (place : Span → Span)
    (h : ForPhrase) : ForPhrase where
  keyword := h.keyword.relocate place
  lparen := h.lparen.relocate place
  init := h.init.map (ExprPhrase.relocate place)
  first := h.first.relocate place
  predicate := h.predicate.map (ExprPhrase.relocate place)
  second := h.second.relocate place
  step := h.step.map (ExprPhrase.relocate place)
  rparen := h.rparen.relocate place

theorem tokens_relocate
    (place : Span → Span)
    (h : ForPhrase) :
    (h.relocate place).tokens =
      h.tokens.map (Token.relocate place) := by
  simp [relocate, tokens, TokenOf.relocate,
    ExprPhrase.tokensOption_relocate]

theorem relocate_relocate
    {place back : Span → Span}
    (h : ForPhrase)
    (hBack :
      ∀ t ∈ h.tokens, back (place t.span) = t.span) :
    (h.relocate place).relocate back = h := by
  simp only [tokens, List.forall_mem_cons,
    List.forall_mem_append] at hBack
  rcases hBack with ⟨hKeyword, hLparen, hInit, hFirst,
    hPredicate, hSecond, hStep, hRparen, -⟩
  simp only [relocate,
    h.keyword.relocate_relocate hKeyword,
    h.lparen.relocate_relocate hLparen,
    ExprPhrase.relocate_relocate_option h.init hInit,
    h.first.relocate_relocate hFirst,
    ExprPhrase.relocate_relocate_option h.predicate
      hPredicate,
    h.second.relocate_relocate hSecond,
    ExprPhrase.relocate_relocate_option h.step hStep,
    h.rparen.relocate_relocate hRparen]

theorem exists_of_terminals
    {i c n : Option ExprTree}
    {ts : List Token}
    {xs : List Terminal}
    (hTerminals :
      ts.map Token.terminal =
        .symbol .kwFor :: .symbol .lparen ::
          (ExprTree.terminalsOption i ++
            .symbol .semicolon ::
          (ExprTree.terminalsOption c ++
            .symbol .semicolon ::
          (ExprTree.terminalsOption n ++
            .symbol .rparen :: xs)))) :
    ∃ (h : ForPhrase) (us : List Token),
      ts = h.tokens ++ us ∧
      h.init.map ExprPhrase.tree = i ∧
      h.predicate.map ExprPhrase.tree = c ∧
      h.step.map ExprPhrase.tree = n ∧
      us.map Token.terminal = xs := by
  rcases TokenOf.exists_of_map_eq_cons hTerminals with
    ⟨keyword, ts, rfl, hHead⟩
  rcases TokenOf.exists_of_map_eq_cons hHead with
    ⟨lparen, ts, rfl, hInner⟩
  rcases List.map_eq_append_iff.mp hInner with
    ⟨is, ts, rfl, hInit, hFirst⟩
  rcases TokenOf.exists_of_map_eq_cons hFirst with
    ⟨first, ts, rfl, hAfterFirst⟩
  rcases List.map_eq_append_iff.mp hAfterFirst with
    ⟨cs, ts, rfl, hPredicate, hSecond⟩
  rcases TokenOf.exists_of_map_eq_cons hSecond with
    ⟨second, ts, rfl, hAfterSecond⟩
  rcases List.map_eq_append_iff.mp hAfterSecond with
    ⟨ns, ts, rfl, hStep, hClose⟩
  rcases TokenOf.exists_of_map_eq_cons hClose with
    ⟨rparen, us, rfl, hRest⟩
  rcases ExprPhrase.exists_option_of_terminals hInit with
    ⟨init, rfl, rfl⟩
  rcases ExprPhrase.exists_option_of_terminals hPredicate
    with ⟨predicate, rfl, rfl⟩
  rcases ExprPhrase.exists_option_of_terminals hStep with
    ⟨step, rfl, rfl⟩
  refine ⟨⟨keyword, lparen, init, first, predicate, second,
    step, rparen⟩, us, ?_, rfl, rfl, rfl, hRest⟩
  simp [tokens]

end ForPhrase

------------------------------------------------------------
-- Statements
------------------------------------------------------------

/- A statement as it is written. -/
inductive StmtPhrase where
  | ret
      (keyword : TokenOf .kwReturn)
      (value : ExprPhrase)
      (semicolon : TokenOf .semicolon)
  | ifThen (head : HeadPhrase .kwIf) (thenArm : StmtPhrase)
  | ifElse
      (head : HeadPhrase .kwIf)
      (thenArm : StmtPhrase)
      (keyword : TokenOf .kwElse)
      (elseArm : StmtPhrase)
  | whileLoop
      (head : HeadPhrase .kwWhile)
      (body : StmtPhrase)
  | forLoop (head : ForPhrase) (body : StmtPhrase)
  | block
      (lbrace : TokenOf .lbrace)
      (body : List StmtPhrase)
      (rbrace : TokenOf .rbrace)
  | expr
      (value : ExprPhrase)
      (semicolon : TokenOf .semicolon)

namespace StmtPhrase

mutual

/- The tokens of a phrase. -/
def tokens : StmtPhrase → List Token
| ret keyword φ semicolon =>
    keyword.1 :: (φ.tokens ++ [semicolon.1])
| ifThen h σ => h.tokens ++ tokens σ
| ifElse h σ keyword σ' =>
    h.tokens ++ (tokens σ ++ keyword.1 :: tokens σ')
| whileLoop h σ => h.tokens ++ tokens σ
| forLoop h σ => h.tokens ++ tokens σ
| block l σs r => l.1 :: (tokensAll σs ++ [r.1])
| expr φ semicolon => φ.tokens ++ [semicolon.1]

/- The tokens of phrases one after another. -/
def tokensAll : List StmtPhrase → List Token
| [] => []
| σ :: σs => tokens σ ++ tokensAll σs

end

mutual

/- The derivation without its tokens. -/
def tree : StmtPhrase → StmtTree
| ret _ φ _ => .ret φ.tree
| ifThen h σ => .ifThen h.predicate.tree (tree σ)
| ifElse h σ _ σ' =>
    .ifElse h.predicate.tree (tree σ) (tree σ')
| whileLoop h σ => .whileLoop h.predicate.tree (tree σ)
| forLoop h σ =>
    .forLoop (h.init.map ExprPhrase.tree)
      (h.predicate.map ExprPhrase.tree)
      (h.step.map ExprPhrase.tree) (tree σ)
| block _ σs _ => .block (treeAll σs)
| expr φ _ => .expr φ.tree

/- The derivations without their tokens. -/
def treeAll : List StmtPhrase → List StmtTree
| [] => []
| σ :: σs => tree σ :: treeAll σs

end

mutual

/- The statement that is read from a phrase. -/
def stmt
    (t : Locals) :
    StmtPhrase → Stmt
| ret keyword φ semicolon =>
    .ret (φ.expr t)
      (keyword.1.span.through semicolon.1.span)
| ifThen h σ =>
    .ifThen (h.predicate.expr t) (stmt t σ)
      (h.keyword.1.span.through (stmt t σ).span)
| ifElse h σ _ σ' =>
    .ifElse (h.predicate.expr t) (stmt t σ) (stmt t σ')
      (h.keyword.1.span.through (stmt t σ').span)
| whileLoop h σ =>
    .whileLoop (h.predicate.expr t) (stmt t σ)
      (h.keyword.1.span.through (stmt t σ).span)
| forLoop h σ =>
    .forLoop (h.init.map (ExprPhrase.expr t))
      (h.predicate.map (ExprPhrase.expr t))
      (h.step.map (ExprPhrase.expr t)) (stmt t σ)
      (h.keyword.1.span.through (stmt t σ).span)
| block l σs r =>
    .block (stmtAll t σs) (l.1.span.through r.1.span)
| expr φ semicolon =>
    .expr (φ.expr t)
      ((φ.expr t).span.through semicolon.1.span)

/- The statements that are read from phrases. -/
def stmtAll
    (t : Locals) :
    List StmtPhrase → List Stmt
| [] => []
| σ :: σs => stmt t σ :: stmtAll t σs

end

mutual

/- A phrase at another place. -/
def relocate
    (place : Span → Span) :
    StmtPhrase → StmtPhrase
| ret keyword φ semicolon =>
    ret (keyword.relocate place) (φ.relocate place)
      (semicolon.relocate place)
| ifThen h σ => ifThen (h.relocate place) (relocate place σ)
| ifElse h σ keyword σ' =>
    ifElse (h.relocate place) (relocate place σ)
      (keyword.relocate place) (relocate place σ')
| whileLoop h σ =>
    whileLoop (h.relocate place) (relocate place σ)
| forLoop h σ =>
    forLoop (h.relocate place) (relocate place σ)
| block l σs r =>
    block (l.relocate place) (relocateAll place σs)
      (r.relocate place)
| expr φ semicolon =>
    expr (φ.relocate place) (semicolon.relocate place)

/- Phrases at another place. -/
def relocateAll
    (place : Span → Span) :
    List StmtPhrase → List StmtPhrase
| [] => []
| σ :: σs => relocate place σ :: relocateAll place σs

end

mutual

theorem tokens_relocate
    (place : Span → Span) :
    (σ : StmtPhrase) →
    (relocate place σ).tokens =
      σ.tokens.map (Token.relocate place)
| ret keyword φ semicolon => by
    simp [relocate, tokens, TokenOf.relocate,
      φ.tokens_relocate]
| ifThen h σ | whileLoop h σ => by
    simp [relocate, tokens, h.tokens_relocate,
      tokens_relocate place σ]
| ifElse h σ keyword σ' => by
    simp [relocate, tokens, TokenOf.relocate,
      h.tokens_relocate, tokens_relocate place σ,
      tokens_relocate place σ']
| forLoop h σ => by
    simp [relocate, tokens, h.tokens_relocate,
      tokens_relocate place σ]
| block l σs r => by
    simp [relocate, tokens, TokenOf.relocate,
      tokensAll_relocate place σs]
| expr φ semicolon => by
    simp [relocate, tokens, TokenOf.relocate,
      φ.tokens_relocate]

theorem tokensAll_relocate
    (place : Span → Span) :
    (σs : List StmtPhrase) →
    tokensAll (relocateAll place σs) =
      (tokensAll σs).map (Token.relocate place)
| [] => rfl
| σ :: σs => by
    simp [relocateAll, tokensAll, tokens_relocate place σ,
      tokensAll_relocate place σs]

end

mutual

theorem tree_relocate
    (place : Span → Span) :
    (σ : StmtPhrase) →
    (relocate place σ).tree = σ.tree
| ret keyword φ semicolon | expr φ semicolon => by
    simp only [relocate, tree, φ.tree_relocate]
| ifThen h σ | whileLoop h σ => by
    simp only [relocate, tree, HeadPhrase.relocate,
      ExprPhrase.tree_relocate, tree_relocate place σ]
| ifElse h σ keyword σ' => by
    simp only [relocate, tree, HeadPhrase.relocate,
      ExprPhrase.tree_relocate, tree_relocate place σ,
      tree_relocate place σ']
| forLoop h σ => by
    simp only [relocate, tree, ForPhrase.relocate,
      ExprPhrase.tree_relocate_option,
      tree_relocate place σ]
| block l σs r => by
    simp only [relocate, tree, treeAll_relocate place σs]

theorem treeAll_relocate
    (place : Span → Span) :
    (σs : List StmtPhrase) →
    treeAll (relocateAll place σs) = treeAll σs
| [] => rfl
| σ :: σs => by
    simp only [relocateAll, treeAll, tree_relocate place σ,
      treeAll_relocate place σs]

end

mutual

/- A phrase that is moved back is where it was. -/
theorem relocate_relocate
    {place back : Span → Span} :
    (σ : StmtPhrase) →
    (∀ t ∈ σ.tokens, back (place t.span) = t.span) →
    relocate back (relocate place σ) = σ
| ret keyword φ semicolon, hBack => by
    simp only [tokens, List.forall_mem_cons,
      List.forall_mem_append] at hBack
    simp only [relocate,
      keyword.relocate_relocate hBack.1,
      φ.relocate_relocate hBack.2.1,
      semicolon.relocate_relocate hBack.2.2.1]
| ifThen h σ, hBack | whileLoop h σ, hBack
| forLoop h σ, hBack => by
    simp only [tokens, List.forall_mem_append] at hBack
    simp only [relocate, h.relocate_relocate hBack.1,
      relocate_relocate σ hBack.2]
| ifElse h σ keyword σ', hBack => by
    simp only [tokens, List.forall_mem_cons,
      List.forall_mem_append] at hBack
    rcases hBack with ⟨hHead, hThen, hKeyword, hElse⟩
    simp only [relocate, h.relocate_relocate hHead,
      relocate_relocate σ hThen,
      keyword.relocate_relocate hKeyword,
      relocate_relocate σ' hElse]
| block l σs r, hBack => by
    simp only [tokens, List.forall_mem_cons,
      List.forall_mem_append] at hBack
    simp only [relocate, l.relocate_relocate hBack.1,
      relocateAll_relocateAll σs hBack.2.1,
      r.relocate_relocate hBack.2.2.1]
| expr φ semicolon, hBack => by
    simp only [tokens, List.forall_mem_cons,
      List.forall_mem_append] at hBack
    simp only [relocate, φ.relocate_relocate hBack.1,
      semicolon.relocate_relocate hBack.2.1]

theorem relocateAll_relocateAll
    {place back : Span → Span} :
    (σs : List StmtPhrase) →
    (∀ t ∈ tokensAll σs, back (place t.span) = t.span) →
    relocateAll back (relocateAll place σs) = σs
| [], _ => rfl
| σ :: σs, hBack => by
    simp only [tokensAll, List.forall_mem_append] at hBack
    simp only [relocateAll, relocate_relocate σ hBack.1,
      relocateAll_relocateAll σs hBack.2]

end

mutual

/- The tokens of a derivation make it a phrase. -/
theorem exists_of_terminals :
    (d : StmtTree) →
    {ts : List Token} →
    ts.map Token.terminal = d.terminals →
    ∃ σ : StmtPhrase, σ.tokens = ts ∧ σ.tree = d
| .ret d, ts, hTerminals => by
    rw [StmtTree.terminals, List.append_assoc,
      List.singleton_append] at hTerminals
    rcases TokenOf.exists_of_map_eq_cons hTerminals with
      ⟨keyword, ts, rfl, hRest⟩
    rcases List.map_eq_append_iff.mp hRest with
      ⟨us, vs, rfl, hValue, hLast⟩
    rcases TokenOf.exists_of_map_eq_cons hLast with
      ⟨semicolon, vs, rfl, hNil⟩
    rcases ExprPhrase.exists_of_terminals hValue with
      ⟨φ, rfl, rfl⟩
    rw [List.map_eq_nil_iff.mp hNil]
    exact ⟨.ret keyword φ semicolon, rfl, rfl⟩
| .expr d, ts, hTerminals => by
    rw [StmtTree.terminals] at hTerminals
    rcases List.map_eq_append_iff.mp hTerminals with
      ⟨us, vs, rfl, hValue, hLast⟩
    rcases TokenOf.exists_of_map_eq_cons hLast with
      ⟨semicolon, vs, rfl, hNil⟩
    rcases ExprPhrase.exists_of_terminals hValue with
      ⟨φ, rfl, rfl⟩
    rw [List.map_eq_nil_iff.mp hNil]
    exact ⟨.expr φ semicolon, rfl, rfl⟩
| .ifThen d s, ts, hTerminals => by
    simp only [StmtTree.terminals, List.append_assoc,
      List.cons_append, List.nil_append] at hTerminals
    rcases HeadPhrase.exists_of_terminals hTerminals with
      ⟨h, us, rfl, rfl, hArm⟩
    rcases exists_of_terminals s hArm with ⟨σ, rfl, rfl⟩
    exact ⟨.ifThen h σ, rfl, rfl⟩
| .whileLoop d s, ts, hTerminals => by
    simp only [StmtTree.terminals, List.append_assoc,
      List.cons_append, List.nil_append] at hTerminals
    rcases HeadPhrase.exists_of_terminals hTerminals with
      ⟨h, us, rfl, rfl, hBody⟩
    rcases exists_of_terminals s hBody with ⟨σ, rfl, rfl⟩
    exact ⟨.whileLoop h σ, rfl, rfl⟩
| .ifElse d s s', ts, hTerminals => by
    simp only [StmtTree.terminals, List.append_assoc,
      List.cons_append, List.nil_append] at hTerminals
    rcases HeadPhrase.exists_of_terminals hTerminals with
      ⟨h, us, rfl, rfl, hArms⟩
    rcases List.map_eq_append_iff.mp hArms with
      ⟨us, vs, rfl, hThen, hRest⟩
    rcases TokenOf.exists_of_map_eq_cons hRest with
      ⟨keyword, vs, rfl, hElse⟩
    rcases exists_of_terminals s hThen with ⟨σ, rfl, rfl⟩
    rcases exists_of_terminals s' hElse with ⟨σ', rfl, rfl⟩
    exact ⟨.ifElse h σ keyword σ', rfl, rfl⟩
| .forLoop i c n s, ts, hTerminals => by
    simp only [StmtTree.terminals, List.append_assoc,
      List.cons_append, List.nil_append] at hTerminals
    rcases ForPhrase.exists_of_terminals hTerminals with
      ⟨h, us, rfl, rfl, rfl, rfl, hBody⟩
    rcases exists_of_terminals s hBody with ⟨σ, rfl, rfl⟩
    exact ⟨.forLoop h σ, rfl, rfl⟩
| .block ss, ts, hTerminals => by
    rw [StmtTree.terminals, List.append_assoc,
      List.singleton_append] at hTerminals
    rcases TokenOf.exists_of_map_eq_cons hTerminals with
      ⟨l, ts, rfl, hRest⟩
    rcases List.map_eq_append_iff.mp hRest with
      ⟨us, vs, rfl, hBody, hLast⟩
    rcases TokenOf.exists_of_map_eq_cons hLast with
      ⟨r, vs, rfl, hNil⟩
    rcases existsAll_of_terminals ss hBody with
      ⟨σs, rfl, rfl⟩
    rw [List.map_eq_nil_iff.mp hNil]
    exact ⟨.block l σs r, rfl, rfl⟩

/- The tokens of derivations make them phrases. -/
theorem existsAll_of_terminals :
    (ds : List StmtTree) →
    {ts : List Token} →
    ts.map Token.terminal = StmtTree.terminalsAll ds →
    ∃ σs : List StmtPhrase,
      tokensAll σs = ts ∧ treeAll σs = ds
| [], ts, hTerminals => by
    rw [List.map_eq_nil_iff.mp hTerminals]
    exact ⟨[], rfl, rfl⟩
| d :: ds, ts, hTerminals => by
    rcases List.map_eq_append_iff.mp hTerminals with
      ⟨us, vs, rfl, hFirst, hRest⟩
    rcases exists_of_terminals d hFirst with ⟨σ, rfl, rfl⟩
    rcases existsAll_of_terminals ds hRest with
      ⟨σs, rfl, rfl⟩
    exact ⟨σ :: σs, rfl, rfl⟩

end

------------------------------------------------------------
-- Regions of Statements
------------------------------------------------------------

/- The region runs from the first token to the last. -/
theorem covers
    (t : Locals) :
    (σ : StmtPhrase) →
    Token.InOrder σ.tokens →
    Token.Covers σ.tokens (σ.stmt t).span
| ret keyword φ semicolon, hOrder
| block keyword σs semicolon, hOrder =>
    Token.covers_enclosed hOrder
| ifThen h σ, hOrder | whileLoop h σ, hOrder
| forLoop h σ, hOrder => by
    have hInner :=
      covers t σ
        (hOrder.sublist (List.sublist_append_right _ _))
    exact hInner.through ⟨h.keyword.1, rfl, rfl⟩ hOrder
| ifElse h σ keyword σ', hOrder => by
    have hStart :
        Token.StartAt (h.tokens ++ σ.tokens)
          h.keyword.1.span.lo :=
      ⟨h.keyword.1, rfl, rfl⟩
    rw [tokens, ← List.append_assoc] at hOrder ⊢
    exact Token.covers_between hStart hOrder (covers t σ')
| expr φ semicolon, hOrder => by
    have hLast :
        Token.Covers [semicolon.1] semicolon.1.span :=
      Token.covers_singleton
        (hOrder.fits _ (by simp [tokens]))
    exact hLast.through (φ.startAt t) hOrder

end StmtPhrase

end WordLang
