import Mathlib.Data.List.Perm.Basic
import WordLang.Proofs.Concatenation

/-
  This file relates the leaves of a tree to the tokens it
  was read from.

  The leaves are constants and variables. In a phrase they
  stand in the order of its tokens: a constant for a number,
  a variable for a name, and a zero for a minus sign with
  one operand. The tree has the same leaves, but the two
  operands of some operators are swapped in it, so the order
  may differ.

  Key definitions include:
    * `WordLang.Expr.SeesLeaves`
    * `WordLang.Expr.offset?`
    * `WordLang.Expr.value?`
    * `WordLang.ExprPhrase.leaves`
    * `WordLang.StmtPhrase.phrasesAll`

  Key theorems include:
    * `WordLang.ExprPhrase.leaves_perm`
    * `WordLang.ExprPhrase.offsets_leaves`
    * `WordLang.ExprPhrase.values_leaves`
    * `WordLang.StmtPhrase.leaves_perm`
-/

namespace WordLang

------------------------------------------------------------
-- Leaves of Expressions
------------------------------------------------------------

namespace Expr

/- The offset that a node carries, if it is a variable. -/
def offset? : Expr → Option Offset
| var o _ => some o
| _ => none

theorem offset?_eq_some_iff
    {e : Expr}
    {o : Offset} :
    e.offset? = some o ↔ ∃ s, e = var o s := by
  cases e <;> simp [offset?]

/- The value of a node, if it is a constant. -/
def value? : Expr → Option Int64
| int v _ => some v
| _ => none

/-
  What is seen of leaves only, without their regions.
-/
structure SeesLeaves
    {α : Type}
    (see : Expr → Option α) : Prop where
  binary :
    ∀ op lhs rhs s, see (binary op lhs rhs s) = none
  assign :
    ∀ target value s, see (assign target value s) = none
  respan : ∀ e s, see (e.respan s) = see e

theorem seesLeaves_offset? : SeesLeaves offset? where
  binary _ _ _ _ := rfl
  assign _ _ _ := rfl
  respan e s := by cases e <;> rfl

theorem seesLeaves_value? : SeesLeaves value? where
  binary _ _ _ _ := rfl
  assign _ _ _ := rfl
  respan e s := by cases e <;> rfl

namespace SeesLeaves

variable {α : Type}
variable {see : Expr → Option α}

theorem parts_binary
    (hSee : SeesLeaves see)
    (op : BinOp)
    (lhs rhs : Expr)
    (s : Span) :
    (Expr.binary op lhs rhs s).parts.filterMap see =
      lhs.parts.filterMap see ++
        rhs.parts.filterMap see := by
  rw [Expr.parts_binary,
    List.filterMap_cons_none (hSee.binary op lhs rhs s),
    List.filterMap_append]

theorem parts_assign
    (hSee : SeesLeaves see)
    (target value : Expr)
    (s : Span) :
    (Expr.assign target value s).parts.filterMap see =
      target.parts.filterMap see ++
        value.parts.filterMap see := by
  rw [Expr.parts_assign,
    List.filterMap_cons_none (hSee.assign target value s),
    List.filterMap_append]

theorem parts_respan
    (hSee : SeesLeaves see)
    (e : Expr)
    (s : Span) :
    (e.respan s).parts.filterMap see =
      e.parts.filterMap see := by
  rw [parts, parts, inner_respan, List.filterMap_cons,
    List.filterMap_cons, hSee.respan]

/- An operator may swap the leaves of its operands. -/
theorem parts_apply
    (hSee : SeesLeaves see)
    (o : Operator)
    (lhs rhs : Expr) :
    ((o.apply lhs rhs).parts.filterMap see).Perm
      (lhs.parts.filterMap see ++
        rhs.parts.filterMap see) := by
  unfold Operator.apply
  split
  · rw [hSee.parts_binary]
    exact List.perm_append_comm
  · rw [join, hSee.parts_binary]

end SeesLeaves

end Expr

------------------------------------------------------------
-- Leaves of Phrases
------------------------------------------------------------

/- The place of a name, which is zero for unknown names. -/
def Locals.place
    (t : Locals)
    (name : String) : Offset :=
  (t.offset? name).getD ⟨0⟩

namespace Token

/- The name that a token is. -/
def name?
    (token : Token) : Option String :=
  if token.kind = .identifier then
    some token.lexeme
  else
    none

theorem names_eq_filterMap
    (ts : List Token) :
    names ts = ts.filterMap name? := by
  induction ts with
  | nil =>
      rfl
  | cons token ts ih =>
      by_cases hName : token.kind = .identifier <;>
        simp_all [names, name?]

/- The value of a number, which is zero for no numeral. -/
def value?
    (token : Token) : Option Int64 :=
  if token.kind = .number then
    some ((Literal.read? token.lexeme).getD 0)
  else
    none

end Token

namespace ExprPhrase

/- The leaves of a phrase in the order of its tokens. -/
def leaves
    (t : Locals) :
    ExprPhrase → List Expr
| number token => [expr t (number token)]
| name token => [expr t (name token)]
| paren _ d _ => d.leaves t
| signed true sign d => .int 0 sign.1.span :: d.leaves t
| signed false _ d => d.leaves t
| chain _ l _ r => l.leaves t ++ r.leaves t
| assign d _ v => d.leaves t ++ v.leaves t

/- The expression of a phrase has the same leaves. -/
theorem leaves_perm
    {α : Type}
    {see : Expr → Option α}
    (hSee : Expr.SeesLeaves see)
    (t : Locals)
    (φ : ExprPhrase) :
    ((φ.expr t).parts.filterMap see).Perm
      ((φ.leaves t).filterMap see) := by
  induction φ with
  | number token | name token =>
      exact .refl _
  | paren l d r ih =>
      rw [expr, hSee.parts_respan]
      exact ih
  | signed negative sign d ih =>
      cases negative with
      | false =>
          rw [expr, Expr.withSign, hSee.parts_respan]
          exact ih
      | true =>
          rw [expr, Expr.withSign, Expr.join,
            hSee.parts_binary, leaves,
            ← List.singleton_append, List.filterMap_append]
          exact ih.append_left _
  | chain c l sign r ihLeft ihRight =>
      rw [leaves, List.filterMap_append]
      exact (hSee.parts_apply _ _ _).trans
        (ihLeft.append ihRight)
  | assign d sign v ihTarget ihValue =>
      rw [leaves, List.filterMap_append, expr, Expr.store,
        hSee.parts_assign]
      exact ihTarget.append ihValue

/- The variables of a phrase are its names. -/
theorem offsets_leaves
    (t : Locals)
    (φ : ExprPhrase) :
    (φ.leaves t).filterMap Expr.offset? =
      (Token.names φ.tokens).map t.place := by
  rw [Token.names_eq_filterMap]
  induction φ with
  | number token =>
      simp [leaves, tokens, token.2, Token.name?, expr,
        Expr.offset?]
  | name token =>
      simp [leaves, tokens, token.2, Token.name?, expr,
        Expr.offset?, Locals.place]
  | paren l d r ih =>
      simp [leaves, tokens, l.2, r.2, Token.name?, ih]
  | signed negative sign d ih =>
      have hSign :
          (signed negative sign d).tokens.filterMap
              Token.name? =
            d.tokens.filterMap Token.name? := by
        cases negative <;>
          simp [tokens, sign.2, Kind.ofSign, Token.name?]
      rw [hSign, ← ih]
      cases negative <;> rfl
  | chain c l sign r ihLeft ihRight =>
      have hName : c.kind ≠ .identifier := by
        cases c <;> decide
      simp [leaves, tokens, sign.2, Token.name?, hName,
        ihLeft, ihRight]
  | assign d sign v ihTarget ihValue =>
      simp [leaves, tokens, sign.2, Token.name?, ihTarget,
        ihValue]

/- Its constants are its numbers, with some zeros. -/
theorem values_leaves
    (t : Locals)
    (φ : ExprPhrase) :
    (φ.tokens.filterMap Token.value?).Sublist
      ((φ.leaves t).filterMap Expr.value?) := by
  induction φ with
  | number token =>
      simp [leaves, tokens, token.2, Token.value?, expr,
        Expr.value?]
  | name token =>
      simp [leaves, tokens, token.2, Token.value?]
  | paren l d r ih =>
      simpa [leaves, tokens, l.2, r.2, Token.value?]
        using ih
  | signed negative sign d ih =>
      have hSign :
          (signed negative sign d).tokens.filterMap
              Token.value? =
            d.tokens.filterMap Token.value? := by
        cases negative <;>
          simp [tokens, sign.2, Kind.ofSign, Token.value?]
      rw [hSign]
      cases negative with
      | false => exact ih
      | true => exact ih.cons 0
  | chain c l sign r ihLeft ihRight =>
      have hNumber : c.kind ≠ .number := by
        cases c <;> decide
      simpa [leaves, tokens, sign.2, hNumber, Token.value?]
        using ihLeft.append ihRight
  | assign d sign v ihTarget ihValue =>
      simpa [leaves, tokens, sign.2, Token.value?] using
        ihTarget.append ihValue

end ExprPhrase

------------------------------------------------------------
-- Phrases of Statements
------------------------------------------------------------

namespace StmtPhrase

mutual

/- The expressions of a phrase at any depth, in order. -/
def allPhrases : StmtPhrase → List ExprPhrase
| ret _ φ _ => [φ]
| ifThen h σ => h.predicate :: allPhrases σ
| ifElse h σ _ σ' =>
    h.predicate :: (allPhrases σ ++ allPhrases σ')
| whileLoop h σ => h.predicate :: allPhrases σ
| forLoop h σ =>
    h.init.toList ++
      (h.predicate.toList ++
        (h.step.toList ++ allPhrases σ))
| block _ σs _ => phrasesAll σs
| expr φ _ => [φ]

/- The same for phrases one after another. -/
def phrasesAll : List StmtPhrase → List ExprPhrase
| [] => []
| σ :: σs => allPhrases σ ++ phrasesAll σs

end

mutual

/- The statement of a phrase has the expressions of it. -/
theorem exprs_parts
    (t : Locals) :
    (σ : StmtPhrase) →
    (σ.stmt t).parts.flatMap Stmt.exprs =
      σ.allPhrases.map (ExprPhrase.expr t)
| ret _ φ _ | expr φ _ => by
    rfl
| ifThen h σ | whileLoop h σ => by
    simp [stmt, Stmt.parts, Stmt.exprs, allPhrases,
      exprs_parts t σ]
| ifElse h σ _ σ' => by
    simp [stmt, Stmt.parts, Stmt.exprs, allPhrases,
      exprs_parts t σ, exprs_parts t σ']
| forLoop h σ => by
    simp [stmt, Stmt.parts, Stmt.exprs, allPhrases,
      exprs_parts t σ, Option.toList_map]
| block _ σs _ => by
    exact exprs_partsAll t σs

theorem exprs_partsAll
    (t : Locals) :
    (σs : List StmtPhrase) →
    (Stmt.partsAll (stmtAll t σs)).flatMap Stmt.exprs =
      (phrasesAll σs).map (ExprPhrase.expr t)
| [] => by
    rfl
| σ :: σs => by
    simp [stmtAll, Stmt.partsAll, phrasesAll,
      exprs_parts t σ, exprs_partsAll t σs]

end

section Tokens

variable {α : Type}
variable {see : Token → Option α}

open ExprPhrase (tokensOption)

mutual

/- Names and numbers are in the expressions only. -/
theorem filterMap_tokens
    (hSee :
      ∀ {k : Kind} (token : TokenOf k),
        k ≠ .identifier →
        k ≠ .number →
        see token.1 = none) :
    (σ : StmtPhrase) →
    σ.tokens.filterMap see =
      σ.allPhrases.flatMap
        (fun φ => φ.tokens.filterMap see)
| ret keyword φ semicolon => by
    simp [tokens, allPhrases, hSee keyword, hSee semicolon]
| expr φ semicolon => by
    simp [tokens, allPhrases, hSee semicolon]
| ifThen h σ | whileLoop h σ => by
    simp [tokens, allPhrases, HeadPhrase.tokens,
      hSee h.keyword, hSee h.lparen, hSee h.rparen,
      filterMap_tokens hSee σ]
| ifElse h σ keyword σ' => by
    simp [tokens, allPhrases, HeadPhrase.tokens,
      hSee h.keyword, hSee h.lparen, hSee h.rparen,
      hSee keyword, filterMap_tokens hSee σ,
      filterMap_tokens hSee σ']
| forLoop h σ => by
    have hOption (φ : Option ExprPhrase) :
        (tokensOption φ).filterMap see =
          φ.toList.flatMap
            (fun φ => φ.tokens.filterMap see) := by
      cases φ <;> simp [tokensOption]
    simp [tokens, allPhrases, ForPhrase.tokens, hOption,
      hSee h.keyword, hSee h.lparen, hSee h.first,
      hSee h.second, hSee h.rparen,
      filterMap_tokens hSee σ]
| block l σs r => by
    simp [tokens, allPhrases, hSee l, hSee r,
      filterMap_tokensAll hSee σs]

theorem filterMap_tokensAll
    (hSee :
      ∀ {k : Kind} (token : TokenOf k),
        k ≠ .identifier →
        k ≠ .number →
        see token.1 = none) :
    (σs : List StmtPhrase) →
    (tokensAll σs).filterMap see =
      (phrasesAll σs).flatMap
        (fun φ => φ.tokens.filterMap see)
| [] => by
    rfl
| σ :: σs => by
    simp [tokensAll, phrasesAll, filterMap_tokens hSee σ,
      filterMap_tokensAll hSee σs]

end

end Tokens

/- The leaves of phrases in the order of their tokens. -/
def leavesAll
    (t : Locals)
    (σs : List StmtPhrase) : List Expr :=
  (phrasesAll σs).flatMap (ExprPhrase.leaves t)

/- The statements of phrases have the same leaves. -/
theorem leaves_perm
    {α : Type}
    {see : Expr → Option α}
    (hSee : Expr.SeesLeaves see)
    (t : Locals)
    (σs : List StmtPhrase) :
    ((((Stmt.partsAll (stmtAll t σs)).flatMap
      Stmt.exprs).flatMap Expr.parts).filterMap see).Perm
      ((leavesAll t σs).filterMap see) := by
  rw [exprs_partsAll, List.flatMap_map, leavesAll,
    List.filterMap_flatMap, List.filterMap_flatMap]
  apply List.Perm.flatMap_left
  intro φ _
  exact φ.leaves_perm hSee t

/- Their variables are the names. -/
theorem offsets_leavesAll
    (t : Locals)
    (σs : List StmtPhrase) :
    (leavesAll t σs).filterMap Expr.offset? =
      (Token.names (tokensAll σs)).map t.place := by
  have hOther
      {k : Kind}
      (token : TokenOf k)
      (hName : k ≠ .identifier)
      (_ : k ≠ .number) :
      Token.name? token.1 = none := by
    rw [Token.name?, token.2, if_neg hName]
  rw [Token.names_eq_filterMap,
    filterMap_tokensAll hOther, leavesAll,
    List.filterMap_flatMap, List.map_flatMap]
  simp only [ExprPhrase.offsets_leaves,
    Token.names_eq_filterMap]

/- Their constants are the numbers, with some zeros. -/
theorem values_leavesAll
    (t : Locals)
    (σs : List StmtPhrase) :
    ((tokensAll σs).filterMap Token.value?).Sublist
      ((leavesAll t σs).filterMap Expr.value?) := by
  have hOther
      {k : Kind}
      (token : TokenOf k)
      (_ : k ≠ .identifier)
      (hNumber : k ≠ .number) :
      Token.value? token.1 = none := by
    rw [Token.value?, token.2, if_neg hNumber]
  rw [filterMap_tokensAll hOther, leavesAll,
    List.filterMap_flatMap]
  induction phrasesAll σs with
  | nil =>
      exact .slnil
  | cons φ φs ih =>
      exact (φ.values_leaves t).append ih

end StmtPhrase

end WordLang
