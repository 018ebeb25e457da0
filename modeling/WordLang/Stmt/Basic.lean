import WordLang.Expr.Basic

/-
  This file defines statements.

  Key definitions include:
    * `WordLang.Stmt`
    * `WordLang.Stmt.span`
    * `WordLang.Stmt.same`

  Equality of statements is decided by `same`:
    * `WordLang.Stmt.same_iff`
-/

namespace WordLang

------------------------------------------------------------
-- Statements
------------------------------------------------------------

/-
  A statement. The arms and bodies of the branching and
  looping statements are single statements; a block holds
  any number of them. The three expressions in the head of
  a `for` may be left out.
-/
inductive Stmt where
  | expr (e : Expr) (span : Span)
  | ret (e : Expr) (span : Span)
  | ifThen (predicate : Expr) (thenArm : Stmt) (span : Span)
  | ifElse
      (predicate : Expr)
      (thenArm elseArm : Stmt)
      (span : Span)
  | whileLoop (predicate : Expr) (body : Stmt) (span : Span)
  | forLoop
      (init predicate step : Option Expr)
      (body : Stmt)
      (span : Span)
  | block (body : List Stmt) (span : Span)
deriving Repr

namespace Stmt

/- The region a statement was read from. -/
def span : Stmt → Span
| expr _ span => span
| ret _ span => span
| ifThen _ _ span => span
| ifElse _ _ _ span => span
| whileLoop _ _ span => span
| forLoop _ _ _ _ span => span
| block _ span => span

------------------------------------------------------------
-- Equality
------------------------------------------------------------

mutual

/- Whether two statements are equal, regions included. -/
def same : Stmt → Stmt → Bool
| expr e s, expr e' s' => e = e' && s = s'
| ret e s, ret e' s' => e = e' && s = s'
| ifThen p t s, ifThen p' t' s' =>
    p = p' && same t t' && s = s'
| ifElse p t e s, ifElse p' t' e' s' =>
    p = p' && same t t' && same e e' && s = s'
| whileLoop p b s, whileLoop p' b' s' =>
    p = p' && same b b' && s = s'
| forLoop i p n b s, forLoop i' p' n' b' s' =>
    i = i' && p = p' && n = n' && same b b' && s = s'
| block b s, block b' s' => sameAll b b' && s = s'
| _, _ => false

/- Whether two lists of statements are equal. -/
def sameAll : List Stmt → List Stmt → Bool
| [], [] => true
| s :: ss, t :: ts => same s t && sameAll ss ts
| _, _ => false

end

mutual

/- `same` answers whether two statements are equal. -/
theorem same_iff
    (s t : Stmt) :
    same s t = true ↔ s = t := by
  cases s <;> cases t <;>
    simp [same, same_iff, sameAll_iff, and_assoc]

/- `sameAll` answers whether two lists are equal. -/
theorem sameAll_iff
    (ss ts : List Stmt) :
    sameAll ss ts = true ↔ ss = ts := by
  cases ss <;> cases ts <;>
    simp [sameAll, same_iff, sameAll_iff]

end

instance : DecidableEq Stmt :=
  fun s t => decidable_of_iff _ (same_iff s t)

end Stmt

end WordLang
