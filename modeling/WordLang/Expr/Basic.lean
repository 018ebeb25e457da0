import WordLang.Span
import WordLang.Locals

/-
  This file defines expressions.

  Every value is a signed 64-bit word. A variable is named
  by its offset in the frame. Each node carries the region
  of the source it was read from.

  Key definitions include:
    * `WordLang.BinOp`
    * `WordLang.Expr`
    * `WordLang.Expr.span`
    * `WordLang.Expr.respan`
    * `WordLang.Expr.isVar`
    * `WordLang.Expr.join`
-/

namespace WordLang

------------------------------------------------------------
-- Operators
------------------------------------------------------------

/- The operators that combine two values. -/
inductive BinOp where
  | add
  | sub
  | mul
  | div
  | eq
  | ne
  | lt
  | le
deriving DecidableEq, Repr

------------------------------------------------------------
-- Expressions
------------------------------------------------------------

/-
  An expression: a constant, a variable, an operation on two
  operands, or an assignment, which yields the value stored.
-/
inductive Expr where
  | int (value : Int64) (span : Span)
  | var (offset : Offset) (span : Span)
  | binary (op : BinOp) (lhs rhs : Expr) (span : Span)
  | assign (target value : Expr) (span : Span)
deriving DecidableEq, Repr

namespace Expr

/- The region an expression was read from. -/
def span : Expr → Span
| int _ span => span
| var _ span => span
| binary _ _ _ span => span
| assign _ _ span => span

/- The same expression with another region. -/
def respan
    (e : Expr)
    (span : Span) : Expr :=
  match e with
  | int value _ => int value span
  | var offset _ => var offset span
  | binary op lhs rhs _ => binary op lhs rhs span
  | assign target value _ => assign target value span

/- Whether an expression can be assigned to. -/
def isVar : Expr → Bool
| var _ _ => true
| _ => false

/-
  An operation whose region runs from its left operand to
  its right one.
-/
def join
    (op : BinOp)
    (lhs rhs : Expr) : Expr :=
  binary op lhs rhs (lhs.span.through rhs.span)

/- An assignment that runs from its target to its value. -/
def store
    (target value : Expr) : Expr :=
  assign target value (target.span.through value.span)

end Expr

end WordLang
