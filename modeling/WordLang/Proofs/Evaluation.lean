import Mathlib.Logic.Function.Basic
import WordLang.Program.Basic

/-
  This file evaluates programs on their trees.

  Values are signed 64-bit words whose sums, differences
  and products wrap. A quotient is rounded to zero; there
  is none for a zero divisor, nor for the least word over
  minus one. Comparisons yield one or zero. Operands are
  evaluated from left to right, and an assignment yields
  the value it stores.

  Besides the variables, an environment remembers the value
  of the last expression evaluated: it decides the next
  branch, and it is the value of a program that ends without
  a `return`.

  Loops make evaluation partial. It is given a bound on the
  number of rounds of any one loop, and gives up when a loop
  needs more.

  Key definitions include:
    * `WordLang.BinOp.eval`
    * `WordLang.Expr.eval`
    * `WordLang.Env`
    * `WordLang.Ending`
    * `WordLang.Ending.andThen`
    * `WordLang.Stmt.iterate`
    * `WordLang.Stmt.eval`
    * `WordLang.Program.eval`
-/

namespace WordLang

------------------------------------------------------------
-- Expressions
------------------------------------------------------------

/- The values of the variables, by their offsets. -/
abbrev Vars := Offset → Int64

/- The value of an operation, unless it has none. -/
def BinOp.eval
    (op : BinOp)
    (a b : Int64) : Option Int64 :=
  match op with
  | add => some (a + b)
  | sub => some (a - b)
  | mul => some (a * b)
  | div =>
      if b = 0 ∨ (a = Int64.minValue ∧ b = -1) then
        none
      else
        some (a / b)
  | eq => some (if a = b then 1 else 0)
  | ne => some (if a = b then 0 else 1)
  | lt => some (if a < b then 1 else 0)
  | le => some (if a ≤ b then 1 else 0)

/-
  The value of an expression and the variables after it.
  There is neither when an operation has no value, nor when
  something else than a variable is assigned to.
-/
def Expr.eval :
    Expr →
    Vars →
    Option (Int64 × Vars)
| int value _, vars => some (value, vars)
| var offset _, vars => some (vars offset, vars)
| binary op lhs rhs _, vars => do
    let (a, vars) ← lhs.eval vars
    let (b, vars) ← rhs.eval vars
    let v ← op.eval a b
    return (v, vars)
| assign (var offset _) value _, vars => do
    let (v, vars) ← value.eval vars
    return (v, Function.update vars offset v)
| assign _ _ _, _ => none

------------------------------------------------------------
-- Endings
------------------------------------------------------------

/-
  The values of the variables, and the value of the last
  expression evaluated.
-/
structure Env where
  vars : Vars
  last : Int64

/-
  How evaluation ends: it can go on, it has met a `return`,
  it has met an expression without a value, or a loop has
  gone through more rounds than it was given.
-/
inductive Ending where
  | normal (env : Env)
  | returned (value : Int64)
  | fault
  | timeout

namespace Ending

/- Go on after an ending that allows it. -/
def andThen
    (o : Ending)
    (next : Env → Ending) : Ending :=
  match o with
  | normal env => next env
  | returned value => returned value
  | fault => fault
  | timeout => timeout

/- Going on may do nothing. -/
theorem andThen_normal
    (o : Ending) :
    o.andThen normal = o := by
  cases o <;> rfl

end Ending

namespace Expr

/- Evaluate an expression as a part of a statement. -/
def perform
    (e : Expr)
    (env : Env) : Ending :=
  match e.eval env.vars with
  | some (value, vars) => .normal ⟨vars, value⟩
  | none => .fault

/- Evaluate an expression that may be left out. -/
def performOption
    (e : Option Expr)
    (env : Env) : Ending :=
  match e with
  | none => .normal env
  | some e => e.perform env

end Expr

------------------------------------------------------------
-- Statements
------------------------------------------------------------

namespace Stmt

/-
  Do something as long as a predicate is not zero, for at
  most so many rounds. A predicate that is left out is
  never zero.
-/
def iterate
    (predicate : Option Expr)
    (round : Env → Ending) :
    Nat →
    Env →
    Ending
| 0, _ => .timeout
| n + 1, env =>
    (Expr.performOption predicate env).andThen fun env =>
      if predicate.isSome ∧ env.last = 0 then
        .normal env
      else
        (round env).andThen fun env =>
          iterate predicate round n env

mutual

/- Evaluate a statement. -/
def eval
    (bound : Nat) :
    Stmt →
    Env →
    Ending
| expr e _, env => e.perform env
| ret e _, env =>
    (e.perform env).andThen fun env => .returned env.last
| ifThen predicate thenArm _, env =>
    (predicate.perform env).andThen fun env =>
      if env.last = 0 then
        .normal env
      else
        eval bound thenArm env
| ifElse predicate thenArm elseArm _, env =>
    (predicate.perform env).andThen fun env =>
      if env.last = 0 then
        eval bound elseArm env
      else
        eval bound thenArm env
| whileLoop predicate body _, env =>
    iterate (some predicate)
      (fun env => eval bound body env) bound env
| forLoop init predicate step body _, env =>
    (Expr.performOption init env).andThen fun env =>
      iterate predicate
        (fun env =>
          (eval bound body env).andThen fun env =>
            Expr.performOption step env)
        bound env
| block body _, env => evalAll bound body env

/- Evaluate statements one after another. -/
def evalAll
    (bound : Nat) :
    List Stmt →
    Env →
    Ending
| [], env => .normal env
| s :: ss, env =>
    (eval bound s env).andThen fun env =>
      evalAll bound ss env

end

end Stmt

------------------------------------------------------------
-- Programs
------------------------------------------------------------

/-
  Evaluate a program. It returns the value of its `return`,
  or of the last expression when it ends without one.
-/
def Program.eval
    (p : Program)
    (bound : Nat)
    (env : Env) : Ending :=
  (Stmt.evalAll bound p.body env).andThen fun env =>
    .returned env.last

end WordLang
