import WordLang.Program.Reader

/-
  This file parses by procedures that call each other.

  There is one procedure for each level of the grammar, and
  a cursor that they all share: the index of the current
  token. A procedure that reads a token moves the cursor by
  one, except at the end of input, where it stays.

  Nothing in the procedures says that they come to an end,
  so they are given two limits. One is for the number of
  calls that wait for each other, and the other one for the
  number of times that each loop goes round. A call that
  does not get along with its limits has no answer.

  Key definitions include:
    * `WordLang.Descent.Call`
    * `WordLang.Descent.advance`
    * `WordLang.Descent.expect`
    * `WordLang.Descent.primary`
    * `WordLang.Descent.chain`
    * `WordLang.Descent.expr`
    * `WordLang.Descent.stmt`
    * `WordLang.Descent.program`
    * `WordLang.Descent.Call.Ends`
-/

namespace WordLang

------------------------------------------------------------
-- Calls
------------------------------------------------------------

namespace TokenStream

/-
  The token at an index. Behind the last token this is the
  one that stops the stream.
-/
def peek
    (s : TokenStream)
    (i : Nat) : Token :=
  s.tokens.getD i s.stop

end TokenStream

namespace Descent

/- The cursor and the table of variables. -/
structure State where
  index : Nat
  locals : Locals
deriving DecidableEq, Repr

/-
  How a call ends: with a value, with an error, or not
  within its limits.
-/
inductive Outcome (α : Type) where
  | ok (a : α) (d : State)
  | error (e : Located ParseError)
  | spent

/- What a procedure does from a state on. -/
def Call (α : Type) := State → Outcome α

namespace Call

instance : Monad Call where
  pure a d := .ok a d
  bind x f d :=
    match x d with
    | .ok a d' => f a d'
    | .error e => .error e
    | .spent => .spent

/- End with an error. -/
def fail
    {α : Type}
    (error : ParseError)
    (span : Span) : Call α :=
  fun _ => .error ⟨error, span⟩

/- Give up at a limit. -/
def giveUp
    {α : Type} : Call α :=
  fun _ => .spent

/- The answer of a call, if there is one. -/
def answer?
    {α : Type}
    (x : Call α) : Option (Parsed α) :=
  match x ⟨0, .empty⟩ with
  | .ok a _ => some (.ok a)
  | .error e => some (.error e)
  | .spent => none

end Call

------------------------------------------------------------
-- Tokens
------------------------------------------------------------

section Procedures

variable (s : TokenStream)

/- Look at the current token. -/
def look : Call Token :=
  fun d => .ok (s.peek d.index) d

/- Read the current token, but stay at the end of input. -/
def advance : Call Token :=
  fun d =>
    .ok (s.peek d.index)
      (if (s.peek d.index).isEof then
        d
      else
        { d with index := d.index + 1 })

/- Read the current token if it is of the given kind. -/
def take
    (kind : Kind) : Call Bool := do
  let t ← look s
  if t.kind = kind then
    let _ ← advance s
    return true
  else
    return false

/- Require the current token to be of the given kind. -/
def expect
    (kind : Kind) : Call Token := do
  let t ← look s
  if t.kind = kind then
    advance s
  else
    Call.fail (.mismatch t.kind kind) t.span

/- Give a name its place in the table. -/
def resolve
    (name : String) : Call Offset :=
  fun d =>
    .ok (d.locals.resolve name).1
      { d with locals := (d.locals.resolve name).2 }

/- The table of variables. -/
def table : Call Locals :=
  fun d => .ok d.locals d

------------------------------------------------------------
-- Expressions
------------------------------------------------------------

/- A number, a name or an expression in parentheses. -/
def primary
    (inner : Call Expr) : Call Expr := do
  let t ← advance s
  match t.kind with
  | .number =>
      match Literal.read? t.lexeme with
      | some value => return .int value t.span
      | none => Call.fail .badNumber t.span
  | .identifier => do
      let offset ← resolve t.lexeme
      return .var offset t.span
  | .lparen => do
      let e ← inner
      let last ← expect s .rparen
      return e.respan (t.span.through last.span)
  | kind => Call.fail (.noOperand kind) t.span

/- A primary with at most one sign in front of it. -/
def unary
    (inner : Call Expr) : Call Expr := do
  let t ← look s
  match t.kind with
  | .plus => do
      let _ ← advance s
      let e ← primary s inner
      return e.respan (t.span.through e.span)
  | .minus => do
      let _ ← advance s
      let e ← primary s inner
      return .join .sub (.int 0 t.span) e
  | _ => primary s inner

/- The operator of a level that a token writes. -/
def operatorAt?
    (level : Nat)
    (t : Token) : Option Operator :=
  t.kind.operator?.filter (·.power = level)

/-
  Further operands behind a left one, each with an operator
  of the level in front of it.
-/
def chainFrom
    (level : Nat)
    (operand : Call Expr) :
    Nat →
    Expr →
    Call Expr
| 0, lhs => do
    let t ← look s
    match operatorAt? level t with
    | none => return lhs
    | some _ => Call.giveUp
| passes + 1, lhs => do
    let t ← look s
    match operatorAt? level t with
    | none => return lhs
    | some o =>
        let _ ← advance s
        let rhs ← operand
        chainFrom level operand passes (o.apply lhs rhs)

/- Operands with operators of the level between them. -/
def chain
    (passes level : Nat)
    (operand : Call Expr) : Call Expr := do
  let lhs ← operand
  chainFrom s level operand passes lhs

variable (passes : Nat)

/- Products and quotients. -/
def product
    (inner : Call Expr) : Call Expr :=
  chain s passes 4 (unary s inner)

/- Sums and differences. -/
def sum
    (inner : Call Expr) : Call Expr :=
  chain s passes 3 (product s passes inner)

/- Comparisons by order. -/
def relation
    (inner : Call Expr) : Call Expr :=
  chain s passes 2 (sum s passes inner)

/- Comparisons by equality. -/
def equality
    (inner : Call Expr) : Call Expr :=
  chain s passes 1 (relation s passes inner)

/- Assignments, which group to the right. -/
def assignment
    (inner : Call Expr) : Call Expr := do
  let target ← equality s passes inner
  if ← take s .assign then
    if target.isVar then
      let value ← inner
      return .store target value
    else
      Call.fail .notAssignable target.span
  else
    return target

/- An expression, with a limit for the calls that wait. -/
def expr : Nat → Call Expr
| 0 => Call.giveUp
| depth + 1 => assignment s passes (expr depth)

/- The procedures for expressions, from the strongest on. -/
def levels
    (depth : Nat) : List (Call Expr) :=
  let inner := expr s passes depth
  [primary s inner, unary s inner, product s passes inner,
   sum s passes inner, relation s passes inner,
   equality s passes inner, assignment s passes inner]

------------------------------------------------------------
-- Statements
------------------------------------------------------------

/- An expression in parentheses. -/
def parenthesized
    (inner : Call Expr) : Call Expr := do
  let _ ← expect s .lparen
  let e ← inner
  let _ ← expect s .rparen
  return e

/- An expression, unless the token that ends it is there. -/
def exprUntil
    (inner : Call Expr)
    (kind : Kind) : Call (Option Expr) := do
  let t ← look s
  if t.kind = kind then
    return none
  else
    let e ← inner
    return some e

/-
  Statements up to a token of one of the given kinds or to
  the end of input.
-/
def stmtsUntil
    (kinds : List Kind)
    (inner : Call Stmt) :
    Nat →
    Call (List Stmt)
| 0 => do
    let t ← look s
    if t.kind ∈ kinds ∨ t.isEof then
      return []
    else
      Call.giveUp
| passes + 1 => do
    let t ← look s
    if t.kind ∈ kinds ∨ t.isEof then
      return []
    else
      let first ← inner
      let rest ← stmtsUntil kinds inner passes
      return first :: rest

section Forms

-- Each form is read by what its expressions and the
-- statements in it are, and starts at a known region.
variable (start : Span)
variable (e : Call Expr)
variable (inner : Call Stmt)

/- The value that is returned. -/
def retForm : Call Stmt := do
  let _ ← advance s
  let value ← e
  let last ← expect s .semicolon
  return .ret value (start.through last.span)

/- A branch, with an `else` if one follows. -/
def ifForm : Call Stmt := do
  let _ ← advance s
  let predicate ← parenthesized s e
  let thenArm ← inner
  if ← take s .kwElse then
    let elseArm ← inner
    return .ifElse predicate thenArm elseArm
      (start.through elseArm.span)
  else
    return .ifThen predicate thenArm
      (start.through thenArm.span)

/- A loop with a predicate. -/
def whileForm : Call Stmt := do
  let _ ← advance s
  let predicate ← parenthesized s e
  let body ← inner
  return .whileLoop predicate body (start.through body.span)

/- A loop whose head has three parts. -/
def forForm : Call Stmt := do
  let _ ← advance s
  let _ ← expect s .lparen
  let init ← exprUntil s e .semicolon
  let _ ← expect s .semicolon
  let predicate ← exprUntil s e .semicolon
  let _ ← expect s .semicolon
  let step ← exprUntil s e .rparen
  let _ ← expect s .rparen
  let body ← inner
  return .forLoop init predicate step body
    (start.through body.span)

/- Statements in braces. -/
def blockForm : Call Stmt := do
  let _ ← advance s
  let body ← stmtsUntil s [.rbrace] inner passes
  let last ← expect s .rbrace
  return .block body (start.through last.span)

/- An expression for its effect. -/
def exprForm : Call Stmt := do
  let value ← e
  let last ← expect s .semicolon
  return .expr value (start.through last.span)

end Forms

/- A statement of the form that the current token says. -/
def stmtOf
    (e : Call Expr)
    (inner : Call Stmt) : Call Stmt := do
  let t ← look s
  match t.kind with
  | .kwReturn => retForm s t.span e
  | .kwIf => ifForm s t.span e inner
  | .kwWhile => whileForm s t.span e inner
  | .kwFor => forForm s t.span e inner
  | .lbrace => blockForm s passes t.span inner
  | _ => exprForm s t.span e

/- A statement, with a limit for the calls that wait. -/
def stmt : Nat → Call Stmt
| 0 => Call.giveUp
| depth + 1 =>
    stmtOf s passes (expr s passes (depth + 1)) (stmt depth)

/- A whole program. -/
def program
    (depth : Nat) : Call Program := do
  let body ← stmtsUntil s [] (stmt s passes depth) passes
  let _ ← expect s .eof
  let locals ← table
  return ⟨Program.mainName, body, locals⟩

/- An expression that reaches up to the end of input. -/
def wholeExpr
    (depth : Nat) : Call (Expr × Locals) := do
  let e ← expr s passes depth
  let _ ← expect s .eof
  let locals ← table
  return (e, locals)

end Procedures

------------------------------------------------------------
-- Reasoning About Calls
------------------------------------------------------------

namespace Call

variable {α β : Type}
variable {d : State}
variable {onOk : α → State → Prop}
variable {onError : Located ParseError → Prop}
variable {onSpent : Prop}

/- Each way in which a call ends has its own condition. -/
def Ends
    (x : Call α)
    (d : State)
    (onOk : α → State → Prop)
    (onError : Located ParseError → Prop)
    (onSpent : Prop) : Prop :=
  match x d with
  | .ok a d' => onOk a d'
  | .error e => onError e
  | .spent => onSpent

theorem ends_pure
    {a : α} :
    (pure a : Call α).Ends d onOk onError onSpent ↔
      onOk a d :=
  Iff.rfl

/- One call after another. -/
theorem ends_bind
    {x : Call β}
    {f : β → Call α} :
    (x >>= f).Ends d onOk onError onSpent ↔
      x.Ends d
        (fun b d' => (f b).Ends d' onOk onError onSpent)
        onError onSpent := by
  change (match (match x d with
    | .ok b d' => f b d'
    | .error e => .error e
    | .spent => .spent) with
    | .ok a d' => onOk a d'
    | .error e => onError e
    | .spent => onSpent) ↔ _
  unfold Ends
  cases x d <;> rfl

/- A weaker condition for each way to end. -/
theorem Ends.imp
    {x : Call α}
    {onOk' : α → State → Prop}
    {onError' : Located ParseError → Prop}
    {onSpent' : Prop}
    (hEnds : x.Ends d onOk onError onSpent)
    (hOk : ∀ a d', onOk a d' → onOk' a d')
    (hError : ∀ e, onError e → onError' e)
    (hSpent : onSpent → onSpent') :
    x.Ends d onOk' onError' onSpent' := by
  unfold Ends at hEnds ⊢
  cases hOutcome : x d with
  | ok a d' =>
      rw [hOutcome] at hEnds
      exact hOk a d' hEnds
  | error e =>
      rw [hOutcome] at hEnds
      exact hError e hEnds
  | spent =>
      rw [hOutcome] at hEnds
      exact hSpent hEnds

/- One call after another, each with what is known of it. -/
theorem Ends.bind
    {x : Call β}
    {f : β → Call α}
    {onOk' : β → State → Prop}
    {onError' : Located ParseError → Prop}
    {onSpent' : Prop}
    (hFirst : x.Ends d onOk' onError' onSpent')
    (hError : ∀ e, onError' e → onError e)
    (hSpent : onSpent' → onSpent)
    (hNext :
      ∀ b d', onOk' b d' →
        (f b).Ends d' onOk onError onSpent) :
    (x >>= f).Ends d onOk onError onSpent :=
  ends_bind.mpr (hFirst.imp hNext hError hSpent)

/- A call that says the same as `r` has it for an answer. -/
theorem Ends.answer?_eq
    {x : Call α}
    {r : Parsed α}
    (hEnds :
      x.Ends ⟨0, .empty⟩ (fun a _ => r = .ok a)
        (fun e => r = .error e) False) :
    x.answer? = some r := by
  unfold Ends at hEnds
  unfold answer?
  cases hOutcome : x ⟨0, .empty⟩ with
  | ok a d' =>
      rw [hOutcome] at hEnds
      rw [hEnds]
  | error e =>
      rw [hOutcome] at hEnds
      rw [hEnds]
  | spent =>
      rw [hOutcome] at hEnds
      exact hEnds.elim

end Call

section Tokens

variable {s : TokenStream}
variable {d : State}
variable {α : Type}
variable {onOk : α → State → Prop}
variable {onError : Located ParseError → Prop}
variable {onSpent : Prop}

/- The state behind a token. -/
def State.next
    (d : State) : State :=
  { d with index := d.index + 1 }

/- The current token is known in what follows. -/
theorem ends_look
    {f : Token → Call α} :
    (look s >>= f).Ends d onOk onError onSpent ↔
      (f (s.peek d.index)).Ends d onOk onError onSpent :=
  Call.ends_bind

/- Whatever the current token is, it is known afterwards. -/
theorem ends_advance_any
    {f : Token → Call α} :
    (advance s >>= f).Ends d onOk onError onSpent ↔
      (f (s.peek d.index)).Ends
        (if (s.peek d.index).isEof then d else d.next)
        onOk onError onSpent :=
  Call.ends_bind

/- A token that is not the end of input is read. -/
theorem ends_advance
    {f : Token → Call α}
    (hEof : (s.peek d.index).isEof = false) :
    (advance s >>= f).Ends d onOk onError onSpent ↔
      (f (s.peek d.index)).Ends d.next onOk onError
        onSpent := by
  rw [ends_advance_any, hEof, if_neg Bool.false_ne_true]

theorem isEof_eq_false
    {t : Token}
    {kind : Kind}
    (hKind : t.kind = kind)
    (hEof : kind ≠ .eof) :
    t.isEof = false := by
  simpa [Token.isEof, hKind] using hEof

/- A token is read, or it is another one. -/
theorem ends_take
    {f : Bool → Call α}
    {kind : Kind}
    (hEof : kind ≠ .eof)
    (hTaken :
      (s.peek d.index).kind = kind →
      (f true).Ends d.next onOk onError onSpent)
    (hOther :
      (s.peek d.index).kind ≠ kind →
      (f false).Ends d onOk onError onSpent) :
    (take s kind >>= f).Ends d onOk onError onSpent := by
  rw [Call.ends_bind, take, ends_look]
  by_cases hKind : (s.peek d.index).kind = kind
  · rw [if_pos hKind,
      ends_advance (isEof_eq_false hKind hEof)]
    exact hTaken hKind
  · rw [if_neg hKind]
    exact hOther hKind

/- A token is read, or another one is reported. -/
theorem ends_expect
    {f : Token → Call α}
    {kind : Kind}
    (hEof : kind ≠ .eof)
    (hTaken :
      (s.peek d.index).kind = kind →
      (f (s.peek d.index)).Ends d.next onOk onError onSpent)
    (hOther :
      (s.peek d.index).kind ≠ kind →
      onError
        ⟨.mismatch (s.peek d.index).kind kind,
          (s.peek d.index).span⟩) :
    (expect s kind >>= f).Ends d onOk onError onSpent := by
  rw [Call.ends_bind, expect, ends_look]
  by_cases hKind : (s.peek d.index).kind = kind
  · rw [if_pos hKind]
    rw [← Call.ends_bind,
      ends_advance (isEof_eq_false hKind hEof)]
    exact hTaken hKind
  · rw [if_neg hKind]
    exact hOther hKind

/- The end of input is met, or another token is reported. -/
theorem ends_expect_eof
    {f : Token → Call α}
    (hEnd :
      (s.peek d.index).isEof = true →
      (f (s.peek d.index)).Ends d onOk onError onSpent)
    (hOther :
      (s.peek d.index).isEof = false →
      onError
        ⟨.mismatch (s.peek d.index).kind .eof,
          (s.peek d.index).span⟩) :
    (expect s .eof >>= f).Ends d onOk onError onSpent := by
  rw [Call.ends_bind, expect, ends_look]
  by_cases hKind : (s.peek d.index).kind = .eof
  · have hEof : (s.peek d.index).isEof = true := by
      simp [Token.isEof, hKind]
    rw [if_pos hKind]
    rw [← Call.ends_bind, ends_advance_any, if_pos hEof]
    exact hEnd hEof
  · rw [if_neg hKind]
    exact hOther (isEof_eq_false rfl hKind)

end Tokens

end Descent

end WordLang
