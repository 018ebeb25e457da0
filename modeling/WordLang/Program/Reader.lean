import WordLang.Program.Basic
import WordLang.Expr.Reader

/-
  This file reads programs from tokens.

  The reader takes one token at a time. In the list of
  statements it is reading, it keeps the statements whose
  arm or body is still missing, innermost first. An opening
  brace starts a new list and saves the one around it. A
  finished statement is put in its place only when the next
  token is known, because an `else` belongs to the nearest
  `if` that is still open.

  Key definitions include:
    * `WordLang.Pending`
    * `WordLang.Pending.wrap`
    * `WordLang.Pending.openElse?`
    * `WordLang.OpenBlock`
    * `WordLang.Purpose`
    * `WordLang.Position`
    * `WordLang.Parser`
    * `WordLang.Parser.step`
    * `WordLang.Parser.run`
    * `WordLang.Program.parse`
    * `WordLang.Program.ofTokens?`
-/

namespace WordLang

------------------------------------------------------------
-- Open Statements
------------------------------------------------------------

/-
  A statement that waits for its arm or body. Each one
  starts at the region given first.
-/
inductive Pending where
  | thenArm (start : Span) (predicate : Expr)
  | elseArm
      (start : Span)
      (predicate : Expr)
      (thenArm : Stmt)
  | whileBody (start : Span) (predicate : Expr)
  | forBody
      (start : Span)
      (init predicate step : Option Expr)
deriving DecidableEq, Repr

namespace Pending

/- The statement that `s` completes. -/
def wrap
    (p : Pending)
    (s : Stmt) : Stmt :=
  match p with
  | thenArm start predicate =>
      .ifThen predicate s (start.through s.span)
  | elseArm start predicate arm =>
      .ifElse predicate arm s (start.through s.span)
  | whileBody start predicate =>
      .whileLoop predicate s (start.through s.span)
  | forBody start init predicate step =>
      .forLoop init predicate step s (start.through s.span)

/- The statement that `s` completes all the way out. -/
def wrapAll
    (ps : List Pending)
    (s : Stmt) : Stmt :=
  ps.foldl (fun s p => p.wrap s) s

/-
  Open the `else` arm of the nearest `if` that waits for its
  first arm, which `s` completes.
-/
def openElse? :
    List Pending →
    Stmt →
    Option (List Pending)
| [], _ => none
| thenArm start predicate :: rest, s =>
    some (elseArm start predicate s :: rest)
| p :: rest, s => openElse? rest (p.wrap s)

end Pending

/-
  A block that has not been closed: where it starts, and
  the open and the finished statements around it. Finished
  statements are listed from last to first.
-/
structure OpenBlock where
  start : Span
  pending : List Pending
  body : List Stmt
deriving DecidableEq, Repr

------------------------------------------------------------
-- Positions
------------------------------------------------------------

/- What the expression being read is for. -/
inductive Purpose where
  | exprStmt (start : Span)
  | retValue (start : Span)
  | ifPredicate (start : Span)
  | whilePredicate (start : Span)
  | forInit (start : Span)
  | forPredicate (start : Span) (init : Option Expr)
  | forStep (start : Span) (init predicate : Option Expr)
deriving DecidableEq, Repr

/- The kind of token that ends such an expression. -/
def Purpose.terminator : Purpose → Kind
| exprStmt _ | retValue _ => .semicolon
| forInit _ | forPredicate .. => .semicolon
| ifPredicate _ | whilePredicate _ => .rparen
| forStep .. => .rparen

/- The statements that have a head in parentheses. -/
inductive Head where
  | ifHead
  | whileHead
  | forHead
deriving DecidableEq, Repr

/- Where the reader stands between two tokens. -/
inductive Position where
  | boundary
  | afterStmt (s : Stmt)
  | beforeHead (head : Head) (start : Span)
  | beforeInit (start : Span)
  | beforePredicate (start : Span) (init : Option Expr)
  | beforeStep (start : Span) (init predicate : Option Expr)
  | inExpr (purpose : Purpose) (reading : Reading)
  | accepted
deriving DecidableEq, Repr

------------------------------------------------------------
-- The Reader
------------------------------------------------------------

/-
  The state of the reader: its position, the open and the
  finished statements of the innermost list, the open
  blocks around it, and the variables seen. Finished
  statements are listed from last to first.
-/
structure Parser where
  position : Position
  pending : List Pending
  body : List Stmt
  blocks : List OpenBlock
  locals : Locals
deriving DecidableEq, Repr

namespace Parser

/- Nothing has been read. -/
def start : Parser :=
  ⟨.boundary, [], [], [], .empty⟩

/- The same state at another position. -/
def goto
    (p : Parser)
    (position : Position) : Parser :=
  { p with position := position }

/- A further open statement, whose inner one comes next. -/
def push
    (p : Parser)
    (frame : Pending) : Parser :=
  { p with
    position := .boundary
    pending := frame :: p.pending }

/- A new block, which starts at the given region. -/
def enterBlock
    (p : Parser)
    (start : Span) : Parser :=
  { p with
    position := .boundary
    pending := []
    body := []
    blocks := ⟨start, p.pending, p.body⟩ :: p.blocks }

/- Put a finished statement in its place. -/
def settle
    (p : Parser)
    (s : Stmt) : Parser :=
  { p with
    position := .boundary
    pending := []
    body := Pending.wrapAll p.pending s :: p.body }

/- Use a finished expression, which the token `t` ends. -/
def useExpr
    (p : Parser)
    (purpose : Purpose)
    (e : Expr)
    (t : Token) : Parsed Parser := do
  t.expect purpose.terminator
  match purpose with
  | .exprStmt start =>
      return p.goto
        (.afterStmt (.expr e (start.through t.span)))
  | .retValue start =>
      return p.goto
        (.afterStmt (.ret e (start.through t.span)))
  | .ifPredicate start => return p.push (.thenArm start e)
  | .whilePredicate start =>
      return p.push (.whileBody start e)
  | .forInit start =>
      return p.goto (.beforePredicate start (some e))
  | .forPredicate start init =>
      return p.goto (.beforeStep start init (some e))
  | .forStep start init predicate =>
      return p.push (.forBody start init predicate (some e))

/- Read a token inside an expression. -/
def stepExpr
    (p : Parser)
    (purpose : Purpose)
    (reading : Reading)
    (t : Token) : Parsed Parser :=
  match reading.step p.locals t with
  | .error e => .error e
  | .ok (.more reading locals) =>
      .ok { p with
        position := .inExpr purpose reading
        locals := locals }
  | .ok (.done e) => p.useExpr purpose e t

/- Read the first token of a statement. -/
def stepStmt
    (p : Parser)
    (t : Token) : Parsed Parser :=
  match t.kind with
  | .kwReturn =>
      .ok (p.goto (.inExpr (.retValue t.span) .start))
  | .kwIf => .ok (p.goto (.beforeHead .ifHead t.span))
  | .kwWhile => .ok (p.goto (.beforeHead .whileHead t.span))
  | .kwFor => .ok (p.goto (.beforeHead .forHead t.span))
  | .lbrace => .ok (p.enterBlock t.span)
  | _ => p.stepExpr (.exprStmt t.span) .start t

/-
  Read a token where a statement may start. A closing brace
  ends the innermost block, and the end of input is accepted
  only where nothing is open.
-/
def stepBoundary
    (p : Parser)
    (t : Token) : Parsed Parser :=
  match p.pending, t.kind, p.blocks with
  | [], .rbrace, block :: blocks =>
      .ok { p with
        position := .afterStmt
          (.block p.body.reverse
            (block.start.through t.span))
        pending := block.pending
        body := block.body
        blocks := blocks }
  | [], .eof, _ :: _ =>
      .error ⟨.mismatch .eof .rbrace, t.span⟩
  | [], .eof, [] => .ok (p.goto .accepted)
  | _, _, _ => p.stepStmt t

/-
  Read a token after a finished statement. Unless it is an
  `else` with an `if` to belong to, the statement is put in
  its place first.
-/
def stepAfter
    (p : Parser)
    (s : Stmt)
    (t : Token) : Parsed Parser :=
  match t.kind, Pending.openElse? p.pending s with
  | .kwElse, some pending =>
      .ok { p with
        position := .boundary
        pending := pending }
  | _, _ => (p.settle s).stepBoundary t

/- Read a token. -/
def step
    (p : Parser)
    (t : Token) : Parsed Parser :=
  match p.position with
  | .boundary => p.stepBoundary t
  | .afterStmt s => p.stepAfter s t
  | .beforeHead head start => do
      t.expect .lparen
      match head with
      | .ifHead =>
          return p.goto
            (.inExpr (.ifPredicate start) .start)
      | .whileHead =>
          return p.goto
            (.inExpr (.whilePredicate start) .start)
      | .forHead => return p.goto (.beforeInit start)
  | .beforeInit start =>
      if t.kind = .semicolon then
        .ok (p.goto (.beforePredicate start none))
      else
        p.stepExpr (.forInit start) .start t
  | .beforePredicate start init =>
      if t.kind = .semicolon then
        .ok (p.goto (.beforeStep start init none))
      else
        p.stepExpr (.forPredicate start init) .start t
  | .beforeStep start init predicate =>
      if t.kind = .rparen then
        .ok (p.push (.forBody start init predicate none))
      else
        p.stepExpr (.forStep start init predicate) .start t
  | .inExpr purpose reading => p.stepExpr purpose reading t
  | .accepted => .ok p

/-
  Read tokens up to the end of input, at the latest to the
  one that stops the stream.
-/
def run
    (stop : Token) :
    Parser →
    List Token →
    Parsed Parser
| p, [] => p.step stop
| p, t :: ts =>
    match p.step t with
    | .error e => .error e
    | .ok p => if t.isEof then .ok p else run stop p ts

end Parser

namespace Program

/- Read a stream as a program. -/
def parse
    (s : TokenStream) : Parsed Program := do
  let p ← Parser.run s.stop .start s.tokens
  return ⟨mainName, p.body.reverse, p.locals⟩

/-
  Read a list of tokens as a program, if the list ends in
  an end-of-input token.
-/
def ofTokens?
    (ts : List Token) : Option (Parsed Program) :=
  (TokenStream.ofList? ts).map parse

end Program

/-
  Read a list of tokens as an expression, if the list ends
  in an end-of-input token.
-/
def Expr.ofTokens?
    (ts : List Token) : Option (Parsed (Expr × Locals)) :=
  (TokenStream.ofList? ts).map Expr.parse

end WordLang
