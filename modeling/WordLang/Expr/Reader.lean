import WordLang.ParseError
import WordLang.Expr.Basic
import WordLang.Expr.Literal

/-
  This file reads expressions from tokens.

  From weakest to strongest, the operators are assignment,
  equality, order, sum and product. Assignment groups to
  the right and all others to the left. An operand may have
  one sign in front of it. `a > b` is read as `b < a` and
  `a >= b` as `b <= a`; `-a` is read as `0 - a`.

  The reader takes one token at a time. It keeps what is
  still open to the left of the next token, innermost
  first, and is either waiting for an operand or holds one
  that a stronger operator may still take from the left.

  Key definitions include:
    * `WordLang.Operator`
    * `WordLang.Kind.operator?`
    * `WordLang.Frame`
    * `WordLang.Frame.collapse`
    * `WordLang.Reading`
    * `WordLang.Reading.step`
    * `WordLang.Reading.close`
    * `WordLang.Expr.parse`
-/

namespace WordLang

------------------------------------------------------------
-- Operators
------------------------------------------------------------

/-
  An operator as it is written: the operation it stands for,
  whether its operands change places, and how strongly it
  binds.
-/
structure Operator where
  op : BinOp
  swapped : Bool
  power : Nat
deriving DecidableEq, Repr

namespace Operator

/- The operation on operands in the order they are read. -/
def apply
    (o : Operator)
    (lhs rhs : Expr) : Expr :=
  if o.swapped then
    .binary o.op rhs lhs (lhs.span.through rhs.span)
  else
    .join o.op lhs rhs

end Operator

/- The operator that a kind of token writes. -/
def Kind.operator? : Kind → Option Operator
| .eqEq => some ⟨.eq, false, 1⟩
| .notEq => some ⟨.ne, false, 1⟩
| .less => some ⟨.lt, false, 2⟩
| .lessEq => some ⟨.le, false, 2⟩
| .greater => some ⟨.lt, true, 2⟩
| .greaterEq => some ⟨.le, true, 2⟩
| .plus => some ⟨.add, false, 3⟩
| .minus => some ⟨.sub, false, 3⟩
| .star => some ⟨.mul, false, 4⟩
| .slash => some ⟨.div, false, 4⟩
| _ => none

------------------------------------------------------------
-- Open Phrases
------------------------------------------------------------

/- What is open to the left of the next token. -/
inductive Frame where
  | sign (negative : Bool) (span : Span)
  | paren (span : Span)
  | binary (operator : Operator) (lhs : Expr)
  | assign (target : Expr)
deriving DecidableEq, Repr

namespace Frame

/-
  Give an operand to the open operators that bind at least
  as strongly as `power`, innermost first. Assignments are
  closed only at power zero.
-/
def collapse
    (power : Nat) :
    List Frame →
    Expr →
    Expr × List Frame
| binary o lhs :: rest, e =>
    if power ≤ o.power then
      collapse power rest (o.apply lhs e)
    else
      (e, binary o lhs :: rest)
| assign target :: rest, e =>
    if power = 0 then
      collapse power rest (.store target e)
    else
      (e, assign target :: rest)
| frames, e => (e, frames)

end Frame

------------------------------------------------------------
-- The Reader
------------------------------------------------------------

/- The state of the reader between two tokens. -/
inductive Reading where
  | operand (frames : List Frame)
  | operator (frames : List Frame) (e : Expr)
deriving DecidableEq, Repr

namespace Reading

/- Nothing has been read. -/
def start : Reading :=
  operand []

/- A finished operand takes the sign in front of it. -/
def ofPrimary :
    List Frame →
    Expr →
    Reading
| .sign true s :: rest, e =>
    operator rest (.join .sub (.int 0 s) e)
| .sign false s :: rest, e =>
    operator rest (e.respan (s.through e.span))
| frames, e => operator frames e

/-
  The expression that ends just before the token `t`, which
  does not go on with it.
-/
def close
    (r : Reading)
    (t : Token) : Parsed Expr :=
  match r with
  | operand _ => .error ⟨.noOperand t.kind, t.span⟩
  | operator frames e =>
      match Frame.collapse 0 frames e with
      | (_, .paren _ :: _) =>
          .error ⟨.mismatch t.kind .rparen, t.span⟩
      | (e, _) => .ok e

/- How a token affects the reader. -/
inductive Step where
  | more (r : Reading) (locals : Locals)
  | done (e : Expr)
deriving DecidableEq, Repr

/- Read a token where an operand has to start. -/
def stepOperand
    (frames : List Frame)
    (locals : Locals)
    (t : Token) : Parsed Step :=
  match t.kind, frames with
  | .plus, .sign .. :: _ | .minus, .sign .. :: _ =>
      .error ⟨.noOperand t.kind, t.span⟩
  | .plus, _ =>
      .ok (.more
        (operand (.sign false t.span :: frames)) locals)
  | .minus, _ =>
      .ok (.more
        (operand (.sign true t.span :: frames)) locals)
  | .lparen, _ =>
      .ok (.more
        (operand (.paren t.span :: frames)) locals)
  | .number, _ =>
      match Literal.read? t.lexeme with
      | some value =>
          .ok (.more
            (ofPrimary frames (.int value t.span)) locals)
      | none => .error ⟨.badNumber, t.span⟩
  | .identifier, _ =>
      let (offset, locals) := locals.resolve t.lexeme
      .ok (.more
        (ofPrimary frames (.var offset t.span)) locals)
  | kind, _ => .error ⟨.noOperand kind, t.span⟩

/- Read a token after an operand. -/
def stepOperator
    (frames : List Frame)
    (e : Expr)
    (locals : Locals)
    (t : Token) : Parsed Step :=
  match t.kind.operator?, t.kind with
  | some o, _ =>
      let (lhs, rest) := Frame.collapse o.power frames e
      .ok (.more (operand (.binary o lhs :: rest)) locals)
  | none, .assign =>
      let (target, rest) := Frame.collapse 1 frames e
      if target.isVar then
        .ok (.more
          (operand (.assign target :: rest)) locals)
      else
        .error ⟨.notAssignable, target.span⟩
  | none, .rparen =>
      match Frame.collapse 0 frames e with
      | (e, .paren s :: rest) =>
          .ok (.more
            (ofPrimary rest (e.respan (s.through t.span)))
            locals)
      | (e, _) => .ok (.done e)
  | none, _ => do
      return .done (← close (operator frames e) t)

/-
  Read a token. Either the expression goes on with it, or
  the expression was complete before it.
-/
def step
    (r : Reading)
    (locals : Locals)
    (t : Token) : Parsed Step :=
  match r with
  | operand frames => stepOperand frames locals t
  | operator frames e => stepOperator frames e locals t

/-
  Read an expression that reaches up to the end of input.
-/
def run
    (stop : Token) :
    Reading →
    Locals →
    List Token →
    Parsed (Expr × Locals)
| r, locals, [] => do
    return (← r.close stop, locals)
| r, locals, t :: ts =>
    if t.isEof then do
      return (← r.close t, locals)
    else
      match r.step locals t with
      | .error e => .error e
      | .ok (.more r locals) => run stop r locals ts
      | .ok (.done _) =>
          .error ⟨.mismatch t.kind .eof, t.span⟩

end Reading

/-
  Read a stream as one expression. The answer also has the
  table of the variables in it.
-/
def Expr.parse
    (s : TokenStream) : Parsed (Expr × Locals) :=
  Reading.run s.stop .start .empty s.tokens

end WordLang
