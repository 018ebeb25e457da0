import WordLang.Program.Basic
import WordLang.Assembly.Instr

/-
  This file turns programs into machine code.

  The code of an expression leaves its value in `rax`. The
  left operand of an operation waits on the stack while the
  right one is computed. The code of a routine sets up a
  frame with a word for every variable, and has one exit.

  Code is emitted in order, and a fault in the program
  stops the emission: what was emitted before it stands. An
  emitter is given the number of labels already in use.

  Key definitions include:
    * `WordLang.Fault`
    * `WordLang.Emission`
    * `WordLang.Emitter`
    * `WordLang.Expr.code`
    * `WordLang.Stmt.code`
    * `WordLang.Program.frameSize`
    * `WordLang.Program.lower`
-/

namespace WordLang

------------------------------------------------------------
-- Faults
------------------------------------------------------------

/-
  What keeps a program from having code. Programs that were
  read from tokens have none of these.
-/
inductive Fault where
  | notAddressable
  | unresolved (offset : Offset)
deriving DecidableEq, Repr

namespace Fault

/- The wording of a fault. -/
def message : Fault → String
| notAddressable => "expression is not addressable"
| unresolved offset =>
    "no local variable at offset " ++ offset.text

end Fault

------------------------------------------------------------
-- Emitters
------------------------------------------------------------

/-
  What was emitted: the lines, the number of labels in use
  after them, and the fault that stopped the emission.
-/
structure Emission where
  lines : List Line
  labels : Nat
  fault? : Option (Located Fault)
deriving DecidableEq, Repr

/- Emission that goes on from a number of labels in use. -/
def Emitter := Nat → Emission

namespace Emitter

/- Emit nothing. -/
def nothing : Emitter :=
  fun labels => ⟨[], labels, none⟩

/- Emit some lines. -/
def lines
    (ls : List Line) : Emitter :=
  fun labels => ⟨ls, labels, none⟩

/- Emit some instructions. -/
def instrs
    (is : List Instr) : Emitter :=
  lines (is.map .instr)

/- Stop with a fault. -/
def fail
    (fault : Fault)
    (span : Span) : Emitter :=
  fun labels => ⟨[], labels, some ⟨fault, span⟩⟩

/- One emission after another, unless the first stops. -/
def append
    (first second : Emitter) : Emitter :=
  fun labels =>
    let a := first labels
    match a.fault? with
    | some _ => a
    | none =>
        let b := second a.labels
        ⟨a.lines ++ b.lines, b.labels, b.fault?⟩

instance : Append Emitter :=
  ⟨append⟩

/- Emission in sequence does not depend on grouping. -/
theorem append_assoc
    (a b c : Emitter) :
    a ++ b ++ c = a ++ (b ++ c) := by
  funext labels
  change append (append a b) c labels =
    append a (append b c) labels
  unfold append
  cases hA : (a labels).fault? with
  | some fault =>
      simp [hA]
  | none =>
      cases hB : (b (a labels).labels).fault? with
      | some fault =>
          simp [hA, hB]
      | none =>
          simp [hA, hB]

/-
  Take the next label number. Numbers start at one and are
  32-bit words.
-/
def withLabel
    (emit : UInt32 → Emitter) : Emitter :=
  fun labels =>
    emit (UInt32.ofNat (labels + 1)) (labels + 1)

end Emitter

------------------------------------------------------------
-- Expressions
------------------------------------------------------------

namespace Expr

/- The address of a variable, in `rax`. -/
def address
    (locals : Locals) :
    Expr → Emitter
| var offset span =>
    if locals.contains offset then
      .instrs [.lea .rax offset]
    else
      .fail (.unresolved offset) span
| e => .fail .notAddressable e.span

end Expr

namespace BinOp

/- Set `rax` to one if `rax` and `rdi` compare so, or zero. -/
def compare
    (cond : Cond) : List Instr :=
  [.cmp .rax .rdi, .setcc cond, .movzx]

/- Combine `rax` (left) and `rdi` (right) into `rax`. -/
def code : BinOp → List Instr
| add => [.add .rax .rdi]
| sub => [.sub .rax .rdi]
| mul => [.imul .rax .rdi]
| div => [.cqo, .idiv .rdi]
| eq => compare .equal
| ne => compare .notEqual
| lt => compare .less
| le => compare .lessEqual

end BinOp

namespace Expr

/- The code of an expression. -/
def code
    (locals : Locals) :
    Expr → Emitter
| int value _ => .instrs [.movImm .rax value]
| var offset span =>
    address locals (.var offset span) ++
      .instrs [.load .rax .rax]
| binary op lhs rhs _ =>
    code locals lhs ++
      (.instrs [.push .rax] ++
        (code locals rhs ++
          .instrs
            (.mov .rdi .rax :: .pop .rax :: op.code)))
| assign target value _ =>
    address locals target ++
      (.instrs [.push .rax] ++
        (code locals value ++
          .instrs [.pop .rdi, .store .rdi .rax]))

/- The code of an expression that may be left out. -/
def codeOption
    (locals : Locals) :
    Option Expr → Emitter
| none => .nothing
| some e => code locals e

/- Leave for `target` when an expression is zero. -/
def codeUnless
    (locals : Locals)
    (target : Label)
    (e : Expr) : Emitter :=
  code locals e ++ .instrs [.cmpZero .rax, .je target]

end Expr

------------------------------------------------------------
-- Statements
------------------------------------------------------------

namespace Stmt

mutual

/- The code of a statement. -/
def code
    (locals : Locals) :
    Stmt → Emitter
| expr e _ => e.code locals
| ret e _ => e.code locals ++ .instrs [.jmp .atExit]
| ifThen predicate thenArm _ =>
    .withLabel fun id =>
      predicate.codeUnless locals ⟨.finish, id⟩ ++
        (code locals thenArm ++
          .lines [.label ⟨.finish, id⟩])
| ifElse predicate thenArm elseArm _ =>
    .withLabel fun id =>
      predicate.codeUnless locals ⟨.orElse, id⟩ ++
        (code locals thenArm ++
          (.lines
              [.instr (.jmp ⟨.finish, id⟩),
               .label ⟨.orElse, id⟩] ++
            (code locals elseArm ++
              .lines [.label ⟨.finish, id⟩])))
| whileLoop predicate body _ =>
    .withLabel fun id =>
      .lines [.label ⟨.begin, id⟩] ++
        (predicate.codeUnless locals ⟨.finish, id⟩ ++
          (code locals body ++
            .lines
              [.instr (.jmp ⟨.begin, id⟩),
               .label ⟨.finish, id⟩]))
| forLoop init predicate step body _ =>
    .withLabel fun id =>
      Expr.codeOption locals init ++
        (.lines [.label ⟨.begin, id⟩] ++
          ((match predicate with
            | none => .nothing
            | some e =>
                e.codeUnless locals ⟨.finish, id⟩) ++
            (code locals body ++
              (Expr.codeOption locals step ++
                .lines
                  [.instr (.jmp ⟨.begin, id⟩),
                   .label ⟨.finish, id⟩]))))
| block body _ => codeAll locals body

/- The code of statements one after another. -/
def codeAll
    (locals : Locals) :
    List Stmt → Emitter
| [] => .nothing
| s :: ss => code locals s ++ codeAll locals ss

end

end Stmt

------------------------------------------------------------
-- Programs
------------------------------------------------------------

namespace Program

/- Frames are a multiple of this number of bytes. -/
def frameAlignment : UInt32 := 16

/- The least multiple of `align` that is not below `n`. -/
def alignTo
    (n align : UInt32) : UInt32 :=
  (if n % align = 0 then n / align else n / align + 1) *
    align

/- The number of bytes reserved for the variables. -/
def frameSize
    (locals : Locals) : UInt32 :=
  alignTo locals.bytes frameAlignment

/- The code that sets up the frame. -/
def prologue
    (locals : Locals) : List Instr :=
  [.push .rbp, .mov .rbp .rsp] ++
    (if frameSize locals = 0 then
      []
    else
      [.subImm .rsp (frameSize locals)])

/- The code that leaves the routine. -/
def epilogue : List Line :=
  [.label .atExit, .instr (.mov .rsp .rbp),
   .instr (.pop .rbp), .instr .ret]

/- The code of a program, and the fault that ends it early. -/
def lower
    (p : Program) : Emission :=
  (Emitter.instrs (prologue p.locals) ++
    (Stmt.codeAll p.locals p.body ++
      .lines epilogue)) 0

end Program

end WordLang
