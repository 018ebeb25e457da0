import WordLang.Proofs.ReadingMeaning
import WordLang.Proofs.TreeParser

/-
  This file proves that programs are read as what their
  derivations stand for.

  As for expressions, the parser and the reader of
  derivations take the same tokens in step, and the parser
  holds what the trees of the other stand for.

  Key definitions include:
    * `WordLang.StmtTree.Means`
    * `WordLang.Pending.Means`
    * `WordLang.Position.Means`
    * `WordLang.Parser.Means`

  Key theorems include:
    * `WordLang.StmtTree.lower?_of_extends`
    * `WordLang.Parser.step_agrees`
    * `WordLang.Parser.finish_agrees`
    * `WordLang.Program.parse_agrees`
-/

namespace WordLang

------------------------------------------------------------
-- Statements
------------------------------------------------------------

namespace ExprTree

variable {t t' : Locals}

/- What an expression that may be left out stands for. -/
def MeansOption
    (t : Locals)
    (d? : Option ExprTree)
    (e? : Option Expr) : Prop :=
  lowerOption? t d? = some (e?.map Expr.bare)

theorem MeansOption.none :
    MeansOption t none none := by
  rfl

theorem MeansOption.some
    {d : ExprTree}
    {e : Expr}
    (hMeans : d.Means t e) :
    MeansOption t (some d) (some e) := by
  rw [MeansOption, lowerOption?, hMeans]
  rfl

theorem lowerOption?_of_extends
    {d? : Option ExprTree}
    {e? : Option Expr}
    (hExtends : t.Extends t')
    (hLower : lowerOption? t d? = .some e?) :
    lowerOption? t' d? = .some e? := by
  cases d? with
  | none =>
      exact hLower
  | some d =>
      obtain ⟨e, hDerived, rfl⟩ :=
        Option.map_eq_some_iff.mp hLower
      rw [lowerOption?, lower?_of_extends hExtends hDerived]
      rfl

end ExprTree

namespace StmtTree

variable {t t' : Locals}

mutual

/- A larger table does not change what a tree stands for. -/
theorem lower?_of_extends
    (hExtends : t.Extends t') :
    (s : StmtTree) →
    (a : Stmt) →
    s.lower? t = some a →
    s.lower? t' = some a
| .ret d, a, hLower | .expr d, a, hLower => by
    simp only [lower?_ret, lower?_expr] at hLower ⊢
    rcases hLower with ⟨e, hValue, hResult⟩
    exact ⟨e, ExprTree.lower?_of_extends hExtends hValue,
      hResult⟩
| .ifThen d s, a, hLower | .whileLoop d s, a, hLower => by
    simp only [lower?_ifThen, lower?_whileLoop] at hLower ⊢
    rcases hLower with ⟨e, b, hPredicate, hBody, hResult⟩
    exact ⟨e, b,
      ExprTree.lower?_of_extends hExtends hPredicate,
      lower?_of_extends hExtends s b hBody, hResult⟩
| .ifElse d s s', a, hLower => by
    rcases lower?_ifElse.mp hLower with
      ⟨e, b, c, hPredicate, hThen, hElse, hResult⟩
    exact lower?_ifElse.mpr ⟨e, b, c,
      ExprTree.lower?_of_extends hExtends hPredicate,
      lower?_of_extends hExtends s b hThen,
      lower?_of_extends hExtends s' c hElse, hResult⟩
| .forLoop i c n s, a, hLower => by
    rcases lower?_forLoop.mp hLower with
      ⟨i', c', n', b, hInit, hPredicate, hStep, hBody,
        hResult⟩
    exact lower?_forLoop.mpr ⟨i', c', n', b,
      ExprTree.lowerOption?_of_extends hExtends hInit,
      ExprTree.lowerOption?_of_extends hExtends hPredicate,
      ExprTree.lowerOption?_of_extends hExtends hStep,
      lower?_of_extends hExtends s b hBody, hResult⟩
| .block ss, a, hLower => by
    rcases lower?_block.mp hLower with
      ⟨body, hBody, hResult⟩
    exact lower?_block.mpr ⟨body,
      lowerAll?_of_extends hExtends ss body hBody, hResult⟩

theorem lowerAll?_of_extends
    (hExtends : t.Extends t') :
    (ss : List StmtTree) →
    (body : List Stmt) →
    lowerAll? t ss = some body →
    lowerAll? t' ss = some body
| [], body, hLower => by
    exact hLower
| s :: ss, body, hLower => by
    rcases lowerAll?_cons.mp hLower with
      ⟨a, rest, hFirst, hAll, hResult⟩
    exact lowerAll?_cons.mpr ⟨a, rest,
      lower?_of_extends hExtends s a hFirst,
      lowerAll?_of_extends hExtends ss rest hAll, hResult⟩

end

/- What a derivation stands for, up to the regions. -/
def Means
    (t : Locals)
    (s : StmtTree)
    (a : Stmt) : Prop :=
  s.lower? t = some a.bare

theorem Means.extends
    {s : StmtTree}
    {a : Stmt}
    (hMeans : s.Means t a)
    (hExtends : t.Extends t') :
    s.Means t' a :=
  lower?_of_extends hExtends s a.bare hMeans

/- What derivations stand for, one after another. -/
theorem lowerAll?_of_means
    {ss : List StmtTree}
    {body : List Stmt}
    (hMeans : List.Forall₂ (Means t) ss body) :
    lowerAll? t ss = some (Stmt.bareAll body) := by
  induction hMeans with
  | nil =>
      rfl
  | cons hFirst hRest ih =>
      rw [lowerAll?, hFirst, ih]
      rfl

/- A block stands for the statements in it. -/
theorem block_means
    {ss : List StmtTree}
    {body : List Stmt}
    (span : Span)
    (hMeans : List.Forall₂ (Means t) ss body) :
    (StmtTree.block ss.reverse).Means t
      (.block body.reverse span) := by
  have hReverse :
      List.Forall₂ (Means t) ss.reverse body.reverse :=
    List.rel_reverse hMeans
  rw [Means, lower?, lowerAll?_of_means hReverse]
  rfl

end StmtTree

------------------------------------------------------------
-- States
------------------------------------------------------------

namespace Pending

variable {t t' : Locals}

/- What waits in a parser is what waits in the other. -/
def Means
    (t : Locals) :
    PendingTree →
    Pending →
    Prop
| .thenArm d, .thenArm _ e => d.Means t e
| .elseArm d s, .elseArm _ e a => d.Means t e ∧ s.Means t a
| .whileBody d, .whileBody _ e => d.Means t e
| .forBody i c n, .forBody _ i' c' n' =>
    ExprTree.MeansOption t i i' ∧
      ExprTree.MeansOption t c c' ∧
      ExprTree.MeansOption t n n'
| _, _ => False

theorem Means.extends
    {tree : PendingTree}
    {frame : Pending}
    (hMeans : Means t tree frame)
    (hExtends : t.Extends t') :
    Means t' tree frame := by
  match tree, frame, hMeans with
  | .thenArm d, .thenArm _ e, hMeans
  | .whileBody d, .whileBody _ e, hMeans =>
      exact ExprTree.Means.extends hMeans hExtends
  | .elseArm d s, .elseArm _ e a, hMeans =>
      exact ⟨hMeans.1.extends hExtends,
        hMeans.2.extends hExtends⟩
  | .forBody i c n, .forBody _ i' c' n', hMeans =>
      exact
        ⟨ExprTree.lowerOption?_of_extends hExtends hMeans.1,
          ExprTree.lowerOption?_of_extends hExtends
            hMeans.2.1,
          ExprTree.lowerOption?_of_extends hExtends
            hMeans.2.2⟩

/- What a statement completes is the same for both. -/
theorem wrap_means
    {tree : PendingTree}
    {frame : Pending}
    {s : StmtTree}
    {a : Stmt}
    (hFrame : Means t tree frame)
    (hMeans : s.Means t a) :
    (tree.wrap s).Means t (frame.wrap a) := by
  match tree, frame, hFrame with
  | .thenArm d, .thenArm _ e, hFrame
  | .whileBody d, .whileBody _ e, hFrame =>
      rw [StmtTree.Means, PendingTree.wrap, StmtTree.lower?,
        hFrame, hMeans]
      rfl
  | .elseArm d s', .elseArm _ e a', hFrame =>
      rw [StmtTree.Means, PendingTree.wrap, StmtTree.lower?,
        hFrame.1, hFrame.2, hMeans]
      rfl
  | .forBody i c n, .forBody _ i' c' n', hFrame =>
      rw [StmtTree.Means, PendingTree.wrap, StmtTree.lower?,
        hFrame.1, hFrame.2.1, hFrame.2.2, hMeans]
      rfl

theorem wrapAll_means
    {trees : List PendingTree}
    {frames : List Pending}
    {s : StmtTree}
    {a : Stmt}
    (hFrames : List.Forall₂ (Means t) trees frames)
    (hMeans : s.Means t a) :
    (PendingTree.wrapAll trees s).Means t
      (wrapAll frames a) := by
  induction hFrames generalizing s a with
  | nil =>
      exact hMeans
  | cons hFirst hRest ih =>
      exact ih (wrap_means hFirst hMeans)

/- An `else` belongs to the same `if` for both. -/
theorem openElse?_means
    {trees : List PendingTree}
    {frames : List Pending}
    {s : StmtTree}
    {a : Stmt}
    (hFrames : List.Forall₂ (Means t) trees frames)
    (hMeans : s.Means t a) :
    Option.Rel (List.Forall₂ (Means t))
      (PendingTree.openElse? trees s)
      (openElse? frames a) := by
  induction hFrames generalizing s a with
  | nil =>
      exact .none
  | @cons tree frame trees frames hFirst hRest ih =>
      have hNext := ih (wrap_means hFirst hMeans)
      match tree, frame, hFirst with
      | .thenArm d, .thenArm _ e, hFirst =>
          exact .some (.cons ⟨hFirst, hMeans⟩ hRest)
      | .elseArm d s', .elseArm _ e a', hFirst
      | .whileBody d, .whileBody _ e, hFirst
      | .forBody i c n, .forBody _ i' c' n', hFirst =>
          exact hNext

end Pending

namespace Purpose

variable {t t' : Locals}

/- An expression is read for the same purpose. -/
def Means
    (t : Locals) :
    TreePurpose →
    Purpose →
    Prop
| .exprStmt, .exprStmt _ => True
| .retValue, .retValue _ => True
| .ifPredicate, .ifPredicate _ => True
| .whilePredicate, .whilePredicate _ => True
| .forInit, .forInit _ => True
| .forPredicate i, .forPredicate _ i' =>
    ExprTree.MeansOption t i i'
| .forStep i c, .forStep _ i' c' =>
    ExprTree.MeansOption t i i' ∧
      ExprTree.MeansOption t c c'
| _, _ => False

theorem Means.extends
    {u : TreePurpose}
    {u' : Purpose}
    (hMeans : Means t u u')
    (hExtends : t.Extends t') :
    Means t' u u' := by
  match u, u', hMeans with
  | .exprStmt, .exprStmt _, _ | .retValue, .retValue _, _
  | .ifPredicate, .ifPredicate _, _
  | .whilePredicate, .whilePredicate _, _
  | .forInit, .forInit _, _ =>
      trivial
  | .forPredicate i, .forPredicate _ i', hMeans =>
      exact ExprTree.lowerOption?_of_extends hExtends hMeans
  | .forStep i c, .forStep _ i' c', hMeans =>
      exact
        ⟨ExprTree.lowerOption?_of_extends hExtends hMeans.1,
          ExprTree.lowerOption?_of_extends hExtends
            hMeans.2⟩

theorem Means.terminator_eq
    {u : TreePurpose}
    {u' : Purpose}
    (hMeans : Means t u u') :
    u'.terminator = u.terminator := by
  cases u <;> cases u' <;> first | rfl | cases hMeans

end Purpose

/- Both parsers stand at the same position. -/
def Position.Means
    (t : Locals) :
    TreePosition →
    Position →
    Prop
| .boundary, .boundary => True
| .afterStmt s, .afterStmt a => s.Means t a
| .beforeHead head, .beforeHead head' _ => head = head'
| .beforeInit, .beforeInit _ => True
| .beforePredicate i, .beforePredicate _ i' =>
    ExprTree.MeansOption t i i'
| .beforeStep i c, .beforeStep _ i' c' =>
    ExprTree.MeansOption t i i' ∧
      ExprTree.MeansOption t c c'
| .inExpr u q, .inExpr u' r =>
    Purpose.Means t u u' ∧ Reading.Means t q r
| _, _ => False

/- The same lists of statements are open. -/
structure OpenBlock.Means
    (t : Locals)
    (b : OpenBlockTree)
    (b' : OpenBlock) : Prop where
  pending :
    List.Forall₂ (Pending.Means t) b.pending b'.pending
  body : List.Forall₂ (StmtTree.Means t) b.body b'.body

theorem OpenBlock.Means.extends
    {t t' : Locals}
    {b : OpenBlockTree}
    {b' : OpenBlock}
    (hMeans : Means t b b')
    (hExtends : t.Extends t') :
    Means t' b b' :=
  ⟨hMeans.pending.imp fun _ _ h => h.extends hExtends,
    hMeans.body.imp fun _ _ h => h.extends hExtends⟩

/- No expression takes the end of input. -/
theorem TreeParser.stepExpr_eof
    (q : TreeParser)
    (u : TreePurpose)
    (rd : TreeReading) :
    q.stepExpr u rd (.symbol .eof) = none := by
  have hTerminator :
      Terminal.symbol .eof ≠ .symbol u.terminator := by
    cases u <;> simp [TreePurpose.terminator]
  cases rd with
  | operand frames =>
      simp [stepExpr, TreeReading.step,
        TreeReading.stepOperand]
  | operator frames d =>
      cases hClose : (TreeReading.operator frames d).close <;>
        simp [stepExpr, TreeReading.step,
          TreeReading.stepOperator, Terminal.connective?,
          Connective.ofKind?, hClose, hTerminator]

namespace Parser

/- The same is around the position of both parsers. -/
structure MeansAround
    (t : Locals)
    (q : TreeParser)
    (p : Parser) : Prop where
  pending :
    List.Forall₂ (Pending.Means t) q.pending p.pending
  body : List.Forall₂ (StmtTree.Means t) q.body p.body
  blocks :
    List.Forall₂ (OpenBlock.Means t) q.blocks p.blocks

/- A parser holds what the trees of the other stand for. -/
structure Means
    (q : TreeParser)
    (p : Parser) : Prop where
  around : MeansAround p.locals q p
  position :
    Position.Means p.locals q.position p.position

------------------------------------------------------------
-- Steps
------------------------------------------------------------

variable {q : TreeParser}
variable {p : Parser}

/- Both parsers go to another position. -/
theorem goto_means
    {position : TreePosition}
    {position' : Position}
    (hAround : MeansAround p.locals q p)
    (hPosition :
      Position.Means p.locals position position') :
    Means (q.goto position) (p.goto position') :=
  ⟨⟨hAround.pending, hAround.body, hAround.blocks⟩,
    hPosition⟩

/- A further statement waits in both parsers. -/
theorem push_means
    {tree : PendingTree}
    {frame : Pending}
    (hAround : MeansAround p.locals q p)
    (hFrame : Pending.Means p.locals tree frame) :
    Means (q.push tree) (p.push frame) :=
  ⟨⟨.cons hFrame hAround.pending, hAround.body,
    hAround.blocks⟩, trivial⟩

/- Both parsers use a finished expression. -/
theorem useExpr_means
    {u : TreePurpose}
    {u' : Purpose}
    {d : ExprTree}
    {e : Expr}
    {token : Token}
    (hAround : MeansAround p.locals q p)
    (hPurpose : Purpose.Means p.locals u u')
    (hMeans : d.Means p.locals e)
    (hKind : token.kind = u'.terminator) :
    ∃ p',
      p.useExpr u' e token = .ok p' ∧
      Means (q.useExpr d u) p' := by
  have hExpect : token.expect u'.terminator = .ok () := by
    rw [Token.expect, if_pos hKind]
  have hOption := ExprTree.MeansOption.some hMeans
  unfold useExpr
  rw [hExpect]
  match u, u', hPurpose with
  | .exprStmt, .exprStmt _, _ =>
      refine ⟨_, rfl, goto_means hAround ?_⟩
      rw [Position.Means, StmtTree.Means, StmtTree.lower?,
        hMeans]
      rfl
  | .retValue, .retValue _, _ =>
      refine ⟨_, rfl, goto_means hAround ?_⟩
      rw [Position.Means, StmtTree.Means, StmtTree.lower?,
        hMeans]
      rfl
  | .ifPredicate, .ifPredicate _, _ =>
      exact ⟨_, rfl, push_means hAround hMeans⟩
  | .whilePredicate, .whilePredicate _, _ =>
      exact ⟨_, rfl, push_means hAround hMeans⟩
  | .forInit, .forInit _, _ =>
      exact ⟨_, rfl, goto_means hAround hOption⟩
  | .forPredicate i, .forPredicate _ i', hPurpose =>
      exact ⟨_, rfl, goto_means hAround
        ⟨hPurpose, hOption⟩⟩
  | .forStep i c, .forStep _ i' c', hPurpose =>
      exact ⟨_, rfl, push_means hAround
        ⟨hPurpose.1, hPurpose.2, hOption⟩⟩

/- Both parsers read a token in an expression. -/
theorem stepExpr_agrees
    {u : TreePurpose}
    {u' : Purpose}
    {rd : TreeReading}
    {rd' : Reading}
    (hAround : MeansAround p.locals q p)
    (hPurpose : Purpose.Means p.locals u u')
    (hReading : Reading.Means p.locals rd rd')
    (token : Token) :
    Agrees Means (q.stepExpr u rd token.terminal)
      (p.stepExpr u' rd' token) := by
  have hStep := Reading.step_agrees hReading token
  unfold TreeParser.stepExpr stepExpr
  match rd.step token.terminal, rd'.step p.locals token,
    hStep with
  | none, .error _, _ =>
      trivial
  | some (.more rd₁), .ok (.more rd₁' locals), hStep =>
      obtain ⟨hExtends, hMore⟩ := hStep
      exact
        ⟨⟨hAround.pending.imp fun _ _ h =>
              h.extends hExtends,
            hAround.body.imp fun _ _ h =>
              h.extends hExtends,
            hAround.blocks.imp fun _ _ h =>
              h.extends hExtends⟩,
          hPurpose.extends hExtends, hMore⟩
  | some (.done d), .ok (.done e), hMeans =>
      have hTerminal :
          token.terminal = .symbol u.terminator ↔
            token.kind = u'.terminator := by
        rw [hPurpose.terminator_eq]
        exact Token.terminal_eq_symbol_iff
          (by cases u <;> simp [TreePurpose.terminator])
          (by cases u <;> simp [TreePurpose.terminator])
      dsimp only
      simp only [hTerminal]
      by_cases hKind : token.kind = u'.terminator
      · obtain ⟨p', hUse, hMeans'⟩ :=
          useExpr_means hAround hPurpose hMeans hKind
        rw [if_pos hKind, hUse]
        exact hMeans'
      · unfold useExpr
        rw [if_neg hKind, Token.expect, if_neg hKind]
        trivial

/- Both parsers read the first token of an expression. -/
theorem stepStart_agrees
    {u : TreePurpose}
    {u' : Purpose}
    (hAround : MeansAround p.locals q p)
    (hPurpose : Purpose.Means p.locals u u')
    (token : Token) :
    Agrees Means (q.stepExpr u (.operand []) token.terminal)
      (p.stepExpr u' .start token) :=
  stepExpr_agrees hAround hPurpose
    (Reading.means_start p.locals) token

/- Both parsers read the first token of a statement. -/
theorem stepStmt_agrees
    (hAround : MeansAround p.locals q p)
    (token : Token) :
    Agrees Means (q.stepStmt token.terminal)
      (p.stepStmt token) := by
  have hPurpose :
      Purpose.Means p.locals .exprStmt
        (.exprStmt token.span) :=
    trivial
  have hExpr := stepStart_agrees hAround hPurpose token
  unfold TreeParser.stepStmt
  simp only [Token.terminal_eq_symbol_iff, ne_eq,
    reduceCtorEq, not_false_eq_true]
  cases hKind : token.kind with
  | kwReturn =>
      simp only [stepStmt, hKind, if_true]
      exact goto_means hAround
        ⟨trivial, Reading.means_start p.locals⟩
  | kwIf | kwWhile | kwFor =>
      simp only [stepStmt, hKind, reduceCtorEq, if_false,
        if_true]
      exact goto_means hAround rfl
  | lbrace =>
      simp only [stepStmt, hKind, reduceCtorEq, if_false,
        if_true]
      exact
        ⟨⟨.nil, .nil,
          .cons ⟨hAround.pending, hAround.body⟩
            hAround.blocks⟩, trivial⟩
  | _ =>
      -- Any other token is taken for an expression.
      simp only [stepStmt, hKind, reduceCtorEq, if_false]
      exact hExpr

/- Both parsers read a token where a statement may start. -/
theorem stepBoundary_agrees
    (hAround : MeansAround p.locals q p)
    {token : Token}
    (hEof : token.kind ≠ .eof) :
    Agrees Means (q.stepBoundary token.terminal)
      (p.stepBoundary token) := by
  have hStmt := stepStmt_agrees hAround token
  by_cases hBrace : token.kind = .rbrace
  · have hTerminal : token.terminal = .symbol .rbrace := by
      rw [Token.terminal, hBrace]
    obtain ⟨position, pending, body, blocks⟩ := q
    obtain ⟨position', pending', body', blocks', locals⟩ := p
    obtain ⟨hPending, hBody, hBlocks⟩ := hAround
    dsimp only at hPending hBody hBlocks
    cases hPending with
    | nil =>
        cases hBlocks with
        | nil =>
            simp only [TreeParser.stepBoundary,
              stepBoundary, hBrace]
            exact hStmt
        | cons hBlock hBlocks =>
            simp only [TreeParser.stepBoundary,
              stepBoundary, hTerminal, hBrace, if_true]
            exact
              ⟨⟨hBlock.pending, hBlock.body, hBlocks⟩,
                StmtTree.block_means _ hBody⟩
    | cons _ _ =>
        simp only [TreeParser.stepBoundary, stepBoundary]
        exact hStmt
  · have hTerminal : token.terminal ≠ .symbol .rbrace :=
      fun h => hBrace (Token.kind_of_terminal h)
    rw [TreeParser.stepBoundary_eq_stepStmt q hTerminal]
    have hStep : p.stepBoundary token = p.stepStmt token := by
      unfold stepBoundary
      split <;> first | contradiction | rfl
    rw [hStep]
    exact hStmt

/- A finished statement takes its place in both parsers. -/
theorem settle_means
    {s : StmtTree}
    {a : Stmt}
    (hAround : MeansAround p.locals q p)
    (hMeans : s.Means p.locals a) :
    MeansAround (p.settle a).locals (q.settle s)
      (p.settle a) :=
  ⟨.nil,
    .cons (Pending.wrapAll_means hAround.pending hMeans)
      hAround.body,
    hAround.blocks⟩

/- Both parsers read a token after a statement. -/
theorem stepAfter_agrees
    {s : StmtTree}
    {a : Stmt}
    (hAround : MeansAround p.locals q p)
    (hMeans : s.Means p.locals a)
    {token : Token}
    (hEof : token.kind ≠ .eof) :
    Agrees Means (q.stepAfter s token.terminal)
      (p.stepAfter a token) := by
  have hSettled :=
    stepBoundary_agrees (settle_means hAround hMeans) hEof
  have hOpen :=
    Pending.openElse?_means hAround.pending hMeans
  unfold TreeParser.stepAfter
  simp only [Token.terminal_eq_symbol_iff, ne_eq,
    reduceCtorEq, not_false_eq_true]
  by_cases hElse : token.kind = .kwElse
  · simp only [stepAfter, hElse, if_true]
    match PendingTree.openElse? q.pending s,
      Pending.openElse? p.pending a, hOpen with
    | none, none, _ =>
        exact hSettled
    | some pending, some pending', .some hPending =>
        exact ⟨⟨hPending, hAround.body, hAround.blocks⟩,
          trivial⟩
  · rw [if_neg hElse]
    have hStep :
        p.stepAfter a token =
          (p.settle a).stepBoundary token := by
      unfold stepAfter
      split
      · contradiction
      · rfl
    rw [hStep]
    exact hSettled

/- Both parsers read a token. -/
theorem step_agrees
    (hMeans : Means q p)
    {token : Token}
    (hEof : token.kind ≠ .eof) :
    Agrees Means (q.step token.terminal)
      (p.step token) := by
  obtain ⟨hAround, hPosition⟩ := hMeans
  unfold TreeParser.step step
  simp only [Token.terminal_eq_symbol_iff, ne_eq,
    reduceCtorEq, not_false_eq_true]
  cases hTree : q.position <;>
    cases hCase : p.position <;>
    rw [hTree, hCase] at hPosition <;>
    try exact False.elim hPosition
  case boundary.boundary =>
      exact stepBoundary_agrees hAround hEof
  case afterStmt.afterStmt s a =>
      exact stepAfter_agrees hAround hPosition hEof
  case beforeHead.beforeHead head head' start =>
      obtain rfl : head = head' := hPosition
      dsimp only
      unfold Token.expect
      by_cases hKind : token.kind = .lparen
      · rw [if_pos hKind, if_pos hKind]
        cases head with
        | ifHead | whileHead =>
            exact goto_means hAround
              ⟨trivial, Reading.means_start p.locals⟩
        | forHead =>
            exact goto_means hAround trivial
      · rw [if_neg hKind, if_neg hKind]
        trivial
  case beforeInit.beforeInit start =>
      have hPurpose :
          Purpose.Means p.locals .forInit (.forInit start) :=
        trivial
      dsimp only
      split
      · exact goto_means hAround ExprTree.MeansOption.none
      · exact stepStart_agrees hAround hPurpose token
  case beforePredicate.beforePredicate i start i' =>
      have hPurpose :
          Purpose.Means p.locals (.forPredicate i)
            (.forPredicate start i') :=
        hPosition
      dsimp only
      split
      · exact goto_means hAround
          ⟨hPosition, ExprTree.MeansOption.none⟩
      · exact stepStart_agrees hAround hPurpose token
  case beforeStep.beforeStep i c start i' c' =>
      have hPurpose :
          Purpose.Means p.locals (.forStep i c)
            (.forStep start i' c') :=
        hPosition
      dsimp only
      split
      · exact push_means hAround
          ⟨hPosition.1, hPosition.2,
            ExprTree.MeansOption.none⟩
      · exact stepStart_agrees hAround hPurpose token
  case inExpr.inExpr u rd u' rd' =>
      exact stepExpr_agrees hAround hPosition.1 hPosition.2
        token

------------------------------------------------------------
-- The End of Input
------------------------------------------------------------

/- What two parsers have read when they are done. -/
def MeansDone
    (ss : List StmtTree)
    (p : Parser) : Prop :=
  StmtTree.lowerAll? p.locals ss =
    some (Stmt.bareAll p.body.reverse)

/- No expression takes the end of input. -/
theorem stepExpr_eof
    {u : TreePurpose}
    {u' : Purpose}
    {rd : TreeReading}
    {rd' : Reading}
    {token : Token}
    (hAround : MeansAround p.locals q p)
    (hPurpose : Purpose.Means p.locals u u')
    (hReading : Reading.Means p.locals rd rd')
    (hEof : token.kind = .eof) :
    Agrees MeansDone none (p.stepExpr u' rd' token) := by
  have hTerminal : token.terminal = .symbol .eof := by
    rw [Token.terminal, hEof]
  have hAgrees :=
    stepExpr_agrees hAround hPurpose hReading token
  rw [hTerminal, TreeParser.stepExpr_eof] at hAgrees
  exact hAgrees.of_none

/- Both parsers are done where nothing is open. -/
theorem finishBoundary_agrees
    {token : Token}
    (hAround : MeansAround p.locals q p)
    (hPosition : q.position = .boundary)
    (hEof : token.kind = .eof) :
    Agrees MeansDone q.finish (p.stepBoundary token) := by
  have hPurpose :
      Purpose.Means p.locals .exprStmt
        (.exprStmt token.span) :=
    trivial
  have hExpr :=
    stepExpr_eof hAround hPurpose
      (Reading.means_start p.locals) hEof
  obtain ⟨position, pending, body, blocks⟩ := q
  obtain ⟨position', pending', body', blocks', locals⟩ := p
  obtain ⟨hPending, hBody, hBlocks⟩ := hAround
  dsimp only at hPending hBody hBlocks hPosition
  subst hPosition
  match pending, pending', hPending, blocks, blocks',
    hBlocks with
  | [], [], _, [], [], _ =>
      simp only [TreeParser.finish, stepBoundary, hEof]
      exact StmtTree.lowerAll?_of_means
        (List.rel_reverse hBody)
  | [], [], _, _ :: _, _ :: _, _ =>
      simp only [TreeParser.finish, stepBoundary, hEof]
      trivial
  | _ :: _, _ :: _, _, _, _, _ =>
      simp only [TreeParser.finish, stepBoundary, stepStmt,
        hEof]
      exact hExpr

/- Both parsers have read a program, or none has. -/
theorem finish_agrees
    (hMeans : Means q p)
    {token : Token}
    (hEof : token.kind = .eof) :
    Agrees MeansDone q.finish (p.step token) := by
  obtain ⟨hAround, hPosition⟩ := hMeans
  match hTree : q.position, hCase : p.position,
    hPosition with
  | .boundary, .boundary, _ =>
      simp only [step, hCase]
      exact finishBoundary_agrees hAround hTree hEof
  | .afterStmt s, .afterStmt a, hPosition =>
      have hSettled :=
        finishBoundary_agrees (settle_means hAround hPosition)
          rfl hEof
      have hFinish : q.finish = (q.settle s).finish := by
        cases hBlocks : q.blocks <;>
          simp [TreeParser.finish, TreeParser.settle, hTree,
            hBlocks]
      simp only [step, hCase, stepAfter, hEof]
      rw [hFinish]
      exact hSettled
  | .beforeHead head, .beforeHead head' start, hPosition =>
      simp [TreeParser.finish, hTree, step, hCase,
        Token.expect, hEof]
      trivial
  | .beforeInit, .beforeInit start, _ =>
      have hPurpose :
          Purpose.Means p.locals .forInit (.forInit start) :=
        trivial
      simp only [TreeParser.finish, hTree, step, hCase, hEof,
        reduceCtorEq, if_false]
      exact stepExpr_eof hAround hPurpose
        (Reading.means_start p.locals) hEof
  | .beforePredicate i, .beforePredicate start i',
      hPosition =>
      have hPurpose :
          Purpose.Means p.locals (.forPredicate i)
            (.forPredicate start i') :=
        hPosition
      simp only [TreeParser.finish, hTree, step, hCase, hEof,
        reduceCtorEq, if_false]
      exact stepExpr_eof hAround hPurpose
        (Reading.means_start p.locals) hEof
  | .beforeStep i c, .beforeStep start i' c', hPosition =>
      have hPurpose :
          Purpose.Means p.locals (.forStep i c)
            (.forStep start i' c') :=
        hPosition
      simp only [TreeParser.finish, hTree, step, hCase, hEof,
        reduceCtorEq, if_false]
      exact stepExpr_eof hAround hPurpose
        (Reading.means_start p.locals) hEof
  | .inExpr u rd, .inExpr u' rd', hPosition =>
      simp only [TreeParser.finish, hTree, step, hCase]
      exact stepExpr_eof hAround hPosition.1 hPosition.2 hEof

/- Both parsers read tokens up to the end of input. -/
theorem run_agrees
    (hMeans : Means q p)
    {stop : Token}
    (hStop : stop.isEof = true)
    (tokens : List Token) :
    Agrees MeansDone
      ((q.run
        (((tokens ++ [stop]).takeWhile (!·.isEof)).map
          Token.terminal)).bind TreeParser.finish)
      (p.run stop tokens) := by
  induction tokens generalizing q p with
  | nil =>
      have hEof : stop.kind = .eof := of_decide_eq_true hStop
      rw [List.nil_append, List.takeWhile_cons, hStop]
      exact finish_agrees hMeans hEof
  | cons token tokens ih =>
      rw [List.cons_append, List.takeWhile_cons, run]
      cases hEof : token.isEof with
      | true =>
          have hKind : token.kind = .eof :=
            of_decide_eq_true hEof
          have hFinish := finish_agrees hMeans hKind
          revert hFinish
          cases p.step token <;> exact id
      | false =>
          have hKind : token.kind ≠ .eof :=
            of_decide_eq_false hEof
          have hStep := step_agrees hMeans hKind
          simp only [Bool.not_false, if_true, List.map_cons,
            TreeParser.run]
          rcases hStep.both with
            ⟨hTree, e, hRead⟩ | ⟨q', p', hTree, hRead, hBoth⟩
          · rw [hTree, hRead]
            trivial
          · rw [hTree, hRead]
            exact ih hBoth

end Parser

/-
  A program is read if there is a derivation, and it is
  what the derivation stands for.
-/
theorem Program.parse_agrees
    (s : TokenStream) :
    Agrees
      (fun ss p =>
        p.name = mainName ∧
          StmtTree.lowerAll? p.locals ss =
            some (Stmt.bareAll p.body))
      (StmtTree.ofTerminals? s.terminals)
      (Program.parse s) := by
  have hStart : Parser.Means .start .start :=
    ⟨⟨.nil, .nil, .nil⟩, trivial⟩
  have hRun :
      Agrees Parser.MeansDone
        (StmtTree.ofTerminals? s.terminals)
        (Parser.run s.stop .start s.tokens) :=
    Parser.run_agrees hStart s.isEof_stop s.tokens
  unfold Program.parse
  revert hRun
  cases StmtTree.ofTerminals? s.terminals <;>
    cases Parser.run s.stop .start s.tokens
  · exact id
  · exact id
  · exact id
  · exact fun hDone => ⟨rfl, hDone⟩

end WordLang
