import WordLang.Proofs.ErrorPosition
import WordLang.Proofs.PhraseReading
import WordLang.Proofs.Resolution

/-
  This file reads the phrases of statements.

  Reading the tokens of a statement gives what its phrase
  says, regions and offsets included. So a program that was
  read consists of the statements of phrases, and phrases
  are read as the same statements wherever they stand.

  Key definitions include:
    * `WordLang.Parser.used`
    * `WordLang.Parser.Completes`
    * `WordLang.Parser.Settles`

  Key theorems include:
    * `WordLang.Parser.reads_stmt`
    * `WordLang.Program.parse_phrases`
    * `WordLang.Program.exists_phrases`
-/

namespace WordLang

------------------------------------------------------------
-- Reading an Expression of a Statement
------------------------------------------------------------

/- The kinds of token that an expression starts with. -/
def Kind.startsExpr : Kind → Bool
| .number | .identifier | .lparen | .plus | .minus => true
| _ => false

/- An expression starts with such a token. -/
theorem ExprPhrase.tokens_eq_cons
    (φ : ExprPhrase) :
    ∃ token ts,
      φ.tokens = token :: ts ∧
      token.kind.startsExpr = true := by
  induction φ with
  | number token | name token =>
      exact ⟨_, _, rfl, by rw [token.2]; rfl⟩
  | paren l d r ih =>
      exact ⟨_, _, rfl, by rw [l.2]; rfl⟩
  | signed negative sign d ih =>
      refine ⟨_, _, rfl, ?_⟩
      rw [sign.2]
      cases negative <;> rfl
  | chain c l sign r ihLeft ihRight
  | assign l sign r ihLeft ihRight =>
      rcases ihLeft with ⟨token, ts, hTokens, hStarts⟩
      refine ⟨token, ts ++ sign.1 :: r.tokens, ?_, hStarts⟩
      rw [tokens, hTokens]
      rfl

/- A statement does not start with an `else`. -/
theorem StmtPhrase.tokens_eq_cons
    (σ : StmtPhrase) :
    ∃ token ts,
      σ.tokens = token :: ts ∧ token.kind ≠ .kwElse := by
  have hOther
      {k : Kind}
      (hKind : k ≠ .kwElse)
      (token : TokenOf k) :
      token.1.kind ≠ .kwElse := by
    rwa [token.2]
  cases σ with
  | expr φ semicolon =>
      rcases φ.tokens_eq_cons with
        ⟨token, ts, hTokens, hStarts⟩
      refine ⟨token, ts ++ [semicolon.1], ?_, ?_⟩
      · rw [tokens, hTokens]
        rfl
      · intro hElse
        rw [hElse] at hStarts
        cases hStarts
  | ret keyword φ semicolon =>
      exact ⟨_, _, rfl, hOther (by decide) keyword⟩
  | ifThen h σ | ifElse h σ keyword σ' | whileLoop h σ
  | forLoop h σ =>
      exact ⟨_, _, rfl, hOther (by decide) h.keyword⟩
  | block l σs r =>
      exact ⟨_, _, rfl, hOther (by decide) l⟩

/- A complete expression ends before its terminator. -/
theorem Reading.step_terminator
    {frames : List Frame}
    {e e' : Expr}
    {t : Locals}
    {purpose : Purpose}
    (last : TokenOf purpose.terminator)
    (hCollapse : Frame.collapse 0 frames e = (e', [])) :
    (operator frames e).step t last.1 = .ok (.done e') := by
  cases purpose <;>
    simp only [step, stepOperator, close, last.2, hCollapse,
      Purpose.terminator, Kind.operator?] <;>
    rfl

namespace Head

/- The word that a statement with a head starts with. -/
def kind : Head → Kind
| ifHead => .kwIf
| whileHead => .kwWhile
| forHead => .kwFor

/- Where the parser stands after the first parenthesis. -/
def next
    (start : Span) :
    Head → Position
| ifHead => .inExpr (.ifPredicate start) .start
| whileHead => .inExpr (.whilePredicate start) .start
| forHead => .beforeInit start

end Head

/- Whether an `if` waits for its first arm. -/
def Pending.isThenArm : Pending → Bool
| thenArm .. => true
| _ => false

namespace Parser

open ExprPhrase (tokensOption)

variable {p q p' : Parser}
variable {t : Locals}

theorem Reads.append
    {us vs : List Token}
    (hFirst : Reads p us q)
    (hSecond : Reads q vs p') :
    Reads p (us ++ vs) p' := by
  induction hFirst with
  | nil p =>
      exact hSecond
  | cons hEof hStep _ ih =>
      exact .cons hEof hStep (ih hSecond)

/- A token that is not the end of input is read. -/
theorem reads_token
    {k : Kind}
    (token : TokenOf k)
    (hEof : k ≠ .eof)
    (hStep : p.step token.1 = .ok p') :
    Reads p [token.1] p' :=
  .cons (token.isEof_eq_false hEof) hStep (.nil p')

/- Two states that the next token makes one. -/
theorem Reads.congr
    {token : Token}
    {ts : List Token}
    (hReads : Reads q (token :: ts) p')
    (hStep : p.step token = q.step token) :
    Reads p (token :: ts) p' := by
  cases hReads with
  | cons hEof hNext hRest =>
      exact .cons hEof (hStep.trans hNext) hRest

/- A run ends where its tokens lead. -/
theorem run_eq_step
    {ts : List Token}
    (stop : Token)
    (hReads : Reads p ts p') :
    run stop p ts = p'.step stop := by
  induction hReads with
  | nil p =>
      rfl
  | cons hEof hStep _ ih =>
      rw [← ih, run, hStep]
      simp only [hEof, Bool.false_eq_true, if_false]

/- The same state with another table. -/
def withLocals
    (p : Parser)
    (t : Locals) : Parser :=
  { p with locals := t }

/- What follows an expression that ends with a region. -/
def used
    (p : Parser)
    (purpose : Purpose)
    (e : Expr)
    (s : Span) : Parser :=
  match purpose with
  | .exprStmt start =>
      p.goto (.afterStmt (.expr e (start.through s)))
  | .retValue start =>
      p.goto (.afterStmt (.ret e (start.through s)))
  | .ifPredicate start => p.push (.thenArm start e)
  | .whilePredicate start => p.push (.whileBody start e)
  | .forInit start =>
      p.goto (.beforePredicate start (some e))
  | .forPredicate start init =>
      p.goto (.beforeStep start init (some e))
  | .forStep start init predicate =>
      p.push (.forBody start init predicate (some e))

theorem useExpr_eq_used
    {purpose : Purpose}
    (p : Parser)
    (e : Expr)
    (last : TokenOf purpose.terminator) :
    p.useExpr purpose e last.1 =
      .ok (p.used purpose e last.1.span) := by
  unfold useExpr Token.expect
  rw [if_pos last.2]
  cases purpose <;> rfl

/- Tokens inside an expression are read there. -/
theorem reads_reading
    {r r' : Reading}
    {t t' : Locals}
    {ts : List Token}
    (p : Parser)
    (purpose : Purpose)
    (hReads : Reading.Reads r t ts r' t') :
    Reads ((p.withLocals t).goto (.inExpr purpose r)) ts
      ((p.withLocals t').goto (.inExpr purpose r')) := by
  induction hReads with
  | nil r t =>
      exact .nil _
  | cons hEof hStep _ ih =>
      refine .cons hEof ?_ ih
      simp only [step, goto, stepExpr, withLocals, hStep]

/- An expression is read up to its terminator. -/
theorem reads_expr
    {φ : ExprPhrase}
    {purpose : Purpose}
    (p : Parser)
    (last : TokenOf purpose.terminator)
    (hSound : φ.tree.Sound)
    (hExtends : (p.locals.after φ.tokens).Extends t) :
    Reads (p.goto (.inExpr purpose .start))
      (φ.tokens ++ [last.1])
      ((p.withLocals (p.locals.after φ.tokens)).used purpose
        (φ.expr t) last.1.span) := by
  rcases Reading.reads_start hSound hExtends with
    ⟨frames, e, hReads, hCollapse⟩
  have hDone :=
    Reading.step_terminator (t := p.locals.after φ.tokens)
      last hCollapse
  have hEof : purpose.terminator ≠ .eof := by
    cases purpose <;> simp [Purpose.terminator]
  refine (reads_reading p purpose hReads).append
    (reads_token last hEof ?_)
  have hUse :=
    (p.withLocals (p.locals.after φ.tokens)).useExpr_eq_used
      (φ.expr t) last
  simp only [step, goto, stepExpr, withLocals, hDone]
  cases purpose <;> exact hUse

/- Only a closing brace is not part of a statement. -/
theorem stepBoundary_eq_stepStmt
    {token : Token}
    (p : Parser)
    (hBrace : token.kind ≠ .rbrace)
    (hEof : token.kind ≠ .eof) :
    p.stepBoundary token = p.stepStmt token := by
  unfold stepBoundary
  split <;> simp_all

/- The positions where an expression can start. -/
inductive Opens
    (token : Token) :
    Position →
    Purpose →
    Prop where
  | exprStmt :
      Opens token .boundary (.exprStmt token.span)
  | forInit (start : Span) :
      Opens token (.beforeInit start) (.forInit start)
  | forPredicate (start : Span) (init : Option Expr) :
      Opens token (.beforePredicate start init)
        (.forPredicate start init)
  | forStep (start : Span) (init predicate : Option Expr) :
      Opens token (.beforeStep start init predicate)
        (.forStep start init predicate)

/- An expression starts at such a position. -/
theorem step_opens
    {token : Token}
    {position : Position}
    {purpose : Purpose}
    (p : Parser)
    (hOpens : Opens token position purpose)
    (hStarts : token.kind.startsExpr = true) :
    (p.goto position).step token =
      (p.goto (.inExpr purpose .start)).step token := by
  have hOther
      (k : Kind)
      (hKind : k.startsExpr = false) :
      token.kind ≠ k := by
    rintro rfl
    rw [hStarts] at hKind
    cases hKind
  cases hOpens with
  | exprStmt =>
      show (p.goto .boundary).stepBoundary token = _
      rw [stepBoundary_eq_stepStmt _ (hOther .rbrace rfl)
        (hOther .eof rfl)]
      unfold stepStmt
      split <;> simp_all [Kind.startsExpr]
      rfl
  | forInit start =>
      simp [step, goto, hOther .semicolon rfl]
      rfl
  | forPredicate start init =>
      simp [step, goto, hOther .semicolon rfl]
      rfl
  | forStep start init predicate =>
      simp [step, goto, hOther .rparen rfl]
      rfl

/- An expression is read where it can start. -/
theorem reads_opened
    {φ : ExprPhrase}
    {position : Position}
    {purpose : Purpose}
    (p : Parser)
    (last : TokenOf purpose.terminator)
    (hOpens :
      ∀ token ∈ φ.tokens.head?,
        Opens token position purpose)
    (hSound : φ.tree.Sound)
    (hExtends : (p.locals.after φ.tokens).Extends t) :
    Reads (p.goto position) (φ.tokens ++ [last.1])
      ((p.withLocals (p.locals.after φ.tokens)).used purpose
        (φ.expr t) last.1.span) := by
  have hReads := reads_expr p last hSound hExtends
  rcases φ.tokens_eq_cons with
    ⟨token, ts, hTokens, hStarts⟩
  rw [hTokens] at hOpens
  rw [hTokens, List.cons_append] at hReads ⊢
  exact hReads.congr
    (step_opens p (hOpens token rfl) hStarts)

------------------------------------------------------------
-- Reading the Head of a Statement
------------------------------------------------------------

/- The first token of a statement is read. -/
theorem step_keyword
    {k : Kind}
    (p : Parser)
    (token : TokenOf k)
    (hBrace : k ≠ .rbrace)
    (hEof : k ≠ .eof) :
    (p.goto .boundary).step token.1 =
      (p.goto .boundary).stepStmt token.1 := by
  show (p.goto .boundary).stepBoundary token.1 = _
  rw [stepBoundary_eq_stepStmt]
  · rwa [token.2]
  · rwa [token.2]

/- A head is read up to what stands in its parentheses. -/
theorem reads_opening
    (p : Parser)
    (head : Head)
    (keyword : TokenOf head.kind)
    (lparen : TokenOf .lparen) :
    Reads (p.goto .boundary) [keyword.1, lparen.1]
      (p.goto (head.next keyword.1.span)) := by
  have hEof : head.kind ≠ .eof := by
    cases head <;> decide
  have hBrace : head.kind ≠ .rbrace := by
    cases head <;> decide
  have hKeyword :
      (p.goto .boundary).step keyword.1 =
        .ok (p.goto (.beforeHead head keyword.1.span)) := by
    rw [step_keyword p keyword hBrace hEof]
    cases head <;>
      simp only [stepStmt, keyword.2, Head.kind] <;>
      rfl
  have hParen :
      (p.goto (.beforeHead head keyword.1.span)).step
          lparen.1 =
        .ok (p.goto (head.next keyword.1.span)) := by
    cases head <;>
      simp only [step, goto, Token.expect, lparen.2] <;>
      rfl
  exact .cons (keyword.isEof_eq_false hEof) hKeyword
    (reads_token lparen (by decide) hParen)

/- A statement is read up to the end of its predicate. -/
theorem reads_head
    {head : Head}
    {h : HeadPhrase head.kind}
    (p : Parser)
    (purpose : Purpose)
    (hNext :
      head.next h.keyword.1.span = .inExpr purpose .start)
    (hTerminator : purpose.terminator = .rparen)
    (hSound : h.predicate.tree.Sound)
    (hExtends : (p.locals.after h.tokens).Extends t) :
    Reads (p.goto .boundary) h.tokens
      ((p.withLocals (p.locals.after h.tokens)).used purpose
        (h.predicate.expr t) h.rparen.1.span) := by
  have hName : head.kind ≠ .identifier := by
    cases head <;> decide
  have hTable :
      p.locals.after h.tokens =
        p.locals.after h.predicate.tokens := by
    rw [HeadPhrase.tokens, Locals.after_cons _ _ _ hName,
      Locals.after_enclosed _ _ _ _ (by decide) (by decide)]
  rw [hTable] at hExtends ⊢
  have hOpening := reads_opening p head h.keyword h.lparen
  rw [hNext] at hOpening
  let last : TokenOf purpose.terminator :=
    ⟨h.rparen.1, h.rparen.2.trans hTerminator.symm⟩
  exact hOpening.append
    (reads_expr p last hSound hExtends)

/- The head of an `if` is read up to its first arm. -/
theorem reads_thenArm
    {h : HeadPhrase .kwIf}
    (p : Parser)
    (hSound : h.predicate.tree.Sound)
    (hExtends : (p.locals.after h.tokens).Extends t) :
    Reads (p.goto .boundary) h.tokens
      ((p.withLocals (p.locals.after h.tokens)).push
        (.thenArm h.keyword.1.span
          (h.predicate.expr t))) := by
  let h' : HeadPhrase Head.ifHead.kind := h
  exact reads_head (h := h') p
    (.ifPredicate h.keyword.1.span) rfl rfl hSound hExtends

/- The head of a `while` is read up to its body. -/
theorem reads_whileBody
    {h : HeadPhrase .kwWhile}
    (p : Parser)
    (hSound : h.predicate.tree.Sound)
    (hExtends : (p.locals.after h.tokens).Extends t) :
    Reads (p.goto .boundary) h.tokens
      ((p.withLocals (p.locals.after h.tokens)).push
        (.whileBody h.keyword.1.span
          (h.predicate.expr t))) := by
  let h' : HeadPhrase Head.whileHead.kind := h
  exact reads_head (h := h') p
    (.whilePredicate h.keyword.1.span) rfl rfl hSound
    hExtends

/- An expression that may be left out is read. -/
theorem reads_option
    {φ : Option ExprPhrase}
    {position : Position}
    (p : Parser)
    (purpose : Purpose)
    (next : Locals → Option Expr → Parser)
    (last : TokenOf purpose.terminator)
    (hOpens : ∀ token, Opens token position purpose)
    (hNone :
      (p.goto position).step last.1 =
        .ok (next p.locals none))
    (hSome :
      ∀ t e,
        (p.withLocals t).used purpose e last.1.span =
          next t (some e))
    (hSound : ∀ d ∈ φ.map ExprPhrase.tree, d.Sound)
    (hExtends :
      (p.locals.after (tokensOption φ)).Extends t) :
    Reads (p.goto position) (tokensOption φ ++ [last.1])
      (next (p.locals.after (tokensOption φ))
        (φ.map (ExprPhrase.expr t))) := by
  cases φ with
  | none =>
      have hEof : purpose.terminator ≠ .eof := by
        cases purpose <;> simp [Purpose.terminator]
      exact reads_token last hEof hNone
  | some φ =>
      have hReads :=
        reads_opened p last (fun token _ => hOpens token)
          (hSound φ.tree rfl) hExtends
      rwa [hSome] at hReads

/- The head of a `for` is read up to its body. -/
theorem reads_forBody
    {h : ForPhrase}
    (p : Parser)
    (hInit : ∀ d ∈ h.init.map ExprPhrase.tree, d.Sound)
    (hPredicate :
      ∀ d ∈ h.predicate.map ExprPhrase.tree, d.Sound)
    (hStep : ∀ d ∈ h.step.map ExprPhrase.tree, d.Sound)
    (hExtends : (p.locals.after h.tokens).Extends t) :
    Reads (p.goto .boundary) h.tokens
      ((p.withLocals (p.locals.after h.tokens)).push
        (.forBody h.keyword.1.span
          (h.init.map (ExprPhrase.expr t))
          (h.predicate.map (ExprPhrase.expr t))
          (h.step.map (ExprPhrase.expr t)))) := by
  let start := h.keyword.1.span
  let i := h.init.map (ExprPhrase.expr t)
  let c := h.predicate.map (ExprPhrase.expr t)
  let t₁ := p.locals.after (tokensOption h.init)
  let t₂ := t₁.after (tokensOption h.predicate)
  let t₃ := t₂.after (tokensOption h.step)
  have hTable : p.locals.after h.tokens = t₃ := by
    simp (disch := decide) only [ForPhrase.tokens,
      Locals.after_append, Locals.after_cons]
    rfl
  rw [hTable] at hExtends ⊢
  have hExtends₂ : t₂.Extends t :=
    (Locals.extends_after _ _).trans hExtends
  have hExtends₁ : t₁.Extends t :=
    (Locals.extends_after _ _).trans hExtends₂
  have hOpening :=
    reads_opening p .forHead h.keyword h.lparen
  have hFirst :=
    reads_option p (.forInit start)
      (fun t i =>
        (p.withLocals t).goto (.beforePredicate start i))
      h.first (fun _ => .forInit start)
      (by simp only [step, goto, h.first.2, if_true]; rfl)
      (fun _ _ => rfl) hInit hExtends₁
  have hSecond :=
    reads_option (p.withLocals t₁) (.forPredicate start i)
      (fun t c =>
        (p.withLocals t).goto (.beforeStep start i c))
      h.second (fun _ => .forPredicate start i)
      (by simp only [step, goto, h.second.2, if_true]; rfl)
      (fun _ _ => rfl) hPredicate hExtends₂
  have hThird :=
    reads_option (p.withLocals t₂) (.forStep start i c)
      (fun t n =>
        (p.withLocals t).push (.forBody start i c n))
      h.rparen (fun _ => .forStep start i c)
      (by simp only [step, goto, h.rparen.2, if_true]; rfl)
      (fun _ _ => rfl) hStep hExtends
  have hTokens :
      h.tokens =
        [h.keyword.1, h.lparen.1] ++
          ((tokensOption h.init ++ [h.first.1]) ++
          ((tokensOption h.predicate ++ [h.second.1]) ++
          (tokensOption h.step ++ [h.rparen.1]))) := by
    simp [ForPhrase.tokens]
  rw [hTokens]
  exact hOpening.append
    (hFirst.append (hSecond.append hThird))

------------------------------------------------------------
-- Reading Statements
------------------------------------------------------------

/-
  The statement `s` has just been read, with the given
  table. Statements that it ends with may still wait for an
  `else`, if it ends open.
-/
def Completes
    (p : Parser)
    (t : Locals)
    (s : Stmt)
    (endsOpen : Bool)
    (p' : Parser) : Prop :=
  ∃ s' opened,
    p' =
      { p with
        position := .afterStmt s'
        pending := opened ++ p.pending
        locals := t } ∧
    Pending.wrapAll opened s' = s ∧
    (endsOpen = false →
      ∀ rest,
        Pending.openElse? (opened ++ rest) s' =
          Pending.openElse? rest s)

/- A statement without an arm or a body is complete. -/
theorem completes_goto
    (p : Parser)
    (t : Locals)
    (s : Stmt) :
    p.Completes t s false
      ((p.withLocals t).goto (.afterStmt s)) :=
  ⟨s, [], rfl, rfl, fun _ _ => rfl⟩

/- A statement is complete with what it waited for. -/
theorem Completes.wrap
    {t t' : Locals}
    {frame : Pending}
    {s : Stmt}
    {endsOpen : Bool}
    (hCompletes :
      ((p.withLocals t).push frame).Completes t' s endsOpen
        p') :
    p.Completes t' (frame.wrap s)
      (frame.isThenArm || endsOpen) p' := by
  rcases hCompletes with ⟨s', opened, rfl, hWrap, hElse⟩
  refine ⟨s', opened ++ [frame], ?_, ?_, ?_⟩
  · simp [push, withLocals]
  · rw [← hWrap, Pending.wrapAll, List.foldl_append]
    rfl
  · intro hClosed rest
    rw [List.append_assoc]
    cases frame with
    | thenArm start predicate =>
        cases hClosed
    | elseArm _ _ _ | whileBody _ _ | forBody _ _ _ _ =>
        exact hElse hClosed _

/- An `else` belongs to the `if` whose arm is complete. -/
theorem Completes.step_else
    {t t' : Locals}
    {start : Span}
    {e : Expr}
    {s : Stmt}
    (keyword : TokenOf .kwElse)
    (hCompletes :
      ((p.withLocals t).push (.thenArm start e)).Completes t'
        s false p') :
    p'.step keyword.1 =
      .ok ((p.withLocals t').push (.elseArm start e s)) := by
  rcases hCompletes with ⟨s', opened, rfl, -, hElse⟩
  have hOpen := hElse rfl (.thenArm start e :: p.pending)
  simp only [step, stepAfter, push, withLocals, hOpen,
    keyword.2, Pending.openElse?]

/- Two states that any token but an `else` makes one. -/
def Settles
    (p q : Parser) : Prop :=
  ∀ token,
    token.kind ≠ .kwElse →
    p.step token = q.step token

/- A statement in a list is put in its place. -/
theorem Completes.settles
    {s : Stmt}
    {endsOpen : Bool}
    (hPending : p.pending = [])
    (hCompletes : p.Completes t s endsOpen p') :
    p'.Settles
      { p with
        position := .boundary
        body := s :: p.body
        locals := t } := by
  rcases hCompletes with ⟨s', opened, rfl, rfl, -⟩
  intro token hElse
  simp only [step, stepAfter, settle, hPending,
    List.append_nil]
  split <;> simp_all

/- The head of a statement is read, and what it waits for. -/
theorem Reads.wrapped
    {t t' : Locals}
    {frame : Pending}
    {s : Stmt}
    {endsOpen : Bool}
    {us vs : List Token}
    (hHead :
      Reads (p.goto .boundary) us
        ((p.withLocals t).push frame))
    (hInner :
      ∃ p',
        Reads (((p.withLocals t).push frame).goto .boundary)
          vs p' ∧
        ((p.withLocals t).push frame).Completes t' s endsOpen
          p') :
    ∃ p',
      Reads (p.goto .boundary) (us ++ vs) p' ∧
      p.Completes t' (frame.wrap s)
        (frame.isThenArm || endsOpen) p' := by
  rcases hInner with ⟨p', hReads, hCompletes⟩
  exact ⟨p', hHead.append hReads, hCompletes.wrap⟩

mutual

/- Reading comes to every statement. -/
theorem reads_stmt
    (p : Parser) :
    (σ : StmtPhrase) →
    σ.tree.Sound →
    (p.locals.after σ.tokens).Extends t →
    ∃ p',
      Reads (p.goto .boundary) σ.tokens p' ∧
      p.Completes (p.locals.after σ.tokens) (σ.stmt t)
        σ.tree.endsOpen p'
| .ret keyword φ semicolon, hSound, hExtends => by
    rw [StmtPhrase.tokens,
      Locals.after_enclosed _ _ _ _ (by decide) (by decide)]
      at hExtends ⊢
    refine ⟨_, ?_, completes_goto p _ _⟩
    have hStep :
        (p.goto .boundary).step keyword.1 =
          .ok (p.goto
            (.inExpr (.retValue keyword.1.span) .start)) := by
      rw [step_keyword p keyword (by decide) (by decide)]
      simp only [stepStmt, keyword.2]
      rfl
    let last : TokenOf
        (Purpose.retValue keyword.1.span).terminator :=
      semicolon
    exact .cons (keyword.isEof_eq_false (by decide)) hStep
      (reads_expr p last hSound.1 hExtends)
| .expr φ semicolon, hSound, hExtends => by
    rw [StmtPhrase.tokens,
      Locals.after_ended _ _ _ (by decide)] at hExtends ⊢
    refine ⟨_, ?_, completes_goto p _ _⟩
    -- The region starts with the first token, which is also
    -- where the region of the expression starts.
    rcases φ.startAt t with ⟨first, hHead, hLo⟩
    let last : TokenOf
        (Purpose.exprStmt first.span).terminator :=
      semicolon
    have hReads :=
      reads_opened p last (t := t)
        (by rw [hHead]; rintro _ ⟨⟩; exact .exprStmt)
        hSound.1 hExtends
    have hSpan :
        (φ.expr t).span.through semicolon.1.span =
          first.span.through semicolon.1.span := by
      rw [Span.through, Span.through, hLo]
    rw [StmtPhrase.stmt, hSpan]
    exact hReads
| .ifThen h σ, hSound, hExtends => by
    rcases hSound with ⟨⟨hPredicate, hExprs⟩, hElse⟩
    rw [StmtPhrase.tokens, Locals.after_append] at hExtends ⊢
    have hHead :=
      reads_thenArm p hPredicate
        ((Locals.extends_after _ _).trans hExtends)
    exact hHead.wrapped
      (reads_stmt _ σ ⟨hExprs, hElse⟩ hExtends)
| .whileLoop h σ, hSound, hExtends => by
    rcases hSound with ⟨⟨hPredicate, hExprs⟩, hElse⟩
    rw [StmtPhrase.tokens, Locals.after_append] at hExtends ⊢
    have hHead :=
      reads_whileBody p hPredicate
        ((Locals.extends_after _ _).trans hExtends)
    exact hHead.wrapped
      (reads_stmt _ σ ⟨hExprs, hElse⟩ hExtends)
| .forLoop h σ, hSound, hExtends => by
    rcases hSound with
      ⟨⟨hInit, hPredicate, hStep, hExprs⟩, hElse⟩
    rw [StmtPhrase.tokens, Locals.after_append] at hExtends ⊢
    have hHead :=
      reads_forBody p hInit hPredicate hStep
        ((Locals.extends_after _ _).trans hExtends)
    exact hHead.wrapped
      (reads_stmt _ σ ⟨hExprs, hElse⟩ hExtends)
| .ifElse h σ keyword σ', hSound, hExtends => by
    rcases hSound with ⟨⟨hPredicate, hExprs, hExprs'⟩,
      hClosed, hElse, hElse'⟩
    rw [StmtPhrase.tokens, Locals.after_append,
      Locals.after_append,
      Locals.after_cons _ _ _ (by decide)] at hExtends ⊢
    have hExtendsThen :=
      (Locals.extends_after _ _).trans hExtends
    have hHead :=
      reads_thenArm p hPredicate
        ((Locals.extends_after _ _).trans hExtendsThen)
    rcases reads_stmt
        ((p.withLocals (p.locals.after h.tokens)).push
          (.thenArm h.keyword.1.span (h.predicate.expr t)))
        σ ⟨hExprs, hElse⟩ hExtendsThen with
      ⟨p₁, hReads₁, hCompletes₁⟩
    rw [hClosed] at hCompletes₁
    have hThen := hCompletes₁.step_else keyword
    rw [← List.append_assoc, List.append_cons]
    have hBoth :=
      (hHead.append hReads₁).append
        (reads_token keyword (by decide) hThen)
    exact hBoth.wrapped
      (reads_stmt _ σ' ⟨hExprs', hElse'⟩ hExtends)
| .block l σs r, hSound, hExtends => by
    rw [StmtPhrase.tokens,
      Locals.after_enclosed _ _ _ _ (by decide) (by decide)]
      at hExtends ⊢
    rcases reads_stmts (p.enterBlock l.1.span) σs hSound
        hExtends rfl with
      ⟨p', hReads, hSettles⟩
    refine ⟨_, ?_, completes_goto p _ _⟩
    have hOpen :
        (p.goto .boundary).step l.1 =
          .ok (p.enterBlock l.1.span) := by
      rw [step_keyword p l (by decide) (by decide)]
      simp only [stepStmt, l.2]
      rfl
    refine .cons (l.isEof_eq_false (by decide)) hOpen
      (hReads.append (reads_token r (by decide) ?_))
    rw [hSettles r.1 (by rw [r.2]; decide)]
    simp only [step, stepBoundary, enterBlock, r.2,
      List.append_nil, List.reverse_reverse]
    rfl

/- Reading comes to every list of statements. -/
theorem reads_stmts
    (p : Parser) :
    (σs : List StmtPhrase) →
    StmtTree.SoundAll (StmtPhrase.treeAll σs) →
    (p.locals.after (StmtPhrase.tokensAll σs)).Extends t →
    p.pending = [] →
    ∃ p',
      Reads (p.goto .boundary) (StmtPhrase.tokensAll σs) p' ∧
      p'.Settles
        { p with
          position := .boundary
          body := (StmtPhrase.stmtAll t σs).reverse ++ p.body
          locals :=
            p.locals.after (StmtPhrase.tokensAll σs) }
| [], hSound, hExtends, hPending => by
    exact ⟨_, .nil _, fun _ _ => rfl⟩
| σ :: σs, hSound, hExtends, hPending => by
    rcases StmtTree.soundAll_cons.mp hSound with
      ⟨hFirst, hRest⟩
    rw [StmtPhrase.tokensAll, Locals.after_append]
      at hExtends ⊢
    rcases reads_stmt p σ hFirst
        ((Locals.extends_after _ _).trans hExtends) with
      ⟨p₁, hReads₁, hCompletes⟩
    have hSettles := hCompletes.settles hPending
    rcases reads_stmts
        { p with
          position := .boundary
          body := σ.stmt t :: p.body
          locals := p.locals.after σ.tokens }
        σs hRest hExtends hPending with
      ⟨p', hReads', hSettles'⟩
    -- The first statement is put in its place by the token
    -- after it, which is no `else`.
    cases σs with
    | nil =>
        exact ⟨p₁, hReads₁.append (.nil p₁), hSettles⟩
    | cons σ₁ σs₁ =>
        refine ⟨p', hReads₁.append ?_, ?_⟩
        · rcases σ₁.tokens_eq_cons with
            ⟨token, ts, hTokens, hElse⟩
          rw [StmtPhrase.tokensAll, hTokens,
            List.cons_append] at hReads' ⊢
          exact hReads'.congr (hSettles token hElse)
        · simpa [StmtPhrase.stmtAll] using hSettles'

end

end Parser

------------------------------------------------------------
-- Reading Programs
------------------------------------------------------------

namespace Program

/-
  The tokens of phrases are read as their statements. Any
  table that goes on from the one that was built has the
  same offsets.
-/
theorem parse_phrases_of_extends
    {σs : List StmtPhrase}
    {s : TokenStream}
    {t : Locals}
    (hSound : StmtTree.SoundAll (StmtPhrase.treeAll σs))
    (hTokens : s.tokens = StmtPhrase.tokensAll σs)
    (hExtends : (Locals.empty.after s.tokens).Extends t) :
    parse s =
      .ok ⟨mainName, StmtPhrase.stmtAll t σs,
        Locals.empty.after s.tokens⟩ := by
  rw [hTokens] at hExtends ⊢
  rcases Parser.reads_stmts .start σs hSound hExtends rfl with
    ⟨p', hReads, hSettles⟩
  have hStop : s.stop.kind = .eof :=
    of_decide_eq_true s.isEof_stop
  have hRun :
      Parser.run s.stop .start s.tokens = p'.step s.stop := by
    rw [hTokens]
    exact Parser.run_eq_step s.stop hReads
  rw [parse, hRun, hSettles s.stop (by rw [hStop]; decide)]
  simp only [Parser.step, Parser.stepBoundary, Parser.start,
    hStop, List.append_nil]
  simp [Parser.goto, bind, Except.bind, pure, Except.pure]

theorem parse_phrases
    {σs : List StmtPhrase}
    {s : TokenStream}
    (hSound : StmtTree.SoundAll (StmtPhrase.treeAll σs))
    (hTokens : s.tokens = StmtPhrase.tokensAll σs) :
    parse s =
      .ok ⟨mainName,
        StmtPhrase.stmtAll (Locals.empty.after s.tokens) σs,
        Locals.empty.after s.tokens⟩ :=
  parse_phrases_of_extends hSound hTokens
    (Locals.Extends.refl _)

/- What is read from some tokens are phrases of them. -/
theorem exists_phrases
    {s : TokenStream}
    {p : Program}
    (hInside : ∀ a ∈ s.tokens, a.isEof = false)
    (hParse : parse s = .ok p) :
    ∃ σs,
      StmtPhrase.tokensAll σs = s.tokens ∧
      StmtTree.SoundAll (StmtPhrase.treeAll σs) ∧
      p.locals = Locals.empty.after s.tokens ∧
      p.body = StmtPhrase.stmtAll p.locals σs := by
  rcases derivation_of_parse hParse with
    ⟨ds, hDerivation, -⟩
  rcases isDerivation_iff.mp hDerivation with
    ⟨hSound, hTerminals⟩
  rw [TokenStream.terminals_eq_map hInside] at hTerminals
  rcases StmtPhrase.existsAll_of_terminals ds
      hTerminals.symm with
    ⟨σs, hTokens, rfl⟩
  have hPhrases := parse_phrases hSound hTokens.symm
  rw [hParse] at hPhrases
  cases hPhrases
  exact ⟨σs, hTokens, hSound, rfl, rfl⟩

end Program

end WordLang
