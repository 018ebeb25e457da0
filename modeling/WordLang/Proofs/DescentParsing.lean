import WordLang.Proofs.DescentReading
import WordLang.Proofs.PhraseParsing

/-
  This file compares the procedures for statements with the
  parser that takes one token at a time.

  A statement leads the parser from any place where it can
  start to the place behind it. A statement inside another
  one is read at a place where the outer one is still open,
  and completes it when the token behind it is known.

  Key definitions include:
    * `WordLang.Parser.Starts`
    * `WordLang.Parser.Omits`
    * `WordLang.Descent.onward`
    * `WordLang.Descent.ReadsExpr`
    * `WordLang.Descent.FinishesStmt`
    * `WordLang.Descent.ReadsStmt`

  Key theorems include:
    * `WordLang.Descent.follows_onward`
    * `WordLang.Descent.ends_stmtsUntil`
    * `WordLang.Descent.readsStmt_stmt`
-/

namespace WordLang

------------------------------------------------------------
-- Steps of the Parser
------------------------------------------------------------

namespace Reading

/- At the end of input, an expression is closed. -/
theorem step_eof
    {token : Token}
    (r : Reading)
    (t : Locals)
    (hEof : token.isEof = true) :
    r.step t token = (r.close token).map .done := by
  have hKind : token.kind = .eof := by
    simpa [Token.isEof] using hEof
  cases r with
  | operand frames =>
      simp only [step, stepOperand, close, hKind]
      rfl
  | operator frames e =>
      simp only [step, stepOperator, hKind, Kind.operator?]
      cases (operator frames e).close token <;> rfl

end Reading

theorem Purpose.terminator_ne_eof
    (purpose : Purpose) :
    purpose.terminator ≠ .eof := by
  cases purpose <;> simp [terminator]

namespace Parser

variable {p : Parser}
variable {token : Token}

/-
  A statement starts with the token, unless the token ends
  the list of statements.
-/
def Starts
    (p : Parser)
    (token : Token) : Prop :=
  p.pending = [] →
    token.kind ≠ .eof ∧
    (token.kind = .rbrace → p.blocks = [])

theorem Starts.step_boundary
    (hStarts : p.Starts token)
    (t : Locals) :
    ((p.withLocals t).goto .boundary).step token =
      ((p.withLocals t).goto .boundary).stepStmt token := by
  unfold Starts at hStarts
  simp only [step, stepBoundary, goto, withLocals]
  split <;> simp_all

/- The part of a statement starts with any token. -/
theorem starts_push
    (p : Parser)
    (frame : Pending)
    (token : Token) :
    (p.push frame).Starts token :=
  fun hPending => nomatch hPending

/- The same state with further finished statements. -/
def adding
    (p : Parser)
    (body : List Stmt) : Parser :=
  { p with body := body.reverse ++ p.body }

theorem adding_adding
    (p : Parser)
    (body body' : List Stmt) :
    (p.adding body).adding body' =
      p.adding (body ++ body') := by
  simp [adding]

/- A statement in a list is put in its place. -/
theorem stepAfter_settle
    (σ : Stmt)
    (hPending : p.pending = []) :
    p.stepAfter σ token =
      ((p.adding [σ]).goto .boundary).stepBoundary
        token := by
  rcases p with ⟨position, pending, body, blocks, locals⟩
  subst hPending
  unfold stepAfter
  split
  · rename_i hElse
    cases hElse
  · rfl

/-
  A statement that waits is completed, unless an `else` goes
  on with it.
-/
theorem stepAfter_push
    {frame : Pending}
    (p : Parser)
    (σ : Stmt)
    (hElse :
      frame.isThenArm = true → token.kind ≠ .kwElse) :
    (p.push frame).stepAfter σ token =
      p.stepAfter (frame.wrap σ) token := by
  unfold stepAfter
  cases frame with
  | thenArm start predicate =>
      have hOther := hElse rfl
      split
      · contradiction
      · split
        · contradiction
        · rfl
  | elseArm _ _ _ | whileBody _ _ | forBody _ _ _ _ =>
      rfl

/-
  An expression for the purpose can start at the position,
  and it can be left out there.
-/
structure Omits
    (p : Parser)
    (position : Position)
    (purpose : Purpose)
    (next : Option Expr → Parser) : Prop where
  starts :
    ∀ token t,
      token.kind ≠ purpose.terminator →
      ((p.withLocals t).goto position).step token =
        ((p.withLocals t).goto
          (.inExpr purpose .start)).step token
  omitted :
    ∀ token t,
      token.kind = purpose.terminator →
      ((p.withLocals t).goto position).step token =
        .ok ((next none).withLocals t)
  used : ∀ e span, p.used purpose e span = next (some e)

theorem omits_init
    (p : Parser)
    (start : Span) :
    p.Omits (.beforeInit start) (.forInit start)
      (fun i => p.goto (.beforePredicate start i)) where
  starts _ _ hOther := if_neg hOther
  omitted _ _ hKind := if_pos hKind
  used _ _ := rfl

theorem omits_predicate
    (p : Parser)
    (start : Span)
    (i : Option Expr) :
    p.Omits (.beforePredicate start i)
      (.forPredicate start i)
      (fun c => p.goto (.beforeStep start i c)) where
  starts _ _ hOther := if_neg hOther
  omitted _ _ hKind := if_pos hKind
  used _ _ := rfl

theorem omits_step
    (p : Parser)
    (start : Span)
    (i c : Option Expr) :
    p.Omits (.beforeStep start i c) (.forStep start i c)
      (fun n => p.push (.forBody start i c n)) where
  starts _ _ hOther := if_neg hOther
  omitted _ _ hKind := if_pos hKind
  used _ _ := rfl

end Parser

------------------------------------------------------------
-- Reading On
------------------------------------------------------------

namespace Descent

open Reading (Follows)

variable {s : TokenStream}
variable {d : State}
variable {p p' : Parser}
variable {position position' : Position}
variable {passes depth : Nat}

/- What comes of a step at an index. -/
def proceed
    (s : TokenStream)
    (i : Nat)
    (x : Parsed Parser) : Parsed Parser :=
  match x with
  | .error e => .error e
  | .ok p =>
      if (s.peek i).isEof then
        .ok p
      else
        Parser.run s.stop p (s.tokens.drop (i + 1))

/- What comes of reading on from a position. -/
def onward
    (s : TokenStream)
    (p : Parser)
    (position : Position)
    (d : State) : Parsed Parser :=
  Parser.run s.stop ((p.withLocals d.locals).goto position)
    (s.tokens.drop d.index)

theorem onward_eq_proceed :
    onward s p position d =
      proceed s d.index
        (((p.withLocals d.locals).goto position).step
          (s.peek d.index)) := by
  unfold onward
  rcases Nat.lt_or_ge d.index s.tokens.length with
    hInside | hOutside
  · rw [TokenStream.drop_tokens hInside]
    rfl
  · rw [TokenStream.peek_of_le hOutside,
      List.drop_eq_nil_of_le hOutside]
    unfold proceed
    rw [TokenStream.peek_of_le hOutside, s.isEof_stop]
    simp only [Parser.run, if_true]
    split <;> simp_all

/- A token is read. -/
theorem onward_next
    {d' : State}
    (hEof : (s.peek d.index).isEof = false)
    (hIndex : d'.index = d.index + 1)
    (hStep :
      ((p.withLocals d.locals).goto position).step
          (s.peek d.index) =
        .ok ((p'.withLocals d'.locals).goto position')) :
    onward s p position d = onward s p' position' d' := by
  rw [onward_eq_proceed, hStep]
  simp only [proceed, hEof, onward, hIndex]
  rfl

/- A token is not read. -/
theorem onward_error
    {e : Located ParseError}
    (hStep :
      ((p.withLocals d.locals).goto position).step
          (s.peek d.index) = .error e) :
    onward s p position d = .error e := by
  rw [onward_eq_proceed, hStep]
  rfl

/- Two states that the next token makes one. -/
theorem onward_congr
    (hStep :
      ((p.withLocals d.locals).goto position).step
          (s.peek d.index) =
        ((p'.withLocals d.locals).goto position').step
          (s.peek d.index)) :
    onward s p position d = onward s p' position' d := by
  rw [onward_eq_proceed, onward_eq_proceed, hStep]

/- Reading on inside an expression. -/
theorem follows_onward
    (p : Parser)
    (purpose : Purpose) :
    Follows s
      (fun r t i => onward s p (.inExpr purpose r) ⟨i, t⟩)
      (fun e t i =>
        proceed s i
          ((p.withLocals t).useExpr purpose e
            (s.peek i))) := by
  intro r t i
  have hUse (e : Expr) (token : Token) :
      ((p.withLocals t).goto (.inExpr purpose r)).useExpr
          purpose e token =
        (p.withLocals t).useExpr purpose e token := by
    cases purpose <;> rfl
  refine onward_eq_proceed.trans ?_
  show proceed s i
      (((p.withLocals t).goto
        (.inExpr purpose r)).stepExpr purpose r
          (s.peek i)) = _
  unfold Parser.stepExpr
  cases hStep : r.step t (s.peek i) with
  | error e =>
      simp only [Parser.withLocals, Parser.goto, hStep]
      rfl
  | ok step =>
      cases step with
      | done e =>
          simp only [← hUse]
          simp only [Parser.withLocals, Parser.goto, hStep]
      | more r' t' =>
          -- No expression goes on with the end of input.
          have hEof : (s.peek i).isEof = false := by
            cases hEof : (s.peek i).isEof with
            | false => rfl
            | true =>
                rw [Reading.step_eof r t hEof] at hStep
                cases hClose : r.close (s.peek i) <;>
                  rw [hClose] at hStep <;>
                  cases hStep
          simp only [Parser.withLocals, Parser.goto, hStep,
            proceed, hEof]
          rfl

/- Reading on up to the end of input. -/
theorem follows_run :
    Follows s
      (fun r t i =>
        Reading.run s.stop r t (s.tokens.drop i))
      (fun e t i =>
        if (s.peek i).isEof then
          .ok (e, t)
        else
          .error
            ⟨.mismatch (s.peek i).kind .eof,
              (s.peek i).span⟩) := by
  intro r t i
  cases hEof : (s.peek i).isEof with
  | true =>
      have hRun :
          Reading.run s.stop r t (s.tokens.drop i) =
            (do return (← r.close (s.peek i), t)) := by
        rcases Nat.lt_or_ge i s.tokens.length with
          hInside | hOutside
        · rw [TokenStream.drop_tokens hInside, Reading.run,
            hEof]
          rfl
        · rw [List.drop_eq_nil_of_le hOutside,
            TokenStream.peek_of_le hOutside]
          rfl
      refine hRun.trans ?_
      rw [Reading.step_eof r t hEof]
      cases r.close (s.peek i) with
      | error e => rfl
      | ok e => simp only [hEof]; rfl
  | false =>
      have hInside : i < s.tokens.length := by
        rcases Nat.lt_or_ge i s.tokens.length with
          hInside | hOutside
        · exact hInside
        · rw [TokenStream.peek_of_le hOutside,
            s.isEof_stop] at hEof
          cases hEof
      simp only [TokenStream.drop_tokens hInside,
        Reading.run, hEof]
      rfl

------------------------------------------------------------
-- Expressions in Statements
------------------------------------------------------------

/- The call reads an expression, whatever it is for. -/
def ReadsExpr
    (s : TokenStream)
    (passes depth : Nat)
    (x : Call Expr) : Prop :=
  ∀ p purpose,
    ReadsOperand s
      (fun r t i => onward s p (.inExpr purpose r) ⟨i, t⟩)
      passes depth 0 x

theorem readsExpr_expr :
    ReadsExpr s passes depth (expr s passes depth) :=
  fun p purpose =>
    readsOperand_expr (follows_onward p purpose)

section Exprs

variable {α : Type}
variable {onOk : α → State → Prop}
variable {onError : Located ParseError → Prop}
variable {onSpent : Prop}
variable {x : Call Expr}

/- An expression is read up to its terminator. -/
theorem ends_terminated
    {f : Expr → Token → Call α}
    (p : Parser)
    (purpose : Purpose)
    (hExpr : ReadsExpr s passes depth x)
    (hIndex : d.index ≤ s.firstEof)
    (hTaken :
      ∀ (e : Expr) (d' : State),
        Moves s d d'.next →
        onward s p (.inExpr purpose .start) d =
          onward s
            (p.used purpose e (s.peek d'.index).span)
            (p.used purpose e
              (s.peek d'.index).span).position
            d'.next →
        (f e (s.peek d'.index)).Ends d'.next onOk onError
          onSpent)
    (hRefused :
      ∀ error,
        onward s p (.inExpr purpose .start) d =
          .error error →
        onError error)
    (hSpent : Short s passes depth d → onSpent) :
    (x >>= fun e =>
      expect s purpose.terminator >>= f e).Ends d
      onOk onError onSpent := by
  have hEof := purpose.terminator_ne_eof
  have hWaits : Waits [] 0 := ⟨Frame.stops_nil, rfl⟩
  refine (hExpr p purpose d hIndex).bind ?_ hSpent ?_
  · intro error hError
    exact hRefused error (hError [] hWaits)
  · intro e d' hOperand
    have hResumes := hOperand.resumes [] hWaits
    have hDone :=
      Reading.step_complete d'.locals e hOperand.closes
    apply ends_expect hEof
    · intro hKind
      have hToken := isEof_eq_false hKind hEof
      apply hTaken e d'
        (hOperand.moves.trans
          (moves_next hOperand.moves.barrier hToken))
      refine hResumes.trans (onward_next hToken rfl ?_)
      have hUse :=
        (p.withLocals d'.locals).useExpr_eq_used e
          ⟨s.peek d'.index, hKind⟩
      simp only [Parser.step, Parser.goto, Parser.stepExpr,
        Parser.withLocals, hDone]
      cases purpose <;> exact hUse
    · intro hKind
      apply hRefused
      refine hResumes.trans (onward_error ?_)
      simp only [Parser.step, Parser.goto, Parser.stepExpr,
        Parser.withLocals, hDone, Parser.useExpr,
        Token.expect, hKind]
      rfl

end Exprs

------------------------------------------------------------
-- Statements
------------------------------------------------------------

/- A statement was read, and the parser stands behind it. -/
structure StmtTaken
    (s : TokenStream)
    (p : Parser)
    (d : State)
    (σ : Stmt)
    (d' : State) : Prop where
  moves : Moves s d d'
  resumes :
    onward s p .boundary d = onward s p (.afterStmt σ) d'

/-
  The call goes on at `d₁` with a statement that starts at
  `d`, and the parser does the same.
-/
def FinishesStmt
    (s : TokenStream)
    (passes depth : Nat)
    (p : Parser)
    (d d₁ : State)
    (x : Call Stmt) : Prop :=
  x.Ends d₁ (StmtTaken s p d)
    (fun error => onward s p .boundary d = .error error)
    (Short s passes depth d)

/-
  The call reads a statement, wherever the parser takes the
  current token for the start of one.
-/
def ReadsStmt
    (s : TokenStream)
    (passes depth : Nat)
    (x : Call Stmt) : Prop :=
  ∀ p d,
    d.index ≤ s.firstEof →
    p.Starts (s.peek d.index) →
    FinishesStmt s passes depth p d d x

/- A statement completes the one that waits for it. -/
theorem onward_wrap
    {frame : Pending}
    {σ : Stmt}
    (hElse :
      frame.isThenArm = true →
      (s.peek d.index).kind ≠ .kwElse) :
    onward s (p.push frame) (.afterStmt σ) d =
      onward s p (.afterStmt (frame.wrap σ)) d :=
  onward_congr
    (Parser.stepAfter_push (p.withLocals d.locals) σ hElse)

section Parts

variable {x : Call Expr}
variable {inner : Call Stmt}

/- The part of a statement that waits for it is read. -/
theorem finishes_bind
    {d₁ : State}
    {f : Stmt → Call Stmt}
    (frame : Pending)
    (hInner : ReadsStmt s passes depth inner)
    (hMoves : Moves s d d₁)
    (hOnward :
      onward s p .boundary d =
        onward s (p.push frame) .boundary d₁)
    (hNext :
      ∀ σ d',
        Moves s d d' →
        onward s p .boundary d =
          onward s (p.push frame) (.afterStmt σ) d' →
        FinishesStmt s passes (depth + 1) p d d' (f σ)) :
    FinishesStmt s passes (depth + 1) p d d₁
      (inner >>= f) := by
  have hStarts := p.starts_push frame (s.peek d₁.index)
  refine (hInner _ d₁ hMoves.barrier hStarts).bind ?_ ?_ ?_
  · intro error hError
    exact hOnward.trans hError
  · intro hShort
    exact hShort.of_moves hMoves
  · intro σ d' hTaken
    exact hNext σ d' (hMoves.trans hTaken.moves)
      (hOnward.trans hTaken.resumes)

/- The last part of a statement completes it. -/
theorem finishes_last
    {d₁ : State}
    {f : Stmt → Stmt}
    (frame : Pending)
    (hInner : ReadsStmt s passes depth inner)
    (hMoves : Moves s d d₁)
    (hOnward :
      onward s p .boundary d =
        onward s (p.push frame) .boundary d₁)
    (hFrame : frame.isThenArm = false)
    (hWrap : ∀ σ, f σ = frame.wrap σ) :
    FinishesStmt s passes (depth + 1) p d d₁
      (inner >>= fun σ => pure (f σ)) := by
  apply finishes_bind frame hInner hMoves hOnward
  intro σ d' hMoves' hOnward'
  refine Call.ends_pure.mpr ⟨hMoves', ?_⟩
  rw [hOnward', hWrap]
  apply onward_wrap
  intro hThen
  rw [hFrame] at hThen
  cases hThen

theorem onward_settle
    {σ : Stmt}
    (hPending : p.pending = []) :
    onward s p (.afterStmt σ) d =
      onward s (p.adding [σ]) .boundary d :=
  onward_congr (Parser.stepAfter_settle σ hPending)

/- The statements of a list are read one by one. -/
theorem ends_stmtsUntil
    {kinds : List Kind}
    (hInner : ReadsStmt s passes depth inner)
    (n : Nat)
    (hIndex : d.index ≤ s.firstEof)
    (hPending : p.pending = [])
    (hKinds : .rbrace ∈ kinds ∨ p.blocks = []) :
    (stmtsUntil s kinds inner n).Ends d
      (fun body d' =>
        d.index ≤ d'.index ∧
        d'.index ≤ s.firstEof ∧
        ((s.peek d'.index).kind ∈ kinds ∨
          (s.peek d'.index).isEof = true) ∧
        onward s p .boundary d =
          onward s (p.adding body) .boundary d')
      (fun error => onward s p .boundary d = .error error)
      (n < s.firstEof - d.index ∨
        Short s passes depth d) := by
  induction n generalizing p d with
  | zero =>
      rw [stmtsUntil, ends_look]
      split
      · rename_i hEnd
        exact ⟨Nat.le_refl _, hIndex, hEnd, rfl⟩
      · rename_i hEnd
        rcases not_or.mp hEnd with ⟨-, hEof⟩
        have hLt :=
          TokenStream.lt_firstEof hIndex
            (Bool.eq_false_of_not_eq_true hEof)
        exact .inl (by omega)
  | succ n ih =>
      rw [stmtsUntil, ends_look]
      split
      · rename_i hEnd
        exact ⟨Nat.le_refl _, hIndex, hEnd, rfl⟩
      · rename_i hEnd
        rcases not_or.mp hEnd with ⟨hOther, hEof⟩
        have hStarts : p.Starts (s.peek d.index) := by
          intro _
          refine ⟨?_, ?_⟩
          · intro hKind
            exact hEof (by simp [Token.isEof, hKind])
          · intro hKind
            rw [hKind] at hOther
            exact hKinds.resolve_left hOther
        refine (hInner p d hIndex hStarts).bind
          (fun _ => id) .inr ?_
        intro σ d₁ hTaken
        -- The token behind the statement puts it in its
        -- place, since nothing in the list waits for it.
        have hForward := hTaken.moves.forward
        have hFirst :
            onward s p .boundary d =
              onward s (p.adding [σ]) .boundary d₁ :=
          hTaken.resumes.trans (onward_settle hPending)
        refine (ih (p := p.adding [σ]) hTaken.moves.barrier
          hPending hKinds).bind ?_ ?_ ?_
        · intro error hError
          exact hFirst.trans hError
        · rintro (hPasses | hShort)
          · exact .inl (by omega)
          · exact .inr (hShort.mono (by omega))
        · rintro body d' ⟨hLe, hBarrier, hEnd', hRest⟩
          refine Call.ends_pure.mpr
            ⟨by omega, hBarrier, hEnd', ?_⟩
          rw [hFirst, hRest, Parser.adding_adding]
          rfl

------------------------------------------------------------
-- Heads of Statements
------------------------------------------------------------

section Heads

variable {d₁ : State}

/- The first token of a statement is read. -/
theorem finishes_advance
    {y : Call Stmt}
    (p' : Parser)
    (position' : Position)
    (hIndex : d.index ≤ s.firstEof)
    (hStarts : p.Starts (s.peek d.index))
    (hEof : (s.peek d.index).isEof = false)
    (hStep :
      ((p.withLocals d.locals).goto .boundary).stepStmt
          (s.peek d.index) =
        .ok ((p'.withLocals d.locals).goto position'))
    (hRest :
      Moves s d d.next →
      onward s p .boundary d =
        onward s p' position' d.next →
      FinishesStmt s passes depth p d d.next y) :
    FinishesStmt s passes depth p d d
      (advance s >>= fun _ => y) := by
  have hBoundary := hStarts.step_boundary d.locals
  unfold FinishesStmt
  rw [ends_advance hEof]
  exact hRest (moves_next hIndex hEof)
    (onward_next hEof rfl (hBoundary.trans hStep))

/- A predicate is read with its parentheses. -/
theorem finishes_parenthesized
    {head : Head}
    {start : Span}
    {f : Expr → Call Stmt}
    (purpose : Purpose)
    (hNext : head.next start = .inExpr purpose .start)
    (hTerminator : purpose.terminator = .rparen)
    (hExpr : ReadsExpr s passes depth x)
    (hMoves : Moves s d d₁)
    (hOnward :
      onward s p .boundary d =
        onward s p (.beforeHead head start) d₁)
    (hRest :
      ∀ e span d',
        Moves s d d' →
        onward s p .boundary d =
          onward s (p.used purpose e span)
            (p.used purpose e span).position d' →
        FinishesStmt s passes depth p d d' (f e)) :
    FinishesStmt s passes depth p d d₁
      (parenthesized s x >>= f) := by
  unfold FinishesStmt
  rw [Call.ends_bind, parenthesized]
  apply ends_expect (by decide)
  · intro hKind
    have hToken := isEof_eq_false hKind (by decide)
    have hOpen := hMoves.trans
      (moves_next hMoves.barrier hToken)
    have hInside :
        onward s p .boundary d =
          onward s p (.inExpr purpose .start) d₁.next := by
      refine hOnward.trans (onward_next hToken rfl ?_)
      rw [← hNext]
      cases head <;>
        simp only [Parser.step, Parser.goto, Token.expect,
          hKind] <;>
        rfl
    rw [← hTerminator]
    apply ends_terminated p purpose hExpr hOpen.barrier
    · intro e d' hMoves' hUsed
      exact hRest e _ d'.next (hOpen.trans hMoves')
        (hInside.trans hUsed)
    · intro error hError
      exact hInside.trans hError
    · intro hShort
      exact hShort.mono (Nat.le_of_lt hOpen.forward)
  · intro hKind
    refine hOnward.trans (onward_error ?_)
    simp only [Parser.step, Parser.goto, Token.expect, hKind]
    rfl

/- An expression that may be left out is read. -/
theorem finishes_optional
    {p₁ : Parser}
    {purpose : Purpose}
    {next : Option Expr → Parser}
    {f : Option Expr → Call Stmt}
    (hOmits : p₁.Omits position purpose next)
    (hExpr : ReadsExpr s passes depth x)
    (hMoves : Moves s d d₁)
    (hOnward :
      onward s p .boundary d = onward s p₁ position d₁)
    (hRest :
      ∀ o d',
        Moves s d d' →
        onward s p .boundary d =
          onward s (next o) (next o).position d' →
        FinishesStmt s passes depth p d d' (f o)) :
    FinishesStmt s passes depth p d d₁
      (exprUntil s x purpose.terminator >>= fun o =>
        expect s purpose.terminator >>= fun _ => f o) := by
  have hEof := purpose.terminator_ne_eof
  unfold FinishesStmt
  rw [Call.ends_bind, exprUntil, ends_look]
  by_cases hKind :
      (s.peek d₁.index).kind = purpose.terminator
  · rw [if_pos hKind]
    have hToken := isEof_eq_false hKind hEof
    apply ends_expect hEof
    · intro _
      apply hRest none d₁.next
        (hMoves.trans (moves_next hMoves.barrier hToken))
      exact hOnward.trans
        (onward_next hToken rfl (hOmits.omitted _ _ hKind))
    · intro hOther
      exact absurd hKind hOther
  · rw [if_neg hKind]
    have hInside :
        onward s p .boundary d =
          onward s p₁ (.inExpr purpose .start) d₁ :=
      hOnward.trans (onward_congr (hOmits.starts _ _ hKind))
    have hEnds :
        FinishesStmt s passes depth p d d₁
          (x >>= fun e =>
            expect s purpose.terminator >>= fun _ =>
              f (some e)) := by
      apply ends_terminated p₁ purpose hExpr hMoves.barrier
      · intro e d' hMoves' hUsed
        rw [hOmits.used] at hUsed
        exact hRest (some e) d'.next (hMoves.trans hMoves')
          (hInside.trans hUsed)
      · intro error hError
        exact hInside.trans hError
      · intro hShort
        exact hShort.mono (Nat.le_of_lt hMoves.forward)
    unfold FinishesStmt at hEnds
    rw [Call.ends_bind] at hEnds ⊢
    exact hEnds

end Heads

------------------------------------------------------------
-- Forms of Statements
------------------------------------------------------------

section Forms

variable (hIndex : d.index ≤ s.firstEof)
variable (hStarts : p.Starts (s.peek d.index))

include hIndex hStarts

/- The returned value is read up to its semicolon. -/
theorem finishes_retForm
    (hExpr : ReadsExpr s passes depth x)
    (hKind : (s.peek d.index).kind = .kwReturn) :
    FinishesStmt s passes depth p d d
      (retForm s (s.peek d.index).span x) := by
  let start := (s.peek d.index).span
  apply finishes_advance p (.inExpr (.retValue start) .start)
    hIndex hStarts (isEof_eq_false hKind (by decide))
  · simp only [Parser.stepStmt, hKind]
    rfl
  · intro hNext hOpen
    apply ends_terminated p (.retValue start) hExpr
      hNext.barrier
    · intro e d' hMoves hOnward
      exact ⟨hNext.trans hMoves, hOpen.trans hOnward⟩
    · intro error hError
      exact hOpen.trans hError
    · intro hShort
      exact hShort.mono (Nat.le_of_lt hNext.forward)

/- The arms of a branch are read. -/
theorem finishes_ifForm
    (hExpr : ReadsExpr s passes (depth + 1) x)
    (hInner : ReadsStmt s passes depth inner)
    (hKind : (s.peek d.index).kind = .kwIf) :
    FinishesStmt s passes (depth + 1) p d d
      (ifForm s (s.peek d.index).span x inner) := by
  let start := (s.peek d.index).span
  apply finishes_advance p (.beforeHead .ifHead start)
    hIndex hStarts (isEof_eq_false hKind (by decide))
  · simp only [Parser.stepStmt, hKind]
    rfl
  · intro hNext hOpen
    apply finishes_parenthesized (.ifPredicate start) rfl rfl
      hExpr hNext hOpen
    intro e span d₁ hMoves hArm
    apply finishes_bind (.thenArm start e) hInner hMoves hArm
    intro σ d₂ hBoth hThen
    -- An `else` that is still there belongs to this branch:
    -- the arm would have taken it for one of its own.
    apply ends_take (by decide)
    · intro hElse
      have hToken := isEof_eq_false hElse (by decide)
      have hLast := moves_next hBoth.barrier hToken
      apply finishes_last (.elseArm start e σ) hInner
        (hBoth.trans hLast) ?_ rfl (fun _ => rfl)
      refine hThen.trans (onward_next hToken rfl ?_)
      simp only [Parser.step, Parser.goto, Parser.stepAfter,
        hElse]
      rfl
    · intro hElse
      refine Call.ends_pure.mpr ⟨hBoth, ?_⟩
      exact hThen.trans (onward_wrap (fun _ => hElse))

/- The body of a loop is read. -/
theorem finishes_whileForm
    (hExpr : ReadsExpr s passes (depth + 1) x)
    (hInner : ReadsStmt s passes depth inner)
    (hKind : (s.peek d.index).kind = .kwWhile) :
    FinishesStmt s passes (depth + 1) p d d
      (whileForm s (s.peek d.index).span x inner) := by
  let start := (s.peek d.index).span
  apply finishes_advance p (.beforeHead .whileHead start)
    hIndex hStarts (isEof_eq_false hKind (by decide))
  · simp only [Parser.stepStmt, hKind]
    rfl
  · intro hNext hOpen
    apply finishes_parenthesized (.whilePredicate start) rfl
      rfl hExpr hNext hOpen
    intro e span d₁ hMoves hBody
    exact finishes_last (.whileBody start e) hInner hMoves
      hBody rfl (fun _ => rfl)

/- The parts of the head are read, and then the body. -/
theorem finishes_forForm
    (hExpr : ReadsExpr s passes (depth + 1) x)
    (hInner : ReadsStmt s passes depth inner)
    (hKind : (s.peek d.index).kind = .kwFor) :
    FinishesStmt s passes (depth + 1) p d d
      (forForm s (s.peek d.index).span x inner) := by
  let start := (s.peek d.index).span
  apply finishes_advance p (.beforeHead .forHead start)
    hIndex hStarts (isEof_eq_false hKind (by decide))
  · simp only [Parser.stepStmt, hKind]
    rfl
  · intro hNext hOpen
    apply ends_expect (by decide)
    · intro hParen
      have hToken := isEof_eq_false hParen (by decide)
      have hMoves :=
        hNext.trans (moves_next hNext.barrier hToken)
      have hInside :
          onward s p .boundary d =
            onward s p (.beforeInit start) d.next.next := by
        refine hOpen.trans (onward_next hToken rfl ?_)
        simp only [Parser.step, Parser.goto, Token.expect,
          hParen]
        rfl
      apply finishes_optional (p.omits_init start) hExpr
        hMoves hInside
      intro i d₁ hMoves₁ hFirst
      apply finishes_optional
        (Parser.omits_predicate _ start i) hExpr
        hMoves₁ hFirst
      intro c d₂ hMoves₂ hSecond
      apply finishes_optional (Parser.omits_step _ start i c)
        hExpr hMoves₂ hSecond
      intro n d₃ hMoves₃ hThird
      exact finishes_last (.forBody start i c n) hInner
        hMoves₃ hThird rfl (fun _ => rfl)
    · intro hParen
      refine hOpen.trans (onward_error ?_)
      simp only [Parser.step, Parser.goto, Token.expect,
        hParen]
      rfl

/- The statements of a block are read up to its brace. -/
theorem finishes_blockForm
    (hInner : ReadsStmt s passes depth inner)
    (hKind : (s.peek d.index).kind = .lbrace) :
    FinishesStmt s passes (depth + 1) p d d
      (blockForm s passes (s.peek d.index).span inner) := by
  let start := (s.peek d.index).span
  apply finishes_advance (p.enterBlock start) .boundary
    hIndex hStarts (isEof_eq_false hKind (by decide))
  · simp only [Parser.stepStmt, hKind]
    rfl
  · intro hNext hOpen
    have hForward := hNext.forward
    have hBarrier := hNext.barrier
    refine (ends_stmtsUntil (p := p.enterBlock start) hInner
      passes hNext.barrier rfl
      (.inl List.mem_cons_self)).bind ?_ ?_ ?_
    · intro error hError
      exact hOpen.trans hError
    · rintro (hPasses | hShort)
      · exact .inl (by omega)
      · exact hShort.of_moves hNext
    · rintro body d₁ ⟨hLe, hBarrier₁, hEnd, hBody⟩
      have hMoves := hNext.trans_le hLe hBarrier₁
      apply ends_expect (by decide)
      · intro hBrace
        have hToken := isEof_eq_false hBrace (by decide)
        refine Call.ends_pure.mpr
          ⟨hMoves.trans (moves_next hBarrier₁ hToken), ?_⟩
        refine (hOpen.trans hBody).trans
          (onward_next hToken rfl ?_)
        simp only [Parser.step, Parser.stepBoundary,
          Parser.adding, Parser.enterBlock,
          Parser.withLocals, Parser.goto, hBrace,
          List.append_nil, List.reverse_reverse]
        rfl
      · intro hBrace
        have hEof : (s.peek d₁.index).kind = .eof := by
          simpa [hBrace, Token.isEof] using hEnd
        refine (hOpen.trans hBody).trans (onward_error ?_)
        simp only [Parser.step, Parser.stepBoundary,
          Parser.adding, Parser.enterBlock,
          Parser.withLocals, Parser.goto, hEof]

/- An expression is read up to its semicolon. -/
theorem finishes_exprForm
    (hExpr : ReadsExpr s passes depth x)
    (hForm :
      ∀ q : Parser,
        q.stepStmt (s.peek d.index) =
          q.stepExpr (.exprStmt (s.peek d.index).span) .start
            (s.peek d.index)) :
    FinishesStmt s passes depth p d d
      (exprForm s (s.peek d.index).span x) := by
  let start := (s.peek d.index).span
  have hInside :
      onward s p .boundary d =
        onward s p (.inExpr (.exprStmt start) .start) d := by
    have hBoundary := hStarts.step_boundary d.locals
    exact onward_congr (hBoundary.trans (hForm _))
  apply ends_terminated p (.exprStmt start) hExpr hIndex
  · intro e d' hMoves hOnward
    exact ⟨hMoves, hInside.trans hOnward⟩
  · intro error hError
    exact hInside.trans hError
  · exact id

end Forms

/- A statement of any form is read. -/
theorem readsStmt_stmtOf
    (hExpr : ReadsExpr s passes (depth + 1) x)
    (hInner : ReadsStmt s passes depth inner) :
    ReadsStmt s passes (depth + 1)
      (stmtOf s passes x inner) := by
  intro p d hIndex hStarts
  unfold FinishesStmt stmtOf
  rw [ends_look]
  split
  · rename_i hKind
    exact finishes_retForm hIndex hStarts hExpr hKind
  · rename_i hKind
    exact finishes_ifForm hIndex hStarts hExpr hInner hKind
  · rename_i hKind
    exact finishes_whileForm hIndex hStarts hExpr hInner
      hKind
  · rename_i hKind
    exact finishes_forForm hIndex hStarts hExpr hInner hKind
  · rename_i hKind
    exact finishes_blockForm hIndex hStarts hInner hKind
  · rename_i hReturn hIf hWhile hFor hBrace
    apply finishes_exprForm hIndex hStarts hExpr
    intro q
    unfold Parser.stepStmt
    split <;> first | contradiction | rfl

end Parts

/- A statement is read, however deeply it is nested. -/
theorem readsStmt_stmt :
    ReadsStmt s passes depth (stmt s passes depth) := by
  induction depth with
  | zero =>
      intro p d _ _
      exact .inr (Nat.zero_le _)
  | succ depth ih =>
      exact readsStmt_stmtOf readsExpr_expr ih

end Descent

end WordLang
