import WordLang.Proofs.ParserSafety

/-
  This file erases regions and renames variables.

  A state of the parser without its regions, and with other
  names for its variables, is again a state of the parser.
  Reading a token and then erasing is the same as erasing
  first, as long as the new names are as different as the
  old ones. So what is read does not depend on the regions,
  and names only take part in being the same or not.

  Key definitions include:
    * `WordLang.Token.bare`
    * `WordLang.Locals.rename`
    * `WordLang.Reading.bare`
    * `WordLang.Parser.bare`
    * `WordLang.Program.bare`
    * `WordLang.Parsed.bare`

  Key theorems include:
    * `WordLang.Locals.resolve_rename`
    * `WordLang.Reading.step_bare`
    * `WordLang.Parser.step_bare`
    * `WordLang.Program.parse_bare`
-/

namespace WordLang

------------------------------------------------------------
-- Regions
------------------------------------------------------------

theorem Span.through_nowhere :
    Span.nowhere.through .nowhere = .nowhere := by
  decide

namespace Expr

@[simp] theorem span_bare
    (e : Expr) :
    e.bare.span = .nowhere := by
  cases e <;> rfl

@[simp] theorem respan_bare
    (e : Expr) :
    e.bare.respan .nowhere = e.bare := by
  cases e <;> rfl

@[simp] theorem join_bare
    (op : BinOp)
    (lhs rhs : Expr) :
    join op lhs.bare rhs.bare = (join op lhs rhs).bare := by
  simp [join, bare, Span.through_nowhere]

@[simp] theorem store_bare
    (target value : Expr) :
    store target.bare value.bare =
      (store target value).bare := by
  simp [store, bare, Span.through_nowhere]

end Expr

@[simp] theorem Operator.apply_bare
    (o : Operator)
    (lhs rhs : Expr) :
    o.apply lhs.bare rhs.bare = (o.apply lhs rhs).bare := by
  unfold apply
  split
  · simp [Expr.bare, Span.through_nowhere]
  · exact Expr.join_bare o.op lhs rhs

@[simp] theorem Stmt.span_bare
    (s : Stmt) :
    s.bare.span = .nowhere := by
  cases s <;> rfl

/- An error without its region. -/
def Located.bare
    (e : Located ParseError) : Located ParseError :=
  ⟨e.value, .nowhere⟩

/- An answer whose regions have been erased. -/
def Parsed.bare
    {α β : Type}
    (erase : α → β) :
    Parsed α → Parsed β
| .ok a => .ok (erase a)
| .error e => .error e.bare

------------------------------------------------------------
-- Names
------------------------------------------------------------

/- Names that do not become the same. -/
def KeepsApart
    (f : String → String)
    (names : List String) : Prop :=
  ∀ m ∈ names, ∀ n ∈ names, f m = f n → m = n

instance
    (f : String → String)
    (names : List String) :
    Decidable (KeepsApart f names) := by
  unfold KeepsApart
  infer_instance

namespace Locals

/- The table with other names. -/
def rename
    (f : String → String)
    (t : Locals) : Locals :=
  ⟨t.names.map f⟩

/- No variable of the table gets the new name of another. -/
def Distinguishes
    (f : String → String)
    (t : Locals)
    (name : String) : Prop :=
  ∀ other ∈ t.names, f other = f name → other = name

variable {f : String → String}

/- A renamed variable keeps its offset. -/
theorem offset?_rename
    {t : Locals}
    {name : String}
    (hDistinct : t.Distinguishes f name) :
    (t.rename f).offset? (f name) = t.offset? name := by
  unfold offset? rename
  congr 1
  unfold List.idxOf?
  rw [List.findIdx?_map]
  rcases t with ⟨names⟩
  induction names with
  | nil =>
      rfl
  | cons other names ih =>
      rcases List.forall_mem_cons.mp hDistinct with
        ⟨hFirst, hRest⟩
      have hSame : (f other == f name) = (other == name) := by
        rw [Bool.eq_iff_iff, beq_iff_eq, beq_iff_eq]
        exact ⟨hFirst, congrArg f⟩
      rw [List.findIdx?_cons, List.findIdx?_cons,
        ih hRest, Function.comp_apply, hSame]

/- A name is resolved alike under another name. -/
theorem resolve_rename
    {t : Locals}
    {name : String}
    (hDistinct : t.Distinguishes f name) :
    (t.rename f).resolve (f name) =
      ((t.resolve name).1, (t.resolve name).2.rename f) := by
  unfold resolve
  rw [offset?_rename hDistinct]
  split
  · rfl
  · simp [rename, size]

end Locals

/-
  A token without its region. Its lexeme is left only where
  it matters, and names are changed.
-/
def Token.bare
    (f : String → String)
    (t : Token) : Token where
  kind := t.kind
  lexeme :=
    match t.kind with
    | .number => t.lexeme
    | .identifier => f t.lexeme
    | _ => ""
  span := .nowhere

------------------------------------------------------------
-- Expressions
------------------------------------------------------------

/- What is open, without regions. -/
def Frame.bare : Frame → Frame
| sign negative _ => sign negative .nowhere
| paren _ => paren .nowhere
| binary o lhs => binary o lhs.bare
| assign target => assign target.bare

/- A collapse does not depend on regions. -/
theorem Frame.collapse_bare
    (power : Nat)
    (frames : List Frame)
    (e : Expr) :
    collapse power (frames.map bare) e.bare =
      ((collapse power frames e).1.bare,
        (collapse power frames e).2.map bare) := by
  fun_induction collapse power frames e with
  | case1 e o lhs rest hPower ih =>
      rw [← ih]
      simp [bare, collapse, hPower]
  | case2 e o lhs rest hPower =>
      simp [bare, collapse, hPower]
  | case3 e target rest hZero ih =>
      rw [← ih]
      simp [bare, collapse, hZero]
  | case4 e target rest hPower =>
      simp [bare, collapse, hPower]
  | case5 frames e hBinary hAssign =>
      cases frames with
      | nil =>
          rfl
      | cons g rest =>
          cases g with
          | sign _ _ | paren _ =>
              rfl
          | binary o lhs =>
              exact (hBinary o lhs rest rfl).elim
          | assign target =>
              exact (hAssign target rest rfl).elim

namespace Reading

/- The state of a reader, without regions. -/
def bare : Reading → Reading
| operand frames => operand (frames.map Frame.bare)
| operator frames e =>
    operator (frames.map Frame.bare) e.bare

/- A finished operand takes its sign without regions. -/
theorem ofPrimary_bare
    (frames : List Frame)
    (e : Expr) :
    ofPrimary (frames.map Frame.bare) e.bare =
      (ofPrimary frames e).bare := by
  match frames with
  | .sign true s :: rest =>
      exact congrArg (operator _)
        (Expr.join_bare .sub (.int 0 s) e)
  | .sign false s :: rest =>
      simp [ofPrimary, bare, Frame.bare, Expr.bare_respan,
        Span.through_nowhere]
  | [] | .paren _ :: _ | .binary _ _ :: _
  | .assign _ :: _ =>
      rfl

/- What a token does to a reader, without regions. -/
def Step.bare
    (f : String → String) :
    Step → Step
| more r locals => more r.bare (locals.rename f)
| done e => done e.bare

variable {f : String → String}
variable (t : Token)

/- An expression ends without regions as with them. -/
theorem close_bare
    (r : Reading) :
    r.bare.close (t.bare f) =
      Parsed.bare Expr.bare (r.close t) := by
  cases r with
  | operand frames =>
      rfl
  | operator frames e =>
      simp only [bare, close, Frame.collapse_bare]
      generalize Frame.collapse 0 frames e = a
      rcases a with ⟨e', frames'⟩
      cases frames' with
      | nil =>
          rfl
      | cons g rest =>
          cases g <;> rfl

/- The start of an operand is read without regions. -/
theorem stepOperand_bare
    (frames : List Frame)
    {locals : Locals}
    (hNames :
      t.kind = .identifier →
      locals.Distinguishes f t.lexeme) :
    stepOperand (frames.map Frame.bare) (locals.rename f)
        (t.bare f) =
      Parsed.bare (Step.bare f)
        (stepOperand frames locals t) := by
  have hKind : (t.bare f).kind = t.kind := rfl
  have hSpan : (t.bare f).span = .nowhere := rfl
  unfold stepOperand
  rw [hKind, hSpan]
  cases hCase : t.kind with
  | number =>
      have hLexeme : (t.bare f).lexeme = t.lexeme := by
        simp [Token.bare, hCase]
      simp only [hLexeme]
      cases Literal.read? t.lexeme with
      | none =>
          rfl
      | some value =>
          simp only [Parsed.bare, Step.bare,
            ← ofPrimary_bare, Expr.bare]
  | identifier =>
      have hLexeme : (t.bare f).lexeme = f t.lexeme := by
        simp [Token.bare, hCase]
      simp only [hLexeme, Parsed.bare, Step.bare,
        Locals.resolve_rename (hNames hCase),
        ← ofPrimary_bare, Expr.bare]
  | plus | minus =>
      cases frames with
      | nil =>
          rfl
      | cons g rest =>
          cases g <;> rfl
  | _ =>
      rfl

/- A token after an operand is read without regions. -/
theorem stepOperator_bare
    (frames : List Frame)
    (e : Expr)
    (locals : Locals) :
    stepOperator (frames.map Frame.bare) e.bare
        (locals.rename f) (t.bare f) =
      Parsed.bare (Step.bare f)
        (stepOperator frames e locals t) := by
  have hKind : (t.bare f).kind = t.kind := rfl
  have hSpan : (t.bare f).span = .nowhere := rfl
  have hClose := close_bare (f := f) t (operator frames e)
  unfold stepOperator
  rw [hKind, hSpan]
  simp only [Frame.collapse_bare, Expr.isVar_bare]
  split
  · rfl
  · split
    · rfl
    · simp [Parsed.bare, Located.bare]
  · generalize Frame.collapse 0 frames e = a
    rcases a with ⟨e', frames'⟩
    match frames' with
    | .paren s :: rest =>
        simp only [List.map_cons, Frame.bare, Parsed.bare,
          Step.bare, ← ofPrimary_bare, Expr.bare_respan,
          Span.through_nowhere]
        simp
    | [] | .sign _ _ :: _ | .binary _ _ :: _
    | .assign _ :: _ =>
        rfl
  · rw [bare] at hClose
    rw [hClose]
    cases (operator frames e).close t <;> rfl

/- A token is read without regions. -/
theorem step_bare
    (r : Reading)
    {locals : Locals}
    (hNames :
      t.kind = .identifier →
      locals.Distinguishes f t.lexeme) :
    r.bare.step (locals.rename f) (t.bare f) =
      Parsed.bare (Step.bare f) (r.step locals t) := by
  cases r with
  | operand frames =>
      exact stepOperand_bare t frames hNames
  | operator frames e =>
      exact stepOperator_bare t frames e locals

end Reading

------------------------------------------------------------
-- Statements
------------------------------------------------------------

namespace Pending

/- A statement that waits, without regions. -/
def bare : Pending → Pending
| thenArm _ predicate => thenArm .nowhere predicate.bare
| elseArm _ predicate arm =>
    elseArm .nowhere predicate.bare arm.bare
| whileBody _ predicate =>
    whileBody .nowhere predicate.bare
| forBody _ init predicate step =>
    forBody .nowhere (init.map Expr.bare)
      (predicate.map Expr.bare) (step.map Expr.bare)

theorem wrap_bare
    (p : Pending)
    (s : Stmt) :
    p.bare.wrap s.bare = (p.wrap s).bare := by
  cases p <;>
    simp [bare, wrap, Stmt.bare, Span.through_nowhere]

theorem wrapAll_bare
    (ps : List Pending)
    (s : Stmt) :
    wrapAll (ps.map bare) s.bare = (wrapAll ps s).bare := by
  induction ps generalizing s with
  | nil =>
      rfl
  | cons p ps ih =>
      simp only [wrapAll, List.map_cons, List.foldl_cons]
        at ih ⊢
      rw [wrap_bare, ih]

theorem openElse?_bare
    (ps : List Pending)
    (s : Stmt) :
    openElse? (ps.map bare) s.bare =
      (openElse? ps s).map (List.map bare) := by
  fun_induction openElse? ps s with
  | case1 s =>
      rfl
  | case2 start predicate rest s =>
      rfl
  | case3 p rest s hThen ih =>
      rw [← ih, ← wrap_bare]
      cases p with
      | thenArm start predicate =>
          exact (hThen start predicate rfl).elim
      | elseArm _ _ _ | whileBody _ _ | forBody _ _ _ _ =>
          rfl

end Pending

/- A block that is open, without regions. -/
def OpenBlock.bare
    (b : OpenBlock) : OpenBlock :=
  ⟨.nowhere, b.pending.map Pending.bare,
    b.body.map Stmt.bare⟩

/- What an expression is for, without regions. -/
def Purpose.bare : Purpose → Purpose
| exprStmt _ => exprStmt .nowhere
| retValue _ => retValue .nowhere
| ifPredicate _ => ifPredicate .nowhere
| whilePredicate _ => whilePredicate .nowhere
| forInit _ => forInit .nowhere
| forPredicate _ init =>
    forPredicate .nowhere (init.map Expr.bare)
| forStep _ init predicate =>
    forStep .nowhere (init.map Expr.bare)
      (predicate.map Expr.bare)

/- A position, without regions. -/
def Position.bare : Position → Position
| boundary => boundary
| afterStmt s => afterStmt s.bare
| beforeHead head _ => beforeHead head .nowhere
| beforeInit _ => beforeInit .nowhere
| beforePredicate _ init =>
    beforePredicate .nowhere (init.map Expr.bare)
| beforeStep _ init predicate =>
    beforeStep .nowhere (init.map Expr.bare)
      (predicate.map Expr.bare)
| inExpr purpose reading =>
    inExpr purpose.bare reading.bare
| accepted => accepted

theorem Stmt.bareAll_eq_map
    (ss : List Stmt) :
    bareAll ss = ss.map bare := by
  induction ss with
  | nil =>
      rfl
  | cons s ss ih =>
      rw [bareAll, ih, List.map_cons]

namespace Parser

/- The state of a parser, without regions and renamed. -/
def bare
    (f : String → String)
    (p : Parser) : Parser where
  position := p.position.bare
  pending := p.pending.map Pending.bare
  body := p.body.map Stmt.bare
  blocks := p.blocks.map OpenBlock.bare
  locals := p.locals.rename f

variable {f : String → String}
variable (p : Parser)
variable (t : Token)

/- A token is expected without regions. -/
theorem expect_bare
    (k : Kind) :
    (t.bare f).expect k = Parsed.bare id (t.expect k) := by
  unfold Token.expect
  have hKind : (t.bare f).kind = t.kind := rfl
  rw [hKind]
  split <;> rfl

/- A finished expression is used without regions. -/
theorem useExpr_bare
    (u : Purpose)
    (e : Expr) :
    (p.bare f).useExpr u.bare e.bare (t.bare f) =
      Parsed.bare (bare f) (p.useExpr u e t) := by
  have hTerminator : u.bare.terminator = u.terminator := by
    cases u <;> rfl
  unfold useExpr
  rw [expect_bare, hTerminator]
  cases t.expect u.terminator with
  | error e' =>
      rfl
  | ok _ =>
      cases u <;> rfl

/- The new names are as different as the old ones. -/
def Renames
    (f : String → String)
    (p : Parser)
    (t : Token) : Prop :=
  t.kind = .identifier → p.locals.Distinguishes f t.lexeme

/- A token in an expression is read without regions. -/
theorem stepExpr_bare
    {p : Parser}
    {t : Token}
    (hNames : Renames f p t)
    (u : Purpose)
    (r : Reading) :
    (p.bare f).stepExpr u.bare r.bare (t.bare f) =
      Parsed.bare (bare f) (p.stepExpr u r t) := by
  have hStep := Reading.step_bare t r hNames
  unfold stepExpr
  have hLocals : (p.bare f).locals = p.locals.rename f := rfl
  rw [hLocals, hStep]
  cases r.step p.locals t with
  | error e =>
      rfl
  | ok result =>
      cases result with
      | more r' locals' =>
          rfl
      | done e =>
          exact useExpr_bare p t u e

/- The first token of a statement is read alike. -/
theorem stepStmt_bare
    {p : Parser}
    {t : Token}
    (hNames : Renames f p t) :
    (p.bare f).stepStmt (t.bare f) =
      Parsed.bare (bare f) (p.stepStmt t) := by
  have hKind : (t.bare f).kind = t.kind := rfl
  have hExpr :=
    stepExpr_bare hNames (.exprStmt t.span) .start
  unfold stepStmt
  rw [hKind]
  cases t.kind with
  | kwReturn | kwIf | kwWhile | kwFor | lbrace =>
      rfl
  | _ =>
      exact hExpr

/- A token between two statements is read alike. -/
theorem stepBoundary_bare
    {p : Parser}
    {t : Token}
    (hNames : Renames f p t) :
    (p.bare f).stepBoundary (t.bare f) =
      Parsed.bare (bare f) (p.stepBoundary t) := by
  have hKind : (t.bare f).kind = t.kind := rfl
  have hStmt := stepStmt_bare hNames
  rcases p with ⟨position, pending, body, blocks, locals⟩
  unfold stepBoundary
  rw [hKind]
  cases hCase : t.kind with
  | rbrace =>
      match pending, blocks with
      | [], block :: blocks =>
          simp [bare, Parsed.bare, Position.bare, Stmt.bare,
            Stmt.bareAll_eq_map, OpenBlock.bare, Token.bare,
            Span.through_nowhere]
      | [], [] | _ :: _, _ =>
          exact hStmt
  | eof =>
      match pending, blocks with
      | [], block :: blocks =>
          rfl
      | [], [] =>
          rfl
      | _ :: _, _ =>
          exact hStmt
  | _ =>
      cases pending <;> cases blocks <;> exact hStmt

/- A finished statement takes its place alike. -/
theorem settle_bare
    (s : Stmt) :
    (p.bare f).settle s.bare = (p.settle s).bare f := by
  simp [settle, bare, Pending.wrapAll_bare, Position.bare]

/- A token after a statement is read alike. -/
theorem stepAfter_bare
    {p : Parser}
    {t : Token}
    (hNames : Renames f p t)
    (s : Stmt) :
    (p.bare f).stepAfter s.bare (t.bare f) =
      Parsed.bare (bare f) (p.stepAfter s t) := by
  have hKind : (t.bare f).kind = t.kind := rfl
  have hPending :
      (p.bare f).pending = p.pending.map Pending.bare := rfl
  have hSettled :
      ((p.settle s).bare f).stepBoundary (t.bare f) =
        Parsed.bare (bare f)
          ((p.settle s).stepBoundary t) :=
    stepBoundary_bare hNames
  unfold stepAfter
  rw [hKind, hPending, Pending.openElse?_bare, settle_bare]
  cases t.kind with
  | kwElse =>
      cases Pending.openElse? p.pending s with
      | none =>
          exact hSettled
      | some pending =>
          rfl
  | _ =>
      exact hSettled

/- A token is read without regions and renamed. -/
theorem step_bare
    {p : Parser}
    {t : Token}
    (hNames : Renames f p t) :
    (p.bare f).step (t.bare f) =
      Parsed.bare (bare f) (p.step t) := by
  have hKind : (t.bare f).kind = t.kind := rfl
  have hPosition :
      (p.bare f).position = p.position.bare := rfl
  unfold step
  rw [hPosition]
  cases p.position with
  | boundary =>
      exact stepBoundary_bare hNames
  | afterStmt s =>
      exact stepAfter_bare hNames s
  | beforeHead head start =>
      simp only [Position.bare]
      rw [expect_bare]
      cases t.expect .lparen with
      | error e =>
          rfl
      | ok _ =>
          cases head <;> rfl
  | beforeInit start =>
      simp only [Position.bare, hKind]
      split
      · rfl
      · exact stepExpr_bare hNames (.forInit start) .start
  | beforePredicate start init =>
      simp only [Position.bare, hKind]
      split
      · rfl
      · exact stepExpr_bare hNames
          (.forPredicate start init) .start
  | beforeStep start init predicate =>
      simp only [Position.bare, hKind]
      split
      · rfl
      · exact stepExpr_bare hNames
          (.forStep start init predicate) .start
  | inExpr u r =>
      exact stepExpr_bare hNames u r
  | accepted =>
      rfl

------------------------------------------------------------
-- Whole Programs
------------------------------------------------------------

/- A table with a resolved name has no other names. -/
theorem names_resolve_subset
    {names : List String}
    {t : Locals}
    {name : String}
    (hTable : t.names ⊆ names)
    (hName : name ∈ names) :
    (t.resolve name).2.names ⊆ names := by
  unfold Locals.resolve
  split
  · exact hTable
  · exact List.append_subset.mpr
      ⟨hTable, List.cons_subset.mpr
        ⟨hName, List.nil_subset _⟩⟩

/- Only names of tokens come into the table. -/
theorem names_subset_of_step
    {names : List String}
    {p p' : Parser}
    {t : Token}
    (hTable : p.locals.names ⊆ names)
    (hToken : t.kind = .identifier → t.lexeme ∈ names)
    (hStep : p.step t = .ok p') :
    p'.locals.names ⊆ names := by
  have hEffect := p.step_effect t
  rw [hStep] at hEffect
  rcases hEffect with hSame | ⟨hKind, hResolved⟩
  · rw [hSame]
    exact hTable
  · rw [hResolved]
    exact names_resolve_subset hTable (hToken hKind)

/- Names that stay apart are renamed. -/
theorem renames_of_keepsApart
    {names : List String}
    {p : Parser}
    {t : Token}
    (hApart : KeepsApart f names)
    (hTable : p.locals.names ⊆ names)
    (hToken : t.kind = .identifier → t.lexeme ∈ names) :
    Renames f p t := by
  intro hKind other hMem hSame
  exact hApart other (hTable hMem) t.lexeme (hToken hKind)
    hSame

/- A run does not depend on regions and names. -/
theorem run_bare
    {names : List String}
    {stop : Token}
    {tokens : List Token}
    {p : Parser}
    (hApart : KeepsApart f names)
    (hTable : p.locals.names ⊆ names)
    (hTokens :
      ∀ t ∈ tokens, t.kind = .identifier → t.lexeme ∈ names)
    (hStop : stop.isEof = true) :
    run (stop.bare f) (p.bare f)
        (tokens.map (Token.bare f)) =
      Parsed.bare (bare f) (run stop p tokens) := by
  induction tokens generalizing p with
  | nil =>
      have hEof : stop.kind = .eof := of_decide_eq_true hStop
      refine step_bare fun hKind => ?_
      rw [hEof] at hKind
      cases hKind
  | cons t tokens ih =>
      rcases List.forall_mem_cons.mp hTokens with
        ⟨hToken, hRest⟩
      have hStep :=
        step_bare (renames_of_keepsApart hApart hTable hToken)
      have hEof : (t.bare f).isEof = t.isEof := rfl
      rw [List.map_cons, run, run, hStep]
      cases hNext : p.step t with
      | error e =>
          rfl
      | ok p' =>
          have hTable' :=
            names_subset_of_step hTable hToken hNext
          simp only [Parsed.bare, hEof]
          split
          · rfl
          · exact ih hTable' hRest

end Parser

namespace TokenStream

/- A stream without regions and renamed. -/
def bare
    (f : String → String)
    (s : TokenStream) : TokenStream :=
  ⟨s.tokens.map (Token.bare f), s.stop.bare f, s.isEof_stop⟩

/- The names in a stream. -/
def names
    (s : TokenStream) : List String :=
  (s.tokens.filter (·.kind = .identifier)).map
    Token.lexeme

theorem lexeme_mem_names
    {s : TokenStream}
    {t : Token}
    (hMem : t ∈ s.tokens)
    (hKind : t.kind = .identifier) :
    t.lexeme ∈ s.names :=
  List.mem_map_of_mem
    (List.mem_filter.mpr ⟨hMem, decide_eq_true hKind⟩)

end TokenStream

namespace Program

/- A program without regions and renamed. -/
def bare
    (f : String → String)
    (p : Program) : Program :=
  ⟨p.name, Stmt.bareAll p.body, p.locals.rename f⟩

/-
  What is read does not depend on the regions of tokens, and
  on names only as far as they are the same or not.
-/
theorem parse_bare
    {f : String → String}
    {s : TokenStream}
    (hApart : KeepsApart f s.names) :
    parse (s.bare f) =
      Parsed.bare (bare f) (parse s) := by
  have hStart : Parser.start.bare f = .start := rfl
  have hRun :=
    Parser.run_bare (p := .start) hApart
      (List.nil_subset _)
      (fun t hMem hKind =>
        TokenStream.lexeme_mem_names hMem hKind)
      s.isEof_stop
  rw [hStart] at hRun
  unfold parse
  simp only [TokenStream.bare, hRun]
  cases Parser.run s.stop .start s.tokens with
  | error e =>
      rfl
  | ok q =>
      simp [Parsed.bare, bare, Parser.bare,
        Stmt.bareAll_eq_map, bind, Except.bind, pure,
        Except.pure]

end Program

end WordLang
