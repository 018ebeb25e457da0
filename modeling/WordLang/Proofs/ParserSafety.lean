import WordLang.Proofs.Resolution
import WordLang.Proofs.StmtCode

/-
  This file bounds what the parser does with its tokens.

  A token has little effect: a name may put one variable
  into the table, and only a number that cannot be read is
  reported as one. So a program has no more variables than
  it has tokens, and where all numbers can be read none is
  reported. Nor are there more branches and loops than
  tokens, or more words that wait on the stack.

  The parser is also run with an index into a list of
  tokens. The index is never past the last token, and the
  answer is the same.

  Key definitions include:
    * `WordLang.Token.Effect`
    * `WordLang.Parser.runAt?`
    * `WordLang.Program.parseAt?`

  Key theorems include:
    * `WordLang.Parser.step_effect`
    * `WordLang.Parser.size_locals_of_run`
    * `WordLang.Parser.badNumber_of_run`
    * `WordLang.Program.counts_of_parse`
    * `WordLang.Program.parseAt?_eq_parse`
-/

namespace WordLang

------------------------------------------------------------
-- The Effect of a Token
------------------------------------------------------------

/-
  What a token may lead to: the table stays as it is or
  takes the name of the token, and a number is reported only
  if the token is one that cannot be read.
-/
def Token.Effect
    (t : Token)
    (locals : Locals) :
    Parsed Locals → Prop
| .ok locals' =>
    locals' = locals ∨
      (t.kind = .identifier ∧
        locals' = (locals.resolve t.lexeme).2)
| .error e =>
    e.value = .badNumber →
      t.kind = .number ∧ Literal.read? t.lexeme = none

namespace Reading

/- The table after a step. -/
def Step.table
    (locals : Locals) :
    Step → Locals
| more _ locals' => locals'
| done _ => locals

/- The effect of a token where an operand has to start. -/
theorem stepOperand_effect
    (frames : List Frame)
    (locals : Locals)
    (t : Token) :
    t.Effect locals
      ((stepOperand frames locals t).map
        (Step.table locals)) := by
  unfold stepOperand
  split
  · intro hBad
    cases hBad
  · intro hBad
    cases hBad
  · exact .inl rfl
  · exact .inl rfl
  · exact .inl rfl
  · rename_i hKind
    cases hRead : Literal.read? t.lexeme with
    | some value =>
        exact .inl rfl
    | none =>
        exact fun _ => ⟨hKind, hRead⟩
  · rename_i hKind
    exact .inr ⟨hKind, rfl⟩
  · intro hBad
    cases hBad

/- An unfinished expression is not a bad number. -/
theorem close_error
    {r : Reading}
    {t : Token}
    {e : Located ParseError}
    (hClose : r.close t = .error e) :
    e.value ≠ .badNumber := by
  unfold close at hClose
  split at hClose
  · cases hClose
    simp
  · split at hClose
    · cases hClose
      simp
    · cases hClose

/- The effect of a token after an operand. -/
theorem stepOperator_effect
    (frames : List Frame)
    (e : Expr)
    (locals : Locals)
    (t : Token) :
    t.Effect locals
      ((stepOperator frames e locals t).map
        (Step.table locals)) := by
  unfold stepOperator
  split
  · exact .inl rfl
  · dsimp only
    split
    · exact .inl rfl
    · intro hBad
      cases hBad
  · split
    · exact .inl rfl
    · exact .inl rfl
  · cases hClose : (operator frames e).close t with
    | ok e' =>
        exact .inl rfl
    | error err =>
        exact fun hBad => absurd hBad (close_error hClose)

/- The effect of a token inside an expression. -/
theorem step_effect
    (r : Reading)
    (locals : Locals)
    (t : Token) :
    t.Effect locals
      ((r.step locals t).map (Step.table locals)) := by
  cases r with
  | operand frames =>
      exact stepOperand_effect frames locals t
  | operator frames e =>
      exact stepOperator_effect frames e locals t

end Reading

namespace Parser

/- A finished expression leaves the table as it is. -/
theorem useExpr_effect
    (p : Parser)
    (purpose : Purpose)
    (e : Expr)
    (t : Token) :
    t.Effect p.locals
      ((p.useExpr purpose e t).map Parser.locals) := by
  unfold useExpr Token.expect
  by_cases hKind : t.kind = purpose.terminator
  · rw [if_pos hKind]
    cases purpose <;> exact .inl rfl
  · rw [if_neg hKind]
    intro hBad
    cases hBad

/- The effect of a token in an expression of a program. -/
theorem stepExpr_effect
    (p : Parser)
    (purpose : Purpose)
    (reading : Reading)
    (t : Token) :
    t.Effect p.locals
      ((p.stepExpr purpose reading t).map
        Parser.locals) := by
  have hStep := Reading.step_effect reading p.locals t
  unfold stepExpr
  revert hStep
  cases reading.step p.locals t with
  | error e =>
      exact id
  | ok result =>
      cases result with
      | more reading' locals' =>
          exact id
      | done e =>
          intro _
          exact useExpr_effect p purpose e t

/- The effect of the first token of a statement. -/
theorem stepStmt_effect
    (p : Parser)
    (t : Token) :
    t.Effect p.locals
      ((p.stepStmt t).map Parser.locals) := by
  unfold stepStmt
  split
  · exact .inl rfl
  · exact .inl rfl
  · exact .inl rfl
  · exact .inl rfl
  · exact .inl rfl
  · exact stepExpr_effect p _ _ t

/- The effect of a token where a statement may start. -/
theorem stepBoundary_effect
    (p : Parser)
    (t : Token) :
    t.Effect p.locals
      ((p.stepBoundary t).map Parser.locals) := by
  unfold stepBoundary
  split
  · exact .inl rfl
  · intro hBad
    cases hBad
  · exact .inl rfl
  · exact stepStmt_effect p t

/- The effect of a token after a finished statement. -/
theorem stepAfter_effect
    (p : Parser)
    (s : Stmt)
    (t : Token) :
    t.Effect p.locals
      ((p.stepAfter s t).map Parser.locals) := by
  unfold stepAfter
  split
  · exact .inl rfl
  · exact stepBoundary_effect (p.settle s) t

/- The effect of a token of a program. -/
theorem step_effect
    (p : Parser)
    (t : Token) :
    t.Effect p.locals ((p.step t).map Parser.locals) := by
  unfold step
  split
  · exact stepBoundary_effect p t
  · exact stepAfter_effect p _ t
  · rename_i head start hPosition
    unfold Token.expect
    by_cases hKind : t.kind = .lparen
    · rw [if_pos hKind]
      cases head <;> exact .inl rfl
    · rw [if_neg hKind]
      intro hBad
      cases hBad
  · split
    · exact .inl rfl
    · exact stepExpr_effect p _ _ t
  · split
    · exact .inl rfl
    · exact stepExpr_effect p _ _ t
  · split
    · exact .inl rfl
    · exact stepExpr_effect p _ _ t
  · exact stepExpr_effect p _ _ t
  · exact .inl rfl

------------------------------------------------------------
-- Runs
------------------------------------------------------------

/- A table grows by at most one name. -/
theorem size_resolve_le
    (locals : Locals)
    (name : String) :
    (locals.resolve name).2.size ≤ locals.size + 1 := by
  unfold Locals.resolve
  split
  · exact Nat.le_succ _
  · simp [Locals.size]

/- A token puts at most one name into the table. -/
theorem size_locals_of_step
    {p p' : Parser}
    {t : Token}
    (hStep : p.step t = .ok p') :
    p'.locals.size ≤
      p.locals.size + (if t.isEof then 0 else 1) := by
  have hEffect := p.step_effect t
  rw [hStep] at hEffect
  rcases hEffect with hSame | ⟨hName, hResolved⟩
  · rw [hSame]
    exact Nat.le_add_right _ _
  · have hEof : t.isEof = false := by
      simp [Token.isEof, hName]
    rw [hResolved, hEof]
    exact size_resolve_le p.locals t.lexeme

/- A program has at most one variable for each token. -/
theorem size_locals_of_run
    {stop : Token}
    (hStop : stop.isEof = true)
    {p p' : Parser}
    {tokens : List Token}
    (hRun : run stop p tokens = .ok p') :
    p'.locals.size ≤ p.locals.size + tokens.length := by
  induction tokens generalizing p with
  | nil =>
      have hSize := size_locals_of_step hRun
      rw [hStop] at hSize
      exact hSize
  | cons t tokens ih =>
      rw [run] at hRun
      cases hStep : p.step t with
      | error e =>
          simp [hStep] at hRun
      | ok q =>
          have hFirst : q.locals.size ≤ p.locals.size + 1 := by
            have hSize := size_locals_of_step hStep
            split at hSize <;> omega
          simp only [hStep] at hRun
          rw [List.length_cons]
          by_cases hEof : t.isEof = true
          · rw [if_pos hEof] at hRun
            cases hRun
            omega
          · rw [if_neg hEof] at hRun
            have hRest := ih hRun
            omega

/- Only a number that cannot be read is reported. -/
theorem badNumber_of_run
    {stop : Token}
    (hStop : stop.isEof = true)
    {p : Parser}
    {tokens : List Token}
    {e : Located ParseError}
    (hRun : run stop p tokens = .error e)
    (hBad : e.value = .badNumber) :
    ∃ t ∈ tokens,
      t.kind = .number ∧ Literal.read? t.lexeme = none := by
  induction tokens generalizing p with
  | nil =>
      have hEffect := p.step_effect stop
      rw [run] at hRun
      rw [hRun] at hEffect
      rcases hEffect hBad with ⟨hNumber, -⟩
      simp [Token.isEof, hNumber] at hStop
  | cons t tokens ih =>
      rw [run] at hRun
      cases hStep : p.step t with
      | error e' =>
          simp only [hStep] at hRun
          cases hRun
          have hEffect := p.step_effect t
          rw [hStep] at hEffect
          exact ⟨t, List.mem_cons_self, hEffect hBad⟩
      | ok q =>
          simp only [hStep] at hRun
          by_cases hEof : t.isEof = true
          · rw [if_pos hEof] at hRun
            cases hRun
          · rw [if_neg hEof] at hRun
            rcases ih hRun with ⟨t', hMem, hUnread⟩
            exact ⟨t', List.mem_cons_of_mem _ hMem,
              hUnread⟩

end Parser

namespace Program

/- What is read is what the run has left. -/
theorem run_of_parse
    {s : TokenStream}
    {p : Program}
    (hParse : parse s = .ok p) :
    ∃ q,
      Parser.run s.stop .start s.tokens = .ok q ∧
      p = ⟨mainName, q.body.reverse, q.locals⟩ := by
  unfold parse at hParse
  cases hRun : Parser.run s.stop .start s.tokens with
  | error e =>
      rw [hRun] at hParse
      cases hParse
  | ok q =>
      rw [hRun] at hParse
      cases hParse
      exact ⟨q, rfl, rfl⟩

/- A program has at most one variable for each token. -/
theorem size_locals_le_of_parse
    {s : TokenStream}
    {p : Program}
    (hParse : parse s = .ok p) :
    p.locals.size ≤ s.tokens.length := by
  rcases run_of_parse hParse with ⟨q, hRun, rfl⟩
  have hSize := Parser.size_locals_of_run s.isEof_stop hRun
  have hEmpty : Parser.start.locals.size = 0 := rfl
  rw [hEmpty, Nat.zero_add] at hSize
  exact hSize

/- Where all numbers can be read, none is reported. -/
theorem parse_ne_badNumber
    {s : TokenStream}
    (hNumbers :
      ∀ t ∈ s.tokens,
        t.kind = .number →
        ∃ v, Literal.read? t.lexeme = some v)
    (span : Span) :
    parse s ≠ .error ⟨.badNumber, span⟩ := by
  intro hParse
  unfold parse at hParse
  cases hRun : Parser.run s.stop .start s.tokens with
  | ok q =>
      rw [hRun] at hParse
      cases hParse
  | error e =>
      rw [hRun] at hParse
      cases hParse
      rcases Parser.badNumber_of_run s.isEof_stop hRun rfl
        with ⟨t, hMem, hKind, hUnread⟩
      rcases hNumbers t hMem hKind with ⟨v, hRead⟩
      rw [hUnread] at hRead
      cases hRead

end Program

------------------------------------------------------------
-- Counts
------------------------------------------------------------

/- Regions do not count. -/
theorem Expr.words_bare
    (e : Expr) :
    e.bare.words = e.words := by
  induction e with
  | int value span | var offset span =>
      rfl
  | binary op lhs rhs span ihLhs ihRhs =>
      simp only [bare, words, ihLhs, ihRhs]
  | assign target value span ihTarget ihValue =>
      simp only [bare, words, ihValue]

theorem Expr.wordsOption_map_bare
    (e : Option Expr) :
    wordsOption (e.map Expr.bare) = wordsOption e := by
  cases e with
  | none =>
      rfl
  | some e =>
      exact words_bare e

namespace Stmt

/- The counts of a statement do not exceed a bound. -/
structure CountsWithin
    (n : Nat)
    (s : Stmt) : Prop where
  controls : s.controls ≤ n
  words : s.words ≤ n

/- The same, for statements one after another. -/
structure AllCountsWithin
    (n : Nat)
    (ss : List Stmt) : Prop where
  controls : controlsAll ss ≤ n
  words : wordsAll ss ≤ n

mutual

theorem counts_bare
    (s : Stmt) :
    s.bare.controls = s.controls ∧
      s.bare.words = s.words := by
  match s with
  | expr e _ | ret e _ =>
      simp [bare, controls, words, Expr.words_bare]
  | ifThen predicate thenArm _ =>
      simp [bare, controls, words, Expr.words_bare,
        counts_bare thenArm]
  | ifElse predicate thenArm elseArm _ =>
      simp [bare, controls, words, Expr.words_bare,
        counts_bare thenArm, counts_bare elseArm]
  | whileLoop predicate body _ =>
      simp [bare, controls, words, Expr.words_bare,
        counts_bare body]
  | forLoop init predicate step body _ =>
      simp [bare, controls, words,
        Expr.wordsOption_map_bare, counts_bare body]
  | block body _ =>
      simp [bare, controls, words, counts_bareAll body]

theorem counts_bareAll
    (ss : List Stmt) :
    controlsAll (bareAll ss) = controlsAll ss ∧
      wordsAll (bareAll ss) = wordsAll ss := by
  match ss with
  | [] =>
      exact ⟨rfl, rfl⟩
  | s :: ss =>
      simp [bareAll, controlsAll, wordsAll, counts_bare s,
        counts_bareAll ss]

end

end Stmt

/- An operand waits for each operator at most. -/
theorem Connective.words_combine_le
    (c : Connective)
    (a b : Expr) :
    (c.combine a b).words ≤ a.words + 1 + b.words := by
  cases c <;> simp only [combine, Expr.words] <;> omega

/- There are no more waiting words than terminals. -/
theorem ExprTree.words_le_of_lower?
    {t : Locals}
    {d : ExprTree}
    {e : Expr}
    (hLower : d.lower? t = some e) :
    e.words ≤ d.terminals.length := by
  induction d generalizing e with
  | number s | name s =>
      rcases Option.map_eq_some_iff.mp hLower with
        ⟨v, -, rfl⟩
      exact Nat.zero_le _
  | paren d ih =>
      have hCount := ih hLower
      simp only [terminals, List.length_append]
      omega
  | signed negative d ih =>
      cases negative with
      | false =>
          exact Nat.le_succ_of_le (ih hLower)
      | true =>
          rcases lower?_negative.mp hLower with
            ⟨a, hOperand, rfl⟩
          have hCount := ih hOperand
          simp only [terminals, Expr.words,
            List.length_cons]
          omega
  | chain c l r ihLeft ihRight =>
      rcases lower?_chain.mp hLower with
        ⟨a, b, hLeft, hRight, rfl⟩
      have hCount := c.words_combine_le a b
      have hLeftCount := ihLeft hLeft
      have hRightCount := ihRight hRight
      simp only [terminals, List.length_append,
        List.length_cons, List.length_nil]
      omega
  | assign d v ihTarget ihValue =>
      rcases lower?_assign.mp hLower with
        ⟨a, b, -, hValue, rfl⟩
      have hCount := ihValue hValue
      simp only [terminals, Expr.words, List.length_append,
        List.length_cons, List.length_nil]
      omega

theorem ExprTree.words_le_of_lowerOption?
    {t : Locals}
    {d : Option ExprTree}
    {e : Option Expr}
    (hLower : lowerOption? t d = some e) :
    Expr.wordsOption e ≤ (terminalsOption d).length := by
  cases d with
  | none =>
      cases hLower
      exact Nat.zero_le _
  | some d =>
      rcases Option.map_eq_some_iff.mp hLower with
        ⟨a, hExpr, rfl⟩
      exact words_le_of_lower? hExpr

namespace StmtTree

mutual

/-
  A branch or a loop starts with a word of its own, so its
  counts are bounded by its terminals.
-/
theorem counts_of_lower?
    {t : Locals}
    {d : StmtTree}
    {s : Stmt}
    (hLower : d.lower? t = some s) :
    s.CountsWithin d.terminals.length := by
  match d with
  | ret d | expr d =>
      simp only [lower?_ret, lower?_expr] at hLower
      rcases hLower with ⟨e, hExpr, rfl⟩
      have hWords := ExprTree.words_le_of_lower? hExpr
      constructor <;>
        simp only [terminals, Stmt.controls, Stmt.words,
          List.length_append] <;>
        omega
  | ifThen p d | whileLoop p d =>
      simp only [lower?_ifThen, lower?_whileLoop] at hLower
      rcases hLower with ⟨e, a, hExpr, hArm, rfl⟩
      have hWords := ExprTree.words_le_of_lower? hExpr
      rcases counts_of_lower? hArm with ⟨hControls, hArmWords⟩
      constructor <;>
        simp only [terminals, Stmt.controls, Stmt.words,
          List.length_append, List.length_cons] <;>
        omega
  | ifElse p d d' =>
      rcases lower?_ifElse.mp hLower with
        ⟨e, a, b, hExpr, hThen, hElse, rfl⟩
      have hWords := ExprTree.words_le_of_lower? hExpr
      rcases counts_of_lower? hThen with
        ⟨hThenControls, hThenWords⟩
      rcases counts_of_lower? hElse with
        ⟨hElseControls, hElseWords⟩
      constructor <;>
        simp only [terminals, Stmt.controls, Stmt.words,
          List.length_append, List.length_cons] <;>
        omega
  | forLoop i p n d =>
      rcases lower?_forLoop.mp hLower with
        ⟨i', p', n', a, hInit, hPredicate, hStep, hBody,
          rfl⟩
      have hInitWords :=
        ExprTree.words_le_of_lowerOption? hInit
      have hPredicateWords :=
        ExprTree.words_le_of_lowerOption? hPredicate
      have hStepWords :=
        ExprTree.words_le_of_lowerOption? hStep
      rcases counts_of_lower? hBody with
        ⟨hControls, hBodyWords⟩
      constructor <;>
        simp only [terminals, Stmt.controls, Stmt.words,
          List.length_append, List.length_cons] <;>
        omega
  | block ds =>
      rcases lower?_block.mp hLower with ⟨body, hBody, rfl⟩
      rcases counts_of_lowerAll? hBody with
        ⟨hControls, hWords⟩
      constructor <;>
        simp only [terminals, Stmt.controls, Stmt.words,
          List.length_append] <;>
        omega

theorem counts_of_lowerAll?
    {t : Locals}
    {ds : List StmtTree}
    {ss : List Stmt}
    (hLower : lowerAll? t ds = some ss) :
    Stmt.AllCountsWithin (terminalsAll ds).length ss := by
  match ds with
  | [] =>
      cases hLower
      exact ⟨Nat.zero_le _, Nat.zero_le _⟩
  | d :: ds =>
      rcases lowerAll?_cons.mp hLower with
        ⟨a, body, hFirst, hBody, rfl⟩
      rcases counts_of_lower? hFirst with
        ⟨hControls, hWords⟩
      rcases counts_of_lowerAll? hBody with
        ⟨hRestControls, hRestWords⟩
      constructor <;>
        simp only [terminalsAll, Stmt.controlsAll,
          Stmt.wordsAll, List.length_append] <;>
        omega

end

end StmtTree

/- The end of input is not a terminal of the grammar. -/
theorem TokenStream.length_terminals_le
    (s : TokenStream) :
    s.terminals.length ≤ s.tokens.length := by
  unfold terminals toList
  rw [List.length_map]
  induction s.tokens with
  | nil =>
      simp [s.isEof_stop]
  | cons t tokens ih =>
      cases hEof : t.isEof with
      | true =>
          simp [hEof]
      | false =>
          simpa [hEof] using ih

namespace Program

/-
  There are not more branches and loops than tokens, nor
  words that wait on the stack.
-/
theorem counts_of_parse
    {s : TokenStream}
    {p : Program}
    (hParse : parse s = .ok p) :
    Stmt.AllCountsWithin s.tokens.length p.body := by
  rcases derivation_of_parse hParse with
    ⟨ds, hDerivation, hLower⟩
  rcases StmtTree.counts_of_lowerAll? hLower with
    ⟨hControls, hWords⟩
  rcases Stmt.counts_bareAll p.body with
    ⟨hSameControls, hSameWords⟩
  rw [hSameControls, hDerivation.terminals] at hControls
  rw [hSameWords, hDerivation.terminals] at hWords
  exact ⟨Nat.le_trans hControls s.length_terminals_le,
    Nat.le_trans hWords s.length_terminals_le⟩

end Program

------------------------------------------------------------
-- Reading by Index
------------------------------------------------------------

/-
  Read tokens from an index on, up to the end of input. An
  index past the last token has no answer.
-/
def Parser.runAt?
    (tokens : List Token) :
    Nat →
    Nat →
    Parser →
    Option (Parsed Parser)
| 0, _, _ => none
| steps + 1, index, p => do
    let t ← tokens[index]?
    match p.step t with
    | .error e => return .error e
    | .ok p =>
        if t.isEof then
          return .ok p
        else
          runAt? tokens steps (index + 1) p

/-
  Read a program by index. The list has to end in an
  end-of-input token.
-/
def Program.parseAt?
    (tokens : List Token) : Option (Parsed Program) := do
  let last ← tokens.getLast?
  if last.isEof then
    let result ←
      Parser.runAt? tokens tokens.length 0 .start
    return result.map
      (fun p => ⟨mainName, p.body.reverse, p.locals⟩)
  else
    none

/- No index is past the last token of a stream. -/
theorem Parser.runAt?_eq_run
    (s : TokenStream)
    {steps index : Nat}
    (hIndex : index ≤ s.tokens.length)
    (hSteps : s.tokens.length - index < steps)
    (p : Parser) :
    runAt? s.toList steps index p =
      some (run s.stop p (s.tokens.drop index)) := by
  induction steps generalizing index p with
  | zero =>
      contradiction
  | succ steps ih =>
      rcases Nat.lt_or_eq_of_le hIndex with hInside | hLast
      · have hToken :
            s.toList[index]? = some s.tokens[index] := by
          unfold TokenStream.toList
          rw [List.getElem?_append_left hInside,
            List.getElem?_eq_getElem hInside]
        rw [runAt?, hToken,
          List.drop_eq_getElem_cons hInside, run]
        cases hStep : p.step s.tokens[index] with
        | error e =>
            simp [hStep]
        | ok q =>
            have hIndex' : index + 1 ≤ s.tokens.length :=
              hInside
            have hNext := ih hIndex' (by omega) q
            by_cases hEof : s.tokens[index].isEof = true
            · simp [hStep, hEof]
            · simp [hStep, hEof, hNext]
      · have hToken : s.toList[index]? = some s.stop := by
          unfold TokenStream.toList
          rw [hLast, List.getElem?_concat_length]
        rw [runAt?, hToken, hLast, List.drop_length, run]
        cases hStep : p.step s.stop with
        | error e =>
            simp [hStep]
        | ok q =>
            simp [hStep, s.isEof_stop]

/- Reading a stream by index gives the same program. -/
theorem Program.parseAt?_eq_parse
    (s : TokenStream) :
    parseAt? s.toList = some (parse s) := by
  have hLast : s.toList.getLast? = some s.stop := by
    simp [TokenStream.toList]
  have hLength : s.toList.length = s.tokens.length + 1 := by
    simp [TokenStream.toList]
  have hRun :
      Parser.runAt? s.toList s.toList.length 0 .start =
        some (Parser.run s.stop .start s.tokens) := by
    apply Parser.runAt?_eq_run s (Nat.zero_le _)
    omega
  unfold parseAt? parse
  rw [hLast, Option.bind_eq_bind, Option.bind_some,
    if_pos s.isEof_stop, hRun]
  cases Parser.run s.stop .start s.tokens <;> rfl

end WordLang
