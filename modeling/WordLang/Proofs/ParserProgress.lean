import WordLang.Proofs.DescentParsing
import WordLang.Proofs.VariableNodes

/-
  This file proves that parsing goes forward and comes to an
  end.

  The procedures that call each other have the answers of
  the parsers that take one token at a time. A procedure
  that succeeds has moved the cursor over at least one
  token, and never over an end of input. So no loop goes
  round more often than there are tokens, no more calls wait
  for each other than there are tokens, and what stands
  behind the first end of input does not matter.

  Key definitions include:
    * `WordLang.TokenStream.cut`
    * `WordLang.Descent.Progresses`

  Key theorems include:
    * `WordLang.TokenStream.parse_cut`
    * `WordLang.Descent.answer?_program`
    * `WordLang.Descent.answer?_wholeExpr`
    * `WordLang.Descent.parser_progress`
-/

namespace WordLang

------------------------------------------------------------
-- Cutting a Stream
------------------------------------------------------------

namespace TokenStream

/- A stream up to its first end of input. -/
def cut
    (s : TokenStream) : TokenStream where
  tokens := s.tokens.take s.firstEof
  stop := s.peek s.firstEof
  isEof_stop := s.isEof_peek_firstEof

theorem toList_cut
    (s : TokenStream) :
    s.cut.toList = s.toList.take (s.firstEof + 1) := by
  rw [List.take_add_one, getElem?_toList s.firstEof_le,
    toList, toList,
    List.take_append_of_le_length s.firstEof_le]
  rfl

/- Nothing behind the first end of input is read. -/
theorem parse_cut
    (s : TokenStream) :
    Program.parse s.cut = Program.parse s ∧
      Expr.parse s.cut = Expr.parse s := by
  rcases Nat.lt_or_eq_of_le s.firstEof_le with
    hInside | hLast
  · have hTokens :
        s.tokens =
          s.tokens.take s.firstEof ++
            s.peek s.firstEof ::
              s.tokens.drop (s.firstEof + 1) := by
      rw [← drop_tokens hInside, List.take_append_drop]
    have hEnd := s.isEof_peek_firstEof
    refine ⟨?_, ?_⟩
    · rw [Program.parse, Program.parse, hTokens,
        Parser.run_ended hEnd]
      rfl
    · rw [Expr.parse, Expr.parse, hTokens,
        Reading.run_ended hEnd]
      rfl
  · have hTokens : s.tokens.take s.firstEof = s.tokens := by
      rw [hLast, List.take_length]
    have hStop : s.peek s.firstEof = s.stop :=
      peek_of_le (Nat.le_of_eq hLast.symm)
    simp only [Program.parse, Expr.parse, cut, hTokens,
      hStop, and_self]

end TokenStream

------------------------------------------------------------
-- The Answers of the Procedures
------------------------------------------------------------

namespace Descent

variable {s : TokenStream}
variable {passes depth : Nat}

/- Limits that allow for all tokens are enough. -/
theorem not_short
    (hPasses : s.firstEof ≤ passes)
    (hDepth : s.firstEof < depth) :
    ¬Short s passes depth ⟨0, .empty⟩ := by
  unfold Short
  omega

/- The end of input is accepted if nothing is open. -/
theorem onward_accepted
    {p : Parser}
    {d : State}
    (hEof : (s.peek d.index).isEof = true)
    (hPending : p.pending = [])
    (hBlocks : p.blocks = []) :
    onward s p .boundary d =
      .ok ((p.withLocals d.locals).goto .accepted) := by
  have hKind : (s.peek d.index).kind = .eof := by
    simpa [Token.isEof] using hEof
  have hStep :
      ((p.withLocals d.locals).goto .boundary).step
          (s.peek d.index) =
        .ok ((p.withLocals d.locals).goto .accepted) := by
    simp only [Parser.step, Parser.stepBoundary, Parser.goto,
      Parser.withLocals, hPending, hBlocks, hKind]
  rw [onward_eq_proceed, hStep]
  simp only [proceed, hEof, if_true]

/- The procedures read the program that the parser reads. -/
theorem answer?_program
    (hPasses : s.firstEof ≤ passes)
    (hDepth : s.firstEof < depth) :
    (program s passes depth).answer? =
      some (Program.parse s) := by
  have hParse :
      Program.parse s =
        (onward s .start .boundary ⟨0, .empty⟩).map
          (fun p =>
            ⟨Program.mainName, p.body.reverse,
              p.locals⟩) := by
    show (Parser.run s.stop .start s.tokens >>= _) =
      (Parser.run s.stop .start s.tokens).map _
    cases Parser.run s.stop .start s.tokens <;> rfl
  apply Call.Ends.answer?_eq
  refine (ends_stmtsUntil (p := .start) readsStmt_stmt
    passes (Nat.zero_le _) rfl (.inr rfl)).bind ?_ ?_ ?_
  · intro error hError
    rw [hParse, hError]
    rfl
  · rintro (hShort | hShort)
    · exact not_short hPasses hDepth (.inl hShort)
    · exact not_short hPasses hDepth hShort
  · rintro body d ⟨-, -, hEnd, hBody⟩
    apply ends_expect_eof
    · intro hEof
      show Program.parse s =
        .ok ⟨Program.mainName, body, d.locals⟩
      rw [hParse, hBody, onward_accepted hEof rfl rfl]
      simp [Except.map, Parser.goto, Parser.withLocals,
        Parser.adding, Parser.start]
    · intro hEof
      simp [hEof] at hEnd

/- The procedures read the expression that is read. -/
theorem answer?_wholeExpr
    (hPasses : s.firstEof ≤ passes)
    (hDepth : s.firstEof < depth) :
    (wholeExpr s passes depth).answer? =
      some (Expr.parse s) := by
  have hParse :
      Expr.parse s =
        Reading.run s.stop (.operand []) .empty
          (s.tokens.drop 0) :=
    rfl
  have hWaits : Waits [] 0 := ⟨Frame.stops_nil, rfl⟩
  apply Call.Ends.answer?_eq
  refine (readsOperand_expr follows_run ⟨0, .empty⟩
    (Nat.zero_le _)).bind ?_ ?_ ?_
  · intro error hError
    exact hParse.trans (hError [] hWaits)
  · exact not_short hPasses hDepth
  · intro e d hTaken
    have hDone :=
      (hTaken.resumes [] hWaits).trans
        (follows_run.done
          (Reading.step_complete _ e hTaken.closes))
    apply ends_expect_eof
    · intro hEof
      exact hParse.trans (hDone.trans (if_pos hEof))
    · intro hEof
      exact hParse.trans
        (hDone.trans (if_neg (by simp [hEof])))

------------------------------------------------------------
-- Progress
------------------------------------------------------------

/-
  A success of the call moves the cursor over at least one
  token, and only over tokens that do not end the input. A
  call that may go round and wait once for each token that
  is left comes to an end.
-/
structure Progresses
    {α : Type}
    (s : TokenStream)
    (passes depth : Nat)
    (x : Call α) : Prop where
  moves :
    ∀ d a d',
      d.index ≤ s.firstEof →
      x d = .ok a d' →
      d.index < d'.index ∧
      d'.index ≤ s.firstEof ∧
      ∀ i < d'.index, (s.peek i).isEof = false
  ends :
    ∀ d,
      d.index ≤ s.firstEof →
      s.firstEof - d.index ≤ passes →
      s.firstEof - d.index < depth →
      x d ≠ .spent

theorem progresses_of_ends
    {α : Type}
    {x : Call α}
    {onOk : State → α → State → Prop}
    {onError : State → Located ParseError → Prop}
    (hEnds :
      ∀ d,
        d.index ≤ s.firstEof →
        x.Ends d (onOk d) (onError d)
          (Short s passes depth d))
    (hMoves : ∀ d a d', onOk d a d' → Moves s d d') :
    Progresses s passes depth x where
  moves d a d' hIndex hOk := by
    have hTaken := hEnds d hIndex
    unfold Call.Ends at hTaken
    rw [hOk] at hTaken
    have hStep := hMoves d a d' hTaken
    refine ⟨hStep.forward, hStep.barrier, ?_⟩
    intro i hLt
    exact TokenStream.isEof_peek_of_lt
      (Nat.lt_of_lt_of_le hLt hStep.barrier)
  ends d hIndex hPasses hDepth hSpent := by
    have hShort := hEnds d hIndex
    unfold Call.Ends at hShort
    rw [hSpent] at hShort
    unfold Short at hShort
    omega

theorem ReadsOperand.progresses
    {β : Type}
    {resume : Reading → Locals → Nat → Parsed β}
    {n : Nat}
    {x : Call Expr}
    (hReads : ReadsOperand s resume passes depth n x) :
    Progresses s passes depth x :=
  progresses_of_ends hReads (fun _ _ _ => OperandTaken.moves)

theorem progresses_expr :
    Progresses s passes depth (expr s passes depth) :=
  (readsOperand_expr follows_run).progresses

theorem progresses_levels :
    ∀ x ∈ levels s passes depth,
      Progresses s passes (depth + 1) x := by
  have hInner :
      ReadsOperand s _ passes depth 0
        (expr s passes depth) :=
    readsOperand_expr follows_run
  rcases reads_levels follows_run hInner with
    ⟨hPrimary, hUnary, hProduct, hSum, hRelation, hEquality⟩
  have hAssignment :=
    readsOperand_assignment follows_run hInner
  simp only [levels, List.mem_cons, List.not_mem_nil,
    or_false]
  rintro x (rfl | rfl | rfl | rfl | rfl | rfl | rfl)
  · exact progresses_of_ends hPrimary (fun _ _ _ => And.left)
  · exact hUnary.progresses
  · exact hProduct.progresses
  · exact hSum.progresses
  · exact hRelation.progresses
  · exact hEquality.progresses
  · exact hAssignment.progresses

theorem progresses_stmt :
    Progresses s passes depth (stmt s passes depth) := by
  -- The body of a loop can start with any token.
  let p : Parser :=
    .push .start (.whileBody ⟨0, 0⟩ (.int 0 ⟨0, 0⟩))
  have hReads (d : State) (hIndex : d.index ≤ s.firstEof) :
      FinishesStmt s passes depth p d d
        (stmt s passes depth) :=
    readsStmt_stmt p d hIndex (Parser.starts_push _ _ _)
  exact progresses_of_ends hReads
    (fun _ _ _ => StmtTaken.moves)

/-
  The procedures go forward, stay before the first end of
  input and come to an end with the answers of the parsers.
  These are the same for the tokens up to the first end of
  input.
-/
theorem parser_progress
    (s : TokenStream) :
    (∀ passes depth,
      Progresses s passes depth (stmt s passes depth) ∧
      Progresses s passes depth (expr s passes depth) ∧
      ∀ x ∈ levels s passes depth,
        Progresses s passes (depth + 1) x) ∧
    (∀ passes depth,
      s.firstEof ≤ passes →
      s.firstEof < depth →
      (program s passes depth).answer? =
        some (Program.parse s) ∧
      (wholeExpr s passes depth).answer? =
        some (Expr.parse s)) ∧
    Program.ofTokens? (s.toList.take (s.firstEof + 1)) =
      some (Program.parse s) ∧
    Expr.ofTokens? (s.toList.take (s.firstEof + 1)) =
      some (Expr.parse s) := by
  refine ⟨?_, ?_, ?_, ?_⟩
  · intro passes depth
    exact ⟨progresses_stmt, progresses_expr,
      progresses_levels⟩
  · intro passes depth hPasses hDepth
    exact ⟨answer?_program hPasses hDepth,
      answer?_wholeExpr hPasses hDepth⟩
  · rw [← s.toList_cut, Program.ofTokens?,
      TokenStream.ofList?_toList, Option.map_some,
      s.parse_cut.1]
  · rw [← s.toList_cut, Expr.ofTokens?,
      TokenStream.ofList?_toList, Option.map_some,
      s.parse_cut.2]

/-
  An assignment before the first end of input, and behind
  it a brace that is never closed.
-/
theorem tokens_behind_eof_are_cut :
    let s : TokenStream :=
      ⟨[⟨.identifier, "a", ⟨0, 1⟩⟩, ⟨.assign, "=", ⟨2, 1⟩⟩,
          ⟨.number, "1", ⟨4, 1⟩⟩, ⟨.semicolon, ";", ⟨5, 1⟩⟩,
          .eofAt 6, ⟨.lbrace, "\x7b", ⟨7, 1⟩⟩],
        .eofAt 8, rfl⟩
    s.firstEof = 4 ∧
    (program s 4 5).answer? = some (Program.parse s) ∧
    Program.ofTokens? (s.toList.take 5) =
      some (Program.parse s) ∧
    (Program.parse s).toBool = true := by
  intro s
  rcases parser_progress s with ⟨-, hAnswers, hCut, -⟩
  exact ⟨rfl, (hAnswers 4 5 (by decide) (by decide)).1, hCut,
    by decide +kernel⟩

end Descent

end WordLang
