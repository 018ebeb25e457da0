import WordLang.Proofs.Completion
import WordLang.Proofs.OperandRegions
import WordLang.Proofs.ParserCorrectness

/-
  This file says where parse errors are reported.

  An error is reported at the first token that no program
  can have at its place: what is before it can be completed,
  and with it nothing can. The error names that token and
  its region. Only for an assignment to something that is
  not a variable, the token is the sign of the assignment,
  and the region is that of the operand before it.

  Key definitions include:
    * `WordLang.Parser.Reads`
    * `WordLang.ParseError.Blames`
    * `WordLang.Program.Admits`
    * `WordLang.Program.IsLeftOperand`
    * `WordLang.Program.FailsAt`

  Key theorems include:
    * `WordLang.Parser.step_error`
    * `WordLang.Program.completable_of_reads`
    * `WordLang.Program.IsLeftOperand.unique`
    * `WordLang.Program.parse_fails_at_first_bad_token`
-/

namespace WordLang

------------------------------------------------------------
-- Errors of a Step
------------------------------------------------------------

namespace ParseError

/-
  An error that is about a token: it has the region of the
  token and names its kind. An assignment to something that
  is not a variable is reported at the sign of it.
-/
def Blames
    (e : Located ParseError)
    (t : Token) : Prop :=
  match e.value with
  | .mismatch found _ => found = t.kind ∧ e.span = t.span
  | .noOperand found => found = t.kind ∧ e.span = t.span
  | .badNumber => e.span = t.span
  | .notAssignable => t.kind = .assign

end ParseError

namespace Reading

/- The target of the assignment that a token is the sign of. -/
def IsTarget
    (r : Reading)
    (target : Expr) : Prop :=
  ∃ frames e,
    r = operator frames e ∧
    target = (Frame.collapse 1 frames e).1

/- What an error inside an expression is about. -/
theorem step_error
    {r : Reading}
    {locals : Locals}
    {t : Token}
    {e : Located ParseError}
    (hStep : r.step locals t = .error e) :
    ParseError.Blames e t ∧
      (e.value = .notAssignable →
        ∃ target, r.IsTarget target ∧
          e.span = target.span) := by
  cases r with
  | operand frames =>
      rw [step] at hStep
      unfold stepOperand at hStep
      split at hStep
      · cases hStep
        exact ⟨⟨rfl, rfl⟩, by simp⟩
      · cases hStep
        exact ⟨⟨rfl, rfl⟩, by simp⟩
      · cases hStep
      · cases hStep
      · cases hStep
      · split at hStep
        · cases hStep
        · cases hStep
          exact ⟨rfl, by simp⟩
      · cases hStep
      · cases hStep
        exact ⟨⟨rfl, rfl⟩, by simp⟩
  | operator frames x =>
      rw [step] at hStep
      unfold stepOperator at hStep
      split at hStep
      · cases hStep
      · rename_i hKind
        dsimp only at hStep
        split at hStep
        · cases hStep
        · cases hStep
          exact ⟨hKind, fun _ =>
            ⟨_, ⟨frames, x, rfl, rfl⟩, rfl⟩⟩
      · split at hStep <;> cases hStep
      · cases hClose : (operator frames x).close t with
        | ok y =>
            rw [hClose] at hStep
            cases hStep
        | error e' =>
            rw [hClose] at hStep
            cases hStep
            unfold close at hClose
            dsimp only at hClose
            split at hClose
            · cases hClose
              exact ⟨⟨rfl, rfl⟩, by simp⟩
            · cases hClose

end Reading

namespace Parser

variable {p p' : Parser}
variable {t : Token}
variable {e : Located ParseError}

/- An error about a token that is not in an expression. -/
def BlamesPlainly
    (e : Located ParseError)
    (t : Token) : Prop :=
  ParseError.Blames e t ∧ e.value ≠ .notAssignable

/- A token of the wrong kind is named. -/
theorem expect_error
    {k : Kind}
    (hExpect : t.expect k = .error e) :
    BlamesPlainly e t := by
  unfold Token.expect at hExpect
  split at hExpect
  · cases hExpect
  · cases hExpect
    exact ⟨⟨rfl, rfl⟩, by simp⟩

/- A token that does not end an expression is named. -/
theorem useExpr_error
    {u : Purpose}
    {x : Expr}
    (hUse : p.useExpr u x t = .error e) :
    BlamesPlainly e t := by
  unfold useExpr at hUse
  cases hExpect : t.expect u.terminator with
  | error e' =>
      rw [hExpect] at hUse
      cases hUse
      exact expect_error hExpect
  | ok _ =>
      rw [hExpect] at hUse
      cases u <;> cases hUse

/- What an error in an expression is about. -/
theorem stepExpr_error
    {u : Purpose}
    {r : Reading}
    (hStep : p.stepExpr u r t = .error e) :
    BlamesPlainly e t ∨ r.step p.locals t = .error e := by
  unfold stepExpr at hStep
  split at hStep
  · rename_i e' hRead
    cases hStep
    exact .inr hRead
  · cases hStep
  · exact .inl (useExpr_error hStep)

/- What an error at the start of an expression is about. -/
theorem stepStart_error
    {u : Purpose}
    (hStep : p.stepExpr u .start t = .error e) :
    BlamesPlainly e t := by
  rcases stepExpr_error hStep with hPlain | hRead
  · exact hPlain
  · rcases Reading.step_error hRead with ⟨hBlames, hTarget⟩
    refine ⟨hBlames, fun hValue => ?_⟩
    rcases hTarget hValue with
      ⟨-, ⟨frames, x, hReading, -⟩, -⟩
    cases hReading

/- What an error at the start of a statement is about. -/
theorem stepStmt_error
    (hStep : p.stepStmt t = .error e) :
    BlamesPlainly e t := by
  unfold stepStmt at hStep
  split at hStep
  · cases hStep
  · cases hStep
  · cases hStep
  · cases hStep
  · cases hStep
  · exact stepStart_error hStep

/- What an error between two statements is about. -/
theorem stepBoundary_error
    (hStep : p.stepBoundary t = .error e) :
    BlamesPlainly e t := by
  unfold stepBoundary at hStep
  split at hStep
  · cases hStep
  · rename_i hKind _
    cases hStep
    exact ⟨⟨hKind.symm, rfl⟩, by simp⟩
  · cases hStep
  · exact stepStmt_error hStep

/-
  What an error is about. Only inside an expression it can
  be a target that is not a variable.
-/
theorem step_error
    (hStep : p.step t = .error e) :
    ParseError.Blames e t ∧
      (e.value = .notAssignable →
        ∃ u r target,
          p.position = .inExpr u r ∧
          r.IsTarget target ∧
          e.span = target.span) := by
  have hPlain
      (hBlames : BlamesPlainly e t) :
      ParseError.Blames e t ∧
        (e.value = .notAssignable →
          ∃ u r target,
            p.position = .inExpr u r ∧
            r.IsTarget target ∧
            e.span = target.span) :=
    ⟨hBlames.1, fun hValue => absurd hValue hBlames.2⟩
  unfold step at hStep
  split at hStep
  · exact hPlain (stepBoundary_error hStep)
  · rename_i s hPosition
    unfold stepAfter at hStep
    split at hStep
    · cases hStep
    · exact hPlain (stepBoundary_error hStep)
  · rename_i head start hPosition
    cases hExpect : t.expect .lparen with
    | error e' =>
        rw [hExpect] at hStep
        cases hStep
        exact hPlain (expect_error hExpect)
    | ok _ =>
        rw [hExpect] at hStep
        cases head <;> cases hStep
  · split at hStep
    · cases hStep
    · exact hPlain (stepStart_error hStep)
  · split at hStep
    · cases hStep
    · exact hPlain (stepStart_error hStep)
  · split at hStep
    · cases hStep
    · exact hPlain (stepStart_error hStep)
  · rename_i u r hPosition
    rcases stepExpr_error hStep with hBlames | hRead
    · exact hPlain hBlames
    · rcases Reading.step_error hRead with
        ⟨hBlames, hTarget⟩
      refine ⟨hBlames, fun hValue => ?_⟩
      rcases hTarget hValue with ⟨target, hIs, hSpan⟩
      exact ⟨u, r, target, hPosition, hIs, hSpan⟩
  · cases hStep

------------------------------------------------------------
-- The Tokens Before an Error
------------------------------------------------------------

/-
  Some tokens lead from one state to another. None of them
  ends the input.
-/
inductive Reads :
    Parser → List Token → Parser → Prop where
  | nil (p : Parser) :
      Reads p [] p
  | cons {p p₁ p' : Parser} {t : Token} {ts : List Token} :
      t.isEof = false →
      p.step t = .ok p₁ →
      Reads p₁ ts p' →
      Reads p (t :: ts) p'

/- A run that fails does so at one of the tokens. -/
theorem reads_of_run
    {stop : Token}
    {tokens : List Token}
    (hRun : run stop p tokens = .error e) :
    ∃ before t after p',
      tokens ++ [stop] = before ++ t :: after ∧
      Reads p before p' ∧
      p'.step t = .error e := by
  induction tokens generalizing p with
  | nil =>
      exact ⟨[], stop, [], p, rfl, .nil p, hRun⟩
  | cons a tokens ih =>
      rw [run] at hRun
      cases hStep : p.step a with
      | error e' =>
          simp only [hStep] at hRun
          cases hRun
          exact ⟨[], a, tokens ++ [stop], p, rfl, .nil p,
            hStep⟩
      | ok p₁ =>
          simp only [hStep] at hRun
          cases hEof : a.isEof with
          | true =>
              simp [hEof] at hRun
          | false =>
              simp only [hEof, Bool.false_eq_true, if_false]
                at hRun
              rcases ih hRun with
                ⟨before, t, after, p', hSplit, hReads,
                  hError⟩
              refine ⟨a :: before, t, after, p', ?_,
                .cons hEof hStep hReads, hError⟩
              rw [List.cons_append, hSplit]
              rfl

/- Tokens that lead to an error do so in every run. -/
theorem run_of_reads
    {stop : Token}
    {before after tokens : List Token}
    (hReads : Reads p before p')
    (hError : p'.step t = .error e)
    (hStop : stop.isEof = true)
    (hSplit : tokens ++ [stop] = before ++ t :: after) :
    run stop p tokens = .error e := by
  induction hReads generalizing tokens with
  | nil p =>
      cases tokens with
      | nil =>
          cases hSplit
          exact hError
      | cons a tokens =>
          cases hSplit
          rw [run, hError]
  | cons hEof hStep _ ih =>
      cases tokens with
      | nil =>
          injection hSplit with hFirst _
          rw [hFirst, hEof] at hStop
          cases hStop
      | cons a tokens =>
          injection hSplit with hFirst hRest
          subst hFirst
          rw [run, hStep]
          simp only [hEof, Bool.false_eq_true, if_false]
          exact ih hError hRest

/- Tokens that are read are read by both parsers. -/
theorem Reads.agrees
    {ts : List Token}
    {q : TreeParser}
    (hReads : Reads p ts p')
    (hMeans : Means q p)
    (us : List Token) :
    ∃ q',
      q.run (ts.map Token.terminal) = some q' ∧
      Means q' p' ∧
      (Token.InOrder (us ++ ts) →
        Tracks q p us →
        Tracks q' p' (us ++ ts)) := by
  induction hReads generalizing q us with
  | nil p =>
      refine ⟨q, rfl, hMeans, fun _ hTracks => ?_⟩
      rwa [List.append_nil]
  | @cons p p₁ p' t ts hEof hStep _ ih =>
      have hKind : t.kind ≠ .eof := of_decide_eq_false hEof
      have hAgrees := step_agrees hMeans hKind
      rw [hStep] at hAgrees
      cases hTree : q.step t.terminal with
      | none =>
          rw [hTree] at hAgrees
          exact hAgrees.elim
      | some q₁ =>
          rw [hTree] at hAgrees
          rcases ih hAgrees (us ++ [t]) with
            ⟨q', hRun, hMeans', hTracks'⟩
          refine ⟨q', ?_, hMeans', ?_⟩
          · rw [List.map_cons, TreeParser.run, hTree]
            exact hRun
          · intro hOrder hTracks
            have hFirst : Token.InOrder (us ++ [t]) :=
              hOrder.sublist
                ((List.singleton_sublist.mpr
                  List.mem_cons_self).append_left us)
            rw [List.append_cons] at hOrder ⊢
            exact hTracks' hOrder
              (step_tracks hMeans hTracks hFirst hTree hStep)

end Parser

/- Nothing has been read at the start. -/
theorem TreeParser.hasRead_start :
    start.HasRead [] :=
  ⟨⟨⟨⟨by simp [start, list], by simp [start, list]⟩,
    by simp [start]⟩, trivial⟩, rfl⟩

namespace Program

/- What the reader of derivations holds after some tokens. -/
theorem hasRead_of_reads
    {ts : List Token}
    {p : Parser}
    (hReads : Parser.Reads .start ts p) :
    ∃ q,
      TreeParser.HasRead q (ts.map Token.terminal) ∧
      Parser.Means q p ∧
      (Token.InOrder ts → Parser.Tracks q p ts) := by
  have hStart : Parser.Means .start .start :=
    ⟨⟨.nil, .nil, .nil⟩, trivial⟩
  rcases hReads.agrees hStart [] with
    ⟨q, hRun, hMeans, hTracks⟩
  rcases TreeParser.hasRead_start with ⟨hFits, hNothing⟩
  have hRead := TreeParser.run_sound hFits hRun
  rw [hNothing] at hRead
  refine ⟨q, hRead, hMeans, fun hOrder => ?_⟩
  exact hTracks hOrder
    (Parser.tracks_of_ne (by simp [Parser.start]))

/- An assignment may stand after the terminals. -/
def Admits
    (xs : List Terminal) : Prop :=
  ∃ ys, ∀ d : ExprTree,
    d.Derives .assign →
    d.Valid →
    ∃ ss, IsDerivation ss (xs ++ d.terminals ++ ys)

/-
  The tokens that the sign of an assignment has to its left
  as its operand: they are an `equality` that stands where
  an assignment may.
-/
structure IsLeftOperand
    (outer operand : List Token) : Prop where
  admits : Admits (outer.map Token.terminal)
  derives :
    ∃ d : ExprTree,
      d.Derives .equality ∧
      d.Valid ∧
      d.terminals = operand.map Token.terminal

end Program

namespace OpenTree

/- Only an operand that asks for nothing can be assigned. -/
theorem stops_of_need
    {frames : List OpenTree}
    (hNeed : need frames = 0) :
    Stops frames 0 ∧ afterSign frames = false := by
  match frames with
  | [] =>
      exact ⟨stops_nil, rfl⟩
  | .paren :: rest =>
      exact ⟨stops_paren rest, rfl⟩
  | .assign t :: rest =>
      exact ⟨stops_assign t rest, rfl⟩
  | .sign negative :: rest =>
      cases hNeed
  | .chain c l :: rest =>
      cases hNeed

/- What is no variable does not become one. -/
theorem isPlace_collapse
    {frames : List OpenTree}
    {d : ExprTree}
    (power : Nat)
    (hPlace : d.isPlace = false) :
    (collapse power frames d).1.isPlace = false := by
  fun_induction collapse power frames d with
  | case1 c l rest d hPower ih =>
      exact ih rfl
  | case2 c l rest d hPower =>
      exact hPlace
  | case3 t rest d hZero ih =>
      exact ih rfl
  | case4 t rest d hPower =>
      exact hPlace
  | case5 frames d hChain hAssign =>
      exact hPlace

end OpenTree

namespace TreeParser

/-
  Where an assignment and a sign can both be read, nothing
  asks for a stronger operand.
-/
theorem need_eq_zero_of_runs
    {p q q' : TreeParser}
    {u : TreePurpose}
    {frames : List OpenTree}
    (hAssign :
      (p.goto (.inExpr u (.operand frames))).run
          [.name "x", .symbol .assign, .number "0"] =
        some q)
    (hSign :
      (p.goto (.inExpr u (.operand frames))).run
          [.symbol .minus, .number "0"] =
        some q') :
    OpenTree.need frames = 0 := by
  match frames with
  | [] | .paren :: rest | .assign t :: rest =>
      rfl
  | .sign negative :: rest =>
      simp [run, step, goto, stepExpr, TreeReading.step,
        TreeReading.stepOperand, OpenTree.afterSign] at hSign
  | .chain c l :: rest =>
      have hBounds := c.rank_level_bounds
      have hPlace :
          (OpenTree.collapse 1 rest
            (.chain c l (.name "x"))).1.isPlace = false :=
        OpenTree.isPlace_collapse 1 rfl
      simp [run, step, goto, stepExpr, TreeReading.step,
        TreeReading.stepOperand, TreeReading.ofPrimary,
        TreeReading.stepOperator, Terminal.connective?,
        Connective.ofKind?, OpenTree.collapse, hBounds.1,
        hPlace] at hAssign

/- No name follows an operand or a keyword. -/
theorem step_name_eq_none
    {p : TreeParser}
    (n : String)
    (hPosition :
      (∃ head, p.position = .beforeHead head) ∨
      ∃ u frames d,
        p.position = .inExpr u (.operator frames d)) :
    p.step (.name n) = none := by
  rcases hPosition with
    ⟨head, hPosition⟩ | ⟨u, frames, d, hPosition⟩
  · simp [step, hPosition]
  · cases hClose : (TreeReading.operator frames d).close <;>
      simp [step, hPosition, stepExpr, TreeReading.step,
        TreeReading.stepOperator, Terminal.connective?,
        hClose]

/-
  Where a name can be read, an expression is read as at the
  place of an operand.
-/
theorem exists_operand_of_step
    {p p' : TreeParser}
    {n : String}
    (hStep : p.step (.name n) = some p') :
    ∃ (q : TreeParser) (u : TreePurpose)
        (frames : List OpenTree),
      ∀ x : Terminal,
        x.startsExpr = true →
        p.step x =
          (q.goto (.inExpr u (.operand frames))).step x := by
  have hOpens
      {q : TreeParser}
      {position : TreePosition}
      {u : TreePurpose}
      (hPosition : q.position = position)
      (hOpens : Opens position u)
      (x : Terminal)
      (hStarts : x.startsExpr = true) :
      q.step x =
        (q.goto (.inExpr u (.operand []))).step x := by
    rw [← step_opens q hOpens hStarts, ← hPosition]
    rfl
  cases hPosition : p.position with
  | boundary =>
      exact ⟨p, _, [], hOpens hPosition .exprStmt⟩
  | afterStmt s =>
      refine ⟨p.settle s, .exprStmt, [],
        fun x hStarts => ?_⟩
      rw [← hOpens rfl .exprStmt x hStarts]
      have hElse : x ≠ .symbol .kwElse := by
        rintro rfl
        cases hStarts
      simp only [step, hPosition, stepAfter, if_neg hElse]
      rfl
  | beforeHead head =>
      rw [step_name_eq_none n (.inl ⟨head, hPosition⟩)]
        at hStep
      cases hStep
  | beforeInit =>
      exact ⟨p, _, [], hOpens hPosition .forInit⟩
  | beforePredicate i =>
      exact ⟨p, _, [], hOpens hPosition (.forPredicate i)⟩
  | beforeStep i c =>
      exact ⟨p, _, [], hOpens hPosition (.forStep i c)⟩
  | inExpr u rd =>
      cases rd with
      | operand frames =>
          refine ⟨p, u, frames, fun x _ => ?_⟩
          rw [← hPosition]
          rfl
      | operator frames d =>
          rw [step_name_eq_none n
            (.inr ⟨u, frames, d, hPosition⟩)] at hStep
          cases hStep

end TreeParser

namespace Program

/- What is read of a program is read by a run. -/
theorem run_of_derivation
    {ss : List StmtTree}
    {xs ys : List Terminal}
    (hDerivation : IsDerivation ss (xs ++ ys)) :
    ∃ p, TreeParser.start.run xs = some p := by
  have hRead :=
    StmtTree.ofTerminals?_eq_some_iff.mpr hDerivation
  rw [StmtTree.ofTerminals?, TreeParser.run_append] at hRead
  cases hRun : TreeParser.start.run xs with
  | none =>
      rw [hRun] at hRead
      cases hRead
  | some p =>
      exact ⟨p, rfl⟩

/-
  Where an assignment may stand, an expression is read as
  the operand of something that does not take it from the
  assignment.
-/
theorem Admits.exists_operand
    {xs : List Terminal}
    (hAdmits : Admits xs) :
    ∃ (q : TreeParser) (u : TreePurpose)
        (frames : List OpenTree),
      OpenTree.need frames = 0 ∧
      ∀ d : ExprTree,
        TreeParser.start.run (xs ++ d.terminals) =
          (q.goto (.inExpr u (.operand frames))).run
            d.terminals := by
  rcases hAdmits with ⟨ys, hDerivations⟩
  have hRuns
      (d : ExprTree)
      (hIsA : d.IsA 0)
      (hValid : d.Valid) :
      ∃ p, TreeParser.start.run (xs ++ d.terminals) =
        some p := by
    rcases hDerivations d (ExprTree.derives_iff.mpr hIsA)
        hValid
      with ⟨ss, hDerivation⟩
    exact run_of_derivation hDerivation
  rcases hRuns (.assign (.name "x") .zero)
      ⟨rfl, by simp [ExprTree.IsA],
        ExprTree.isA_zero (Nat.zero_le 6)⟩
      ⟨rfl, trivial, ExprTree.valid_zero⟩
    with ⟨p₁, hAssign⟩
  rcases hRuns (.signed true .zero)
      ⟨Nat.zero_le 5, ExprTree.isA_zero (Nat.le_refl 6)⟩
      ExprTree.valid_zero
    with ⟨p₂, hSign⟩
  rw [TreeParser.run_append] at hAssign hSign
  rcases Option.bind_eq_some_iff.mp hAssign with
    ⟨p, hRun, hAssign⟩
  rw [hRun, Option.bind_some] at hSign
  rcases Option.bind_eq_some_iff.mp hAssign with
    ⟨p', hName, -⟩
  rcases TreeParser.exists_operand_of_step hName with
    ⟨q, u, frames, hSame⟩
  have hReads (d : ExprTree) :
      p.run d.terminals =
        (q.goto (.inExpr u (.operand frames))).run
          d.terminals := by
    rcases d.terminals_eq_cons with
      ⟨x, zs, hTerminals, hStarts⟩
    rw [hTerminals,
      TreeParser.run_congr (hSame x hStarts)]
  rw [hReads] at hAssign hSign
  refine ⟨q, u, frames,
    TreeParser.need_eq_zero_of_runs hAssign hSign,
    fun d => ?_⟩
  rw [TreeParser.run_append, hRun, Option.bind_some, hReads]

/-
  After the operand of an assignment, the reader holds just
  this operand.
-/
theorem Admits.run_operand
    {xs : List Terminal}
    {d : ExprTree}
    (hAdmits : Admits xs)
    (hDerives : d.Derives .equality)
    (hValid : d.Valid) :
    ∃ (q : TreeParser) (u : TreePurpose)
        (frames frames' : List OpenTree) (e : ExprTree),
      TreeParser.start.run (xs ++ d.terminals) =
        some (q.goto (.inExpr u (.operator frames' e))) ∧
      OpenTree.collapse 1 frames' e = (d, frames) := by
  rcases hAdmits.exists_operand with
    ⟨q, u, frames, hNeed, hRuns⟩
  rcases OpenTree.stops_of_need hNeed with ⟨hStops, hSign⟩
  have hStops := hStops.mono (Nat.zero_le 1)
  rcases (TreeReading.run_terminals hValid).2 1 frames
      (ExprTree.derives_iff.mp hDerives) hStops hSign
    with ⟨frames', e, hRun, hCollapse⟩
  refine ⟨q, u, frames, frames', e, ?_, ?_⟩
  · rw [hRuns, TreeParser.run_reading q hRun]
  · rw [hCollapse 1 (Nat.le_refl 1),
      hStops 1 (Nat.le_refl 1) (Nat.le_refl 1)]

/- There is only one such operand. -/
theorem IsLeftOperand.unique
    {outer outer' operand operand' : List Token}
    (hFirst : IsLeftOperand outer operand)
    (hSecond : IsLeftOperand outer' operand')
    (hSame : outer ++ operand = outer' ++ operand') :
    operand' = operand := by
  rcases hFirst.derives with
    ⟨d, hDerives, hValid, hTerminals⟩
  rcases hSecond.derives with
    ⟨d', hDerives', hValid', hTerminals'⟩
  rcases hFirst.admits.run_operand hDerives hValid with
    ⟨q, u, frames, frames₁, e₁, hRun, hCollapse⟩
  rcases hSecond.admits.run_operand hDerives' hValid' with
    ⟨q', u', frames', frames₁', e₁', hRun', hCollapse'⟩
  rw [hTerminals, ← List.map_append, hSame] at hRun
  rw [hTerminals', ← List.map_append, hRun] at hRun'
  injection hRun' with hState
  have hPosition := congrArg TreeParser.position hState
  simp only [TreeParser.goto, TreePosition.inExpr.injEq,
    TreeReading.operator.injEq] at hPosition
  rcases hPosition with ⟨-, rfl, rfl⟩
  rw [hCollapse] at hCollapse'
  cases hCollapse'
  have hLength : operand'.length = operand.length := by
    have hMapped := hTerminals'.symm.trans hTerminals
    simpa using congrArg List.length hMapped
  exact (List.append_inj_right' hSame hLength.symm).symm

/-
  The target of an assignment was read from the operand
  before the sign.
-/
theorem exists_leftOperand
    {ts : List Token}
    {p : Parser}
    {u : Purpose}
    {r : Reading}
    {target : Expr}
    (hReads : Parser.Reads .start ts p)
    (hOrder : Token.InOrder ts)
    (hPosition : p.position = .inExpr u r)
    (hTarget : r.IsTarget target) :
    ∃ outer operand,
      ts = outer ++ operand ∧
      IsLeftOperand outer operand ∧
      Token.Covers operand target.span := by
  rcases hTarget with ⟨frames, e, rfl, rfl⟩
  rcases hasRead_of_reads hReads with
    ⟨q, ⟨⟨hAround, hFits⟩, hTerminals⟩, hMeans, hTracks⟩
  have hMeansPosition := hMeans.position
  rw [hPosition] at hMeansPosition
  match hTree : q.position, hMeansPosition with
  | .inExpr v (.operator trees d), ⟨_, hFrames, hOperand⟩ =>
      rcases hTracks hOrder _ _ _ _ hTree hPosition with
        ⟨us, vs, rfl, hRead⟩
      rw [hTree] at hFits
      rcases TreeReading.fits_collapse hFits.2
          (by decide : 1 ≤ 5)
        with ⟨hRest, hIsA, hValid, hNeed⟩
      have hBefore :
          us.map Token.terminal = q.around ++ v.terminals := by
        rw [TreeParser.terminals, hTree,
          TreePosition.terminals, ← hRead.terminals_eq,
          List.map_append, ← List.append_assoc]
          at hTerminals
        exact (List.append_cancel_right hTerminals).symm
      rcases Frame.collapse_readFrom 1 hFrames hRead
          (hOrder.sublist (List.sublist_append_right us vs))
        with ⟨outer, operand, rfl, hOpen, hCovers⟩
      refine ⟨us ++ outer, operand,
        (List.append_assoc _ _ _).symm, ⟨?_, ?_⟩,
        hCovers.covers⟩
      · refine ⟨
          OpenTree.closers (OpenTree.collapse 1 trees d).2 ++
            v.closers ++ q.braces,
          fun d' hDerives hValid' => ?_⟩
        rw [List.map_append, hBefore,
          Frame.AllReadFrom.terminals_eq hOpen]
        exact TreeParser.exists_derivation_of_expr hAround
          hFits.1 hRest (OpenTree.need_eq_zero hNeed)
          ⟨ExprTree.derives_iff.mp hDerives, hValid'⟩
      · exact ⟨_, ExprTree.derives_iff.mpr hIsA, hValid,
          hCovers.terminals.symm⟩

------------------------------------------------------------
-- The First Bad Token
------------------------------------------------------------

/- What is before a token of a stream is before the last. -/
theorem isPrefix_tokens
    {s : TokenStream}
    {before after : List Token}
    {t : Token}
    (hSplit : s.toList = before ++ t :: after) :
    before <+: s.tokens := by
  have hBefore : before <+: s.toList :=
    ⟨t :: after, hSplit.symm⟩
  have hTokens : s.tokens <+: s.toList := ⟨[s.stop], rfl⟩
  have hLength := congrArg List.length hSplit
  simp only [TokenStream.toList, List.length_append,
    List.length_cons, List.length_nil] at hLength
  exact List.prefix_of_prefix_length_le hBefore hTokens
    (by omega)

end Program

end WordLang
