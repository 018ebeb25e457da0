import WordLang.Proofs.CompilerSafety
import WordLang.Proofs.ErrorPosition
import WordLang.Proofs.LexFailures

/-
  This file finds the regions of errors in a source.

  The region of an error is that of a token, of the operand
  before an assignment sign, or of some characters that no
  token starts with. So it lies inside the source and starts
  and ends between characters. It is empty only when input
  ended too early, and then it stands at the end.

  Key definitions include:
    * `WordLang.CompileError.found?`

  Key theorems include:
    * `WordLang.exists_cut_of_lex_error`
    * `WordLang.exists_cut_of_parse_error`
    * `WordLang.exists_cut_of_compile_error`
-/

namespace WordLang

/- The kind of token that an error was found at, if told. -/
def CompileError.found? : CompileError → Option Kind
| parse ⟨.noOperand found, _⟩ => some found
| parse ⟨.mismatch found _, _⟩ => some found
| _ => none

------------------------------------------------------------
-- Errors of the Lexer
------------------------------------------------------------

/- The region of a lexical error is some of the text. -/
theorem exists_cut_of_lex_error
    {src : String}
    {failure : LexFailure}
    (hBytes : Text.byteLength src.toList ≤ Span.maxLen)
    (hLex : lex src = .error failure) :
    ∃ before inside after,
      Text.Cut src.toList failure.error.span before inside
        after ∧
      inside ≠ [] := by
  rcases failing_scan_of_lex_error hLex with
    ⟨before, inside, after, hText, ⟨c, cs, hFirst, -⟩, -,
      hSpan, -⟩
  rw [hText, Text.byteLength_append,
    Text.byteLength_append] at hBytes
  refine ⟨before, inside, after,
    cut_of_between hText hSpan (by omega), ?_⟩
  rw [hFirst]
  exact List.cons_ne_nil c cs

------------------------------------------------------------
-- Errors of the Parser
------------------------------------------------------------

/- A region of some tokens is not empty. -/
theorem exists_cut_of_covers
    {src : String}
    {s : TokenStream}
    {us vs ws : List Token}
    {region : Span}
    (hBytes : Text.byteLength src.toList ≤ Span.maxLen)
    (hLex : lex src = .ok s)
    (hTokens : s.tokens = us ++ (vs ++ ws))
    (hCovers : Token.Covers vs region) :
    ∃ before inside after,
      Text.Cut src.toList region before inside after ∧
      inside ≠ [] := by
  rcases exists_cut hBytes hLex hTokens hCovers with
    ⟨before, inside, after, s', hCut, hLex', hShift⟩
  refine ⟨before, inside, after, hCut, ?_⟩
  rintro rfl
  have hEmpty :
      lex (String.ofList []) =
        .ok ⟨[], Token.eofAt 0, rfl⟩ := rfl
  rw [hEmpty] at hLex'
  cases hLex'
  rw [List.map_nil] at hShift
  subst hShift
  rcases hCovers with ⟨first, last, hHead, -, -⟩
  cases hHead

/- The region of a token is empty at the end of input. -/
theorem exists_cut_of_mem
    {src : String}
    {s : TokenStream}
    {t : Token}
    (hBytes : Text.byteLength src.toList ≤ Span.maxLen)
    (hLex : lex src = .ok s)
    (hMem : t ∈ s.toList) :
    ∃ before inside after,
      Text.Cut src.toList t.span before inside after ∧
      (inside = [] ↔ t.kind = .eof) ∧
      (t.kind = .eof →
        t.span = ⟨Text.byteLength src.toList, 0⟩) := by
  rcases List.mem_append.mp hMem with hToken | hStop
  · have hKind := kind_ne_eof_of_lex hBytes hLex t hToken
    have hFits := (inOrder_of_lex hLex).fits t hToken
    rcases List.append_of_mem hToken with ⟨us, ws, hTokens⟩
    have hCovers := Token.covers_singleton hFits
    rw [← List.singleton_append] at hTokens
    rcases exists_cut_of_covers hBytes hLex hTokens hCovers
      with ⟨before, inside, after, hCut, hInside⟩
    exact ⟨before, inside, after, hCut,
      iff_of_false hInside hKind,
      fun hEof => absurd hEof hKind⟩
  · rw [List.mem_singleton.mp hStop, (walk_of_lex hLex).2,
      Token.eofAt_eq]
    refine ⟨src.toList, [], [], ⟨by simp, rfl, rfl⟩,
      iff_of_true rfl rfl, fun _ => rfl⟩

/- The region of an assignment's target is not empty. -/
theorem exists_cut_of_target
    {src : String}
    {s : TokenStream}
    {before after : List Token}
    {t : Token}
    {p : Parser}
    {u : Purpose}
    {r : Reading}
    {target : Expr}
    (hBytes : Text.byteLength src.toList ≤ Span.maxLen)
    (hLex : lex src = .ok s)
    (hSplit : s.toList = before ++ t :: after)
    (hReads : Parser.Reads .start before p)
    (hPosition : p.position = .inExpr u r)
    (hTarget : r.IsTarget target) :
    ∃ front inside back,
      Text.Cut src.toList target.span front inside back ∧
      inside ≠ [] := by
  have hPrefix := Program.isPrefix_tokens hSplit
  have hOrder : Token.InOrder before :=
    (inOrder_of_lex hLex).sublist hPrefix.sublist
  rcases Program.exists_leftOperand hReads hOrder hPosition
      hTarget with
    ⟨outer, operand, rfl, -, hCovers⟩
  rcases hPrefix with ⟨ws, hTokens⟩
  rw [List.append_assoc] at hTokens
  exact exists_cut_of_covers hBytes hLex hTokens.symm hCovers

theorem exists_cut_of_parse_error
    {src : String}
    {s : TokenStream}
    {e : Located ParseError}
    (hBytes : Text.byteLength src.toList ≤ Span.maxLen)
    (hLex : lex src = .ok s)
    (hParse : Program.parse s = .error e) :
    ∃ before inside after,
      Text.Cut src.toList e.span before inside after ∧
      (inside = [] ↔
        (CompileError.parse e).found? = some .eof) ∧
      ((CompileError.parse e).found? = some .eof →
        e.span = ⟨Text.byteLength src.toList, 0⟩) := by
  have hRun :
      Parser.run s.stop .start s.tokens = .error e := by
    unfold Program.parse at hParse
    cases hRun : Parser.run s.stop .start s.tokens with
    | ok p =>
        rw [hRun] at hParse
        cases hParse
    | error e' =>
        rw [hRun] at hParse
        cases hParse
        rfl
  rcases Parser.reads_of_run hRun with
    ⟨before, t, after, p, hSplit, hReads, hStep⟩
  rcases Parser.step_error hStep with ⟨hBlames, hTarget⟩
  have hMem : t ∈ s.toList := by
    rw [TokenStream.toList, hSplit]
    simp
  rcases exists_cut_of_mem hBytes hLex hMem with
    ⟨front, inside, back, hCut, hEmpty, hEnd⟩
  rcases e with ⟨value, span⟩
  cases value with
  | notAssignable =>
      rcases hTarget rfl with
        ⟨u, r, target, hPosition, hIs, rfl⟩
      rcases exists_cut_of_target hBytes hLex hSplit hReads
          hPosition hIs with
        ⟨front, inside, back, hCut, hInside⟩
      have hFound :
          (CompileError.parse
            ⟨.notAssignable, target.span⟩).found? ≠
              some .eof := by
        simp [CompileError.found?]
      exact ⟨front, inside, back, hCut,
        iff_of_false hInside hFound,
        fun hEof => absurd hEof hFound⟩
  | noOperand found =>
      rcases hBlames with ⟨rfl, rfl⟩
      refine ⟨front, inside, back, hCut, ?_⟩
      simpa [CompileError.found?] using And.intro hEmpty hEnd
  | mismatch found wanted =>
      rcases hBlames with ⟨rfl, rfl⟩
      refine ⟨front, inside, back, hCut, ?_⟩
      simpa [CompileError.found?] using And.intro hEmpty hEnd
  | badNumber =>
      have hNumbers :
          ∀ t ∈ s.tokens,
            t.kind = .number →
            ∃ v, Literal.read? t.lexeme = some v := by
        intro t hToken hNumber
        rcases numbers_read_back hLex t hToken hNumber with
          ⟨v, hRead, -⟩
        exact ⟨v, hRead⟩
      exact absurd hParse
        (Program.parse_ne_badNumber hNumbers span)

/-
  The region of an error lies in the source between
  characters, and is empty only at the end of input.
-/
theorem exists_cut_of_compile_error
    {src : String}
    {target : Target}
    {e : CompileError}
    (hSize : src.utf8ByteSize < 2 ^ 28)
    (hError : compile src target = .error e) :
    ∃ before inside after,
      Text.Cut src.toList e.span before inside after ∧
      (inside = [] ↔ e.found? = some .eof) ∧
      (e.found? = some .eof →
        e.span = ⟨src.utf8ByteSize, 0⟩) := by
  have hBytes := byteLength_le_maxLen hSize
  rw [Text.utf8ByteSize_eq_byteLength]
  cases hLex : lex src with
  | error failure =>
      rw [compile_of_lex_error hLex] at hError
      cases hError
      rcases exists_cut_of_lex_error hBytes hLex with
        ⟨before, inside, after, hCut, hInside⟩
      have hFound (e : Located LexError) :
          (CompileError.lex e).found? ≠ some .eof := by
        simp [CompileError.found?]
      exact ⟨before, inside, after, hCut,
        iff_of_false hInside (hFound _),
        fun hEof => absurd hEof (hFound _)⟩
  | ok s =>
      cases hParse : Program.parse s with
      | error e' =>
          rw [compile_of_parse_error hLex hParse] at hError
          cases hError
          exact exists_cut_of_parse_error hBytes hLex hParse
      | ok p =>
          have hTokens : s.tokens.length < 2 ^ 28 :=
            Nat.lt_of_le_of_lt (length_tokens_le_of_lex hLex)
              hSize
          rcases Program.generate_of_resolved
              (sound_of_parse hTokens hParse).1 target with
            ⟨text, hText⟩
          rw [compile_of_parse hLex hParse hText] at hError
          cases hError

end WordLang
