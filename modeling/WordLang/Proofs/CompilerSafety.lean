import WordLang.Compile
import WordLang.Proofs.CursorLexer
import WordLang.Proofs.Numeral
import WordLang.Proofs.ParserSafety
import WordLang.Proofs.StackDepth

/-
  This file proves that nothing goes wrong inside the
  compiler.

  A source of less than 2^28 bytes is compiled, or it has an
  error that a lexer or a parser reports. What the stages
  take for granted holds on the way: cuts of the source have
  an answer, no index is past the last token, numbers are
  read back, the program fits its own table, its 32-bit
  numbers do not wrap, and the stack is balanced.

  Key definitions include:
    * `WordLang.Program.Exact`

  Key theorems include:
    * `WordLang.Program.labels_lower`
    * `WordLang.numbers_read_back`
    * `WordLang.compile_never_breaks`
-/

namespace WordLang

------------------------------------------------------------
-- Programs
------------------------------------------------------------

namespace Program

/- The 32-bit numbers of a program do not wrap. -/
structure Exact
    (p : Program) : Prop where
  offsets :
    ∀ i < p.locals.size,
      (Locals.offsetAt i).bytes.toNat = 8 * (i + 1)
  frame :
    (frameSize p.locals).toNat =
      16 * ((p.locals.size + 1) / 2)
  labels : p.lower.labels < 2 ^ 32

/- A program takes a label for each branch and loop. -/
theorem labels_lower
    {p : Program}
    (hResolved : p.Resolved) :
    p.lower.labels = p.controls := by
  have hFault : p.lower.fault? = none :=
    p.fault?_lower_eq_none_iff.mpr hResolved
  rcases emits_lower hFault with ⟨body, hBody, -⟩
  rcases Stmt.emits_codeAll hBody with ⟨hCount, -⟩
  rw [hCount, Nat.zero_add]
  rfl

/- A program with few variables and branches is exact. -/
theorem exact_of_resolved
    {p : Program}
    (hResolved : p.Resolved)
    (hLocals : p.locals.size < 2 ^ 28)
    (hControls : p.controls < 2 ^ 28) :
    p.Exact where
  offsets i hIndex := Locals.toNat_offsetAt (by omega)
  frame := toNat_frameSize p.locals hLocals
  labels := by
    rw [labels_lower hResolved]
    omega

/- A resolved program has a text. -/
theorem generate_of_resolved
    {p : Program}
    (hResolved : p.Resolved)
    (target : Target) :
    ∃ text, p.generate target = .ok text := by
  have hFault : p.lower.fault? = none :=
    p.fault?_lower_eq_none_iff.mpr hResolved
  unfold generate
  simp only [hFault]
  exact ⟨_, rfl⟩

end Program

------------------------------------------------------------
-- Sources
------------------------------------------------------------

/- The parser reads back every number that was read. -/
theorem numbers_read_back
    {src : String}
    {s : TokenStream}
    (hLex : lex src = .ok s) :
    ∀ t ∈ s.tokens,
      t.kind = .number →
      ∃ v,
        Literal.read? t.lexeme = some v ∧
        toString v.toInt = t.lexeme := by
  intro t hMem hKind
  rcases number_of_lex hLex t hMem hKind with
    ⟨n, hRange, hLexeme⟩
  have hRange : n < 2 ^ 63 := hRange
  refine ⟨Int64.ofNat n, ?_, ?_⟩
  · rw [hLexeme]
    exact Literal.read?_toString hRange
  · rw [hLexeme, Int64.toInt_ofNat_of_lt hRange]
    rfl

/- What is lexed and parsed is compiled. -/
theorem compile_of_parse
    {src : String}
    {s : TokenStream}
    {p : Program}
    {text : String}
    {target : Target}
    (hLex : lex src = .ok s)
    (hParse : Program.parse s = .ok p)
    (hText : p.generate target = .ok text) :
    compile src target = .ok text := by
  simp only [compile, programOf, tokensOf, hLex]
  simp only [bind, Except.bind, programOfTokens, hParse,
    hText]
  rfl

/- What is lexed and not parsed has an error of the parser. -/
theorem compile_of_parse_error
    {src : String}
    {s : TokenStream}
    {e : Located ParseError}
    {target : Target}
    (hLex : lex src = .ok s)
    (hParse : Program.parse s = .error e) :
    compile src target = .error (.parse e) := by
  simp only [compile, programOf, tokensOf, hLex]
  simp only [bind, Except.bind, programOfTokens, hParse]

/- What is not lexed has an error of the lexer. -/
theorem compile_of_lex_error
    {src : String}
    {failure : LexFailure}
    {target : Target}
    (hLex : lex src = .error failure) :
    compile src target = .error (.lex failure.error) := by
  simp only [compile, programOf, tokensOf, hLex]
  rfl

/- What the stages take for granted of a parsed program. -/
theorem sound_of_parse
    {s : TokenStream}
    {p : Program}
    (hTokens : s.tokens.length < 2 ^ 28)
    (hParse : Program.parse s = .ok p) :
    p.Resolved ∧ p.Exact ∧ p.Balanced := by
  have hLocals : p.locals.size < 2 ^ 28 := by
    have hLe := Program.size_locals_le_of_parse hParse
    omega
  have hResolved : p.Resolved :=
    Program.resolved_of_parse hParse hLocals
  rcases Program.counts_of_parse hParse with
    ⟨hControls, hWords⟩
  have hExact : p.Exact := by
    apply Program.exact_of_resolved hResolved hLocals
    exact Nat.lt_of_le_of_lt hControls hTokens
  have hBalanced : p.Balanced :=
    Program.balanced_of_resolved hResolved (by omega)
  exact ⟨hResolved, hExact, hBalanced⟩

/-
  A source is compiled or has an error that a lexer or a
  parser reports, and all that the stages take for granted
  on the way holds.
-/
theorem compile_never_breaks
    (src : String)
    (target : Target)
    (hSize : src.utf8ByteSize < 2 ^ 28) :
    ((∃ text, compile src target = .ok text) ∨
      (∃ e, compile src target = .error (.lex e)) ∨
      ∃ e,
        compile src target = .error (.parse e) ∧
        e.value ≠ .badNumber) ∧
    Cursor.lex? src = some (lex src) ∧
    (∃ result, lexInto? [] src = some result) ∧
    ∀ s, lex src = .ok s →
      (∀ t ∈ s.tokens,
        t.kind = .number →
        ∃ v,
          Literal.read? t.lexeme = some v ∧
          toString v.toInt = t.lexeme) ∧
      Program.parseAt? s.toList = some (Program.parse s) ∧
      ∀ p, Program.parse s = .ok p →
        p.Resolved ∧ p.Exact ∧ p.Balanced ∧
        ∃ text, p.generate target = .ok text := by
  have hTokens {s : TokenStream} (hLex : lex src = .ok s) :
      s.tokens.length < 2 ^ 28 :=
    Nat.lt_of_le_of_lt (length_tokens_le_of_lex hLex) hSize
  refine ⟨?_, ?_, ?_, ?_⟩
  · cases hLex : lex src with
    | error failure =>
        exact .inr (.inl ⟨_, compile_of_lex_error hLex⟩)
    | ok s =>
        cases hParse : Program.parse s with
        | error e =>
            right
            right
            refine ⟨e, compile_of_parse_error hLex hParse, ?_⟩
            intro hBad
            apply Program.parse_ne_badNumber _ e.span
            · rw [hParse, ← hBad]
            · intro t hMem hKind
              rcases numbers_read_back hLex t hMem hKind with
                ⟨v, hRead, -⟩
              exact ⟨v, hRead⟩
        | ok p =>
            rcases sound_of_parse (hTokens hLex) hParse with
              ⟨hResolved, -, -⟩
            rcases Program.generate_of_resolved hResolved
              target with ⟨text, hText⟩
            exact .inl
              ⟨text, compile_of_parse hLex hParse hText⟩
  · exact Cursor.lex?_eq_lex (by omega)
  · unfold lexInto?
    cases lex src <;> exact ⟨_, rfl⟩
  · intro s hLex
    refine ⟨numbers_read_back hLex,
      Program.parseAt?_eq_parse s, ?_⟩
    intro p hParse
    rcases sound_of_parse (hTokens hLex) hParse with
      ⟨hResolved, hExact, hBalanced⟩
    exact ⟨hResolved, hExact, hBalanced,
      Program.generate_of_resolved hResolved target⟩

/-
  A source with a number in another radix, a sign and two
  assignments is compiled, and its stack is balanced.
-/
theorem nested_assignment_never_breaks :
    let src := "a = b = 0x1F; return -(a + b) / 2;"
    src.utf8ByteSize < 2 ^ 28 ∧
      ∃ s p text,
        lex src = .ok s ∧
        Program.parse s = .ok p ∧
        p.Balanced ∧
        p.generate .darwin = .ok text := by
  intro src
  have hSize : src.utf8ByteSize < 2 ^ 28 := by decide
  have hProgram : (programOf src).toBool = true := by
    decide +kernel
  refine ⟨hSize, ?_⟩
  rcases compile_never_breaks src .darwin hSize with
    ⟨-, -, -, hStages⟩
  cases hLex : lex src with
  | error failure =>
      simp only [programOf, tokensOf, hLex] at hProgram
      cases hProgram
  | ok s =>
      cases hParse : Program.parse s with
      | error e =>
          simp only [programOf, tokensOf, hLex, bind,
            Except.bind, programOfTokens,
            hParse] at hProgram
          cases hProgram
      | ok p =>
          rcases hStages s hLex with ⟨-, -, hSound⟩
          rcases hSound p hParse with
            ⟨-, -, hBalanced, text, hText⟩
          exact ⟨s, p, text, rfl, hParse, hBalanced, hText⟩

end WordLang
