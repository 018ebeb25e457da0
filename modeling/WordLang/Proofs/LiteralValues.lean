import WordLang.Proofs.CommandRuns
import WordLang.Proofs.CompilerCorrectness
import WordLang.Proofs.ConstantCode
import WordLang.Proofs.LexFailures

/-
  This file follows a literal from the source to the code.

  The lexer adds up the digits of a literal and writes the
  value in decimal digits, the parser reads these as a word,
  and the code has the word in decimal digits again. A value
  that is no word is found by the lexer, whatever the number
  of digits. The region of a literal is that of all its
  digits as long as 32 bits can hold its length.

  Key definitions include:
    * `WordLang.Lexer.Reads`
    * `WordLang.Radix.IsLiteral`
    * `WordLang.IsNumeral`
    * `WordLang.Literal.Arrives`

  Key theorems include:
    * `WordLang.Lexer.walk_of_reads`
    * `WordLang.Radix.IsLiteral.reads`
    * `WordLang.Radix.IsLiteral.walk_eq_error`
    * `WordLang.isNumeral_toString`
    * `WordLang.literal_keeps_its_value`
-/

namespace WordLang

------------------------------------------------------------
-- Places of a Source
------------------------------------------------------------

/-
  Reading leads from one place of a text to another, over
  blanks and tokens. Each token is the longest at its place,
  and its value is a word if it is a number.
-/
inductive Lexer.Reads :
    Nat →
    List Char →
    List Token →
    Nat →
    List Char →
    Prop where
  | nil (pos : Nat) (cs : List Char) :
      Reads pos cs [] pos cs
  | blank
      {pos pos' : Nat}
      {c : Char}
      {cs cs' : List Char}
      {ts : List Token} :
      IsBlank c →
      Reads (pos + c.utf8Size) cs ts pos' cs' →
      Reads pos (c :: cs) ts pos' cs'
  | token
      {pos pos' : Nat}
      {text rest cs' : List Char}
      {kind : Kind}
      {lexeme : String}
      {ts : List Token} :
      IsLongest (text ++ rest) text →
      Denotes text kind lexeme →
      (kind = .number →
        ∃ n, n < 2 ^ 63 ∧ lexeme = toString n) →
      ¬ IsBareMark (text ++ rest) →
      Reads (pos + Text.byteLength text) rest ts pos' cs' →
      Reads pos (text ++ rest)
        (⟨kind, lexeme,
          Span.between pos (pos + Text.byteLength text)⟩ ::
            ts)
        pos' cs'

namespace Lexer.Reads

theorem trans
    {pos pos' pos'' : Nat}
    {cs cs' cs'' : List Char}
    {ts ts' : List Token}
    (hFirst : Reads pos cs ts pos' cs')
    (hNext : Reads pos' cs' ts' pos'' cs'') :
    Reads pos cs (ts ++ ts') pos'' cs'' := by
  induction hFirst with
  | nil pos cs =>
      exact hNext
  | blank hBlank _ ih =>
      exact Reads.blank hBlank (ih hNext)
  | token hLongest hDenotes hValue hMark _ ih =>
      exact Reads.token hLongest hDenotes hValue hMark
        (ih hNext)

/- A place is as many bytes on as there are before it. -/
theorem exists_before
    {pos pos' : Nat}
    {cs cs' : List Char}
    {ts : List Token}
    (hReads : Reads pos cs ts pos' cs') :
    ∃ before,
      cs = before ++ cs' ∧
      pos' = pos + Text.byteLength before := by
  induction hReads with
  | nil pos cs =>
      exact ⟨[], rfl, rfl⟩
  | @blank pos _ c _ _ _ _ _ ih =>
      rcases ih with ⟨before, rfl, hEnd⟩
      refine ⟨c :: before, rfl, ?_⟩
      rw [hEnd, Text.byteLength, Nat.add_assoc]
  | @token pos _ text _ _ _ _ _ _ _ _ _ _ ih =>
      rcases ih with ⟨before, rfl, hEnd⟩
      refine ⟨text ++ before, ?_, ?_⟩
      · rw [List.append_assoc]
      · rw [hEnd, Text.byteLength_append, Nat.add_assoc]

/- A token that the lexer finds is read. -/
theorem of_scan
    {c : Char}
    {cs : List Char}
    {kind : Kind}
    {lexeme : String}
    (pos : Nat)
    (hResult : (scan c cs).result = .ok (kind, lexeme)) :
    let text := c :: cs.take (scan c cs).extra
    let hi := pos + Text.byteLength text
    Reads pos (c :: cs)
      [⟨kind, lexeme, Span.between pos hi⟩]
      hi (cs.drop (scan c cs).extra) := by
  intro text hi
  have hRight := scan_right c cs
  simp only [Scan.Right, hResult, List.take_succ_cons]
    at hRight
  rcases hRight with ⟨hLongest, hDenotes, hMark⟩
  have hText :
      c :: cs = text ++ cs.drop (scan c cs).extra := by
    rw [List.cons_append, List.take_append_drop]
  rw [hText] at hLongest hMark ⊢
  exact Reads.token hLongest hDenotes
    (number_of_scan c cs kind lexeme hResult) hMark
    (Reads.nil hi _)

end Lexer.Reads

/- The first character where a token starts. -/
theorem IsLongest.cons
    {text rest : List Char}
    (hLongest : IsLongest (text ++ rest) text) :
    ∃ c cs, text ++ rest = c :: cs ∧ ¬ IsBlank c := by
  rcases hLongest.head with ⟨c, cs, hText, hFirst⟩
  refine ⟨c, cs ++ rest, ?_, hFirst⟩
  rw [hText, List.cons_append]

namespace Lexer

/- A walk where a scan takes a known text. -/
theorem walk_of_taken
    {c : Char}
    {cs text rest : List Char}
    (pos : Nat)
    (hBlank : ¬ IsBlank c)
    (hCons : text ++ rest = c :: cs)
    (hTaken : c :: cs.take (scan c cs).extra = text) :
    let hi := pos + Text.byteLength text
    walk 0 pos (text ++ rest) =
      match (scan c cs).result with
      | .error e => ([], .error ⟨e, Span.between pos hi⟩)
      | .ok (kind, lexeme) =>
          (⟨kind, lexeme, Span.between pos hi⟩ ::
              (walk 0 hi rest).1,
            (walk 0 hi rest).2) := by
  intro hi
  have hJoined :
      text ++ cs.drop (scan c cs).extra = text ++ rest := by
    rw [hCons]
    nth_rewrite 1 [← hTaken]
    rw [List.cons_append, List.take_append_drop]
  have hDropped := List.append_cancel_left hJoined
  have hStart : isBlank c = false := by
    rw [← isBlank_iff] at hBlank
    simpa using hBlank
  rw [hCons, walk_token _ hStart]
  simp only [hTaken, hDropped]
  rfl

/- A walk goes on where reading leads. -/
theorem walk_of_reads
    {pos pos' : Nat}
    {cs cs' : List Char}
    {ts : List Token}
    (hReads : Reads pos cs ts pos' cs') :
    walk 0 pos cs =
      (ts ++ (walk 0 pos' cs').1, (walk 0 pos' cs').2) := by
  induction hReads with
  | nil pos cs =>
      rfl
  | blank hBlank _ ih =>
      rw [walk, if_pos ((isBlank_iff _).mpr hBlank), ih]
  | token hLongest hDenotes hValue hMark _ ih =>
      rcases hLongest.cons with ⟨c, cs, hCons, hFirst⟩
      rw [hCons] at hLongest hMark
      rcases scan_of_longest hLongest hDenotes hValue hMark
        with ⟨hResult, hTaken⟩
      rw [walk_of_taken _ hFirst hCons hTaken]
      simp only [hResult, ih, List.cons_append]

end Lexer

/- The tokens of a source, up to a place and after it. -/
theorem lexInto?_of_reads
    {src : String}
    {ts : List Token}
    {pos : Nat}
    {cs : List Char}
    (hReads : Lexer.Reads 0 src.toList ts pos cs) :
    ∃ us error?,
      lexInto? [] src = some (ts ++ us, error?) ∧
      ∀ u ∈ us, pos ≤ u.span.lo := by
  have hWalk := Lexer.walk_of_reads hReads
  have hOrder := Lexer.inOrderFrom_walk 0 pos cs
  rw [List.take_zero, Text.byteLength, Nat.add_zero]
    at hOrder
  cases hEnd : (Lexer.walk 0 pos cs).2 with
  | error e =>
      rw [hEnd] at hWalk
      refine ⟨_, some e, ?_, hOrder.after⟩
      simp [lexInto?, lex, hWalk]
  | ok p =>
      rw [hEnd] at hWalk
      refine
        ⟨(Lexer.walk 0 pos cs).1 ++ [Token.eofAt p], none,
          ?_, ?_⟩
      · simp [lexInto?, lex, hWalk, TokenStream.toList]
      · intro u hMem
        rcases List.mem_append.mp hMem with hToken | hStop
        · exact hOrder.after u hToken
        · rw [List.mem_singleton.mp hStop, Token.eofAt_eq]
          have hLast := Lexer.end_of_walk hEnd
          simp only at hLast ⊢
          omega

------------------------------------------------------------
-- Literals
------------------------------------------------------------

namespace Radix

/-
  Digits of a radix that stand as a literal in front of some
  text. All digits belong to it. A mark in front of them is
  that of the radix: a zero before a letter that makes a
  mark with it is no decimal literal.
-/
structure IsLiteral
    (r : Radix)
    (digits after : List Char) : Prop where
  nonempty : digits ≠ []
  isDigit : ∀ d ∈ digits, r.IsDigit d
  ended : ∀ d ∈ after.head?, ¬ r.IsDigit d
  marked :
    ∀ r' : Radix,
      r' ≠ .decimal →
      r'.mark <+: r.mark ++ digits ++ after →
      r' = r

/- A test for literals. Marks are those that are written. -/
def isLiteral
    (r : Radix)
    (digits after : List Char) : Bool :=
  !digits.isEmpty &&
    digits.all (Lexer.isDigitOf r.base) &&
    after.head?.all (fun d => !Lexer.isDigitOf r.base d) &&
    [hexadecimal, octal, binary].all (fun r' =>
      !r'.mark.isPrefixOf (r.mark ++ digits ++ after) ||
        r' == r)

theorem isLiteral_of_test
    {r : Radix}
    {digits after : List Char}
    (hTest : r.isLiteral digits after = true) :
    r.IsLiteral digits after := by
  simp only [isLiteral, Bool.and_eq_true,
    Bool.not_eq_true', List.isEmpty_eq_false_iff,
    List.all_eq_true, Option.all_eq_true,
    Bool.or_eq_true, beq_iff_eq] at hTest
  rcases hTest with ⟨⟨⟨hNonempty, hDigits⟩, hEnd⟩, hMarks⟩
  refine ⟨hNonempty, ?_, ?_, ?_⟩
  · intro d hMem
    exact (Lexer.isDigitOf_iff r d).mp (hDigits d hMem)
  · intro d hMem hDigit
    have hTaken := (Lexer.isDigitOf_iff r d).mpr hDigit
    rw [hEnd d hMem] at hTaken
    cases hTaken
  · intro r' hMarked hStarts
    have hWritten : r' ∈ [hexadecimal, octal, binary] := by
      cases r' <;> simp at hMarked ⊢
    rcases hMarks r' hWritten with hNone | hSame
    · rw [List.isPrefixOf_iff_prefix.mpr hStarts] at hNone
      cases hNone
    · exact hSame

namespace IsLiteral

variable {r : Radix}
variable {digits after : List Char}

/- The lexer takes all digits. -/
theorem takeWhile_eq
    (hLiteral : r.IsLiteral digits after) :
    (digits ++ after).takeWhile (Lexer.isDigitOf r.base) =
      digits := by
  have hInside :
      ∀ d ∈ digits, Lexer.isDigitOf r.base d = true := by
    intro d hMem
    exact (Lexer.isDigitOf_iff r d).mpr
      (hLiteral.isDigit d hMem)
  have hAfter :
      after.takeWhile (Lexer.isDigitOf r.base) = [] := by
    cases after with
    | nil =>
        rfl
    | cons d after =>
        have hEnd := hLiteral.ended d rfl
        rw [← Lexer.isDigitOf_iff] at hEnd
        exact List.takeWhile_cons_of_neg hEnd
  rw [List.takeWhile_append_of_pos hInside, hAfter,
    List.append_nil]

/- A literal is the longest token at its place. -/
theorem isLongest
    (hLiteral : r.IsLiteral digits after) :
    IsLongest (r.mark ++ digits ++ after)
      (r.mark ++ digits) := by
  have hTaken := hLiteral.takeWhile_eq
  by_cases hDecimal : r = .decimal
  · subst hDecimal
    rcases List.exists_cons_of_ne_nil hLiteral.nonempty with
      ⟨d, ds, rfl⟩
    have hDigit := hLiteral.isDigit d List.mem_cons_self
    have hFirst : Lexer.isDigitOf 10 d = true :=
      (Lexer.isDigitOf_iff .decimal d).mpr hDigit
    have hLongest :
        IsLongest (d :: (ds ++ after))
          (d :: (ds ++ after).takeWhile
            (Lexer.isDigitOf 10)) := by
      apply Lexer.isLongest_decimal hDigit
      intro r' hMarked hStarts
      exact hMarked (hLiteral.marked r' hMarked hStarts)
    rw [← List.takeWhile_cons_of_pos hFirst] at hLongest
    rw [List.cons_append, base] at hTaken
    rw [hTaken] at hLongest
    exact hLongest
  · have hSome :
        (digits ++ after).takeWhile
          (Lexer.isDigitOf r.base) ≠ [] := by
      rw [hTaken]
      exact hLiteral.nonempty
    have hLongest := Lexer.isLongest_marked hDecimal hSome
    rw [hTaken, ← List.append_assoc] at hLongest
    exact hLongest

/- Its mark does not stand alone. -/
theorem not_isBareMark
    (hLiteral : r.IsLiteral digits after) :
    ¬ IsBareMark (r.mark ++ digits ++ after) := by
  rintro ⟨r', hMarked, hStarts, hAlone⟩
  have hSame := hLiteral.marked r' hMarked hStarts
  subst hSame
  have hBare :
      IsBareMark (r'.mark ++ (digits ++ after)) := by
    rw [← List.append_assoc]
    exact ⟨r', hMarked, hStarts, hAlone⟩
  rw [Lexer.isBareMark_iff hMarked,
    hLiteral.takeWhile_eq] at hBare
  exact hLiteral.nonempty hBare

/- It denotes the value of its digits. -/
theorem denotes
    (hLiteral : r.IsLiteral digits after) :
    Denotes (r.mark ++ digits) .number
      (toString (r.value digits)) := by
  rw [← Lexer.positional_eq_value hLiteral.isDigit]
  exact Lexer.denotes_number hLiteral.nonempty
    hLiteral.isDigit

/- Reading a literal whose value is a word. -/
theorem reads
    (hLiteral : r.IsLiteral digits after)
    (hFits : r.value digits < 2 ^ 63)
    (pos : Nat) :
    let hi := pos + Text.byteLength (r.mark ++ digits)
    Lexer.Reads pos (r.mark ++ digits ++ after)
      [⟨.number, toString (r.value digits),
        Span.between pos hi⟩]
      hi after := by
  intro hi
  exact Lexer.Reads.token hLiteral.isLongest
    hLiteral.denotes (fun _ => ⟨_, hFits, rfl⟩)
    hLiteral.not_isBareMark (Lexer.Reads.nil hi after)

/- What is found in the place of other literals. -/
theorem scan_eq_error
    {c : Char}
    {cs : List Char}
    (hLiteral : r.IsLiteral digits after)
    (hLarge : 2 ^ 63 ≤ r.value digits)
    (hCons : r.mark ++ digits ++ after = c :: cs) :
    (Lexer.scan c cs).result = .error .tooLarge ∧
      c :: cs.take (Lexer.scan c cs).extra =
        r.mark ++ digits := by
  have hTooLarge :
      LexError.tooLarge.FitsAt (c :: cs)
        (r.mark ++ digits) := by
    rw [← hCons]
    exact ⟨hLiteral.isLongest, r, digits, rfl,
      hLiteral.nonempty, hLiteral.isDigit, hLarge⟩
  cases hResult : (Lexer.scan c cs).result with
  | error e =>
      rcases (Lexer.fitsAt_of_scan hResult).unique
          hTooLarge with
        ⟨rfl, hTaken⟩
      exact ⟨rfl, hTaken⟩
  | ok found =>
      -- A number that is found is a word.
      rcases found with ⟨kind, lexeme⟩
      have hRight := Lexer.scan_right c cs
      simp only [Lexer.Scan.Right, hResult] at hRight
      rcases hRight with ⟨hFound, hDenotes, -⟩
      rw [hFound.unique hTooLarge.1] at hDenotes
      rcases hDenotes.unique hLiteral.denotes with
        ⟨rfl, rfl⟩
      rcases Lexer.number_of_scan c cs _ _ hResult rfl with
        ⟨n, hWord, hSame⟩
      rw [Literal.toString_injective hSame] at hLarge
      exact absurd hWord (Nat.not_lt.mpr hLarge)

/- They are where a walk ends. -/
theorem walk_eq_error
    (hLiteral : r.IsLiteral digits after)
    (hLarge : 2 ^ 63 ≤ r.value digits)
    (pos : Nat) :
    Lexer.walk 0 pos (r.mark ++ digits ++ after) =
      ([], .error ⟨.tooLarge,
        Span.between pos
          (pos + Text.byteLength (r.mark ++ digits))⟩) := by
  rcases hLiteral.isLongest.cons with ⟨c, cs, hCons, hFirst⟩
  rcases hLiteral.scan_eq_error hLarge hCons with
    ⟨hResult, hTaken⟩
  rw [Lexer.walk_of_taken pos hFirst hCons hTaken]
  simp only [hResult]

end IsLiteral

end Radix

------------------------------------------------------------
-- Numerals
------------------------------------------------------------

/- The decimal digits of a number, with no zero in front. -/
structure IsNumeral
    (v : Nat)
    (numeral : List Char) : Prop where
  nonempty : numeral ≠ []
  isDigit : ∀ d ∈ numeral, Radix.decimal.IsDigit d
  value : Radix.decimal.value numeral = v
  noZero : numeral.head? = some '0' → numeral = ['0']

/- Only zero starts with a zero. -/
theorem Literal.eq_zero_of_head?
    {n : Nat}
    (hHead : (toString n).toList.head? = some '0') :
    n = 0 := by
  rw [Literal.toList_toString] at hHead
  -- The first digit is that of a tenth, if there are more.
  induction n using Nat.strongRecOn with
  | ind n ih =>
      by_cases hOne : n < 10
      · have hDigit :
            ∀ m < 10, Nat.digitChar m = '0' → m = 0 := by
          decide
        rw [Nat.toDigits_of_lt_base hOne] at hHead
        exact hDigit n hOne (Option.some.inj hHead)
      · have hMore : 10 ≤ n := Nat.le_of_not_lt hOne
        rw [Nat.toDigits_of_base_le (by decide) hMore,
          List.head?_append_of_ne_nil _ Nat.toDigits_ne_nil]
          at hHead
        have hTenth := ih (n / 10) (by omega) hHead
        omega

/- The lexeme of a number is the numeral of its value. -/
theorem isNumeral_toString
    (n : Nat) :
    IsNumeral n (toString n).toList where
  nonempty := Literal.toString_ne_nil n
  isDigit := Radix.isDigit_toString
  value := by
    rw [← Lexer.positional_eq_value Radix.isDigit_toString]
    exact Lexer.positional_toString n
  noZero := by
    intro hHead
    rw [Literal.eq_zero_of_head? hHead]
    rfl

------------------------------------------------------------
-- Words in the Code
------------------------------------------------------------

/- The line that computes a word. -/
theorem Line.text_movImm
    (target : Target)
    {w : Int64}
    {n : Nat}
    (hWord : w.toInt = n) :
    Line.text target (.instr (.movImm .rax w)) =
      "    mov rax, " ++ toString n := by
  have hStart :
      "    mov rax, " =
        "    " ++ ("mov " ++ ("rax" ++ ", ")) := by
    decide
  rw [hStart, Line.text, Instr.text, hWord]
  simp only [Reg.text, String.append_assoc]
  rfl

theorem Line.eq_of_constant?
    {l : Line}
    {w : Int64}
    (hConstant : l.constant? = some w) :
    l = .instr (.movImm .rax w) := by
  unfold Line.constant? at hConstant
  split at hConstant
  · cases hConstant
    rfl
  · cases hConstant

/- The stages that lead to the code of a source. -/
theorem stages_of_compile
    {src asm : String}
    {target : Target}
    (hCompile : compile src target = .ok asm) :
    ∃ s p,
      lex src = .ok s ∧
      Program.parse s = .ok p ∧
      p.generate target = .ok asm := by
  cases hProgram : programOf src with
  | error e =>
      rw [compile_of_programOf_error hProgram] at hCompile
      cases hCompile
  | ok p =>
      rcases programOf_eq_ok_iff.mp hProgram with
        ⟨s, hLex, hParse⟩
      rw [compile_of_programOf_ok hProgram] at hCompile
      cases hGenerate : p.generate target with
      | error fault =>
          rw [hGenerate] at hCompile
          cases hCompile
      | ok text =>
          rw [hGenerate] at hCompile
          cases hCompile
          exact ⟨s, p, hLex, hParse, hGenerate⟩

/- A number among some tokens has a line in their code. -/
theorem Program.exists_line_of_generate
    {s : TokenStream}
    {p : Program}
    {target : Target}
    {asm : String}
    {t : Token}
    {w : Int64}
    (hInside : ∀ a ∈ s.tokens, a.isEof = false)
    (hParse : parse s = .ok p)
    (hGenerate : p.generate target = .ok asm)
    (hMem : t ∈ s.tokens)
    (hValue : t.value? = some w) :
    ∃ head tail,
      asm =
        head ++
          (Line.text target (.instr (.movImm .rax w)) ++
            "\n" ++ tail) := by
  rcases lower_of_generate hGenerate with ⟨hFault, hText⟩
  have hSubperm :=
    values_subperm_constants hInside hParse hFault
  have hConstant :=
    hSubperm.subset
      (List.mem_filterMap.mpr ⟨t, hMem, hValue⟩)
  rcases List.mem_filterMap.mp hConstant with
    ⟨l, hLine, hWord⟩
  rw [Line.eq_of_constant? hWord] at hLine
  rcases List.append_of_mem hLine with
    ⟨before, after, hLines⟩
  rw [hLines, Assembly.text_append, List.map_cons,
    List.cons_append, Assembly.unlines_cons] at hText
  exact ⟨_, _, hText⟩

------------------------------------------------------------
-- Literals from Source to Code
------------------------------------------------------------

/-
  What becomes of a token for a literal, which ends at the
  given byte of a source and has the given value. It is the
  only token of the literal, and the parser reads it as the
  value. The code for the value is one line, which is in the
  code of the source.
-/
structure Literal.Arrives
    (src : String)
    (ts : List Token)
    (t : Token)
    (v hi : Nat) : Prop where
  isNumeral : IsNumeral v t.lexeme.toList
  lexed :
    ∃ us error?,
      lexInto? [] src = some (ts ++ t :: us, error?) ∧
      ∀ u ∈ us, hi ≤ u.span.lo
  parsed :
    ∃ w : Int64,
      w.toInt = v ∧
      (∀ frames locals,
        (Reading.operand frames).step locals t =
          .ok (.more
            (Reading.ofPrimary frames (.int w t.span))
            locals)) ∧
      ∀ locals k target,
        ((Expr.int w t.span).code locals k).lines.map
            (Line.text target) =
          ["    mov rax, " ++ t.lexeme]
  compiled :
    ∀ target asm,
      compile src target = .ok asm →
      ∃ head tail,
        asm =
          head ++
            ("    mov rax, " ++ t.lexeme ++ "\n" ++ tail)

/- A token that is read is a token of the source. -/
theorem mem_tokens_of_reads
    {src : String}
    {s : TokenStream}
    {ts : List Token}
    {pos : Nat}
    {cs : List Char}
    (hReads : Lexer.Reads 0 src.toList ts pos cs)
    (hLex : lex src = .ok s) :
    ∀ t ∈ ts, t ∈ s.tokens := by
  have hWalk := Lexer.walk_of_reads hReads
  rw [(walk_of_lex hLex).1] at hWalk
  have hTokens := congrArg Prod.fst hWalk
  simp only at hTokens
  intro t hMem
  rw [hTokens]
  exact List.mem_append_left _ hMem

/- A number whose value is a word arrives as it. -/
theorem Literal.arrives
    {src : String}
    {ts : List Token}
    {v hi : Nat}
    {span : Span}
    {after : List Char}
    (hFits : v < 2 ^ 63)
    (hReads :
      Lexer.Reads 0 src.toList
        (ts ++ [⟨.number, toString v, span⟩]) hi after) :
    Literal.Arrives src ts
      ⟨.number, toString v, span⟩ v hi := by
  have hRead := read?_toString hFits
  have hWord : (Int64.ofNat v).toInt = v :=
    Int64.toInt_ofNat_of_lt hFits
  refine ⟨isNumeral_toString v, ?_, ?_, ?_⟩
  · rcases lexInto?_of_reads hReads with
      ⟨us, error?, hLex, hAfter⟩
    rw [List.append_assoc] at hLex
    exact ⟨us, error?, hLex, hAfter⟩
  · refine ⟨Int64.ofNat v, hWord, ?_, ?_⟩
    · intro frames locals
      simp only [Reading.step, Reading.stepOperand, hRead]
    · intro locals k target
      exact congrArg (fun l => [l])
        (Line.text_movImm target hWord)
  · intro target asm hCompile
    rcases stages_of_compile hCompile with
      ⟨s, p, hLex, hParse, hGenerate⟩
    have hMem :=
      mem_tokens_of_reads hReads hLex _
        (List.mem_append_right _ List.mem_cons_self)
    have hValue :
        Token.value? ⟨.number, toString v, span⟩ =
          some (Int64.ofNat v) := by
      simp only [Token.value?, hRead, Option.getD_some,
        if_true]
    rcases Program.exists_line_of_generate
        (isEof_eq_false_of_lex hLex) hParse hGenerate hMem
        hValue with
      ⟨head, tail, hText⟩
    rw [Line.text_movImm target hWord] at hText
    exact ⟨head, tail, hText⟩

/- What a region holds is not longer than a region can be. -/
theorem Text.Cut.byteLength_le
    {cs before inside after : List Char}
    {lo hi : Nat}
    (hCut :
      Cut cs (Span.between lo hi) before inside after) :
    byteLength inside ≤ Span.maxLen := by
  rw [hCut.len]
  exact Nat.min_le_right _ _

/-
  A literal keeps its value. One whose value is no word is
  an error at its place. The region of the token or the
  error is that of the literal exactly if the literal is not
  longer than a region can be.
-/
theorem literal_keeps_its_value
    {src : String}
    {r : Radix}
    {digits after : List Char}
    {ts : List Token}
    {lo : Nat}
    (hLiteral : r.IsLiteral digits after)
    (hPlace :
      Lexer.Reads 0 src.toList ts lo
        (r.mark ++ digits ++ after)) :
    let text := r.mark ++ digits
    let hi := lo + Text.byteLength text
    (r.value digits < 2 ^ 63 →
      Literal.Arrives src ts
        ⟨.number, toString (r.value digits),
          Span.between lo hi⟩
        (r.value digits) hi) ∧
    (2 ^ 63 ≤ r.value digits →
      lex src =
        .error
          ⟨ts, ⟨.tooLarge, Span.between lo hi⟩⟩) ∧
    (Text.byteLength text ≤ Span.maxLen ↔
      ∃ before,
        Text.Cut src.toList (Span.between lo hi)
          before text after) := by
  intro text hi
  refine ⟨?_, ?_, ?_⟩
  · intro hFits
    have hReads := hPlace.trans (hLiteral.reads hFits lo)
    exact Literal.arrives hFits hReads
  · intro hLarge
    have hWalk := Lexer.walk_of_reads hPlace
    rw [hLiteral.walk_eq_error hLarge lo] at hWalk
    simp [lex, hWalk, hi, text]
  · constructor
    · intro hBytes
      rcases hPlace.exists_before with ⟨before, hText, hLo⟩
      rw [Nat.zero_add] at hLo
      refine ⟨before, cut_of_between ?_ ?_ hBytes⟩
      · rw [hText, List.append_assoc]
      · rw [← hLo]
    · rintro ⟨before, hCut⟩
      exact hCut.byteLength_le

/-
  The largest word and the number after it, with zeros in
  front and digits of both cases.
-/
theorem largest_word_keeps_its_value :
    let keyword : Token := ⟨.kwReturn, "return", ⟨0, 6⟩⟩
    Literal.Arrives "return 0x007fffFFFFffffFFFF;"
      [keyword]
      ⟨.number, "9223372036854775807", ⟨7, 20⟩⟩
      (2 ^ 63 - 1) 27 ∧
    lex "return 0x008000000000000000;" =
      .error ⟨[keyword], ⟨.tooLarge, ⟨7, 20⟩⟩⟩ := by
  intro keyword
  have hKeyword :
      ∀ cs,
        Lexer.Reads 0 ("return ".toList ++ cs)
          [keyword] 7 cs := by
    intro cs
    have hScan :
        Lexer.scan 'r' ("eturn ".toList ++ cs) =
          ⟨5, .ok (.kwReturn, "return")⟩ := by
      rfl
    have hFound :=
      Lexer.Reads.of_scan 0
        (congrArg Lexer.Scan.result hScan)
    rw [hScan] at hFound
    exact hFound.trans
      (.blank (.inl rfl) (.nil 7 cs))
  have hFits :
      Radix.hexadecimal.IsLiteral
        "007fffFFFFffffFFFF".toList [';'] :=
    Radix.isLiteral_of_test rfl
  have hLarge :
      Radix.hexadecimal.IsLiteral
        "008000000000000000".toList [';'] :=
    Radix.isLiteral_of_test rfl
  exact
    ⟨(literal_keeps_its_value hFits (hKeyword _)).1
        (by decide),
      (literal_keeps_its_value hLarge (hKeyword _)).2.1
        (by decide)⟩

/- Zeros are a literal. -/
theorem Radix.isLiteral_zeros
    {n : Nat}
    (hSome : 0 < n) :
    decimal.IsLiteral (List.replicate n '0') [] := by
  constructor
  · simpa [List.replicate_eq_nil_iff] using hSome.ne'
  · intro d hMem
    rw [List.eq_of_mem_replicate hMem]
    exact ⟨by decide, by decide⟩
  · intro d hMem
    cases hMem
  · intro r' hMarked hStarts
    -- A mark ends in a letter, and there is none.
    have hZero : ∀ c ∈ r'.mark, c = '0' := by
      intro c hMem
      have hInside := hStarts.subset hMem
      rw [mark, List.nil_append, List.append_nil] at hInside
      exact List.eq_of_mem_replicate hInside
    cases r' with
    | decimal =>
        rfl
    | hexadecimal | octal | binary =>
        simp [mark] at hZero

theorem Radix.value_zeros
    (n : Nat) :
    decimal.value (List.replicate n '0') = 0 := by
  rw [value, List.map_replicate, List.reverse_replicate]
  exact Nat.ofDigits_replicate_zero

theorem Text.byteLength_zeros
    (n : Nat) :
    byteLength (List.replicate n '0') = n := by
  induction n with
  | zero =>
      rfl
  | succ n ih =>
      rw [List.replicate_succ, byteLength, ih]
      exact Nat.add_comm 1 n

/- Zeros are read as a single token. -/
theorem lex_zeros
    {n : Nat}
    (hSome : 0 < n) :
    ∃ s,
      lex (String.ofList (List.replicate n '0')) = .ok s ∧
      s.tokens = [⟨.number, "0", Span.between 0 n⟩] := by
  have hFits :
      Radix.decimal.value (List.replicate n '0') <
        2 ^ 63 := by
    rw [Radix.value_zeros]
    decide
  have hWalk :=
    Lexer.walk_of_reads
      ((Radix.isLiteral_zeros hSome).reads hFits 0)
  simp only [Radix.mark, List.nil_append, List.append_nil,
    Radix.value_zeros, Text.byteLength_zeros, Nat.zero_add,
    Lexer.walk] at hWalk
  refine ⟨⟨_, Token.eofAt n, rfl⟩, ?_, rfl⟩
  rw [lex, String.toList_ofList, hWalk]
  rfl

/-
  A literal of 2^32 zeros is read as a zero, but the region
  of its token ends before the last of them.
-/
theorem long_literal_exceeds_its_region :
    let zeros := List.replicate (2 ^ 32) '0'
    let src := String.ofList zeros
    let t : Token := ⟨.number, "0", ⟨0, 2 ^ 32 - 1⟩⟩
    Radix.decimal.IsLiteral zeros [] ∧
      Radix.decimal.value zeros = 0 ∧
      Text.byteLength zeros = 2 ^ 32 ∧
      (∃ s, lex src = .ok s ∧ s.tokens = [t]) ∧
      ∀ before after,
        ¬ Text.Cut src.toList t.span before zeros after := by
  intro zeros src t
  have hSome : 0 < 2 ^ 32 := by decide
  have hBytes : Text.byteLength zeros = 2 ^ 32 :=
    Text.byteLength_zeros _
  have hSpan : t.span = Span.between 0 (2 ^ 32) := by
    decide
  refine ⟨Radix.isLiteral_zeros hSome, Radix.value_zeros _,
    hBytes, ?_, ?_⟩
  · rcases lex_zeros hSome with ⟨s, hLex, hTokens⟩
    rw [← hSpan] at hTokens
    exact ⟨s, hLex, hTokens⟩
  · intro before after hCut
    rw [hSpan] at hCut
    have hShort := hCut.byteLength_le
    rw [hBytes] at hShort
    revert hShort
    decide

end WordLang
