import WordLang.Proofs.ReadingMeaning
import WordLang.Proofs.Segmentation

/-
  This file writes terminals as a source.

  Each terminal is written out and a blank follows it. No
  token has a blank in it, so that every token ends where it
  was meant to end, and the lexer gives the terminals back.

  Key definitions include:
    * `WordLang.IsName`
    * `WordLang.Terminal.spelling`
    * `WordLang.Terminal.Spellable`
    * `WordLang.Terminal.spell`

  Key theorems include:
    * `WordLang.Terminal.lex_spell`
    * `WordLang.spellable_of_lex`
-/

namespace WordLang

------------------------------------------------------------
-- Names
------------------------------------------------------------

/- A word that can name a variable. -/
def IsName
    (s : String) : Prop :=
  TokenClass.word.Contains s.toList ∧
    ∀ k, (s, k) ∉ keywords

/- Words can be told from their characters. -/
theorem TokenClass.contains_word_iff
    {text : List Char} :
    word.Contains text ↔
      text.head?.any Lexer.isWordStart = true ∧
        text.tail.all Lexer.isWordChar = true := by
  cases text with
  | nil =>
      simp [Contains]
  | cons c cs =>
      simp [Contains, Lexer.isWordStart_iff,
        Lexer.isWordChar_iff]

theorem isName_iff
    {s : String} :
    IsName s ↔
      s.toList.head?.any Lexer.isWordStart = true ∧
        s.toList.tail.all Lexer.isWordChar = true ∧
        keyword? s = none := by
  have hKeyword :
      keyword? s = none ↔ ∀ k, (s, k) ∉ keywords := by
    rw [Option.eq_none_iff_forall_ne_some]
    simp only [ne_eq, Lexer.keyword?_eq_some_iff]
  rw [IsName, TokenClass.contains_word_iff, hKeyword,
    and_assoc]

instance : DecidablePred IsName :=
  fun _ => decidable_of_iff _ isName_iff.symm

------------------------------------------------------------
-- Tokens Before Blanks
------------------------------------------------------------

/- No digit is a blank. -/
theorem Radix.IsDigit.not_isBlank
    {r : Radix}
    {c : Char}
    (hDigit : r.IsDigit c) :
    ¬ IsBlank c := by
  rw [← Lexer.isDigitOf_iff] at hDigit
  rintro (rfl | rfl | rfl | rfl) <;>
    cases r <;> cases hDigit

/- No token has a blank in it. -/
theorem IsTokenText.not_isBlank
    {text : List Char}
    (hToken : IsTokenText text) :
    ∀ c ∈ text, ¬ IsBlank c := by
  rcases hToken with ⟨C, hContains⟩
  intro c hMem
  cases C with
  | punctuator =>
      rcases hContains with ⟨kind, hSymbol⟩
      have hTable :
          punctuators.all
            (fun p => p.1.toList.all (!Lexer.isBlank ·)) =
            true := by
        decide
      have hSolid := List.all_eq_true.mp hTable _ hSymbol
      rw [String.toList_ofList, List.all_eq_true] at hSolid
      rw [← Lexer.isBlank_iff]
      simpa using hSolid c hMem
  | word =>
      rcases hContains with ⟨d, ds, rfl, hLetter, hMore⟩
      rcases List.mem_cons.mp hMem with rfl | hLater
      · exact TokenClass.Starts.not_isBlank
          (C := .word) hLetter
      · rcases hMore c hLater with hLetter | hDigit
        · exact TokenClass.Starts.not_isBlank
            (C := .word) hLetter
        · exact TokenClass.Starts.not_isBlank
            (C := .number .decimal) hDigit
  | number r =>
      rcases hContains with ⟨digits, rfl, -, hDigits⟩
      rcases List.mem_append.mp hMem with hMark | hDigit
      · have hMarks :
            r.mark.all (!Lexer.isBlank ·) = true := by
          cases r <;> rfl
        rw [← Lexer.isBlank_iff]
        simpa using List.all_eq_true.mp hMarks c hMark
      · exact (hDigits c hDigit).not_isBlank

/- A token that a blank follows goes on no further. -/
theorem IsTokenText.isLongest
    {text : List Char}
    {b : Char}
    (hToken : IsTokenText text)
    (hBlank : IsBlank b)
    (rest : List Char) :
    IsLongest (text ++ b :: rest) text := by
  refine ⟨hToken, List.prefix_append _ _, ?_⟩
  intro other hOther hStarts
  by_contra hLonger
  have hHere : text ++ [b] <+: text ++ b :: rest :=
    ⟨rest, by simp⟩
  have hInside : text ++ [b] <+: other :=
    List.prefix_of_prefix_length_le hHere hStarts
      (by simp; omega)
  exact hOther.not_isBlank b
    (hInside.subset (by simp)) hBlank

/- Digits before a blank do not start with a mark. -/
theorem Radix.not_mark_of_digits
    {r : Radix}
    {digits : List Char}
    {b : Char}
    (hMarked : r ≠ .decimal)
    (hNonempty : digits ≠ [])
    (hDigits : ∀ d ∈ digits, decimal.IsDigit d)
    (hBlank : IsBlank b)
    (rest : List Char) :
    ¬ r.mark <+: digits ++ b :: rest := by
  intro hStarts
  rcases Lexer.mark_of_ne_decimal hMarked with
    ⟨m, hMark, hLetter, hRadix⟩
  rw [hMark] at hStarts
  match digits with
  | [] =>
      exact hNonempty rfl
  | [d] =>
      -- A blank is not the letter of a mark.
      rw [List.singleton_append, List.cons_prefix_cons,
        List.cons_prefix_cons] at hStarts
      have hNone := hRadix []
      rw [hStarts.2.1] at hNone
      rcases hBlank with rfl | rfl | rfl | rfl <;>
        cases hNone
  | d :: d' :: ds =>
      rw [List.cons_append, List.cons_append,
        List.cons_prefix_cons,
        List.cons_prefix_cons] at hStarts
      have hDigit : d'.isDigit = true :=
        (Lexer.isDigit_iff d').mpr (hDigits d' (by simp))
      rw [← hStarts.2.1, hLetter] at hDigit
      cases hDigit

/- Nor is it a mark that no digit follows. -/
theorem IsTokenText.not_isBareMark
    {text : List Char}
    {b : Char}
    (hToken : IsTokenText text)
    (hBlank : IsBlank b)
    (rest : List Char) :
    ¬ IsBareMark (text ++ b :: rest) := by
  rintro ⟨r, hMarked, hStarts, hAlone⟩
  rcases hToken with ⟨C, hContains⟩
  have hNumber : ∃ r', C = .number r' := by
    have hZero : Radix.decimal.IsDigit '0' :=
      (Lexer.isDigit_iff '0').mp rfl
    rcases hContains.starts with ⟨c, cs, rfl, hHead⟩
    rw [(Lexer.radixMark?_of_mark hMarked hStarts).1]
      at hHead
    exact TokenClass.eq_number_of_starts hZero hHead
  rcases hNumber with ⟨r', rfl⟩
  rcases hContains with ⟨digits, rfl, hNonempty, hDigits⟩
  by_cases hDecimal : r' = .decimal
  · subst hDecimal
    exact Radix.not_mark_of_digits hMarked hNonempty hDigits
      hBlank rest hStarts
  · have hSame : r = r' := by
      rw [List.append_assoc] at hStarts
      exact Lexer.mark_unique hMarked hDecimal hStarts
        (List.prefix_append _ _)
    subst hSame
    rcases List.exists_cons_of_ne_nil hNonempty with
      ⟨d, ds, rfl⟩
    exact hAlone d ⟨ds ++ b :: rest, by simp⟩
      (hDigits d List.mem_cons_self)

------------------------------------------------------------
-- Numbers
------------------------------------------------------------

/- A numeral is made of decimal digits. -/
theorem Radix.isDigit_toString
    {n : Nat} :
    ∀ c ∈ (toString n).toList, decimal.IsDigit c := by
  intro c hMem
  exact (Lexer.isDigit_iff c).mp
    (Literal.isDigit_of_mem_toString hMem)

/- Its digits have the value of the number. -/
theorem Lexer.positional_toString
    (n : Nat) :
    positional 10 (toString n).toList = n := by
  refine Eq.trans ?_ (Literal.foldl_toString n)
  apply List.foldl_ext
  intro v c hMem
  rw [digitValue?,
    if_pos (Literal.isDigit_of_mem_toString hMem),
    Option.getD_some]

/- The numeral of a number denotes it. -/
theorem denotes_toString
    (n : Nat) :
    Denotes (toString n).toList .number (toString n) := by
  have hDenotes := Lexer.denotes_number (r := .decimal)
    (Literal.toString_ne_nil n) Radix.isDigit_toString
  rw [Radix.base, Lexer.positional_toString] at hDenotes
  exact hDenotes

------------------------------------------------------------
-- Terminals
------------------------------------------------------------

namespace Terminal

/- How a terminal is written. -/
def spelling : Terminal → String
| symbol kind => kind.symbol?.getD ""
| number lexeme => lexeme
| name lexeme => lexeme

/- The terminals that stand for something written. -/
def Spellable : Terminal → Prop
| symbol kind => kind.symbol?.isSome = true
| number lexeme =>
    ∃ n, n < Lexer.literalBound ∧ lexeme = toString n
| name lexeme => IsName lexeme

/- Terminals one after another, with a blank after each. -/
def spell
    (xs : List Terminal) : List Char :=
  xs.flatMap (fun x => x.spelling.toList ++ [' '])

/- A symbol is in one of the tables. -/
theorem symbol_mem_fixed
    {kind : Kind}
    {text : String}
    (hSymbol : kind.symbol? = some text) :
    (text, kind) ∈ punctuators ∨
      ((text, kind) ∈ keywords ∧
        TokenClass.word.Contains text.toList) := by
  rw [TokenClass.contains_word_iff]
  cases kind <;> cases hSymbol <;> decide

/-
  What is written for a terminal denotes a token, and the
  token is that terminal to the grammar.
-/
theorem Spellable.denotes
    {x : Terminal}
    (hSpellable : x.Spellable) :
    ∃ kind lexeme,
      Denotes x.spelling.toList kind lexeme ∧
      (∀ span,
        (⟨kind, lexeme, span⟩ : Token).terminal = x) ∧
      (kind = .number →
        ∃ n,
          n < Lexer.literalBound ∧ lexeme = toString n) := by
  cases x with
  | symbol kind =>
      rcases Option.isSome_iff_exists.mp hSpellable with
        ⟨text, hSymbol⟩
      have hSpelling : (symbol kind).spelling = text := by
        rw [spelling, hSymbol, Option.getD_some]
      have hText : String.ofList text.toList = text :=
        String.ofList_toList
      refine ⟨kind, text, ?_, ?_, ?_⟩
      · rw [hSpelling]
        rcases symbol_mem_fixed hSymbol with
          hMem | ⟨hMem, hWord⟩
        · exact ⟨.punctuator, ⟨kind, by rwa [hText]⟩, hMem,
            hText.symm⟩
        · exact ⟨.word, hWord, .inl hMem, hText.symm⟩
      · intro span
        cases kind <;> first | rfl | cases hSymbol
      · rintro rfl
        cases hSymbol
  | number lexeme =>
      rcases hSpellable with ⟨n, hRange, rfl⟩
      exact ⟨.number, toString n, denotes_toString n,
        fun _ => rfl, fun _ => ⟨n, hRange, rfl⟩⟩
  | name lexeme =>
      rcases hSpellable with ⟨hWord, hKeyword⟩
      refine ⟨.identifier, lexeme, ?_, fun _ => rfl,
        fun hNumber => by cases hNumber⟩
      exact ⟨.word, hWord, .inr ⟨rfl, hKeyword⟩,
        String.ofList_toList.symm⟩

/- A token that was denoted can be written again. -/
theorem spellable_of_denotes
    {t : Token}
    {text : List Char}
    (hDenotes : Denotes text t.kind t.lexeme)
    (hValue :
      t.kind = .number →
      ∃ n,
        n < Lexer.literalBound ∧ t.lexeme = toString n) :
    t.terminal.Spellable := by
  rcases t with ⟨kind, lexeme, span⟩
  rcases hDenotes with ⟨C, hContains, hDescribes⟩
  have hFixed :
      ∀ p ∈ punctuators ++ keywords,
        p.2.symbol?.isSome = true ∧
          p.2 ≠ .number ∧ p.2 ≠ .identifier := by
    decide
  cases C with
  | punctuator =>
      have hKind := hFixed _
        (List.mem_append_left keywords hDescribes.1)
      rw [Token.terminal_eq_symbol hKind.2.1 hKind.2.2]
      exact hKind.1
  | word =>
      rcases hDescribes with ⟨hKeyword | ⟨rfl, hNone⟩, rfl⟩
      · have hKind := hFixed _
          (List.mem_append_right punctuators hKeyword)
        rw [Token.terminal_eq_symbol hKind.2.1 hKind.2.2]
        exact hKind.1
      · refine ⟨?_, hNone⟩
        rw [String.toList_ofList]
        exact hContains
  | number r =>
      cases hDescribes.1
      exact hValue rfl

------------------------------------------------------------
-- Spelled Sources
------------------------------------------------------------

/-
  What is written for some terminals is divided into their
  tokens, whatever blanks stand before it.
-/
theorem segmented_spell
    {xs : List Terminal}
    (hSpellable : ∀ x ∈ xs, x.Spellable)
    (pos : Nat)
    (gap : List Char)
    (hGap : ∀ c ∈ gap, IsBlank c) :
    ∃ ts p,
      Segmented pos (gap ++ spell xs)
        (ts ++ [Token.eofAt p]) ∧
      ts.map Token.terminal = xs ∧
      ∀ t ∈ ts,
        t.kind ≠ .eof ∧
        (t.kind = .number →
          ∃ n,
            n < Lexer.literalBound ∧
            t.lexeme = toString n) := by
  induction xs generalizing pos gap with
  | nil =>
      refine ⟨[], pos + Text.byteLength gap, ?_, rfl,
        by simp⟩
      rw [Token.eofAt_eq]
      simpa [spell] using Segmented.stop hGap
  | cons x xs ih =>
      rcases List.forall_mem_cons.mp hSpellable with
        ⟨hFirst, hRest⟩
      rcases hFirst.denotes with
        ⟨kind, lexeme, hDenotes, hTerminal, hValue⟩
      have hToken : IsTokenText x.spelling.toList := by
        rcases hDenotes with ⟨C, hContains, -⟩
        exact ⟨C, hContains⟩
      -- The blank after the token is the gap of the next.
      have hBlank : IsBlank ' ' := .inl rfl
      rcases ih hRest
          (pos + Text.byteLength gap +
            Text.byteLength x.spelling.toList)
          [' '] (by simpa using hBlank) with
        ⟨ts, p, hTail, hTerminals, hTokens⟩
      have hSegmented := Segmented.token hGap
        (hToken.isLongest hBlank (spell xs)) hDenotes
        (hToken.not_isBareMark hBlank (spell xs)) hTail
      refine
        ⟨⟨kind, lexeme,
          ⟨pos + Text.byteLength gap,
            Text.byteLength x.spelling.toList⟩⟩ :: ts,
          p, ?_, ?_, ?_⟩
      · simpa [spell] using hSegmented
      · rw [List.map_cons, hTerminal, hTerminals]
      · exact List.forall_mem_cons.mpr
          ⟨⟨hDenotes.kind_ne_eof, hValue⟩, hTokens⟩

/- The lexer gives the terminals of a written source back. -/
theorem lex_spell
    {xs : List Terminal}
    (hSpellable : ∀ x ∈ xs, x.Spellable)
    (hBytes : Text.byteLength (spell xs) ≤ Span.maxLen) :
    ∃ s,
      lex (String.ofList (spell xs)) = .ok s ∧
      s.terminals = xs := by
  rcases segmented_spell hSpellable 0 [] (by simp) with
    ⟨ts, p, hSegmented, hTerminals, hTokens⟩
  have hValues :
      ∀ t ∈ ts ++ [Token.eofAt p],
        t.kind = .number →
        ∃ n,
          n < Lexer.literalBound ∧
          t.lexeme = toString n := by
    intro t hMem hNumber
    rcases List.mem_append.mp hMem with hToken | hEnd
    · exact (hTokens t hToken).2 hNumber
    · cases List.mem_singleton.mp hEnd
      cases hNumber
  rcases walk_of_segmented hBytes hSegmented
      Cursor.rest?_zero hValues with
    ⟨init, p', hSame, hWalk⟩
  have hInit : init = ts :=
    (List.append_inj' hSame rfl).1.symm
  subst hInit
  refine ⟨⟨init, Token.eofAt p', rfl⟩, ?_, ?_⟩
  · rw [lex, String.toList_ofList]
    simp only [List.nil_append] at hWalk
    rw [hWalk]
  · rw [TokenStream.terminals_eq_map, hTerminals]
    intro t hMem
    simpa [Token.isEof] using (hTokens t hMem).1

end Terminal

/- Every token of a source stands for a text. -/
theorem denotes_of_lex
    {src : String}
    {s : TokenStream}
    (hLex : lex src = .ok s) :
    ∀ t ∈ s.tokens, ∃ text, Denotes text t.kind t.lexeme := by
  rcases walk_of_lex hLex with ⟨hWalk, hStop⟩
  have hDenotes :=
    Lexer.forall_mem_walk
      (P := fun kind lexeme =>
        ∃ text, Denotes text kind lexeme)
      (by
        intro c cs kind lexeme hResult
        have hRight := Lexer.scan_right c cs
        simp only [Lexer.Scan.Right, hResult] at hRight
        exact ⟨_, hRight.2.1⟩)
      0 0 src.toList
  rw [hWalk] at hDenotes
  exact hDenotes

/- No token of a source is the end of it. -/
theorem isEof_eq_false_of_lex
    {src : String}
    {s : TokenStream}
    (hLex : lex src = .ok s) :
    ∀ t ∈ s.tokens, t.isEof = false := by
  intro t hMem
  rcases denotes_of_lex hLex t hMem with ⟨text, hText⟩
  simpa [Token.isEof] using hText.kind_ne_eof

/- The terminals of a source can be written again. -/
theorem spellable_of_lex
    {src : String}
    {s : TokenStream}
    (hLex : lex src = .ok s) :
    ∀ x ∈ s.terminals, x.Spellable := by
  rw [TokenStream.terminals_eq_map
    (isEof_eq_false_of_lex hLex)]
  intro x hMem
  rcases List.mem_map.mp hMem with ⟨t, hToken, rfl⟩
  rcases denotes_of_lex hLex t hToken with ⟨text, hText⟩
  exact Terminal.spellable_of_denotes hText
    (number_of_lex hLex t hToken)

end WordLang
