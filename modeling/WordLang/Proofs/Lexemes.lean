import WordLang.Token.Lexer

/-
  This file says what tokens the lexer makes.

  A property of tokens that every scan ensures holds of all
  tokens of a source. In this way, the lexeme of a number is
  the decimal text of a value in range. Since a token takes
  at least one character, there are not more tokens than
  bytes.

  Key theorems include:
    * `WordLang.Lexer.forall_mem_walk`
    * `WordLang.Lexer.length_walk_le`
    * `WordLang.Lexer.end_of_walk`
    * `WordLang.number_of_lex`
    * `WordLang.length_tokens_le_of_lex`
-/

namespace WordLang

namespace Lexer

------------------------------------------------------------
-- Digits
------------------------------------------------------------

/- The digits of radix ten are the decimal digits. -/
theorem isDigitOf_ten
    (c : Char) :
    isDigitOf 10 c = c.isDigit := by
  unfold isDigitOf digitValue?
  by_cases hDigit : c.isDigit = true
  · have hRange : 48 ≤ c.toNat ∧ c.toNat ≤ 57 := by
      simpa [Char.isDigit, UInt32.le_iff_toNat_le]
        using hDigit
    have hValue : c.toNat - '0'.toNat < 10 := by
      show c.toNat - 48 < 10
      omega
    simp only [hDigit, if_true]
    exact decide_eq_true hValue
  · -- A letter has a value of ten or more.
    by_cases hLower : 'a' ≤ c ∧ c ≤ 'f'
    · simp [hDigit, hLower]
    · by_cases hUpper : 'A' ≤ c ∧ c ≤ 'F'
      · simp [hDigit, hLower, hUpper]
      · simp [hDigit, hLower, hUpper]

/- A text that starts with another one is divided by it. -/
theorem punctuator?_eq_some
    {c : Char}
    {cs : List Char}
    {symbol : String}
    {kind : Kind}
    (hSymbol :
      punctuator? (c :: cs) = some (symbol, kind)) :
    c :: cs.take (symbol.length - 1) = symbol.toList ∧
      c :: cs = symbol.toList ++
        cs.drop (symbol.length - 1) := by
  have hPrefix : symbol.toList <+: c :: cs := by
    have hFound := List.find?_some hSymbol
    exact List.isPrefixOf_iff_prefix.mp hFound
  have hNonempty : symbol.length ≠ 0 := by
    have hTable :
        ∀ p ∈ punctuators, p.1.length ≠ 0 := by
      decide
    exact hTable _ (List.mem_of_find?_eq_some hSymbol)
  have hLength : symbol.toList.length = symbol.length :=
    String.length_toList
  have hTake : c :: cs.take (symbol.length - 1) =
      symbol.toList := by
    rw [List.prefix_iff_eq_take.mp hPrefix, hLength]
    cases hCount : symbol.length with
    | zero =>
        contradiction
    | succ n =>
        rfl
  refine ⟨hTake, ?_⟩
  rw [← hTake, List.cons_append, List.take_append_drop]

/- The part of a class is as long as it is. -/
theorem take_length_takeWhile
    (inClass : Char → Bool)
    (cs : List Char) :
    cs.take (cs.takeWhile inClass).length =
      cs.takeWhile inClass :=
  (List.prefix_iff_eq_take.mp
    (List.takeWhile_prefix inClass)).symm

------------------------------------------------------------
-- Steps of a Walk
------------------------------------------------------------

/- Blanks are passed over. -/
theorem walk_gap
    {gap : List Char}
    (hBlank : ∀ c ∈ gap, isBlank c = true)
    (pos : Nat)
    (cs : List Char) :
    walk 0 pos (gap ++ cs) =
      walk 0 (pos + Text.byteLength gap) cs := by
  induction gap generalizing pos with
  | nil =>
      rfl
  | cons c gap ih =>
      have hFirst : isBlank c = true :=
        hBlank c List.mem_cons_self
      have hRest : ∀ d ∈ gap, isBlank d = true := by
        intro d hMem
        exact hBlank d (List.mem_cons_of_mem _ hMem)
      rw [List.cons_append, walk, if_pos hFirst, ih hRest,
        Text.byteLength, Nat.add_assoc]

/- A text has blanks in front of its first token. -/
theorem blanks_before
    (cs : List Char) :
    ∃ gap rest,
      cs = gap ++ rest ∧
      (∀ c ∈ gap, isBlank c = true) ∧
      ∀ c ∈ rest.head?, isBlank c = false := by
  induction cs with
  | nil =>
      exact ⟨[], [], rfl, by simp, by simp⟩
  | cons c cs ih =>
      by_cases hBlank : isBlank c = true
      · rcases ih with ⟨gap, rest, rfl, hGap, hRest⟩
        refine ⟨c :: gap, rest, rfl, ?_, hRest⟩
        intro d hMem
        rcases List.mem_cons.mp hMem with rfl | hInner
        · exact hBlank
        · exact hGap d hInner
      · exact ⟨[], c :: cs, rfl, by simp, by simpa using hBlank⟩

/-
  At a character that is not blank, the token that starts
  there is taken, and the walk goes on after it.
-/
theorem walk_token
    {c : Char}
    {cs : List Char}
    (pos : Nat)
    (hBlank : isBlank c = false) :
    let piece := scan c cs
    let hi :=
      pos + Text.byteLength (c :: cs.take piece.extra)
    walk 0 pos (c :: cs) =
      match piece.result with
      | .error e => ([], .error ⟨e, Span.between pos hi⟩)
      | .ok (kind, lexeme) =>
          (⟨kind, lexeme, Span.between pos hi⟩ ::
              (walk 0 hi (cs.drop piece.extra)).1,
            (walk 0 hi (cs.drop piece.extra)).2) := by
  intro piece hi
  have hNext :
      walk piece.extra (pos + c.utf8Size) cs =
        walk 0 hi (cs.drop piece.extra) := by
    rw [walk_skip]
    simp only [hi, Text.byteLength, Nat.add_assoc]
  rw [walk, hBlank]
  simp only [Bool.false_eq_true, if_false, piece] at hNext ⊢
  cases hResult : (scan c cs).result with
  | error e =>
      rfl
  | ok found =>
      simp only [hNext]
      rfl

------------------------------------------------------------
-- All Tokens of a Walk
------------------------------------------------------------

/- What every scan ensures holds of all tokens. -/
theorem forall_mem_walk
    {P : Kind → String → Prop}
    (hScan :
      ∀ c cs kind lexeme,
        (scan c cs).result = .ok (kind, lexeme) →
        P kind lexeme)
    (skip pos : Nat)
    (cs : List Char) :
    ∀ t ∈ (walk skip pos cs).1, P t.kind t.lexeme := by
  induction cs generalizing skip pos with
  | nil =>
      intro t hMem
      simp [walk] at hMem
  | cons c cs ih =>
      intro t hMem
      cases skip with
      | succ skip =>
          rw [walk] at hMem
          exact ih _ _ t hMem
      | zero =>
          rw [walk] at hMem
          by_cases hBlank : isBlank c = true
          · rw [if_pos hBlank] at hMem
            exact ih _ _ t hMem
          · rw [if_neg hBlank] at hMem
            cases hResult : (scan c cs).result with
            | error e =>
                simp [hResult] at hMem
            | ok found =>
                simp only [hResult, List.mem_cons] at hMem
                rcases hMem with rfl | hRest
                · exact hScan c cs _ _ hResult
                · exact ih _ _ t hRest

/- There are at most as many tokens as characters. -/
theorem length_walk_le
    (skip pos : Nat)
    (cs : List Char) :
    (walk skip pos cs).1.length ≤ cs.length := by
  induction cs generalizing skip pos with
  | nil =>
      simp [walk]
  | cons c cs ih =>
      cases skip with
      | succ skip =>
          rw [walk]
          exact Nat.le_succ_of_le (ih _ _)
      | zero =>
          rw [walk]
          by_cases hBlank : isBlank c = true
          · rw [if_pos hBlank]
            exact Nat.le_succ_of_le (ih _ _)
          · rw [if_neg hBlank]
            cases hResult : (scan c cs).result with
            | error e =>
                simp [hResult]
            | ok found =>
                simp only [hResult, List.length_cons]
                exact Nat.succ_le_succ (ih _ _)

/- A walk that meets no error ends after the last byte. -/
theorem end_of_walk
    {skip pos p : Nat}
    {cs : List Char}
    (hOk : (walk skip pos cs).2 = .ok p) :
    p = pos + Text.byteLength cs := by
  induction cs generalizing skip pos with
  | nil =>
      rw [walk] at hOk
      cases hOk
      rfl
  | cons c cs ih =>
      rw [Text.byteLength, ← Nat.add_assoc]
      cases skip with
      | succ skip =>
          rw [walk] at hOk
          exact ih hOk
      | zero =>
          rw [walk] at hOk
          by_cases hBlank : isBlank c = true
          · rw [if_pos hBlank] at hOk
            exact ih hOk
          · rw [if_neg hBlank] at hOk
            cases hResult : (scan c cs).result with
            | error e =>
                simp [hResult] at hOk
            | ok found =>
                simp only [hResult] at hOk
                exact ih hOk

------------------------------------------------------------
-- Kinds and Lexemes
------------------------------------------------------------

/- A number has a value in range as its lexeme. -/
theorem number_eq_ok
    {radix : Nat}
    {digits : List Char}
    {kind : Kind}
    {lexeme : String}
    (hOk : number radix digits = .ok (kind, lexeme)) :
    kind = .number ∧
      ∃ n, n < literalBound ∧ lexeme = toString n := by
  unfold number at hOk
  by_cases hFits : positional radix digits < literalBound
  · simp only [hFits, if_true, Except.ok.injEq,
      Prod.mk.injEq] at hOk
    rcases hOk with ⟨rfl, rfl⟩
    exact ⟨rfl, positional radix digits, hFits, rfl⟩
  · simp [hFits] at hOk

/- The same for a number with its marks. -/
theorem scanNumber_eq_ok
    {c : Char}
    {cs : List Char}
    {kind : Kind}
    {lexeme : String}
    (hOk :
      (scanNumber c cs).result = .ok (kind, lexeme)) :
    kind = .number ∧
      ∃ n, n < literalBound ∧ lexeme = toString n := by
  unfold scanNumber at hOk
  split at hOk
  · dsimp only at hOk
    split at hOk
    · cases hOk
    · exact number_eq_ok hOk
  · exact number_eq_ok hOk

/- Fixed words are neither numbers nor ends of input. -/
theorem kind_of_mem_fixed :
    ∀ p ∈ punctuators ++ keywords,
      p.2 ≠ .number ∧ p.2 ≠ .eof := by
  decide

/- The kind of a keyword is the one of the table. -/
theorem keyword?_eq_some_iff
    {word : String}
    {kind : Kind} :
    keyword? word = some kind ↔
      (word, kind) ∈ keywords := by
  constructor
  · intro hKeyword
    rcases List.lookup_eq_some_iff.mp hKeyword with
      ⟨before, after, hTable, _⟩
    rw [hTable]
    exact List.mem_append_right _ List.mem_cons_self
  · have hTable :
        ∀ p ∈ keywords, keyword? p.1 = some p.2 := by
      decide
    exact hTable (word, kind)

/- No word is a number. -/
theorem kind_of_word
    (word : String) :
    (keyword? word).getD .identifier ≠ .number := by
  cases hKeyword : keyword? word with
  | none =>
      simp
  | some kind =>
      have hMem : (word, kind) ∈ keywords :=
        keyword?_eq_some_iff.mp hKeyword
      have hKind := kind_of_mem_fixed _
        (List.mem_append_right _ hMem)
      exact hKind.1

/- A scan gives a number with a value in range. -/
theorem number_of_scan
    (c : Char)
    (cs : List Char)
    (kind : Kind)
    (lexeme : String)
    (hOk : (scan c cs).result = .ok (kind, lexeme)) :
    kind = .number →
      ∃ n, n < literalBound ∧ lexeme = toString n := by
  intro hNumber
  unfold scan at hOk
  cases hSymbol : punctuator? (c :: cs) with
  | some symbol =>
      have hMem : symbol ∈ punctuators :=
        List.mem_of_find?_eq_some hSymbol
      have hKind := kind_of_mem_fixed symbol
        (List.mem_append_left _ hMem)
      simp only [hSymbol, Except.ok.injEq,
        Prod.mk.injEq] at hOk
      rcases hOk with ⟨rfl, rfl⟩
      exact absurd hNumber hKind.1
  | none =>
      simp only [hSymbol] at hOk
      by_cases hDigit : c.isDigit = true
      · rw [if_pos hDigit] at hOk
        exact (scanNumber_eq_ok hOk).2
      · rw [if_neg hDigit] at hOk
        by_cases hWord : isWordStart c = true
        · rw [if_pos hWord] at hOk
          simp only [scanWord, Except.ok.injEq,
            Prod.mk.injEq] at hOk
          rcases hOk with ⟨rfl, rfl⟩
          exact absurd hNumber (kind_of_word _)
        · rw [if_neg hWord] at hOk
          cases hOk

end Lexer

------------------------------------------------------------
-- All Tokens of a Source
------------------------------------------------------------

/-
  The tokens of a source are those of the walk over it, and
  the end of input stands after its last byte.
-/
theorem walk_of_lex
    {src : String}
    {s : TokenStream}
    (hLex : lex src = .ok s) :
    Lexer.walk 0 0 src.toList =
        (s.tokens, .ok (Text.byteLength src.toList)) ∧
      s.stop =
        Token.eofAt (Text.byteLength src.toList) := by
  unfold lex at hLex
  split at hLex
  · rename_i tokens pos hWalk
    have hOk : (Lexer.walk 0 0 src.toList).2 = .ok pos := by
      rw [hWalk]
    have hEnd := Lexer.end_of_walk hOk
    rw [Nat.zero_add] at hEnd
    subst hEnd
    cases hLex
    exact ⟨hWalk, rfl⟩
  · cases hLex

/- A failed reading is a walk that fails. -/
theorem walk_of_lex_error
    {src : String}
    {failure : LexFailure}
    (hLex : lex src = .error failure) :
    Lexer.walk 0 0 src.toList =
      (failure.before, .error failure.error) := by
  unfold lex at hLex
  split at hLex
  · cases hLex
  · rename_i tokens e hWalk
    cases hLex
    exact hWalk

/- The lexeme of a number is a value in range. -/
theorem number_of_lex
    {src : String}
    {s : TokenStream}
    (hLex : lex src = .ok s) :
    ∀ t ∈ s.tokens,
      t.kind = .number →
      ∃ n,
        n < Lexer.literalBound ∧
        t.lexeme = toString n := by
  rcases walk_of_lex hLex with ⟨hWalk, _⟩
  have hAll := Lexer.forall_mem_walk Lexer.number_of_scan
    0 0 src.toList
  rw [hWalk] at hAll
  exact hAll

namespace Text

/- Strings and lists of characters are measured alike. -/
theorem utf8ByteSize_eq_byteLength
    (s : String) :
    s.utf8ByteSize = byteLength s.toList := by
  induction s using String.push_induction with
  | empty =>
      rfl
  | push s c ih =>
      rw [String.utf8ByteSize_push, String.toList_push,
        byteLength_append, ih]
      rfl

/- A character takes at least one byte. -/
theorem length_le_byteLength
    (cs : List Char) :
    cs.length ≤ byteLength cs := by
  induction cs with
  | nil =>
      exact Nat.le_refl 0
  | cons c cs ih =>
      have hPos : 0 < c.utf8Size := Char.utf8Size_pos c
      rw [List.length_cons, byteLength]
      omega

end Text

/- A source has at most one token for each byte. -/
theorem length_tokens_le_of_lex
    {src : String}
    {s : TokenStream}
    (hLex : lex src = .ok s) :
    s.tokens.length ≤ src.utf8ByteSize := by
  rcases walk_of_lex hLex with ⟨hWalk, _⟩
  have hTokens := Lexer.length_walk_le 0 0 src.toList
  rw [hWalk] at hTokens
  calc
    s.tokens.length
        ≤ src.toList.length := hTokens
    _ ≤ Text.byteLength src.toList :=
        Text.length_le_byteLength src.toList
    _ = src.utf8ByteSize :=
        (Text.utf8ByteSize_eq_byteLength src).symm

end WordLang
