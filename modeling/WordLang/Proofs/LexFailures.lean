import WordLang.Proofs.SourceCuts

/-
  This file says what a failed reading of a source leaves
  behind.

  Reading fails at the first place where no token can be
  taken. No token before this place looks at the text behind
  it, so the tokens that are left are those of the source up
  to there. The text at the place tells the error, and what
  the error is about.

  Key definitions include:
    * `WordLang.LexError.FitsAt`
    * `WordLang.LexFailure.IsAt`

  Key theorems include:
    * `WordLang.LexError.FitsAt.unique`
    * `WordLang.Lexer.fitsAt_of_scan`
    * `WordLang.Lexer.walk_of_error`
    * `WordLang.failing_scan_of_lex_error`
    * `WordLang.lex_succeeds_or_fails_at`
-/

namespace WordLang

------------------------------------------------------------
-- Errors and Their Texts
------------------------------------------------------------

namespace LexError

/-
  An error fits the text at a place, and `text` is the part
  of it that the error is about: a character that no token
  starts with, a mark of a radix that no digit follows, or
  the longest token, if it is a number that is too large.
-/
def FitsAt
    (rest text : List Char) :
    LexError → Prop
| unexpectedChar c =>
    text = [c] ∧
      text <+: rest ∧
      ¬ Radix.decimal.IsDigit c ∧
      ¬ IsLetter c ∧
      ∀ p ∈ punctuators, ¬ p.1.toList <+: rest
| missingDigits radix =>
    ∃ r : Radix,
      r ≠ .decimal ∧
      r.base = radix ∧
      text = r.mark ∧
      text <+: rest ∧
      ∀ d, text ++ [d] <+: rest → ¬ r.IsDigit d
| tooLarge =>
    IsLongest rest text ∧
      ∃ (r : Radix) (digits : List Char),
        text = r.mark ++ digits ∧
        digits ≠ [] ∧
        (∀ d ∈ digits, r.IsDigit d) ∧
        2 ^ 63 ≤ r.value digits

namespace FitsAt

variable {rest text text' : List Char}
variable {radix : Nat}

/- A mark starts with a digit. -/
theorem not_unexpected_of_missing
    {c : Char}
    (hFirst : (unexpectedChar c).FitsAt rest text) :
    ¬ (missingDigits radix).FitsAt rest text' := by
  rcases hFirst with ⟨rfl, hStarts, hDigit, -, -⟩
  rintro ⟨r, hMarked, -, rfl, hMark, -⟩
  rcases hStarts with ⟨cs, rfl⟩
  apply hDigit
  rw [(Lexer.radixMark?_of_mark hMarked hMark).1,
    ← Lexer.isDigit_iff]
  rfl

/- A number starts with a digit. -/
theorem not_unexpected_of_tooLarge
    {c : Char}
    (hFirst : (unexpectedChar c).FitsAt rest text) :
    ¬ tooLarge.FitsAt rest text' := by
  rcases hFirst with ⟨rfl, hStarts, hDigit, -, -⟩
  rintro ⟨hLongest, r, digits, rfl, hNonempty, hDigits, -⟩
  rcases hStarts with ⟨cs, rfl⟩
  have hContains :
      (TokenClass.number r).Contains (r.mark ++ digits) :=
    ⟨digits, rfl, hNonempty, hDigits⟩
  exact hDigit (hContains.starts_at hLongest.starts)

/- At a mark without digits, the longest token is a zero. -/
theorem not_missing_of_tooLarge
    (hFirst : (missingDigits radix).FitsAt rest text) :
    ¬ tooLarge.FitsAt rest text' := by
  rcases hFirst with ⟨r, hMarked, -, rfl, hMark, hAlone⟩
  rintro ⟨hLongest, r', digits, rfl, hNonempty, hDigits,
    hLarge⟩
  rcases List.exists_cons_of_ne_nil hNonempty with
    ⟨d, ds, rfl⟩
  have hStarts := hLongest.starts
  by_cases hDecimal : r' = .decimal
  · subst hDecimal
    rcases Lexer.mark_of_ne_decimal hMarked with
      ⟨m, hZero, hLetter, -⟩
    rcases hMark with ⟨cs, rfl⟩
    rw [hZero, Radix.mark, List.nil_append,
      List.cons_append, List.cons_prefix_cons] at hStarts
    rcases hStarts with ⟨rfl, hMore⟩
    cases ds with
    | nil =>
        -- A zero alone is not too large.
        exact absurd hLarge (by decide)
    | cons d' ds =>
        rw [List.singleton_append,
          List.cons_prefix_cons] at hMore
        have hDigit : d'.isDigit = true :=
          (Lexer.isDigit_iff d').mpr (hDigits d' (by simp))
        rw [hMore.1, hLetter] at hDigit
        cases hDigit
  · have hSame : r' = r :=
      Lexer.mark_unique hDecimal hMarked
        ((List.prefix_append _ _).trans hStarts) hMark
    subst hSame
    have hDigitStarts : r'.mark ++ [d] <+: rest := by
      apply List.IsPrefix.trans _ hStarts
      rw [List.prefix_append_right_inj]
      exact List.prefix_append [d] ds
    exact hAlone d hDigitStarts
      (hDigits d List.mem_cons_self)

/- The text at a place tells the error and its part. -/
theorem unique
    {e e' : LexError}
    (hFirst : e.FitsAt rest text)
    (hSecond : e'.FitsAt rest text') :
    e = e' ∧ text = text' := by
  cases e with
  | unexpectedChar c =>
      cases e' with
      | unexpectedChar c' =>
          rcases hFirst with ⟨rfl, hStarts, -⟩
          rcases hSecond with ⟨rfl, hStarts', -⟩
          rcases hStarts with ⟨cs, rfl⟩
          rcases hStarts' with ⟨cs', hSame⟩
          cases hSame
          exact ⟨rfl, rfl⟩
      | missingDigits radix =>
          exact absurd hSecond
            (not_unexpected_of_missing hFirst)
      | tooLarge =>
          exact absurd hSecond
            (not_unexpected_of_tooLarge hFirst)
  | missingDigits radix =>
      cases e' with
      | unexpectedChar c' =>
          exact absurd hFirst
            (not_unexpected_of_missing hSecond)
      | missingDigits radix' =>
          rcases hFirst with
            ⟨r, hMarked, rfl, rfl, hMark, -⟩
          rcases hSecond with
            ⟨r', hMarked', rfl, rfl, hMark', -⟩
          rw [Lexer.mark_unique hMarked hMarked' hMark
            hMark']
          exact ⟨rfl, rfl⟩
      | tooLarge =>
          exact absurd hSecond
            (not_missing_of_tooLarge hFirst)
  | tooLarge =>
      cases e' with
      | unexpectedChar c' =>
          exact absurd hFirst
            (not_unexpected_of_tooLarge hSecond)
      | missingDigits radix' =>
          exact absurd hFirst
            (not_missing_of_tooLarge hSecond)
      | tooLarge =>
          exact ⟨rfl, hFirst.1.unique hSecond.1⟩

end FitsAt

end LexError

------------------------------------------------------------
-- Errors of a Scan
------------------------------------------------------------

namespace Lexer

variable {c : Char}
variable {cs : List Char}
variable {e : LexError}

/- A number that is an error is too large. -/
theorem number_eq_error
    {r : Radix}
    {digits : List Char}
    (hDigits : ∀ d ∈ digits, r.IsDigit d)
    (hError : number r.base digits = .error e) :
    e = .tooLarge ∧ 2 ^ 63 ≤ r.value digits := by
  rw [number, positional_eq_value hDigits] at hError
  by_cases hFits : r.value digits < literalBound
  · simp [hFits] at hError
  · simp only [hFits, if_false, Except.error.injEq] at hError
    exact ⟨hError.symm, Nat.le_of_not_lt hFits⟩

/- An error after a mark fits the text. -/
theorem fitsAt_of_marked
    {r : Radix}
    (hMarked : r ≠ .decimal) :
    let digits := cs.takeWhile (isDigitOf r.base)
    let piece : Scan :=
      if digits.isEmpty then
        ⟨1, .error (.missingDigits r.base)⟩
      else
        ⟨digits.length + 1, number r.base digits⟩
    piece.result = .error e →
    e.FitsAt (r.mark ++ cs)
      ((r.mark ++ cs).take (piece.extra + 1)) := by
  intro digits piece hError
  rcases mark_of_ne_decimal hMarked with ⟨m, hMark, -⟩
  by_cases hNone : digits = []
  · have hPiece :
        piece = ⟨1, .error (.missingDigits r.base)⟩ := by
      simp [piece, hNone]
    rw [hPiece] at hError ⊢
    cases hError
    have hTake : (r.mark ++ cs).take 2 = r.mark := by
      rw [hMark]
      rfl
    rcases (isBareMark_iff hMarked).mpr hNone with
      ⟨r', hMarked', hStarts, hAlone⟩
    have hSame : r' = r :=
      mark_unique hMarked' hMarked hStarts
        (List.prefix_append _ _)
    subst hSame
    rw [hTake]
    exact ⟨r', hMarked, rfl, rfl, hStarts, hAlone⟩
  · have hPiece :
        piece =
          ⟨digits.length + 1, number r.base digits⟩ := by
      simp [piece, hNone]
    rw [hPiece] at hError ⊢
    have hDigits : ∀ d ∈ digits, r.IsDigit d :=
      fun d => isDigit_of_mem_takeWhile
    rcases number_eq_error hDigits hError with
      ⟨rfl, hLarge⟩
    have hTake :
        (r.mark ++ cs).take (digits.length + 1 + 1) =
          r.mark ++ digits := by
      rw [hMark]
      exact congrArg (['0', m] ++ ·)
        (take_length_takeWhile (isDigitOf r.base) cs)
    rw [hTake]
    exact ⟨isLongest_marked hMarked hNone, r, digits, rfl,
      hNone, hDigits, hLarge⟩

/- An error of a decimal number fits the text. -/
theorem fitsAt_of_decimal
    (hDigit : Radix.decimal.IsDigit c)
    (hUnmarked :
      ∀ r : Radix, r ≠ .decimal → ¬ r.mark <+: c :: cs)
    (hError :
      number 10 (c :: cs.takeWhile (isDigitOf 10)) =
        .error e) :
    e.FitsAt (c :: cs)
      (c :: cs.takeWhile (isDigitOf 10)) := by
  have hDigits :
      ∀ d ∈ c :: cs.takeWhile (isDigitOf 10),
        Radix.decimal.IsDigit d := by
    rw [List.forall_mem_cons]
    exact ⟨hDigit,
      fun d => isDigit_of_mem_takeWhile (r := .decimal)⟩
  rcases number_eq_error hDigits hError with ⟨rfl, hLarge⟩
  exact ⟨isLongest_decimal hDigit hUnmarked, .decimal, _,
    rfl, by simp, hDigits, hLarge⟩

/- An error of a number fits the text. -/
theorem fitsAt_of_scanNumber
    (hDigit : c.isDigit = true)
    (hError : (scanNumber c cs).result = .error e) :
    e.FitsAt (c :: cs)
      (c :: cs.take (scanNumber c cs).extra) := by
  rw [isDigit_iff] at hDigit
  unfold scanNumber at hError ⊢
  cases hMark :
      (if c = '0' then radixMark? cs else none) with
  | some base =>
      have hZero : c = '0' := by
        by_contra hOther
        simp [hOther] at hMark
      subst hZero
      rw [if_pos rfl] at hMark
      rcases radixMark?_eq_some hMark with
        ⟨r, cs', hMarked, rfl, hText, hRest⟩
      simp only [hMark, if_true, hRest] at hError ⊢
      rw [← List.take_succ_cons, hText]
      exact fitsAt_of_marked hMarked hError
  | none =>
      simp only [hMark] at hError ⊢
      rw [take_length_takeWhile]
      apply fitsAt_of_decimal hDigit _ hError
      intro r hMarked hStarts
      rcases radixMark?_of_mark hMarked hStarts with
        ⟨hZero, hBase⟩
      rw [if_pos hZero, hBase] at hMark
      cases hMark

/- An error of a scan fits the text. -/
theorem fitsAt_of_scan
    (hError : (scan c cs).result = .error e) :
    e.FitsAt (c :: cs) (c :: cs.take (scan c cs).extra) := by
  unfold scan at hError ⊢
  cases hSymbol : punctuator? (c :: cs) with
  | some found =>
      simp only [hSymbol] at hError
      cases hError
  | none =>
      simp only [hSymbol] at hError ⊢
      by_cases hDigit : c.isDigit = true
      · rw [if_pos hDigit] at hError ⊢
        exact fitsAt_of_scanNumber hDigit hError
      · rw [if_neg hDigit] at hError ⊢
        by_cases hWord : isWordStart c = true
        · rw [if_pos hWord] at hError
          cases hError
        · rw [if_neg hWord] at hError ⊢
          cases hError
          rw [isDigit_iff] at hDigit
          rw [isWordStart_iff] at hWord
          refine ⟨rfl, List.prefix_append [c] cs, hDigit,
            hWord, ?_⟩
          intro p hMem hStarts
          have hNone := List.find?_eq_none.mp hSymbol p hMem
          exact hNone (List.isPrefixOf_iff_prefix.mpr hStarts)

------------------------------------------------------------
-- The Tokens Before an Error
------------------------------------------------------------

/-
  A token is scanned in the same way when less text follows
  it.
-/
theorem scan_of_append
    {kind : Kind}
    {lexeme : String}
    {inside after : List Char}
    (hOk : (scan c cs).result = .ok (kind, lexeme))
    (hDrop : cs.drop (scan c cs).extra = inside ++ after) :
    let text := cs.take (scan c cs).extra
    (scan c (text ++ inside)).result = .ok (kind, lexeme) ∧
      (text ++ inside).take
        (scan c (text ++ inside)).extra = text := by
  intro text
  have hRight := scan_right c cs
  simp only [Scan.Right, hOk, List.take_succ_cons] at hRight
  rcases hRight with ⟨hLongest, hDenotes, hMark⟩
  have hSplit :
      c :: cs = c :: text ++ (inside ++ after) := by
    rw [← hDrop, List.cons_append, List.take_append_drop]
  rw [hSplit] at hLongest hMark
  rcases scan_of_longest hLongest.of_append hDenotes
      (number_of_scan c cs kind lexeme hOk)
      (hLongest.not_isBareMark hMark) with
    ⟨hResult, hTaken⟩
  exact ⟨hResult, List.tail_eq_of_cons_eq hTaken⟩

/-
  A walk that fails has passed the text before the error.
  The induction is on the number of characters, since a
  token may take several.
-/
theorem walk_of_error
    {n pos : Nat}
    {ts : List Token}
    {e : Located LexError}
    (hLength : cs.length ≤ n)
    (hWalk : walk 0 pos cs = (ts, .error e)) :
    ∃ before c rest,
      cs = before ++ c :: rest ∧
      isBlank c = false ∧
      (scan c rest).result = .error e.value ∧
      e.span =
        Span.between (pos + Text.byteLength before)
          (pos + Text.byteLength before +
            Text.byteLength
              (c :: rest.take (scan c rest).extra)) ∧
      walk 0 pos before =
        (ts, .ok (pos + Text.byteLength before)) := by
  induction n generalizing pos cs ts with
  | zero =>
      have hNil : cs = [] :=
        List.eq_nil_of_length_eq_zero
          (Nat.le_zero.mp hLength)
      subst hNil
      cases hWalk
  | succ n ih =>
      rcases blanks_before cs with
        ⟨gap, rest, rfl, hGap, hHead⟩
      rw [walk_gap hGap] at hWalk
      cases rest with
      | nil =>
          cases hWalk
      | cons c cs =>
          rw [walk_token _ (hHead c rfl)] at hWalk
          cases hResult : (scan c cs).result with
          | error e' =>
              simp only [hResult, Prod.mk.injEq,
                Except.error.injEq] at hWalk
              rcases hWalk with ⟨rfl, rfl⟩
              refine ⟨gap, c, cs, rfl, hHead c rfl, hResult,
                rfl, ?_⟩
              have hPassed := walk_gap hGap pos []
              rw [List.append_nil] at hPassed
              rw [hPassed, walk]
          | ok found =>
              rcases found with ⟨kind, lexeme⟩
              simp only [hResult, Prod.mk.injEq] at hWalk
              rcases hWalk with ⟨rfl, hError⟩
              rw [List.length_append,
                List.length_cons] at hLength
              rcases ih
                  (by rw [List.length_drop]; omega)
                  (Prod.ext rfl hError) with
                ⟨before, c', rest, hDrop, hBlank, hFails,
                  hSpan, hBefore⟩
              rcases scan_of_append hResult hDrop with
                ⟨hAgain, hTaken⟩
              generalize hText :
                  cs.take (scan c cs).extra = text at *
              have hDropped :
                  (text ++ before).drop
                    (scan c (text ++ before)).extra =
                    before := by
                have hWhole :=
                  List.take_append_drop
                    (scan c (text ++ before)).extra
                    (text ++ before)
                rw [hTaken] at hWhole
                exact List.append_cancel_left hWhole
              refine ⟨gap ++ (c :: text ++ before), c', rest,
                ?_, hBlank, hFails, ?_, ?_⟩
              · rw [← List.take_append_drop
                  (scan c cs).extra cs, hText, hDrop]
                simp
              · rw [hSpan, Text.byteLength_append,
                  Text.byteLength_append]
                simp only [Nat.add_assoc]
              · rw [walk_gap hGap, List.cons_append,
                  walk_token _ (hHead c rfl)]
                simp only [hAgain, hTaken, hDropped, hBefore]
                rw [Text.byteLength_append,
                  ← List.cons_append,
                  Text.byteLength_append]
                simp only [Nat.add_assoc]

end Lexer

------------------------------------------------------------
-- Failed Readings
------------------------------------------------------------

/-
  What a failed reading of a source leaves behind. The
  region of the error cuts out `inside`, and the tokens are
  those of the text before it. The error with its part of
  the text is the only one that fits there.
-/
structure LexFailure.IsAt
    (failure : LexFailure)
    (src before inside after : List Char) : Prop where
  cut :
    Text.Cut src failure.error.span before inside after
  readBefore :
    lexInto? [] (String.ofList before) =
      some
        (failure.before ++
          [⟨.eof, "", ⟨failure.error.span.lo, 0⟩⟩], none)
  starts :
    ∃ c cs, inside ++ after = c :: cs ∧ ¬ IsBlank c
  fits :
    ∀ e text,
      failure.error.value = e ∧ inside = text ↔
        e.FitsAt (inside ++ after) text

/-
  A failed reading has passed the text before the error, and
  the error fits the text that follows.
-/
theorem failing_scan_of_lex_error
    {src : String}
    {failure : LexFailure}
    (hLex : lex src = .error failure) :
    ∃ before inside after,
      src.toList = before ++ (inside ++ after) ∧
      (∃ c cs, inside = c :: cs ∧ ¬ IsBlank c) ∧
      failure.error.value.FitsAt (inside ++ after) inside ∧
      failure.error.span =
        Span.between (Text.byteLength before)
          (Text.byteLength before +
            Text.byteLength inside) ∧
      Lexer.walk 0 0 before =
        (failure.before, .ok (Text.byteLength before)) := by
  rcases Lexer.walk_of_error (Nat.le_refl _)
      (walk_of_lex_error hLex) with
    ⟨before, c, cs, hText, hBlank, hFails, hSpan, hBefore⟩
  have hFits := Lexer.fitsAt_of_scan hFails
  generalize (Lexer.scan c cs).extra = extra at *
  have hSplit :
      c :: cs = c :: cs.take extra ++ cs.drop extra := by
    rw [List.cons_append, List.take_append_drop]
  have hNotBlank : ¬ IsBlank c := by
    rw [← Lexer.isBlank_iff, hBlank]
    decide
  rw [hSplit] at hText hFits
  rw [Nat.zero_add] at hSpan hBefore
  exact ⟨before, c :: cs.take extra, cs.drop extra, hText,
    ⟨c, _, rfl, hNotBlank⟩, hFits, hSpan, hBefore⟩

/- A region of a source that is not too long is a cut. -/
theorem cut_of_between
    {src before inside after : List Char}
    {s : Span}
    (hText : src = before ++ (inside ++ after))
    (hSpan :
      s =
        Span.between (Text.byteLength before)
          (Text.byteLength before + Text.byteLength inside))
    (hBytes : Text.byteLength inside ≤ Span.maxLen) :
    Text.Cut src s before inside after := by
  rw [Span.between_add _ hBytes] at hSpan
  rw [hSpan]
  exact ⟨hText, rfl, rfl⟩

/- What is left behind is at the place of the error. -/
theorem isAt_of_lex_error
    {src : String}
    {failure : LexFailure}
    (hBytes : Text.byteLength src.toList ≤ Span.maxLen)
    (hLex : lex src = .error failure) :
    ∃ before inside after,
      failure.IsAt src.toList before inside after := by
  rcases failing_scan_of_lex_error hLex with
    ⟨before, inside, after, hText, ⟨c, cs, hFirst, hBlank⟩,
      hFits, hSpan, hBefore⟩
  have hInside : Text.byteLength inside ≤ Span.maxLen := by
    rw [hText, Text.byteLength_append,
      Text.byteLength_append] at hBytes
    omega
  have hCut := cut_of_between hText hSpan hInside
  refine ⟨before, inside, after, hCut, ?_, ?_, ?_⟩
  · rw [← hCut.lo, lexInto?, lex, String.toList_ofList,
      hBefore, ← Token.eofAt_eq]
    rfl
  · rw [hFirst]
    exact ⟨c, cs ++ after, rfl, hBlank⟩
  · intro e text
    constructor
    · rintro ⟨rfl, rfl⟩
      exact hFits
    · intro hOther
      exact hFits.unique hOther

/-
  Every source is read into tokens, or reading fails at a
  place where only the error fits that it fails with.
-/
theorem lex_succeeds_or_fails_at
    (src : String)
    (hSize : src.utf8ByteSize < 2 ^ 32) :
    (∃ ts, lexInto? [] src = some (ts, none)) ∨
      ∃ (failure : LexFailure)
          (before inside after : List Char),
        lexInto? [] src =
          some (failure.before, some failure.error) ∧
        failure.IsAt src.toList before inside after := by
  have hBytes :
      Text.byteLength src.toList ≤ Span.maxLen := by
    rw [← Text.utf8ByteSize_eq_byteLength]
    exact Nat.le_of_lt_succ hSize
  cases hLex : lex src with
  | ok stream =>
      refine .inl ⟨stream.toList, ?_⟩
      rw [lexInto?, hLex]
      rfl
  | error failure =>
      rcases isAt_of_lex_error hBytes hLex with
        ⟨before, inside, after, hIsAt⟩
      refine .inr ⟨failure, before, inside, after, ?_, hIsAt⟩
      rw [lexInto?, hLex]
      rfl

/-
  A letter of another alphabet right after two numbers, of
  which the first ends at a digit of another radix.
-/
theorem accented_letter_fails :
    let src := "a<=0b12é;"
    let failure : LexFailure :=
      ⟨[⟨.identifier, "a", ⟨0, 1⟩⟩,
        ⟨.lessEq, "<=", ⟨1, 2⟩⟩, ⟨.number, "1", ⟨3, 3⟩⟩,
        ⟨.number, "2", ⟨6, 1⟩⟩],
        ⟨.unexpectedChar 'é', ⟨7, 2⟩⟩⟩
    src.utf8ByteSize < 2 ^ 32 ∧
      lexInto? [] src =
        some (failure.before, some failure.error) ∧
      ∃ before inside after,
        failure.IsAt src.toList before inside after := by
  intro src failure
  have hSize : src.utf8ByteSize < 2 ^ 32 := by
    decide
  have hFails :
      lexInto? [] src =
        some (failure.before, some failure.error) := by
    decide +kernel
  refine ⟨hSize, hFails, ?_⟩
  rcases lex_succeeds_or_fails_at _ hSize with
    ⟨ts, hRead⟩ | ⟨⟨tokens, e⟩, before, inside, after, hRead,
      hIsAt⟩
  · rw [hFails] at hRead
    cases hRead
  · rw [hFails] at hRead
    cases hRead
    exact ⟨before, inside, after, hIsAt⟩

end WordLang
