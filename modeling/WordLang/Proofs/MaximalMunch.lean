import Mathlib.Data.List.TakeWhile
import WordLang.Proofs.TokenClass

/-
  This file proves that a scan takes the longest token.

  Table order matters for punctuators only, where the longer
  ones stand first. A word and the digits of a number go on
  as far as they can. A mark of a radix is never taken for a
  decimal zero, so a scan fails where no digit follows it.

  Key definitions include:
    * `WordLang.Lexer.Scan.Right`

  Key theorems include:
    * `WordLang.Lexer.isLongest_punctuator`
    * `WordLang.Lexer.isLongest_word`
    * `WordLang.Lexer.isLongest_decimal`
    * `WordLang.Lexer.isLongest_marked`
    * `WordLang.Lexer.scan_right`
-/

namespace WordLang

namespace Lexer

variable {c : Char}
variable {cs : List Char}

------------------------------------------------------------
-- Punctuators
------------------------------------------------------------

/- In a sorted list, what is found first comes first. -/
theorem find?_of_pairwise
    {α : Type}
    {R : α → α → Prop}
    {found : α → Bool}
    {xs : List α}
    {a b : α}
    (hSorted : xs.Pairwise R)
    (hFind : xs.find? found = some a)
    (hMem : b ∈ xs)
    (hFound : found b = true) :
    a = b ∨ R a b := by
  induction hSorted with
  | nil =>
      cases hMem
  | cons hHead hTail ih =>
      rename_i x xs
      rw [List.find?_cons] at hFind
      rcases List.mem_cons.mp hMem with rfl | hRest
      · rw [hFound] at hFind
        exact .inl (Option.some.inj hFind).symm
      · cases hFirst : found x with
        | true =>
            rw [hFirst] at hFind
            cases hFind
            exact .inr (hHead b hRest)
        | false =>
            rw [hFirst] at hFind
            exact ih hFind hRest

/- The punctuator that is found is the longest token. -/
theorem isLongest_punctuator
    {symbol : String}
    {kind : Kind}
    (hSymbol : punctuator? (c :: cs) = some (symbol, kind)) :
    IsLongest (c :: cs) symbol.toList ∧
      Denotes symbol.toList kind symbol ∧
      TokenClass.punctuator.Starts c := by
  have hMem : (symbol, kind) ∈ punctuators :=
    List.mem_of_find?_eq_some hSymbol
  have hStarts : symbol.toList <+: c :: cs := by
    have hFound := List.find?_some hSymbol
    exact List.isPrefixOf_iff_prefix.mp hFound
  have hText : String.ofList symbol.toList = symbol :=
    String.ofList_toList
  have hContains :
      TokenClass.punctuator.Contains symbol.toList := by
    refine ⟨kind, ?_⟩
    rw [hText]
    exact hMem
  have hHead : TokenClass.punctuator.Starts c := by
    rcases hContains.starts with ⟨c', cs', hCons, hHead⟩
    rw [hCons, List.cons_prefix_cons] at hStarts
    rw [← hStarts.1]
    exact hHead
  refine ⟨⟨⟨_, hContains⟩, hStarts, ?_⟩,
    ⟨.punctuator, hContains, hMem, hText.symm⟩, hHead⟩
  rintro other ⟨C, hOther⟩ hOtherStarts
  have hClass : C = .punctuator :=
    TokenClass.eq_punctuator_of_starts hHead
      (hOther.starts_at hOtherStarts)
  subst hClass
  rcases hOther with ⟨kind', hOther⟩
  have hSorted :
      punctuators.Pairwise
        (fun p q => q.1.length ≤ p.1.length) := by
    decide
  have hFound :
      (String.ofList other).toList.isPrefixOf (c :: cs) =
        true := by
    rw [String.toList_ofList]
    exact List.isPrefixOf_iff_prefix.mpr hOtherStarts
  have hLength :
      (String.ofList other).length ≤ symbol.length := by
    rcases find?_of_pairwise hSorted hSymbol hOther hFound
      with hSame | hShorter
    · cases hSame
      exact Nat.le_refl _
    · exact hShorter
  rw [String.length_ofList] at hLength
  rw [String.length_toList]
  exact hLength

------------------------------------------------------------
-- Words
------------------------------------------------------------

/- A run of a class is not longer than the longest one. -/
theorem length_le_takeWhile
    {inClass : Char → Bool}
    {xs : List Char}
    (hStarts : xs <+: cs)
    (hAll : ∀ x ∈ xs, inClass x = true) :
    xs.length ≤ (cs.takeWhile inClass).length := by
  rcases hStarts with ⟨ys, rfl⟩
  rw [List.takeWhile_append_of_pos hAll,
    List.length_append]
  exact Nat.le_add_right _ _

/- A letter and what a word goes on with is a word. -/
theorem contains_word
    (hLetter : IsLetter c) :
    TokenClass.word.Contains
      (c :: cs.takeWhile isWordChar) := by
  refine ⟨c, _, rfl, hLetter, ?_⟩
  intro d hMem
  exact (isWordChar_iff d).mp (List.mem_takeWhile_imp hMem)

/- A word goes on as far as it can. -/
theorem isLongest_word
    (hLetter : IsLetter c) :
    IsLongest (c :: cs) (c :: cs.takeWhile isWordChar) := by
  refine ⟨⟨.word, contains_word hLetter⟩, ?_, ?_⟩
  · exact List.cons_prefix_cons.mpr
      ⟨rfl, List.takeWhile_prefix _⟩
  · rintro other ⟨C, hOther⟩ hStarts
    have hClass : C = .word :=
      TokenClass.eq_word_of_starts hLetter
        (hOther.starts_at hStarts)
    subst hClass
    rcases hOther with ⟨c', cs', rfl, -, hChars⟩
    rw [List.cons_prefix_cons] at hStarts
    rw [List.length_cons, List.length_cons]
    apply Nat.succ_le_succ
    apply length_le_takeWhile hStarts.2
    intro d hMem
    exact (isWordChar_iff d).mpr (hChars d hMem)

/- A word is a keyword if the table has it. -/
theorem denotes_word
    {text : List Char}
    (hWord : TokenClass.word.Contains text) :
    Denotes text
      ((keyword? (String.ofList text)).getD .identifier)
      (String.ofList text) := by
  refine ⟨.word, hWord, ?_, rfl⟩
  cases hKeyword : keyword? (String.ofList text) with
  | some kind =>
      exact .inl (keyword?_eq_some_iff.mp hKeyword)
  | none =>
      refine .inr ⟨rfl, ?_⟩
      intro kind hMem
      rw [← keyword?_eq_some_iff, hKeyword] at hMem
      cases hMem

------------------------------------------------------------
-- Numbers
------------------------------------------------------------

/- A mark is a zero and a letter of its own. -/
theorem mark_of_ne_decimal
    {r : Radix}
    (hMarked : r ≠ .decimal) :
    ∃ m,
      r.mark = ['0', m] ∧
      m.isDigit = false ∧
      ∀ cs, radixMark? (m :: cs) = some r.base := by
  cases r with
  | decimal =>
      contradiction
  | hexadecimal =>
      exact ⟨'x', rfl, rfl, fun _ => rfl⟩
  | octal =>
      exact ⟨'o', rfl, rfl, fun _ => rfl⟩
  | binary =>
      exact ⟨'b', rfl, rfl, fun _ => rfl⟩

/- The lexer knows a radix by its mark. -/
theorem radixMark?_eq_some
    {base : Nat}
    (hMark : radixMark? cs = some base) :
    ∃ (r : Radix) (cs' : List Char),
      r ≠ .decimal ∧
      r.base = base ∧
      '0' :: cs = r.mark ++ cs' ∧
      cs.drop 1 = cs' := by
  unfold radixMark? at hMark
  split at hMark
  · cases hMark
    exact ⟨.hexadecimal, _, by decide, rfl, rfl, rfl⟩
  · cases hMark
    exact ⟨.octal, _, by decide, rfl, rfl, rfl⟩
  · cases hMark
    exact ⟨.binary, _, by decide, rfl, rfl, rfl⟩
  · cases hMark

/- A mark is seen by the lexer. -/
theorem radixMark?_of_mark
    {r : Radix}
    (hMarked : r ≠ .decimal)
    (hStarts : r.mark <+: c :: cs) :
    c = '0' ∧ radixMark? cs = some r.base := by
  rcases mark_of_ne_decimal hMarked with
    ⟨m, hMark, -, hBase⟩
  rw [hMark, List.cons_prefix_cons] at hStarts
  rcases hStarts with ⟨hZero, rest, rfl⟩
  exact ⟨hZero.symm, hBase rest⟩

/- A text starts with one mark at most. -/
theorem mark_unique
    {r r' : Radix}
    {text : List Char}
    (hMarked : r ≠ .decimal)
    (hMarked' : r' ≠ .decimal)
    (hStarts : r.mark <+: text)
    (hStarts' : r'.mark <+: text) :
    r = r' := by
  cases text with
  | nil =>
      rcases mark_of_ne_decimal hMarked with ⟨m, hMark, -⟩
      rw [hMark] at hStarts
      cases List.prefix_nil.mp hStarts
  | cons c cs =>
      have hBase := (radixMark?_of_mark hMarked hStarts).2
      rw [(radixMark?_of_mark hMarked' hStarts').2] at hBase
      cases r <;> cases r' <;>
        first | rfl | contradiction

/- Digits that are taken are digits. -/
theorem isDigit_of_mem_takeWhile
    {r : Radix}
    {d : Char}
    (hMem : d ∈ cs.takeWhile (isDigitOf r.base)) :
    r.IsDigit d :=
  (isDigitOf_iff r d).mp (List.mem_takeWhile_imp hMem)

/- A decimal number goes on as far as it can. -/
theorem isLongest_decimal
    (hDigit : Radix.decimal.IsDigit c)
    (hUnmarked :
      ∀ r : Radix, r ≠ .decimal → ¬ r.mark <+: c :: cs) :
    IsLongest (c :: cs)
      (c :: cs.takeWhile (isDigitOf 10)) := by
  refine ⟨⟨.number .decimal, _, rfl, by simp, ?_⟩, ?_, ?_⟩
  · intro d hMem
    rcases List.mem_cons.mp hMem with rfl | hRest
    · exact hDigit
    · exact isDigit_of_mem_takeWhile (r := .decimal) hRest
  · exact List.cons_prefix_cons.mpr
      ⟨rfl, List.takeWhile_prefix _⟩
  · rintro other ⟨C, hOther⟩ hStarts
    rcases TokenClass.eq_number_of_starts hDigit
      (hOther.starts_at hStarts) with ⟨r, rfl⟩
    rcases hOther with ⟨digits, rfl, -, hDigits⟩
    by_cases hDecimal : r = .decimal
    · subst hDecimal
      have hFirst : isDigitOf 10 c = true :=
        (isDigitOf_iff .decimal c).mpr hDigit
      rw [← List.takeWhile_cons_of_pos hFirst]
      apply length_le_takeWhile hStarts
      intro d hMem
      exact (isDigitOf_iff .decimal d).mpr (hDigits d hMem)
    · exact absurd
        ((List.prefix_append _ _).trans hStarts)
        (hUnmarked r hDecimal)

/- A number with a mark goes on as far as it can. -/
theorem isLongest_marked
    {r : Radix}
    (hMarked : r ≠ .decimal)
    (hDigits : cs.takeWhile (isDigitOf r.base) ≠ []) :
    IsLongest (r.mark ++ cs)
      (r.mark ++ cs.takeWhile (isDigitOf r.base)) := by
  rcases mark_of_ne_decimal hMarked with
    ⟨m, hMark, hLetter, -⟩
  have hContains :
      (TokenClass.number r).Contains
        (r.mark ++ cs.takeWhile (isDigitOf r.base)) :=
    ⟨_, rfl, hDigits, fun d => isDigit_of_mem_takeWhile⟩
  refine ⟨⟨_, hContains⟩, ?_, ?_⟩
  · exact (List.prefix_append_right_inj _).mpr
      (List.takeWhile_prefix _)
  · rintro other ⟨C, hOther⟩ hStarts
    have hZero : Radix.decimal.IsDigit '0' :=
      (isDigit_iff '0').mp rfl
    have hHead : C.Starts '0' := by
      rw [hMark] at hStarts
      exact hOther.starts_at hStarts
    rcases TokenClass.eq_number_of_starts hZero hHead with
      ⟨r', rfl⟩
    rcases hOther with ⟨digits, rfl, -, hOther⟩
    by_cases hDecimal : r' = .decimal
    · -- The letter of the mark ends a decimal number.
      subst hDecimal
      have hStarts : digits <+: r.mark ++ cs := hStarts
      have hShort : digits.length ≤ 1 := by
        rw [hMark] at hStarts
        match digits with
        | [] | [_] =>
            simp
        | a :: b :: rest =>
            simp only [List.cons_append,
              List.cons_prefix_cons] at hStarts
            have hDigit : b.isDigit = true :=
              (isDigit_iff b).mpr (hOther b (by simp))
            rw [hStarts.2.1, hLetter] at hDigit
            cases hDigit
      rw [List.length_append, List.length_append, hMark]
      simp only [Radix.mark, List.length_nil,
        List.length_cons]
      omega
    · have hSame : r' = r :=
        mark_unique hDecimal hMarked
          ((List.prefix_append _ _).trans hStarts)
          (List.prefix_append _ _)
      subst hSame
      have hRuns : digits <+: cs :=
        (List.prefix_append_right_inj _).mp hStarts
      rw [List.length_append, List.length_append]
      apply Nat.add_le_add_left
      apply length_le_takeWhile hRuns
      intro d hMem
      exact (isDigitOf_iff r' d).mpr (hOther d hMem)

/- Digits denote their value. -/
theorem denotes_number
    {r : Radix}
    {digits : List Char}
    (hNonempty : digits ≠ [])
    (hDigits : ∀ d ∈ digits, r.IsDigit d) :
    Denotes (r.mark ++ digits) .number
      (toString (positional r.base digits)) := by
  refine ⟨.number r, ⟨digits, rfl, hNonempty, hDigits⟩,
    rfl, digits, rfl, ?_⟩
  rw [positional_eq_value hDigits]

------------------------------------------------------------
-- Scans
------------------------------------------------------------

/-
  What a scan says about the text at a place. A token is the
  longest one there, and no mark stands alone. An error says
  that there is no token, that a mark stands alone, or that
  the longest token is too large a number.
-/
def Scan.Right
    (rest : List Char)
    (piece : Scan) : Prop :=
  match piece.result with
  | .ok (kind, lexeme) =>
      IsLongest rest (rest.take (piece.extra + 1)) ∧
        Denotes (rest.take (piece.extra + 1)) kind lexeme ∧
        ¬ IsBareMark rest
  | .error (.unexpectedChar _) =>
      ∀ text, IsTokenText text → ¬ text <+: rest
  | .error (.missingDigits _) => IsBareMark rest
  | .error .tooLarge =>
      ∃ text n,
        IsLongest rest text ∧
        Denotes text .number (toString n) ∧
        literalBound ≤ n

/- Only a zero starts a mark. -/
theorem not_isBareMark
    (hOther : c ≠ '0') :
    ¬ IsBareMark (c :: cs) := by
  rintro ⟨r, hMarked, hStarts, -⟩
  exact hOther (radixMark?_of_mark hMarked hStarts).1

/- The number at a place is right. -/
theorem number_right
    {rest text : List Char}
    {r : Radix}
    {digits : List Char}
    {extra : Nat}
    (hLongest : IsLongest rest text)
    (hText : text = r.mark ++ digits)
    (hNonempty : digits ≠ [])
    (hDigits : ∀ d ∈ digits, r.IsDigit d)
    (hExtra : rest.take (extra + 1) = text)
    (hMark : ¬ IsBareMark rest) :
    Scan.Right rest ⟨extra, number r.base digits⟩ := by
  have hDenotes : Denotes text .number
      (toString (positional r.base digits)) := by
    rw [hText]
    exact denotes_number hNonempty hDigits
  unfold number
  by_cases hFits : positional r.base digits < literalBound
  · simp only [hFits, if_true, Scan.Right, hExtra]
    exact ⟨hLongest, hDenotes, hMark⟩
  · simp only [hFits, if_false, Scan.Right]
    exact ⟨text, _, hLongest, hDenotes,
      Nat.le_of_not_lt hFits⟩

/- A mark stands alone if no digit is taken after it. -/
theorem isBareMark_iff
    {r : Radix}
    (hMarked : r ≠ .decimal) :
    IsBareMark (r.mark ++ cs) ↔
      cs.takeWhile (isDigitOf r.base) = [] := by
  constructor
  · rintro ⟨r', hMarked', hStarts, hNone⟩
    have hSame : r' = r :=
      mark_unique hMarked' hMarked hStarts
        (List.prefix_append _ _)
    subst hSame
    cases cs with
    | nil =>
        rfl
    | cons d cs =>
        have hDigit : ¬ r'.IsDigit d := by
          apply hNone
          exact (List.prefix_append_right_inj _).mpr
            (List.prefix_append [d] cs)
        rw [← isDigitOf_iff] at hDigit
        exact List.takeWhile_cons_of_neg hDigit
  · intro hEmpty
    refine ⟨r, hMarked, List.prefix_append _ _, ?_⟩
    intro d hStarts hDigit
    rw [List.prefix_append_right_inj] at hStarts
    rcases hStarts with ⟨rest, rfl⟩
    rw [← isDigitOf_iff] at hDigit
    rw [List.singleton_append,
      List.takeWhile_cons_of_pos hDigit] at hEmpty
    cases hEmpty

/- A number after a mark is right. -/
theorem marked_right
    {r : Radix}
    (hMarked : r ≠ .decimal) :
    let digits := cs.takeWhile (isDigitOf r.base)
    Scan.Right (r.mark ++ cs)
      (if digits.isEmpty then
        ⟨1, .error (.missingDigits r.base)⟩
      else
        ⟨digits.length + 1, number r.base digits⟩) := by
  intro digits
  by_cases hNone : digits = []
  · have hBare := (isBareMark_iff hMarked).mpr hNone
    simp only [hNone, List.isEmpty_nil, if_true]
    exact hBare
  · have hSome : digits.isEmpty = false := by
      simpa using hNone
    simp only [hSome, Bool.false_eq_true, if_false]
    apply number_right (isLongest_marked hMarked hNone) rfl
      hNone (fun d => isDigit_of_mem_takeWhile)
    · rcases mark_of_ne_decimal hMarked with ⟨m, hMark, -⟩
      rw [hMark]
      exact congrArg (['0', m] ++ ·)
        (take_length_takeWhile (isDigitOf r.base) cs)
    · intro hBare
      exact hNone ((isBareMark_iff hMarked).mp hBare)

/- The number that starts with a digit is right. -/
theorem scanNumber_right
    (hDigit : c.isDigit = true) :
    (scanNumber c cs).Right (c :: cs) := by
  rw [isDigit_iff] at hDigit
  unfold scanNumber
  cases hMark :
      (if c = '0' then radixMark? cs else none) with
  | some base =>
      have hZero : c = '0' := by
        by_contra hOther
        simp [hOther] at hMark
      subst hZero
      rw [if_pos rfl] at hMark
      rcases radixMark?_eq_some hMark with
        ⟨r, cs', hMarked, rfl, hText, hRest⟩
      rw [hText]
      simp only [hRest]
      exact marked_right hMarked
  | none =>
      have hUnmarked (r : Radix) (hMarked : r ≠ .decimal) :
          ¬ r.mark <+: c :: cs := by
        intro hStarts
        rcases radixMark?_of_mark hMarked hStarts with
          ⟨hZero, hBase⟩
        rw [if_pos hZero, hBase] at hMark
        cases hMark
      have hLongest := isLongest_decimal hDigit hUnmarked
      apply number_right (r := .decimal) hLongest rfl
      · simp
      · intro d hMem
        rcases List.mem_cons.mp hMem with rfl | hTaken
        · exact hDigit
        · exact isDigit_of_mem_takeWhile (r := .decimal)
            hTaken
      · rw [List.take_succ_cons, take_length_takeWhile]
      · rintro ⟨r, hMarked, hStarts, -⟩
        exact hUnmarked r hMarked hStarts

/- Other characters start no token. -/
theorem not_starts_of_unexpected
    (hSymbol : punctuator? (c :: cs) = none)
    (hDigit : ¬ c.isDigit = true)
    (hWord : ¬ isWordStart c = true)
    (text : List Char)
    (hToken : IsTokenText text) :
    ¬ text <+: c :: cs := by
  intro hStarts
  rcases hToken with ⟨C, hContains⟩
  have hHead := hContains.starts_at hStarts
  cases C with
  | punctuator =>
      rcases hContains with ⟨kind, hMem⟩
      have hNone :=
        List.find?_eq_none.mp hSymbol _ hMem
      rw [String.toList_ofList] at hNone
      exact hNone (List.isPrefixOf_iff_prefix.mpr hStarts)
  | word =>
      exact hWord ((isWordStart_iff c).mpr hHead)
  | number r =>
      exact hDigit ((isDigit_iff c).mpr hHead)

/- A scan is right about the text at a place. -/
theorem scan_right
    (c : Char)
    (cs : List Char) :
    (scan c cs).Right (c :: cs) := by
  unfold scan
  cases hSymbol : punctuator? (c :: cs) with
  | some result =>
      rcases result with ⟨symbol, kind⟩
      rcases isLongest_punctuator hSymbol with
        ⟨hLongest, hDenotes, hHead⟩
      rcases punctuator?_eq_some hSymbol with ⟨hText, -⟩
      have hOther : c ≠ '0' := by
        rintro rfl
        exact hHead.2.1 ((isDigit_iff '0').mp rfl)
      simp only [Scan.Right, List.take_succ_cons, hText]
      exact ⟨hLongest, hDenotes, not_isBareMark hOther⟩
  | none =>
      by_cases hDigit : c.isDigit = true
      · simp only [hDigit, if_true]
        exact scanNumber_right hDigit
      · have hOther : c ≠ '0' := by
          rintro rfl
          exact hDigit rfl
        by_cases hWord : isWordStart c = true
        · have hLetter : IsLetter c :=
            (isWordStart_iff c).mp hWord
          simp only [hDigit, hWord, if_true,
            Bool.false_eq_true, if_false, scanWord,
            Scan.Right, List.take_succ_cons,
            take_length_takeWhile]
          exact ⟨isLongest_word hLetter,
            denotes_word (contains_word hLetter),
            not_isBareMark hOther⟩
        · simp only [hDigit, hWord, Bool.false_eq_true,
            if_false, Scan.Right]
          exact not_starts_of_unexpected hSymbol hDigit hWord

end Lexer

end WordLang
