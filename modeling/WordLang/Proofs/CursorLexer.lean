import Mathlib.Algebra.Group.Nat.Defs
import WordLang.Proofs.Lexemes

/-
  This file reads tokens by byte positions.

  The reader holds a byte position and cuts the source
  there whenever it looks at a character, and cuts out the
  text of a token when it has found both ends. A cut inside
  a character or past the end has no answer, and neither has
  a region that ends before it starts. The steps are
  counted, so a reader that does not come to an end has no
  answer either.

  None of this happens: the reader has an answer for every
  source, the one of the lexer.

  Key definitions include:
    * `WordLang.Cursor.rest?`
    * `WordLang.Cursor.passWhile?`
    * `WordLang.Cursor.cut?`
    * `WordLang.Cursor.token?`
    * `WordLang.Cursor.lex?`

  Key theorems include:
    * `WordLang.Cursor.token?_eq_scan`
    * `WordLang.Cursor.lex?_eq_lex`
-/

namespace WordLang

namespace Cursor

------------------------------------------------------------
-- Positions
------------------------------------------------------------

/- The text of a source from a byte position on. -/
def rest?
    (src : List Char)
    (pos : Nat) : Option (List Char) :=
  (Text.splitAtByte? pos src).map Prod.snd

/-
  The position after the characters of a class, which are
  looked at one by one.
-/
def passWhile?
    (inClass : Char → Bool)
    (src : List Char) :
    Nat →
    Nat →
    Option Nat
| 0, _ => none
| steps + 1, pos => do
    match ← rest? src pos with
    | [] => return pos
    | c :: _ =>
        if inClass c then
          passWhile? inClass src steps (pos + c.utf8Size)
        else
          return pos

/- The region between two positions, and the text in it. -/
def cut?
    (src : List Char)
    (lo hi : Nat) : Option (Span × List Char) := do
  let span ← Span.between? lo hi
  let text ← Text.slice? span.lo span.len src
  return (span, text)

------------------------------------------------------------
-- Tokens
------------------------------------------------------------

/-
  What is found at a position: a token and the position
  after it, or an error.
-/
abbrev Found :=
  Except (Located LexError) (Token × Nat)

/- The radix and the number of characters that mark it. -/
def radixMark : List Char → Nat × Nat
| '0' :: 'x' :: _ => (16, 2)
| '0' :: 'o' :: _ => (8, 2)
| '0' :: 'b' :: _ => (2, 2)
| _ => (10, 0)

/- The number of the digits that follow a mark. -/
def numberOf?
    (src : List Char)
    (lo radix width : Nat) : Option Found := do
  let hi ← passWhile? (Lexer.isDigitOf radix) src
    (src.length + 1) (lo + width)
  let (_, digits) ← cut? src (lo + width) hi
  let span ← Span.between? lo hi
  if digits.isEmpty then
    return .error ⟨.missingDigits radix, span⟩
  else
    match Lexer.number radix digits with
    | .error e => return .error ⟨e, span⟩
    | .ok (kind, lexeme) =>
        return .ok (⟨kind, lexeme, span⟩, hi)

/- The number at a position. -/
def number?
    (src : List Char)
    (lo : Nat) : Option Found := do
  let rest ← rest? src lo
  let (radix, width) := radixMark rest
  numberOf? src lo radix width

/- The word at a position. -/
def word?
    (src : List Char)
    (lo : Nat) : Option Found := do
  let hi ← passWhile? Lexer.isWordChar src
    (src.length + 1) lo
  let (span, text) ← cut? src lo hi
  let word := String.ofList text
  return .ok
    (⟨(keyword? word).getD .identifier, word, span⟩, hi)

/- What is at a position where the character `c` stands. -/
def token?
    (src : List Char)
    (lo : Nat)
    (c : Char) : Option Found := do
  match Lexer.punctuator? (← rest? src lo) with
  | some (symbol, kind) =>
      let hi := lo + symbol.utf8ByteSize
      let (span, text) ← cut? src lo hi
      return .ok (⟨kind, String.ofList text, span⟩, hi)
  | none =>
      if c.isDigit then
        number? src lo
      else if Lexer.isWordStart c then
        word? src lo
      else
        let span ← Span.between? lo (lo + c.utf8Size)
        return .error ⟨.unexpectedChar c, span⟩

------------------------------------------------------------
-- Sources
------------------------------------------------------------

/-
  The tokens from a position on, and the position of the
  end or the error that stops the reading.
-/
def read?
    (src : List Char) :
    Nat →
    Nat →
    Option (List Token × Except (Located LexError) Nat)
| 0, _ => none
| steps + 1, pos => do
    let lo ← passWhile? Lexer.isBlank src
      (src.length + 1) pos
    match ← rest? src lo with
    | [] => return ([], .ok lo)
    | c :: _ =>
        match ← token? src lo c with
        | .error e => return ([], .error e)
        | .ok (token, hi) =>
            let (tokens, outcome) ← read? src steps hi
            return (token :: tokens, outcome)

/- Read a source text into a stream of tokens. -/
def lex?
    (src : String) :
    Option (Except LexFailure TokenStream) := do
  let (tokens, outcome) ←
    read? src.toList (src.toList.length + 1) 0
  match outcome with
  | .error e => return .error ⟨tokens, e⟩
  | .ok pos =>
      let (span, text) ← cut? src.toList pos pos
      return .ok
        ⟨tokens, ⟨.eof, String.ofList text, span⟩, rfl⟩

------------------------------------------------------------
-- Cuts That Have an Answer
------------------------------------------------------------

variable {src after cs : List Char}
variable {pos lo : Nat}
variable {c : Char}

/- A position is a division of the source. -/
theorem rest?_eq_some_iff :
    rest? src pos = some after ↔
      ∃ before,
        src = before ++ after ∧
        Text.byteLength before = pos := by
  unfold rest?
  constructor
  · intro hRest
    rcases Option.map_eq_some_iff.mp hRest with
      ⟨⟨before, after'⟩, hCut, hSame⟩
    have hSame : after' = after := hSame
    subst hSame
    exact ⟨before, Text.splitAtByte?_eq_some_iff.mp hCut⟩
  · rintro ⟨before, hDivision⟩
    rw [Text.splitAtByte?_eq_some_iff.mpr hDivision]
    rfl

/- The start of a source is a position. -/
theorem rest?_zero :
    rest? src 0 = some src :=
  rest?_eq_some_iff.mpr ⟨[], rfl, rfl⟩

/- Passing over whole characters leads to a position. -/
theorem rest?_add
    {text : List Char}
    (hRest : rest? src pos = some (text ++ after)) :
    rest? src (pos + Text.byteLength text) =
      some after := by
  rcases rest?_eq_some_iff.mp hRest with
    ⟨before, hSrc, hPos⟩
  apply rest?_eq_some_iff.mpr
  refine ⟨before ++ text, ?_, ?_⟩
  · rw [hSrc, List.append_assoc]
  · rw [Text.byteLength_append, hPos]

/- Passing over one character leads to a position. -/
theorem rest?_cons
    (hRest : rest? src pos = some (c :: cs)) :
    rest? src (pos + c.utf8Size) = some cs := by
  have hRest : rest? src pos = some ([c] ++ cs) := hRest
  exact rest?_add hRest

/- No more than the source is left. -/
theorem length_le_of_rest?
    (hRest : rest? src pos = some after) :
    after.length ≤ src.length := by
  rcases rest?_eq_some_iff.mp hRest with ⟨before, hSrc, _⟩
  rw [hSrc, List.length_append]
  omega

/- Neither in bytes. -/
theorem byteLength_le_of_rest?
    (hRest : rest? src pos = some after) :
    Text.byteLength after ≤ Text.byteLength src := by
  rcases rest?_eq_some_iff.mp hRest with ⟨before, hSrc, _⟩
  rw [hSrc, Text.byteLength_append]
  omega

/- A class is passed over as far as it reaches. -/
theorem passWhile?_eq
    (inClass : Char → Bool)
    {steps : Nat}
    (hRest : rest? src pos = some after)
    (hSteps : after.length < steps) :
    passWhile? inClass src steps pos =
      some
        (pos +
          Text.byteLength (after.takeWhile inClass)) := by
  induction after generalizing pos steps with
  | nil =>
      cases steps with
      | zero =>
          contradiction
      | succ steps =>
          rw [passWhile?, hRest]
          rfl
  | cons c cs ih =>
      cases steps with
      | zero =>
          contradiction
      | succ steps =>
          rw [passWhile?, hRest]
          by_cases hClass : inClass c = true
          · have hNext :
                rest? src (pos + c.utf8Size) = some cs :=
              rest?_cons hRest
            have hFewer : cs.length < steps :=
              Nat.lt_of_succ_lt_succ hSteps
            simp [hClass, ih hNext hFewer, Text.byteLength,
              Nat.add_assoc]
          · simp [hClass, Text.byteLength]

/- A text that stands at a position is cut out there. -/
theorem cut?_eq
    {text : List Char}
    (hRest : rest? src lo = some (text ++ after))
    (hFits : Text.byteLength text ≤ Span.maxLen) :
    cut? src lo (lo + Text.byteLength text) =
      some
        (Span.between lo (lo + Text.byteLength text),
          text) := by
  rcases rest?_eq_some_iff.mp hRest with
    ⟨before, hSrc, hPos⟩
  have hOrder : lo ≤ lo + Text.byteLength text :=
    Nat.le_add_right _ _
  have hLen :
      Span.between lo (lo + Text.byteLength text) =
        ⟨lo, Text.byteLength text⟩ := by
    rw [Span.between, Nat.add_sub_cancel_left,
      Nat.min_eq_left hFits]
  have hBefore :
      Text.splitAtByte? lo src =
        some (before, text ++ after) :=
    Text.splitAtByte?_eq_some_iff.mpr ⟨hSrc, hPos⟩
  have hInside :
      Text.splitAtByte? (Text.byteLength text)
          (text ++ after) =
        some (text, after) :=
    Text.splitAtByte?_byteLength text after
  simp [cut?, Span.between?, hOrder, hLen, Text.slice?,
    hBefore, hInside]

------------------------------------------------------------
-- Tokens at Positions
------------------------------------------------------------

/- What a scan of the text at a position has found. -/
def found
    (lo : Nat)
    (c : Char)
    (cs : List Char)
    (piece : Lexer.Scan) : Found :=
  let hi :=
    lo + Text.byteLength (c :: cs.take piece.extra)
  match piece.result with
  | .error e => .error ⟨e, Span.between lo hi⟩
  | .ok (kind, lexeme) =>
      .ok (⟨kind, lexeme, Span.between lo hi⟩, hi)

/- The radix is marked by the character after a zero. -/
theorem radixMark_cons
    (c : Char)
    (cs : List Char) :
    radixMark (c :: cs) =
      match
        (if c = '0' then Lexer.radixMark? cs else none)
      with
      | some radix => (radix, 2)
      | none => (10, 0) := by
  unfold radixMark Lexer.radixMark?
  by_cases hZero : c = '0'
  · subst hZero
    split <;> simp_all
  · simp [hZero]

/- The marks of a radix take one byte. -/
theorem utf8Size_of_radixMark?
    {radix : Nat}
    (hMark : Lexer.radixMark? cs = some radix) :
    ∃ m cs', cs = m :: cs' ∧ m.utf8Size = 1 := by
  unfold Lexer.radixMark? at hMark
  split at hMark
  · exact ⟨'x', _, rfl, rfl⟩
  · exact ⟨'o', _, rfl, rfl⟩
  · exact ⟨'b', _, rfl, rfl⟩
  · contradiction

/- A class is passed over and its text is cut out. -/
theorem pass_and_cut
    (inClass : Char → Bool)
    (hRest : rest? src pos = some after)
    (hSize : Text.byteLength src ≤ Span.maxLen) :
    let text := after.takeWhile inClass
    let hi := pos + Text.byteLength text
    passWhile? inClass src (src.length + 1) pos = some hi ∧
      cut? src pos hi =
        some (Span.between pos hi, text) := by
  intro text hi
  have hSplit : after = text ++ after.dropWhile inClass :=
    List.takeWhile_append_dropWhile.symm
  have hSteps : after.length < src.length + 1 :=
    Nat.lt_succ_of_le (length_le_of_rest? hRest)
  have hFits : Text.byteLength text ≤ Span.maxLen := by
    have hBytes := byteLength_le_of_rest? hRest
    rw [hSplit, Text.byteLength_append] at hBytes
    omega
  constructor
  · exact passWhile?_eq inClass hRest hSteps
  · rw [hSplit] at hRest
    exact cut?_eq hRest hFits

/- The digits after a mark are found and read. -/
theorem numberOf?_eq
    (radix width : Nat)
    (hDigits : rest? src (lo + width) = some after)
    (hSize : Text.byteLength src ≤ Span.maxLen) :
    let digits := after.takeWhile (Lexer.isDigitOf radix)
    let hi := lo + width + Text.byteLength digits
    numberOf? src lo radix width =
      some
        (if digits.isEmpty then
          .error
            ⟨.missingDigits radix, Span.between lo hi⟩
        else
          match Lexer.number radix digits with
          | .error e => .error ⟨e, Span.between lo hi⟩
          | .ok (kind, lexeme) =>
              .ok
                (⟨kind, lexeme, Span.between lo hi⟩,
                  hi)) := by
  intro digits hi
  rcases pass_and_cut (Lexer.isDigitOf radix) hDigits
    hSize with ⟨hPass, hCut⟩
  have hOrder : lo ≤ hi := by
    have hWidth : lo ≤ lo + width := Nat.le_add_right _ _
    exact Nat.le_trans hWidth (Nat.le_add_right _ _)
  have hSpan :
      Span.between? lo hi = some (Span.between lo hi) :=
    if_pos hOrder
  unfold numberOf?
  rw [hPass, Option.bind_eq_bind, Option.bind_some, hCut,
    Option.bind_eq_bind, Option.bind_some, hSpan]
  by_cases hNone : digits.isEmpty = true
  · simp [digits, hi, hNone]
  · cases hNumber : Lexer.number radix digits with
    | error e =>
        simp [digits, hi, hNone, hNumber]
    | ok result =>
        simp [digits, hi, hNone, hNumber]

/- The number at a position is the one that starts there. -/
theorem number?_eq_scanNumber
    (hRest : rest? src lo = some (c :: cs))
    (hDigit : c.isDigit = true)
    (hSize : Text.byteLength src ≤ Span.maxLen) :
    number? src lo =
      some (found lo c cs (Lexer.scanNumber c cs)) := by
  have hStart :
      number? src lo =
        numberOf? src lo (radixMark (c :: cs)).1
          (radixMark (c :: cs)).2 := by
    rw [number?, hRest]
    rfl
  rw [hStart, radixMark_cons, Lexer.scanNumber]
  cases hMark :
      (if c = '0' then Lexer.radixMark? cs else none) with
  | some radix =>
      have hZero : c = '0' := by
        apply Decidable.byContradiction
        intro hOther
        simp [hOther] at hMark
      subst hZero
      rcases utf8Size_of_radixMark? hMark with
        ⟨m, cs', rfl, hOne⟩
      have hDigits : rest? src (lo + 2) = some cs' := by
        have hNext := rest?_cons (rest?_cons hRest)
        rw [hOne] at hNext
        exact hNext
      rw [numberOf?_eq radix 2 hDigits hSize]
      have hWidth (n : Nat) :
          lo + Text.byteLength
              ('0' :: (m :: cs').take (n + 1)) =
            lo + 2 + Text.byteLength (cs'.take n) := by
        rw [List.take_succ_cons, Text.byteLength,
          Text.byteLength, hOne]
        show lo + (1 + (1 + _)) = _
        omega
      by_cases hNone :
          (cs'.takeWhile (Lexer.isDigitOf radix)).isEmpty =
            true
      · have hEmpty := List.isEmpty_iff.mp hNone
        simp only [List.drop_one, List.tail_cons, hEmpty,
          List.isEmpty_nil, if_true, found, hWidth 0,
          List.take_zero]
      · simp only [List.drop_one, List.tail_cons, hNone,
          Bool.false_eq_true, if_false, found, hWidth,
          Lexer.take_length_takeWhile]
  | none =>
      have hFirst : Lexer.isDigitOf 10 c = true := by
        rw [Lexer.isDigitOf_ten, hDigit]
      rw [numberOf?_eq 10 0 hRest hSize]
      simp only [List.takeWhile_cons_of_pos hFirst,
        List.isEmpty_cons, found, Lexer.take_length_takeWhile]
      cases Lexer.number 10
          (c :: cs.takeWhile (Lexer.isDigitOf 10)) <;>
        rfl

/- The word at a position is the one that starts there. -/
theorem word?_eq_scanWord
    (hRest : rest? src lo = some (c :: cs))
    (hStart : Lexer.isWordChar c = true)
    (hSize : Text.byteLength src ≤ Span.maxLen) :
    word? src lo =
      some (found lo c cs (Lexer.scanWord c cs)) := by
  rcases pass_and_cut Lexer.isWordChar hRest hSize with
    ⟨hPass, hCut⟩
  rw [List.takeWhile_cons_of_pos hStart] at hPass hCut
  unfold word?
  rw [hPass, Option.bind_eq_bind, Option.bind_some, hCut]
  simp [found, Lexer.scanWord, Lexer.take_length_takeWhile]

/- What is at a position is what a scan finds there. -/
theorem token?_eq_scan
    (hRest : rest? src lo = some (c :: cs))
    (hSize : Text.byteLength src ≤ Span.maxLen) :
    token? src lo c =
      some (found lo c cs (Lexer.scan c cs)) := by
  unfold token? Lexer.scan
  rw [hRest, Option.bind_eq_bind, Option.bind_some]
  cases hSymbol : Lexer.punctuator? (c :: cs) with
  | some result =>
      rcases result with ⟨symbol, kind⟩
      rcases Lexer.punctuator?_eq_some hSymbol with
        ⟨hText, hSplit⟩
      have hFits :
          Text.byteLength symbol.toList ≤ Span.maxLen := by
        have hBytes := byteLength_le_of_rest? hRest
        rw [hSplit, Text.byteLength_append] at hBytes
        omega
      rw [hSplit] at hRest
      have hCut := cut?_eq hRest hFits
      simp [Text.utf8ByteSize_eq_byteLength, hCut, found,
        hText]
  | none =>
      by_cases hDigit : c.isDigit = true
      · simp only [hDigit, if_true]
        exact number?_eq_scanNumber hRest hDigit hSize
      · by_cases hWord : Lexer.isWordStart c = true
        · have hStart : Lexer.isWordChar c = true := by
            unfold Lexer.isWordStart at hWord
            unfold Lexer.isWordChar Char.isAlphanum
            rcases Bool.or_eq_true_iff.mp hWord with
              hAlpha | hUnder
            · simp [hAlpha]
            · simp [hUnder]
          simp only [hDigit, hWord, if_true,
            Bool.false_eq_true, if_false]
          exact word?_eq_scanWord hRest hStart hSize
        · have hOrder : lo ≤ lo + c.utf8Size :=
            Nat.le_add_right _ _
          simp [hDigit, hWord, Span.between?, hOrder, found,
            Text.byteLength]

------------------------------------------------------------
-- Whole Sources
------------------------------------------------------------

/-
  From any position of a source, the reader finds what the
  walk finds. The induction is on the number of steps, and
  each step takes at least one character.
-/
theorem read?_eq_walk
    {steps : Nat}
    (hRest : rest? src pos = some after)
    (hSteps : after.length < steps)
    (hSize : Text.byteLength src ≤ Span.maxLen) :
    read? src steps pos =
      some (Lexer.walk 0 pos after) := by
  induction steps generalizing pos after with
  | zero =>
      contradiction
  | succ steps ih =>
      rcases Lexer.blanks_before after with
        ⟨gap, rest, rfl, hGap, hHead⟩
      have hNoMore : rest.takeWhile Lexer.isBlank = [] := by
        cases rest with
        | nil =>
            rfl
        | cons c cs =>
            exact List.takeWhile_cons_of_neg
              (by simp [hHead c rfl])
      rcases pass_and_cut Lexer.isBlank hRest hSize with
        ⟨hPass, -⟩
      rw [List.takeWhile_append_of_pos hGap, hNoMore,
        List.append_nil] at hPass
      have hHere := rest?_add hRest
      rw [read?, hPass, Option.bind_eq_bind,
        Option.bind_some, hHere, Lexer.walk_gap hGap]
      generalize pos + Text.byteLength gap = lo at *
      cases rest with
      | nil =>
          simp [Lexer.walk]
      | cons c cs =>
          have hBlank : Lexer.isBlank c = false :=
            hHead c rfl
          have hNext :
              rest? src
                  (lo + Text.byteLength
                    (c :: cs.take (Lexer.scan c cs).extra)) =
                some (cs.drop (Lexer.scan c cs).extra) := by
            apply rest?_add
            rw [List.cons_append, List.take_append_drop]
            exact hHere
          have hLess :
              (cs.drop (Lexer.scan c cs).extra).length <
                steps := by
            rw [List.length_drop]
            rw [List.length_append,
              List.length_cons] at hSteps
            omega
          have hToken := token?_eq_scan hHere hSize
          have hTail := ih hNext hLess
          rw [Lexer.walk_token lo hBlank]
          cases hResult : (Lexer.scan c cs).result with
          | error e =>
              simp [hToken, found, hResult]
          | ok result =>
              simp [hToken, found, hResult, hTail]

/-
  Every cut has an answer, and the tokens of a source are
  those that the lexer finds.
-/
theorem lex?_eq_lex
    {src : String}
    (hSize : src.utf8ByteSize < 2 ^ 32) :
    lex? src = some (lex src) := by
  have hBytes :
      Text.byteLength src.toList ≤ Span.maxLen := by
    rw [Text.utf8ByteSize_eq_byteLength] at hSize
    exact Nat.le_of_lt_succ hSize
  have hRead :
      read? src.toList (src.toList.length + 1) 0 =
        some (Lexer.walk 0 0 src.toList) :=
    read?_eq_walk rest?_zero (Nat.lt_succ_self _) hBytes
  unfold lex? lex
  rw [hRead, Option.bind_eq_bind, Option.bind_some]
  cases hWalk : Lexer.walk 0 0 src.toList with
  | mk tokens outcome =>
      cases outcome with
      | error e =>
          rfl
      | ok pos =>
          have hOk :
              (Lexer.walk 0 0 src.toList).2 = .ok pos := by
            rw [hWalk]
          have hLast := Lexer.end_of_walk hOk
          rw [Nat.zero_add] at hLast
          have hEnd :
              rest? src.toList pos = some ([] ++ []) := by
            apply rest?_eq_some_iff.mpr
            exact ⟨src.toList, by simp, hLast.symm⟩
          have hCut := cut?_eq hEnd (Nat.zero_le _)
          have hNothing : Text.byteLength [] = 0 := rfl
          rw [hNothing, Nat.add_zero] at hCut
          simp only [hCut]
          rfl

end Cursor

end WordLang
