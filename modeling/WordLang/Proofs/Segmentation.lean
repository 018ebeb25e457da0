import WordLang.Proofs.CursorLexer
import WordLang.Proofs.MaximalMunch
import WordLang.Proofs.Numeral

/-
  This file proves that the lexer divides a source into its
  longest tokens and loses nothing.

  A segmentation of a source is a list of tokens. Their
  regions are in order and do not overlap, what they do not
  cover is blank, and each is the longest token at its
  place. The last token is the end of input, and there is
  only one.

  The lexer gives a list of tokens if it is a segmentation,
  its numbers are in range, and no token starts at a mark of
  a radix that no digit follows.

  Key definitions include:
    * `WordLang.IsTokenAt`
    * `WordLang.IsSegmentation`
    * `WordLang.MarksHaveDigits`
    * `WordLang.Segmented`

  Key theorems include:
    * `WordLang.segmented_of_walk`
    * `WordLang.walk_of_segmented`
    * `WordLang.segmented_iff`
    * `WordLang.lex_is_maximal_munch`
-/

namespace WordLang

------------------------------------------------------------
-- Segmentations
------------------------------------------------------------

/-
  The region of a token cuts out the longest token at its
  place, and the token is what this text denotes.
-/
def IsTokenAt
    (src : List Char)
    (t : Token) : Prop :=
  ∃ before text after,
    src = before ++ (text ++ after) ∧
    Text.byteLength before = t.span.lo ∧
    Text.byteLength text = t.span.len ∧
    IsLongest (text ++ after) text ∧
    Denotes text t.kind t.lexeme

/-
  Some tokens are a segmentation of a source from a byte
  position on.
-/
structure IsSegmentation
    (src : List Char)
    (pos : Nat)
    (ts : List Token) : Prop where
  inside : ∀ t ∈ ts, pos ≤ t.span.lo
  ordered : ts.Pairwise (fun a b => a.span.hi ≤ b.span.lo)
  tokens :
    ∃ init,
      ts = init ++
        [⟨.eof, "", ⟨Text.byteLength src, 0⟩⟩] ∧
      ∀ t ∈ init,
        t.kind ≠ .eof ∧ 0 < t.span.len ∧ IsTokenAt src t
  blanks :
    ∀ before c after,
      src = before ++ c :: after →
      pos ≤ Text.byteLength before →
      (∀ t ∈ ts,
        ¬ (t.span.lo ≤ Text.byteLength before ∧
          Text.byteLength before < t.span.hi)) →
      IsBlank c

/- No token starts at a mark that no digit follows. -/
def MarksHaveDigits
    (src : List Char)
    (ts : List Token) : Prop :=
  ∀ t ∈ ts, ∀ before after,
    src = before ++ after →
    Text.byteLength before = t.span.lo →
    ¬ IsBareMark after

/-
  Both at once, built up from the end: blanks, a token, and
  the segmentation of what follows it.
-/
inductive Segmented :
    Nat →
    List Char →
    List Token →
    Prop where
  | stop {pos : Nat} {gap : List Char} :
      (∀ c ∈ gap, IsBlank c) →
      Segmented pos gap
        [⟨.eof, "", ⟨pos + Text.byteLength gap, 0⟩⟩]
  | token
      {pos : Nat}
      {gap text rest : List Char}
      {kind : Kind}
      {lexeme : String}
      {ts : List Token} :
      (∀ c ∈ gap, IsBlank c) →
      IsLongest (text ++ rest) text →
      Denotes text kind lexeme →
      ¬ IsBareMark (text ++ rest) →
      Segmented
        (pos + Text.byteLength gap + Text.byteLength text)
        rest ts →
      Segmented pos (gap ++ (text ++ rest))
        (⟨kind, lexeme,
          ⟨pos + Text.byteLength gap,
            Text.byteLength text⟩⟩ :: ts)

------------------------------------------------------------
-- Walks
------------------------------------------------------------

/- The region of a text that is not too long. -/
theorem Span.between_add
    (lo : Nat)
    {len : Nat}
    (hFits : len ≤ maxLen) :
    between lo (lo + len) = ⟨lo, len⟩ := by
  rw [between, Nat.add_sub_cancel_left,
    Nat.min_eq_left hFits]

/- The end of input is empty. -/
theorem Token.eofAt_eq
    (pos : Nat) :
    eofAt pos = ⟨.eof, "", ⟨pos, 0⟩⟩ := by
  have hEmpty := Span.between_add pos (Nat.zero_le _)
  rw [Nat.add_zero] at hEmpty
  rw [eofAt, hEmpty]

/-
  What a walk finds is a segmentation. The induction is on
  the number of characters, since a token may take several.
-/
theorem segmented_of_walk
    {n pos p : Nat}
    {cs : List Char}
    {ts : List Token}
    (hLength : cs.length ≤ n)
    (hBytes : Text.byteLength cs ≤ Span.maxLen)
    (hWalk : Lexer.walk 0 pos cs = (ts, .ok p)) :
    Segmented pos cs (ts ++ [Token.eofAt p]) := by
  induction n generalizing pos cs ts with
  | zero =>
      have hNil : cs = [] :=
        List.eq_nil_of_length_eq_zero
          (Nat.le_zero.mp hLength)
      subst hNil
      cases hWalk
      rw [Token.eofAt_eq]
      exact Segmented.stop (by simp)
  | succ n ih =>
      rcases Lexer.blanks_before cs with
        ⟨gap, rest, rfl, hGap, hHead⟩
      have hGapBlank : ∀ c ∈ gap, IsBlank c := by
        intro c hMem
        exact (Lexer.isBlank_iff c).mp (hGap c hMem)
      rw [Lexer.walk_gap hGap] at hWalk
      cases rest with
      | nil =>
          cases hWalk
          rw [List.append_nil, Token.eofAt_eq]
          exact Segmented.stop hGapBlank
      | cons c cs =>
          rw [Lexer.walk_token _ (hHead c rfl)] at hWalk
          have hRight := Lexer.scan_right c cs
          cases hResult : (Lexer.scan c cs).result with
          | error e =>
              simp [hResult] at hWalk
          | ok result =>
              rcases result with ⟨kind, lexeme⟩
              simp only [Lexer.Scan.Right, hResult,
                List.take_succ_cons] at hRight
              rcases hRight with
                ⟨hLongest, hDenotes, hMark⟩
              simp only [hResult, Prod.mk.injEq] at hWalk
              rcases hWalk with ⟨rfl, hEnd⟩
              generalize hExtra :
                  (Lexer.scan c cs).extra = extra at *
              have hSplit :
                  c :: cs =
                    c :: cs.take extra ++ cs.drop extra := by
                rw [List.cons_append,
                  List.take_append_drop]
              rw [List.length_append,
                List.length_cons] at hLength
              rw [hSplit, Text.byteLength_append,
                Text.byteLength_append] at hBytes
              have hTail := ih
                (by rw [List.length_drop]; omega)
                (by omega)
                (Prod.ext rfl hEnd)
              rw [hSplit] at hLongest hMark
              rw [hSplit, Span.between_add _ (by omega)]
              exact Segmented.token hGapBlank hLongest
                hDenotes hMark hTail

/-
  A scan finds the longest token, if it is not too large a
  number and no mark stands alone.
-/
theorem scan_of_longest
    {c : Char}
    {cs text : List Char}
    {kind : Kind}
    {lexeme : String}
    (hLongest : IsLongest (c :: cs) text)
    (hDenotes : Denotes text kind lexeme)
    (hValue :
      kind = .number →
      ∃ n, n < Lexer.literalBound ∧ lexeme = toString n)
    (hMark : ¬ IsBareMark (c :: cs)) :
    (Lexer.scan c cs).result = .ok (kind, lexeme) ∧
      c :: cs.take (Lexer.scan c cs).extra = text := by
  have hRight := Lexer.scan_right c cs
  unfold Lexer.Scan.Right at hRight
  cases hResult : (Lexer.scan c cs).result with
  | ok result =>
      rcases result with ⟨kind', lexeme'⟩
      simp only [hResult, List.take_succ_cons] at hRight
      rcases hRight with ⟨hLongest', hDenotes', -⟩
      have hText := hLongest'.unique hLongest
      rw [hText] at hDenotes'
      rcases hDenotes'.unique hDenotes with ⟨rfl, rfl⟩
      exact ⟨rfl, hText⟩
  | error e =>
      exfalso
      cases e with
      | unexpectedChar c' =>
          simp only [hResult] at hRight
          exact hRight text hLongest.isToken hLongest.starts
      | missingDigits radix =>
          simp only [hResult] at hRight
          exact hMark hRight
      | tooLarge =>
          simp only [hResult] at hRight
          rcases hRight with
            ⟨text', n, hLongest', hDenotes', hLarge⟩
          rw [hLongest'.unique hLongest] at hDenotes'
          rcases hDenotes'.unique hDenotes with ⟨rfl, rfl⟩
          rcases hValue rfl with ⟨m, hSmall, hSame⟩
          have hEq := Literal.toString_injective hSame
          omega

/-
  A segmentation is what a walk finds, if its numbers are in
  range.
-/
theorem walk_of_segmented
    {src : List Char}
    (hBytes : Text.byteLength src ≤ Span.maxLen)
    {pos : Nat}
    {cs : List Char}
    {ts : List Token}
    (hSegmented : Segmented pos cs ts)
    (hRest : Cursor.rest? src pos = some cs)
    (hValues :
      ∀ t ∈ ts,
        t.kind = .number →
        ∃ n,
          n < Lexer.literalBound ∧ t.lexeme = toString n) :
    ∃ init p,
      ts = init ++ [Token.eofAt p] ∧
      Lexer.walk 0 pos cs = (init, .ok p) := by
  induction hSegmented with
  | @stop pos gap hGap =>
      have hBlank : ∀ c ∈ gap, Lexer.isBlank c = true := by
        intro c hMem
        exact (Lexer.isBlank_iff c).mpr (hGap c hMem)
      have hWalk := Lexer.walk_gap hBlank pos []
      rw [List.append_nil] at hWalk
      refine ⟨[], pos + Text.byteLength gap, ?_, ?_⟩
      · rw [Token.eofAt_eq]
        rfl
      · rw [hWalk, Lexer.walk]
  | @token pos gap text rest kind lexeme ts hGap hLongest
      hDenotes hMark hTail ih =>
      have hBlank : ∀ c ∈ gap, Lexer.isBlank c = true := by
        intro c hMem
        exact (Lexer.isBlank_iff c).mpr (hGap c hMem)
      have hHere := Cursor.rest?_add hRest
      have hFits : Text.byteLength text ≤ Span.maxLen := by
        have hLe := Cursor.byteLength_le_of_rest? hHere
        rw [Text.byteLength_append] at hLe
        omega
      rcases ih (Cursor.rest?_add hHere)
          (fun t hMem =>
            hValues t (List.mem_cons_of_mem _ hMem)) with
        ⟨init, p, rfl, hWalk⟩
      -- The first character of the text starts the scan.
      rcases hLongest.head with ⟨c, cs, hText, hFirst⟩
      have hCons : text ++ rest = c :: (cs ++ rest) := by
        rw [hText, List.cons_append]
      rw [hCons] at hLongest hMark
      rcases scan_of_longest hLongest hDenotes
          (hValues _ List.mem_cons_self) hMark with
        ⟨hResult, hTaken⟩
      have hJoined :
          text ++ (cs ++ rest).drop
              (Lexer.scan c (cs ++ rest)).extra =
            text ++ rest := by
        rw [hCons]
        nth_rewrite 1 [← hTaken]
        rw [List.cons_append, List.take_append_drop]
      have hDropped := List.append_cancel_left hJoined
      have hStart : Lexer.isBlank c = false := by
        rw [← Lexer.isBlank_iff] at hFirst
        simpa using hFirst
      refine ⟨_ :: init, p, rfl, ?_⟩
      rw [Lexer.walk_gap hBlank, hCons,
        Lexer.walk_token _ hStart]
      simp only [hResult, hTaken, hDropped, hWalk,
        Span.between_add _ hFits]

------------------------------------------------------------
-- Both Forms of Segmentations
------------------------------------------------------------

/- What stands after a position is in the rest. -/
theorem rest_of_le
    {src before cs xs : List Char}
    {pos : Nat}
    (hRest : Cursor.rest? src pos = some cs)
    (hSrc : src = before ++ xs)
    (hPos : pos ≤ Text.byteLength before) :
    ∃ gap,
      cs = gap ++ xs ∧
      Text.byteLength before =
        pos + Text.byteLength gap := by
  rcases Cursor.rest?_eq_some_iff.mp hRest with
    ⟨start, hStart, rfl⟩
  rw [hSrc] at hStart
  rcases List.append_eq_append_iff.mp hStart with
    ⟨gap, hGap, hXs⟩ | ⟨gap, hGap, hCs⟩
  · -- The position is not before the start, so it is there.
    rw [hGap, Text.byteLength_append] at hPos
    have hNone : gap = [] := by
      apply List.eq_nil_of_length_eq_zero
      have hLe := Text.length_le_byteLength gap
      omega
    subst hNone
    refine ⟨[], hXs.symm, ?_⟩
    rw [hGap, List.append_nil]
    rfl
  · exact ⟨gap, hCs, by rw [hGap, Text.byteLength_append]⟩

/- The rest reaches up to the end. -/
theorem byteLength_of_rest?
    {src cs : List Char}
    {pos : Nat}
    (hRest : Cursor.rest? src pos = some cs) :
    Text.byteLength src = pos + Text.byteLength cs := by
  rcases Cursor.rest?_eq_some_iff.mp hRest with
    ⟨start, rfl, rfl⟩
  exact Text.byteLength_append start cs

/- A character that starts before the end of a text. -/
theorem mem_of_byteLength_lt
    {gap xs front after : List Char}
    {c : Char}
    (hSame : gap ++ xs = front ++ c :: after)
    (hLt : Text.byteLength front < Text.byteLength gap) :
    c ∈ gap := by
  rcases List.append_eq_append_iff.mp hSame with
    ⟨more, hFront, -⟩ | ⟨more, hGap, hMore⟩
  · rw [hFront, Text.byteLength_append] at hLt
    omega
  · cases more with
    | nil =>
        rw [hGap, List.append_nil] at hLt
        omega
    | cons d more =>
        cases hMore
        rw [hGap]
        exact List.mem_append_right _ List.mem_cons_self

/- The end of input is no text. -/
theorem Denotes.kind_ne_eof
    {text : List Char}
    {kind : Kind}
    {lexeme : String}
    (hDenotes : Denotes text kind lexeme) :
    kind ≠ .eof := by
  rcases hDenotes with ⟨C, -, hDescribes⟩
  cases C with
  | punctuator =>
      have hMem := List.mem_append_left keywords hDescribes.1
      exact (Lexer.kind_of_mem_fixed _ hMem).2
  | word =>
      rcases hDescribes.1 with hKeyword | ⟨rfl, -⟩
      · have hMem :=
          List.mem_append_right punctuators hKeyword
        exact (Lexer.kind_of_mem_fixed _ hMem).2
      · decide
  | number r =>
      rw [hDescribes.1]
      decide

namespace IsSegmentation

variable {src : List Char}
variable {pos : Nat}
variable {ts : List Token}

/- Only blanks are left. -/
theorem stop
    {gap : List Char}
    (hRest : Cursor.rest? src pos = some gap)
    (hGap : ∀ c ∈ gap, IsBlank c) :
    IsSegmentation src pos
      [⟨.eof, "", ⟨pos + Text.byteLength gap, 0⟩⟩] := by
  have hEnd := byteLength_of_rest? hRest
  rw [← hEnd]
  refine ⟨?_, ?_, ⟨[], rfl, by simp⟩, ?_⟩
  · intro t hMem
    cases List.mem_singleton.mp hMem
    show pos ≤ Text.byteLength src
    omega
  · exact List.pairwise_singleton _ _
  · intro before c after hSrc hPos _
    rcases rest_of_le hRest hSrc hPos with ⟨front, rfl, -⟩
    exact hGap c (by simp)

/- Blanks and a token come before the rest. -/
theorem token
    {gap text rest : List Char}
    {kind : Kind}
    {lexeme : String}
    (hRest :
      Cursor.rest? src pos = some (gap ++ (text ++ rest)))
    (hGap : ∀ c ∈ gap, IsBlank c)
    (hLongest : IsLongest (text ++ rest) text)
    (hDenotes : Denotes text kind lexeme)
    (hTail :
      IsSegmentation src
        (pos + Text.byteLength gap + Text.byteLength text)
        ts) :
    IsSegmentation src pos
      (⟨kind, lexeme,
        ⟨pos + Text.byteLength gap,
          Text.byteLength text⟩⟩ :: ts) := by
  rcases hTail with
    ⟨hInside, hOrdered, ⟨init, rfl, hTokens⟩, hBlanks⟩
  refine ⟨?_, ?_, ⟨_ :: init, rfl, ?_⟩, ?_⟩
  · intro t hMem
    rcases List.mem_cons.mp hMem with rfl | hLater
    · exact Nat.le_add_right _ _
    · have hFrom := hInside t hLater
      omega
  · exact List.pairwise_cons.mpr ⟨hInside, hOrdered⟩
  · intro t hMem
    rcases List.mem_cons.mp hMem with rfl | hLater
    · refine ⟨hDenotes.kind_ne_eof, ?_, ?_⟩
      · rcases hLongest.head with ⟨c, cs, rfl, -⟩
        have hLe := Text.length_le_byteLength (c :: cs)
        exact Nat.lt_of_lt_of_le (Nat.succ_pos _) hLe
      · rcases Cursor.rest?_eq_some_iff.mp
            (Cursor.rest?_add hRest) with
          ⟨before, hSrc, hPos⟩
        exact ⟨before, text, rest, hSrc, hPos, rfl,
          hLongest, hDenotes⟩
    · exact hTokens t hLater
  · intro before c after hSrc hPos hFree
    rcases rest_of_le hRest hSrc hPos with
      ⟨front, hSame, hAt⟩
    -- The character is in the blanks, in the token or after
    -- it.
    by_cases hBlank :
        Text.byteLength front < Text.byteLength gap
    · exact hGap c (mem_of_byteLength_lt hSame hBlank)
    · have hAfter :
          pos + Text.byteLength gap +
              Text.byteLength text ≤
            Text.byteLength before := by
        by_contra hIn
        apply hFree _ List.mem_cons_self
        simp only [Span.hi]
        omega
      exact hBlanks before c after hSrc hAfter
        (fun t hMem =>
          hFree t (List.mem_cons_of_mem _ hMem))

/- What stands before all tokens is blank. -/
theorem blank_of_gap
    {gap rest : List Char}
    (hSegmentation : IsSegmentation src pos ts)
    (hRest : Cursor.rest? src pos = some (gap ++ rest))
    (hBefore :
      ∀ t ∈ ts, pos + Text.byteLength gap ≤ t.span.lo) :
    ∀ c ∈ gap, IsBlank c := by
  intro c hMem
  rcases List.append_of_mem hMem with ⟨front, back, rfl⟩
  rcases Cursor.rest?_eq_some_iff.mp hRest with
    ⟨start, hSrc, hPos⟩
  apply hSegmentation.blanks (start ++ front) c
    (back ++ rest)
  · rw [hSrc]
    simp
  · rw [Text.byteLength_append]
    omega
  · rintro t hToken ⟨hFrom, -⟩
    have hLater := hBefore t hToken
    have hPositive := Text.length_le_byteLength (c :: back)
    rw [Text.byteLength_append] at hLater hFrom
    rw [List.length_cons] at hPositive
    omega

/- Without its first token it is one of what follows. -/
theorem tail
    {t : Token}
    {init : List Token}
    (hSegmentation :
      IsSegmentation src pos
        (t :: (init ++
          [⟨.eof, "", ⟨Text.byteLength src, 0⟩⟩])))
    (hTokens :
      ∀ u ∈ init,
        u.kind ≠ .eof ∧ 0 < u.span.len ∧ IsTokenAt src u) :
    IsSegmentation src t.span.hi
      (init ++
        [⟨.eof, "", ⟨Text.byteLength src, 0⟩⟩]) := by
  rcases List.pairwise_cons.mp hSegmentation.ordered with
    ⟨hAfter, hOrdered⟩
  refine ⟨hAfter, hOrdered, ⟨init, rfl, hTokens⟩, ?_⟩
  intro before c after hSrc hPos hFree
  have hStart := hSegmentation.inside t List.mem_cons_self
  apply hSegmentation.blanks before c after hSrc
  · unfold Span.hi at hPos
    omega
  · intro u hMem
    rcases List.mem_cons.mp hMem with rfl | hLater
    · omega
    · exact hFree u hLater

end IsSegmentation

/- Tokens that are built up are a segmentation. -/
theorem Segmented.isSegmentation
    {src : List Char}
    {pos : Nat}
    {cs : List Char}
    {ts : List Token}
    (hSegmented : Segmented pos cs ts)
    (hRest : Cursor.rest? src pos = some cs) :
    IsSegmentation src pos ts := by
  induction hSegmented with
  | stop hGap =>
      exact IsSegmentation.stop hRest hGap
  | token hGap hLongest hDenotes _ _ ih =>
      have hTail :=
        ih (Cursor.rest?_add (Cursor.rest?_add hRest))
      exact IsSegmentation.token hRest hGap hLongest
        hDenotes hTail

/- No token that is built up starts at a bare mark. -/
theorem Segmented.marksHaveDigits
    {src : List Char}
    {pos : Nat}
    {cs : List Char}
    {ts : List Token}
    (hSegmented : Segmented pos cs ts)
    (hRest : Cursor.rest? src pos = some cs) :
    MarksHaveDigits src ts := by
  induction hSegmented with
  | @stop pos gap hGap =>
      intro t hMem before after hSrc hPos hBare
      cases List.mem_singleton.mp hMem
      -- Nothing stands at the end, and no mark is nothing.
      have hEnd := byteLength_of_rest? hRest
      have hPos :
          Text.byteLength before =
            pos + Text.byteLength gap := hPos
      rw [← hEnd, hSrc, Text.byteLength_append] at hPos
      have hNone : after = [] := by
        apply List.eq_nil_of_length_eq_zero
        have hLe := Text.length_le_byteLength after
        omega
      subst hNone
      rcases hBare with ⟨r, hMarked, hStarts, -⟩
      cases r with
      | decimal =>
          exact hMarked rfl
      | hexadecimal | octal | binary =>
          cases List.prefix_nil.mp hStarts
  | @token pos gap text rest kind lexeme ts hGap hLongest
      hDenotes hMark hTail ih =>
      have hHere := Cursor.rest?_add hRest
      intro t hMem before after hSrc hPos
      rcases List.mem_cons.mp hMem with rfl | hLater
      · have hAfter :
            Cursor.rest? src (pos + Text.byteLength gap) =
              some after :=
          Cursor.rest?_eq_some_iff.mpr ⟨before, hSrc, hPos⟩
        rw [hHere] at hAfter
        cases hAfter
        exact hMark
      · exact ih (Cursor.rest?_add hHere) t hLater before
          after hSrc hPos

/- A segmentation can be built up. -/
theorem IsSegmentation.segmented
    {src : List Char}
    {pos : Nat}
    {cs : List Char}
    {ts : List Token}
    (hSegmentation : IsSegmentation src pos ts)
    (hMarks : MarksHaveDigits src ts)
    (hRest : Cursor.rest? src pos = some cs) :
    Segmented pos cs ts := by
  rcases hSegmentation.tokens with ⟨init, rfl, hTokens⟩
  induction init generalizing pos cs with
  | nil =>
      have hEnd := byteLength_of_rest? hRest
      have hBlank : ∀ c ∈ cs, IsBlank c := by
        rw [← List.append_nil cs] at hRest
        apply hSegmentation.blank_of_gap hRest
        intro t hMem
        cases List.mem_singleton.mp hMem
        exact Nat.le_of_eq hEnd.symm
      rw [List.nil_append, hEnd]
      exact Segmented.stop hBlank
  | cons t init ih =>
      rcases hTokens t List.mem_cons_self with
        ⟨-, -, before, text, after, hSrc, hLo, hLen,
          hLongest, hDenotes⟩
      have hFrom :=
        hSegmentation.inside t List.mem_cons_self
      rw [← hLo] at hFrom
      rcases rest_of_le hRest hSrc hFrom with
        ⟨gap, rfl, hGap⟩
      have hLater :
          ∀ u ∈ init,
            u.kind ≠ .eof ∧
              0 < u.span.len ∧ IsTokenAt src u :=
        fun u hMem =>
          hTokens u (List.mem_cons_of_mem _ hMem)
      have hTail := hSegmentation.tail hLater
      have hAfter := Cursor.rest?_add
        (Cursor.rest?_add hRest)
      have hMark : ¬ IsBareMark (text ++ after) :=
        hMarks t List.mem_cons_self before (text ++ after)
          hSrc hLo
      have hBlank : ∀ c ∈ gap, IsBlank c := by
        apply hSegmentation.blank_of_gap hRest
        intro u hMem
        rcases List.mem_cons.mp hMem with rfl | hRestMem
        · omega
        · have hNext := hTail.inside u hRestMem
          unfold Span.hi at hNext
          omega
      have hSpan :
          t.span =
            ⟨pos + Text.byteLength gap,
              Text.byteLength text⟩ := by
        rw [← hGap, hLo, hLen]
      rcases t with ⟨kind, lexeme, span⟩
      cases hSpan
      have hBuilt := ih hAfter hLater hTail
        (fun u hMem =>
          hMarks u (List.mem_cons_of_mem _ hMem))
      exact Segmented.token hBlank hLongest hDenotes hMark
        hBuilt

/- Both forms of segmentations are the same. -/
theorem segmented_iff
    {src : List Char}
    {pos : Nat}
    {cs : List Char}
    {ts : List Token}
    (hRest : Cursor.rest? src pos = some cs) :
    Segmented pos cs ts ↔
      IsSegmentation src pos ts ∧
        MarksHaveDigits src ts := by
  constructor
  · intro hSegmented
    exact ⟨hSegmented.isSegmentation hRest,
      hSegmented.marksHaveDigits hRest⟩
  · rintro ⟨hSegmentation, hMarks⟩
    exact hSegmentation.segmented hMarks hRest

------------------------------------------------------------
-- The Lexer
------------------------------------------------------------

/-
  The lexer gives back the segmentation of a source into its
  longest tokens. It gives none only if there is none, if a
  number is too large, or if no digit follows a mark.
-/
theorem lex_is_maximal_munch
    (src : String)
    (hSize : src.utf8ByteSize < 2 ^ 32)
    (ts : List Token) :
    (∃ s, lex src = .ok s ∧ s.toList = ts) ↔
      IsSegmentation src.toList 0 ts ∧
        MarksHaveDigits src.toList ts ∧
        ∀ t ∈ ts,
          t.kind = .number →
          ∃ n, n < 2 ^ 63 ∧ t.lexeme = toString n := by
  have hRest : Cursor.rest? src.toList 0 = some src.toList :=
    Cursor.rest?_zero
  have hBytes :
      Text.byteLength src.toList ≤ Span.maxLen := by
    rw [← Text.utf8ByteSize_eq_byteLength]
    exact Nat.le_of_lt_succ hSize
  rw [← and_assoc, ← segmented_iff hRest]
  constructor
  · rintro ⟨s, hLex, rfl⟩
    rcases walk_of_lex hLex with ⟨hWalk, hStop⟩
    rw [TokenStream.toList, hStop]
    refine ⟨segmented_of_walk (Nat.le_refl _) hBytes hWalk,
      ?_⟩
    intro t hMem hNumber
    rcases List.mem_append.mp hMem with hToken | hEnd
    · exact number_of_lex hLex t hToken hNumber
    · cases List.mem_singleton.mp hEnd
      cases hNumber
  · rintro ⟨hSegmented, hValues⟩
    rcases walk_of_segmented hBytes hSegmented hRest
        hValues with
      ⟨init, p, rfl, hWalk⟩
    refine ⟨⟨init, Token.eofAt p, rfl⟩, ?_, rfl⟩
    rw [lex, hWalk]

/-
  A sign of two characters, a number that ends at a digit of
  another radix, and a word that starts with a keyword.
-/
theorem mixed_numbers_are_maximal_munch :
    "x<=0b1012 returns".utf8ByteSize < 2 ^ 32 ∧
      ∃ ts,
        IsSegmentation "x<=0b1012 returns".toList 0 ts ∧
          ts.map Token.lexeme =
            ["x", "<=", "5", "2", "returns", ""] := by
  have hSize : "x<=0b1012 returns".utf8ByteSize < 2 ^ 32 := by
    decide
  have hLexemes :
      (lex "x<=0b1012 returns").map
          (fun s => s.toList.map Token.lexeme) =
        .ok ["x", "<=", "5", "2", "returns", ""] := by
    decide +kernel
  refine ⟨hSize, ?_⟩
  cases hLex : lex "x<=0b1012 returns" with
  | error e =>
      rw [hLex] at hLexemes
      cases hLexemes
  | ok s =>
      rw [hLex] at hLexemes
      have hSegmentation :=
        (lex_is_maximal_munch _ hSize s.toList).mp
          ⟨s, hLex, rfl⟩
      exact ⟨s.toList, hSegmentation.1,
        Except.ok.inj hLexemes⟩

end WordLang
