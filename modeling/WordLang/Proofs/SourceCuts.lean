import WordLang.Proofs.OperandRegions
import WordLang.Proofs.Segmentation

/-
  This file lexes parts of a source.

  The region of some tokens that follow each other starts
  and ends between characters of the source. The text that
  it cuts out is lexed into the same tokens: at each place
  the longest token is the same, since there is less to
  choose from, and a mark keeps its digit.

  Key definitions include:
    * `WordLang.Text.Cut`
    * `WordLang.Token.shift`

  Key theorems include:
    * `WordLang.Segmented.skip`
    * `WordLang.Segmented.take`
    * `WordLang.Segmented.shift`
    * `WordLang.exists_cut`
-/

namespace WordLang

------------------------------------------------------------
-- Cuts
------------------------------------------------------------

/- A region that divides a text between characters. -/
structure Text.Cut
    (cs : List Char)
    (s : Span)
    (before inside after : List Char) : Prop where
  text : cs = before ++ (inside ++ after)
  lo : byteLength before = s.lo
  len : byteLength inside = s.len

/- The text of such a region. -/
theorem Text.Cut.slice?_eq
    {cs before inside after : List Char}
    {s : Span}
    (hCut : Cut cs s before inside after) :
    slice? s.lo s.len cs = some inside := by
  unfold slice?
  rw [hCut.text, ← hCut.lo, ← hCut.len,
    splitAtByte?_byteLength]
  simp only [bind, Option.bind, splitAtByte?_byteLength]
  rfl

/- The regions of a small source are not too long. -/
theorem byteLength_le_maxLen
    {src : String}
    (hBytes : src.utf8ByteSize < 2 ^ 28) :
    Text.byteLength src.toList ≤ Span.maxLen := by
  rw [← Text.utf8ByteSize_eq_byteLength, Span.maxLen]
  omega

/- A region that starts further down. -/
def Span.shift
    (n : Nat)
    (s : Span) : Span :=
  ⟨n + s.lo, s.len⟩

/- A token that starts further down. -/
def Token.shift
    (n : Nat)
    (t : Token) : Token :=
  { t with span := t.span.shift n }

------------------------------------------------------------
-- Tokens of a Shorter Text
------------------------------------------------------------

/- A longest token is longest in what is left of a text. -/
theorem IsLongest.of_append
    {text inside after : List Char}
    (hLongest : IsLongest (text ++ (inside ++ after)) text) :
    IsLongest (text ++ inside) text where
  isToken := hLongest.isToken
  starts := List.prefix_append text inside
  longest := by
    intro other hToken hStarts
    apply hLongest.longest other hToken
    rw [← List.append_assoc]
    exact hStarts.trans (List.prefix_append _ after)

/-
  A mark does not lose its digit, since the longest token
  at its place has the digit in it.
-/
theorem IsLongest.not_isBareMark
    {text inside after : List Char}
    (hLongest : IsLongest (text ++ (inside ++ after)) text)
    (hMark : ¬ IsBareMark (text ++ (inside ++ after))) :
    ¬ IsBareMark (text ++ inside) := by
  rintro ⟨r, hMarked, hStarts, hAlone⟩
  have hMore :
      text ++ inside <+: text ++ (inside ++ after) := by
    rw [← List.append_assoc]
    exact List.prefix_append _ after
  apply hMark
  refine ⟨r, hMarked, hStarts.trans hMore, ?_⟩
  intro d hDigitStarts hDigit
  have hToken : IsTokenText (r.mark ++ [d]) :=
    ⟨.number r, [d], rfl, by simp, by simpa using hDigit⟩
  have hText : r.mark ++ [d] <+: text :=
    List.prefix_of_prefix_length_le hDigitStarts
      hLongest.starts
      (hLongest.longest _ hToken hDigitStarts)
  exact hAlone d
    (hText.trans (List.prefix_append text inside)) hDigit

------------------------------------------------------------
-- Segmentations of a Part
------------------------------------------------------------

namespace Segmented

variable {pos : Nat}
variable {cs : List Char}

/- Nothing is left. -/
theorem segmented_nil
    (pos : Nat) :
    Segmented pos [] [Token.eofAt pos] := by
  rw [Token.eofAt_eq]
  exact Segmented.stop (by simp)

/- What follows some tokens, from the next token on. -/
theorem skip
    {us ts : List Token}
    {t : Token}
    (hSegmented : Segmented pos cs (us ++ t :: ts))
    (hInside : t.kind ≠ .eof) :
    ∃ before rest,
      cs = before ++ rest ∧
      t.span.lo = pos + Text.byteLength before ∧
      Segmented t.span.lo rest (t :: ts) := by
  induction us generalizing pos cs with
  | nil =>
      cases hSegmented with
      | stop hGap => exact absurd rfl hInside
      | @token _ gap text rest kind lexeme _ hGap hLongest
          hDenotes hMark hTail =>
          refine ⟨gap, text ++ rest, rfl, rfl, ?_⟩
          have hNone : ∀ c ∈ ([] : List Char), IsBlank c := by
            simp
          exact Segmented.token hNone hLongest hDenotes hMark
            hTail
  | cons u us ih =>
      rw [List.cons_append] at hSegmented
      generalize hRest : us ++ t :: ts = rest at hSegmented
      cases hSegmented with
      | stop hGap => simp at hRest
      | @token _ gap text rest kind lexeme _ hGap hLongest
          hDenotes hMark hTail =>
          subst hRest
          rcases ih hTail with
            ⟨before, rest', rfl, hLo, hRest⟩
          refine ⟨gap ++ (text ++ before), rest', by simp, ?_,
            hRest⟩
          rw [hLo, Text.byteLength_append,
            Text.byteLength_append]
          omega

/- The part up to the end of some tokens. -/
theorem take
    {v : Token}
    {vs ts : List Token}
    (hSegmented : Segmented pos cs (v :: (vs ++ ts)))
    (hInside : ∀ t ∈ v :: vs, t.kind ≠ .eof) :
    ∃ inside after last,
      cs = inside ++ after ∧
      (v :: vs).getLast? = some last ∧
      last.span.hi = pos + Text.byteLength inside ∧
      Segmented pos inside
        (v :: (vs ++
          [Token.eofAt (pos + Text.byteLength inside)])) := by
  induction vs generalizing pos cs v with
  | nil =>
      rw [List.nil_append] at hSegmented
      cases hSegmented with
      | stop hGap =>
          exact absurd rfl (hInside _ List.mem_cons_self)
      | @token _ gap text rest kind lexeme _ hGap hLongest
          hDenotes hMark hTail =>
          rw [← List.nil_append rest] at hLongest hMark
          have hLength :
              pos + Text.byteLength (gap ++ (text ++ [])) =
                pos + Text.byteLength gap +
                  Text.byteLength text := by
            rw [List.append_nil, Text.byteLength_append,
              Nat.add_assoc]
          refine ⟨gap ++ (text ++ []), rest,
            ⟨kind, lexeme, ⟨_, _⟩⟩, by simp, rfl, ?_, ?_⟩
          · rw [hLength, Span.hi]
          · rw [hLength]
            exact Segmented.token hGap hLongest.of_append
              hDenotes (hLongest.not_isBareMark hMark)
              (segmented_nil _)
  | cons w vs ih =>
      rw [List.cons_append] at hSegmented
      generalize hRest : w :: (vs ++ ts) = rest at hSegmented
      cases hSegmented with
      | stop hGap => cases hRest
      | @token _ gap text rest kind lexeme _ hGap hLongest
          hDenotes hMark hTail =>
          subst hRest
          rw [List.forall_mem_cons] at hInside
          rcases ih hTail hInside.2 with
            ⟨inside, after, last, rfl, hLast, hHi, hPart⟩
          have hLength :
              pos +
                  Text.byteLength (gap ++ (text ++ inside)) =
                pos + Text.byteLength gap +
                  Text.byteLength text +
                  Text.byteLength inside := by
            rw [Text.byteLength_append,
              Text.byteLength_append]
            omega
          refine ⟨gap ++ (text ++ inside), after, last,
            by simp, ?_, ?_, ?_⟩
          · rw [List.getLast?_cons_cons, hLast]
          · rw [hHi, hLength]
          · rw [hLength]
            exact Segmented.token hGap hLongest.of_append
              hDenotes (hLongest.not_isBareMark hMark) hPart

/- The same text, further up. -/
theorem shift
    {n : Nat}
    {ts : List Token}
    (hSegmented : Segmented (n + pos) cs ts) :
    ∃ ts₀,
      Segmented pos cs ts₀ ∧
      ts = ts₀.map (Token.shift n) := by
  generalize hAt : n + pos = start at hSegmented
  induction hSegmented generalizing pos with
  | stop hGap =>
      refine ⟨_, .stop hGap, ?_⟩
      rw [← hAt, Nat.add_assoc]
      rfl
  | token hGap hLongest hDenotes hMark hTail ih =>
      rw [← hAt, Nat.add_assoc, Nat.add_assoc] at ih
      rcases ih rfl with ⟨ts₀, hRest, rfl⟩
      rw [← Nat.add_assoc] at hRest
      refine ⟨_, .token hGap hLongest hDenotes hMark hRest,
        ?_⟩
      rw [← hAt, Nat.add_assoc]
      rfl

end Segmented

------------------------------------------------------------
-- Lexing a Part
------------------------------------------------------------

/- The tokens of a source are a segmentation. -/
theorem segmented_of_lex
    {src : String}
    {s : TokenStream}
    (hBytes : Text.byteLength src.toList ≤ Span.maxLen)
    (hLex : lex src = .ok s) :
    Segmented 0 src.toList s.toList := by
  rcases walk_of_lex hLex with ⟨hWalk, hStop⟩
  rw [TokenStream.toList, hStop]
  exact segmented_of_walk (Nat.le_refl _) hBytes hWalk

/- A segmentation with numbers in range is lexed. -/
theorem lex_of_segmented
    {src : String}
    {ts : List Token}
    (hBytes : Text.byteLength src.toList ≤ Span.maxLen)
    (hSegmented : Segmented 0 src.toList ts)
    (hValues :
      ∀ t ∈ ts,
        t.kind = .number →
        ∃ n,
          n < Lexer.literalBound ∧ t.lexeme = toString n) :
    ∃ s, lex src = .ok s ∧ s.toList = ts := by
  rcases walk_of_segmented hBytes hSegmented
      Cursor.rest?_zero hValues with
    ⟨init, p, rfl, hWalk⟩
  refine ⟨⟨init, Token.eofAt p, rfl⟩, ?_, rfl⟩
  rw [lex, hWalk]

/- The tokens of a source are what its texts denote. -/
theorem isTokenAt_of_lex
    {src : String}
    {s : TokenStream}
    (hBytes : Text.byteLength src.toList ≤ Span.maxLen)
    (hLex : lex src = .ok s) :
    ∀ t ∈ s.tokens,
      t.kind ≠ .eof ∧ IsTokenAt src.toList t := by
  have hSegmentation :=
    (segmented_of_lex hBytes hLex).isSegmentation
      Cursor.rest?_zero
  rcases hSegmentation.tokens with ⟨init, hInit, hTokens⟩
  rw [TokenStream.toList] at hInit
  rw [List.append_inj_left' hInit rfl]
  intro t hMem
  rcases hTokens t hMem with ⟨hKind, -, hToken⟩
  exact ⟨hKind, hToken⟩

/- No token of a source ends the input. -/
theorem kind_ne_eof_of_lex
    {src : String}
    {s : TokenStream}
    (hBytes : Text.byteLength src.toList ≤ Span.maxLen)
    (hLex : lex src = .ok s) :
    ∀ t ∈ s.tokens, t.kind ≠ .eof :=
  fun t hMem => (isTokenAt_of_lex hBytes hLex t hMem).1

/- A part of a source is lexed into its tokens, further up. -/
theorem lex_of_part
    {src : String}
    {s : TokenStream}
    {n : Nat}
    {inside : List Char}
    {vs : List Token}
    {stop : Token}
    (hBytes : Text.byteLength inside ≤ Span.maxLen)
    (hLex : lex src = .ok s)
    (hMem : vs ⊆ s.tokens)
    (hStop : stop.kind = .eof)
    (hPart : Segmented n inside (vs ++ [stop])) :
    ∃ s',
      lex (String.ofList inside) = .ok s' ∧
      vs = s'.tokens.map (Token.shift n) := by
  rw [← Nat.add_zero n] at hPart
  rcases hPart.shift with ⟨ts₀, hSegmented, hShift⟩
  rw [← String.toList_ofList (l := inside)]
    at hBytes hSegmented
  have hValues :
      ∀ t ∈ ts₀,
        t.kind = .number →
        ∃ m,
          m < Lexer.literalBound ∧ t.lexeme = toString m := by
    intro t hToken hNumber
    have hShifted : t.shift n ∈ vs ++ [stop] := by
      rw [hShift]
      exact List.mem_map_of_mem hToken
    rcases List.mem_append.mp hShifted with hInner | hEnd
    · exact number_of_lex hLex (t.shift n) (hMem hInner)
        hNumber
    · rw [← List.mem_singleton.mp hEnd] at hStop
      cases hStop.symm.trans hNumber
  rcases lex_of_segmented hBytes hSegmented hValues with
    ⟨s', hLex', rfl⟩
  refine ⟨s', hLex', ?_⟩
  rw [TokenStream.toList, List.map_append] at hShift
  exact List.append_inj_left' hShift rfl

/-
  The region of some tokens of a source cuts out a text
  that is lexed into the same tokens, further up.
-/
theorem exists_cut
    {src : String}
    {s : TokenStream}
    {us vs ws : List Token}
    {region : Span}
    (hBytes : Text.byteLength src.toList ≤ Span.maxLen)
    (hLex : lex src = .ok s)
    (hTokens : s.tokens = us ++ (vs ++ ws))
    (hCovers : Token.Covers vs region) :
    ∃ before inside after s',
      Text.Cut src.toList region before inside after ∧
      lex (String.ofList inside) = .ok s' ∧
      vs = s'.tokens.map (Token.shift region.lo) := by
  rcases hCovers with ⟨first, last, hHead, hLast, hRegion⟩
  cases vs with
  | nil => cases hHead
  | cons v vs =>
      cases hHead
      have hMem : first :: vs ⊆ s.tokens := by
        rw [hTokens]
        exact List.subset_append_of_subset_right us
          (List.subset_append_left _ ws)
      have hInside : ∀ t ∈ first :: vs, t.kind ≠ .eof :=
        fun t hToken =>
          kind_ne_eof_of_lex hBytes hLex t (hMem hToken)
      have hSegmented := segmented_of_lex hBytes hLex
      rw [TokenStream.toList, hTokens] at hSegmented
      simp only [List.append_assoc,
        List.cons_append] at hSegmented
      rcases hSegmented.skip
          (hInside _ List.mem_cons_self) with
        ⟨before, rest, hText, hLo, hRest⟩
      rcases hRest.take hInside with
        ⟨inside, after, last', rfl, hLast', hHi, hPart⟩
      rw [hLast] at hLast'
      cases hLast'
      have hPartBytes :
          Text.byteLength inside ≤ Span.maxLen := by
        rw [hText, Text.byteLength_append,
          Text.byteLength_append] at hBytes
        omega
      rw [hHi, Span.between_add _ hPartBytes] at hRegion
      subst hRegion
      rcases lex_of_part hPartBytes hLex hMem rfl hPart with
        ⟨s', hLex', hShift⟩
      refine ⟨before, inside, after, s', ⟨hText, ?_, rfl⟩,
        hLex', hShift⟩
      rw [hLo, Nat.zero_add]

end WordLang
