import WordLang.Proofs.JoinedSources

/-
  This file writes tokens as a source again.

  The lexemes of some tokens are written one after another,
  with blanks between neighbours. A number is written by its
  decimal digits, whatever its radix was, and all else as it
  was read. Each lexeme is the longest token at its place,
  since a blank or nothing at all follows it. The text is
  thus read into the same kinds and lexemes, and writing them
  again gives the same text.

  Key definitions include:
    * `WordLang.Rendered`
    * `WordLang.Token.render`

  Key theorems include:
    * `WordLang.Denotes.lexeme`
    * `WordLang.reads_of_rendered`
    * `WordLang.rendered_render`
    * `WordLang.lex_undoes_rendering`
-/

namespace WordLang

------------------------------------------------------------
-- Rendered Tokens
------------------------------------------------------------

/-
  The lexemes of some tokens in their order, with at least
  one blank between neighbours.
-/
inductive Rendered :
    List Token →
    List Char →
    Prop where
  | nil :
      Rendered [] []
  | last (t : Token) :
      Rendered [t] t.lexeme.toList
  | cons
      {t u : Token}
      {ts : List Token}
      {gap text : List Char} :
      gap ≠ [] →
      (∀ c ∈ gap, IsBlank c) →
      Rendered (u :: ts) text →
      Rendered (t :: u :: ts)
        (t.lexeme.toList ++ (gap ++ text))

namespace Token

/- A token without its region. -/
def unplaced
    (t : Token) : Kind × String :=
  (t.kind, t.lexeme)

/- The lexemes of some tokens with single spaces. -/
def render
    (ts : List Token) : String :=
  " ".intercalate (ts.map Token.lexeme)

end Token

/- Single spaces are blanks between neighbours. -/
theorem rendered_render
    (ts : List Token) :
    Rendered ts (Token.render ts).toList := by
  induction ts with
  | nil =>
      exact Rendered.nil
  | cons t ts ih =>
      cases ts with
      | nil =>
          exact Rendered.last t
      | cons u ts =>
          have hSome : [' '] ≠ [] := by simp
          have hSpace : ∀ c ∈ [' '], IsBlank c := by
            simp [IsBlank]
          have hRendered :=
            Rendered.cons (t := t) hSome hSpace ih
          unfold Token.render at hRendered ⊢
          rw [List.map_cons, List.map_cons,
            String.intercalate_cons_cons, ← List.map_cons,
            String.toList_append, String.toList_append,
            List.append_assoc]
          exact hRendered

/- The text of single spaces depends on the lexemes only. -/
theorem Token.render_eq_of_unplaced
    {ts us : List Token}
    (hSame : ts.map unplaced = us.map unplaced) :
    render ts = render us := by
  have hLexemes := congrArg (List.map Prod.snd) hSame
  rw [List.map_map, List.map_map] at hLexemes
  exact congrArg (" ".intercalate ·) hLexemes

------------------------------------------------------------
-- Lexemes
------------------------------------------------------------

/- The lexeme of a token denotes the token again. -/
theorem Denotes.lexeme
    {text : List Char}
    {kind : Kind}
    {lexeme : String}
    (hDenotes : Denotes text kind lexeme) :
    Denotes lexeme.toList kind lexeme := by
  rcases hDenotes with ⟨C, hContains, hDescribes⟩
  cases C with
  | punctuator | word =>
      rcases hDescribes with ⟨hKind, rfl⟩
      rw [String.toList_ofList]
      exact ⟨_, hContains, hKind, rfl⟩
  | number r =>
      rcases hDescribes with ⟨rfl, digits, -, rfl⟩
      exact denotes_toString _

/- A text that denotes a token is the text of one. -/
theorem Denotes.isTokenText
    {text : List Char}
    {kind : Kind}
    {lexeme : String}
    (hDenotes : Denotes text kind lexeme) :
    IsTokenText text := by
  rcases hDenotes with ⟨C, hContains, -⟩
  exact ⟨C, hContains⟩

/-
  A token that can be read again from its lexeme: the lexeme
  denotes it, and its value is a word if it is a number.
-/
structure Token.Readable
    (t : Token) : Prop where
  denotes : Denotes t.lexeme.toList t.kind t.lexeme
  value :
    t.kind = .number →
    ∃ n, n < 2 ^ 63 ∧ t.lexeme = toString n

/- The tokens of a source can be read again. -/
theorem readable_of_lex
    {src : String}
    {s : TokenStream}
    (hLex : lex src = .ok s) :
    ∀ t ∈ s.tokens, t.Readable := by
  intro t hMem
  rcases denotes_of_lex hLex t hMem with ⟨text, hText⟩
  exact ⟨hText.lexeme, number_of_lex hLex t hMem⟩

------------------------------------------------------------
-- Reading Rendered Tokens
------------------------------------------------------------

namespace Token.Readable

variable {t : Token}

/- A lexeme is read if a blank follows it. -/
theorem reads_before_blank
    {b : Char}
    (hReadable : t.Readable)
    (hBlank : IsBlank b)
    (pos : Nat)
    (rest : List Char) :
    let hi := pos + Text.byteLength t.lexeme.toList
    Lexer.Reads pos (t.lexeme.toList ++ b :: rest)
      [⟨t.kind, t.lexeme, Span.between pos hi⟩]
      hi (b :: rest) := by
  intro hi
  have hToken := hReadable.denotes.isTokenText
  exact Lexer.Reads.token (hToken.isLongest hBlank rest)
    hReadable.denotes hReadable.value
    (hToken.not_isBareMark hBlank rest) (Lexer.Reads.nil hi _)

/- A lexeme is read if nothing follows it. -/
theorem reads_at_end
    (hReadable : t.Readable)
    (pos : Nat) :
    let hi := pos + Text.byteLength t.lexeme.toList
    Lexer.Reads pos t.lexeme.toList
      [⟨t.kind, t.lexeme, Span.between pos hi⟩] hi [] := by
  intro hi
  have hToken := hReadable.denotes.isTokenText
  have hBlank : IsBlank ' ' := .inl rfl
  -- With a space after it, it would be read as well.
  have hLongest := hToken.isLongest hBlank []
  have hMark := hToken.not_isBareMark hBlank []
  rw [← List.nil_append [' ']] at hLongest hMark
  rw [← List.append_nil t.lexeme.toList]
  exact Lexer.Reads.token hLongest.of_append
    hReadable.denotes hReadable.value
    (hLongest.not_isBareMark hMark) (Lexer.Reads.nil _ [])

end Token.Readable

/- Rendered tokens are read, but for their regions. -/
theorem reads_of_rendered
    {ts : List Token}
    {text : List Char}
    (hRendered : Rendered ts text)
    (hReadable : ∀ t ∈ ts, t.Readable)
    (pos : Nat) :
    ∃ us pos',
      Lexer.Reads pos text us pos' [] ∧
      us.map Token.unplaced = ts.map Token.unplaced := by
  induction hRendered generalizing pos with
  | nil =>
      exact ⟨[], pos, Lexer.Reads.nil pos [], rfl⟩
  | last t =>
      have hLast := hReadable t List.mem_cons_self
      exact ⟨_, _, hLast.reads_at_end pos, rfl⟩
  | @cons t u ts gap text hSome hBlanks _ ih =>
      rcases List.forall_mem_cons.mp hReadable with
        ⟨hFirst, hRest⟩
      rcases List.exists_cons_of_ne_nil hSome with
        ⟨b, more, rfl⟩
      have hBlank := hBlanks b List.mem_cons_self
      have hLexeme :=
        hFirst.reads_before_blank hBlank pos (more ++ text)
      rw [← List.cons_append] at hLexeme
      have hGap :=
        hLexeme.trans (Lexer.Reads.gap hBlanks _ text)
      rcases ih hRest _ with ⟨us, pos', hReads, hSame⟩
      refine ⟨_, pos', hGap.trans hReads, ?_⟩
      rw [List.append_nil, List.singleton_append,
        List.map_cons, List.map_cons, hSame]
      rfl

/- Rendered tokens are lexed, but for their regions. -/
theorem lex_of_rendered
    {ts : List Token}
    {text : String}
    (hRendered : Rendered ts text.toList)
    (hReadable : ∀ t ∈ ts, t.Readable) :
    ∃ s,
      lex text = .ok s ∧
      s.tokens.map Token.unplaced =
        ts.map Token.unplaced := by
  rcases reads_of_rendered hRendered hReadable 0 with
    ⟨us, pos, hReads, hSame⟩
  exact ⟨_, lex_of_reads hReads, hSame⟩

/- The end of input has no text. -/
theorem unplaced_stop_of_lex
    {src : String}
    {s : TokenStream}
    (hLex : lex src = .ok s) :
    s.stop.unplaced = (.eof, "") := by
  rw [(walk_of_lex hLex).2]
  rfl

/-
  The lexemes of a source are read again into the same kinds
  and lexemes, whatever blanks stand between them. Where the
  blanks are single spaces, rendering and reading once more
  changes nothing, and the regions stay too.
-/
theorem lex_undoes_rendering
    {src : String}
    {s : TokenStream}
    (hLex : lex src = .ok s) :
    (∀ text : String,
      Rendered s.tokens text.toList →
      ∃ s',
        lex text = .ok s' ∧
        s'.toList.map Token.unplaced =
          s.toList.map Token.unplaced) ∧
    ∃ s',
      lex (Token.render s.tokens) = .ok s' ∧
      Token.render s'.tokens = Token.render s.tokens ∧
      lex (Token.render s'.tokens) = .ok s' := by
  have hReadable := readable_of_lex hLex
  constructor
  · intro text hRendered
    rcases lex_of_rendered hRendered hReadable with
      ⟨s', hAgain, hSame⟩
    refine ⟨s', hAgain, ?_⟩
    rw [TokenStream.toList, TokenStream.toList,
      List.map_append, List.map_append, hSame,
      List.map_singleton, List.map_singleton,
      unplaced_stop_of_lex hAgain, unplaced_stop_of_lex hLex]
  · rcases lex_of_rendered (rendered_render s.tokens)
        hReadable with
      ⟨s', hAgain, hSame⟩
    have hText := Token.render_eq_of_unplaced hSame
    exact ⟨s', hAgain, hText, by rw [hText, hAgain]⟩

/-
  A number with a mark in front of a sign, and a word that
  starts with a keyword.
-/
theorem hexadecimal_is_rendered_in_decimal :
    let src := "0x1F<=returns"
    let text := "31\r\n<=\treturns"
    ∃ s s',
      lex src = .ok s ∧
      Rendered s.tokens text.toList ∧
      lex text = .ok s' ∧
      s'.toList.map Token.unplaced =
        s.toList.map Token.unplaced := by
  intro src text
  let s : TokenStream :=
    ⟨[⟨.number, "31", ⟨0, 4⟩⟩, ⟨.lessEq, "<=", ⟨4, 2⟩⟩,
      ⟨.identifier, "returns", ⟨6, 7⟩⟩],
      ⟨.eof, "", ⟨13, 0⟩⟩, rfl⟩
  have hLex : lex src = .ok s := by
    decide +kernel
  have hEnd : ['\r', '\n'] ≠ [] := by simp
  have hTab : ['\t'] ≠ [] := by simp
  have hParts : Rendered s.tokens _ :=
    .cons hEnd (by simp [IsBlank])
      (.cons hTab (by simp [IsBlank]) (.last _))
  have hRendered : Rendered s.tokens text.toList := by
    simpa [text] using hParts
  rcases (lex_undoes_rendering hLex).1 text hRendered with
    ⟨s', hAgain, hSame⟩
  exact ⟨s, s', hLex, hRendered, hAgain, hSame⟩

end WordLang
