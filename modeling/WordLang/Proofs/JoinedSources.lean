import WordLang.Proofs.LiteralValues

/-
  This file joins sources at blanks.

  No token has a blank in it. A text that is read to its end
  is therefore read in the same way when a blank and more
  text follow it. The text after the blanks is read as if it
  stood alone, except that its regions lie further down. This
  holds for errors as well as for tokens.

  Key definitions include:
    * `WordLang.Located.shift`

  Key theorems include:
    * `WordLang.IsLongest.append_blank`
    * `WordLang.Lexer.reads_of_walk`
    * `WordLang.Lexer.Reads.append_blank`
    * `WordLang.Lexer.walk_shift`
    * `WordLang.lex_joins_at_blanks`
-/

namespace WordLang

------------------------------------------------------------
-- Texts Before a Blank
------------------------------------------------------------

section Blank

variable {cs text : List Char}
variable {b : Char}

/- A text without blanks ends before a blank. -/
theorem starts_of_append_blank
    {rest : List Char}
    (hSolid : ∀ c ∈ text, ¬ IsBlank c)
    (hBlank : IsBlank b)
    (hStarts : text <+: cs ++ b :: rest) :
    text <+: cs := by
  have hHere : cs ++ [b] <+: cs ++ b :: rest :=
    ⟨rest, by simp⟩
  rcases List.prefix_or_prefix_of_prefix hStarts hHere with
    hShort | hLong
  · rcases List.prefix_concat_iff.mp hShort with
      rfl | hBefore
    · exact absurd hBlank (hSolid b (by simp))
    · exact hBefore
  · exact absurd hBlank (hSolid b (hLong.subset (by simp)))

/- A token is the longest one, whatever follows a blank. -/
theorem IsLongest.append_blank
    (hLongest : IsLongest cs text)
    (hBlank : IsBlank b)
    (rest : List Char) :
    IsLongest (cs ++ b :: rest) text where
  isToken := hLongest.isToken
  starts := hLongest.starts.trans (List.prefix_append _ _)
  longest := by
    intro other hOther hStarts
    apply hLongest.longest other hOther
    exact starts_of_append_blank hOther.not_isBlank hBlank
      hStarts

/- The mark of a radix has no blank in it. -/
theorem Radix.not_isBlank_of_mem_mark
    (r : Radix) :
    ∀ c ∈ r.mark, ¬ IsBlank c := by
  have hZero : r.IsDigit '0' := by
    rw [← Lexer.isDigitOf_iff]
    cases r <;> rfl
  have hToken : IsTokenText (r.mark ++ ['0']) :=
    ⟨.number r, ['0'], rfl, by simp, by simpa using hZero⟩
  intro c hMem
  exact hToken.not_isBlank c (List.mem_append_left _ hMem)

/- A mark with a digit keeps it, whatever follows a blank. -/
theorem not_isBareMark_append_blank
    (hMark : ¬ IsBareMark cs)
    (hBlank : IsBlank b)
    (rest : List Char) :
    ¬ IsBareMark (cs ++ b :: rest) := by
  rintro ⟨r, hMarked, hStarts, hAlone⟩
  apply hMark
  refine ⟨r, hMarked, ?_, ?_⟩
  · exact starts_of_append_blank r.not_isBlank_of_mem_mark
      hBlank hStarts
  · intro d hDigitStarts
    exact hAlone d
      (hDigitStarts.trans (List.prefix_append _ _))

end Blank

------------------------------------------------------------
-- Reading up to a Blank
------------------------------------------------------------

namespace Lexer

namespace Reads

/- Reading leads over blanks. -/
theorem gap
    {blanks : List Char}
    (hBlanks : ∀ c ∈ blanks, IsBlank c)
    (pos : Nat)
    (cs : List Char) :
    Reads pos (blanks ++ cs) []
      (pos + Text.byteLength blanks) cs := by
  induction blanks generalizing pos with
  | nil =>
      exact Reads.nil pos cs
  | cons c blanks ih =>
      rcases List.forall_mem_cons.mp hBlanks with
        ⟨hFirst, hRest⟩
      rw [Text.byteLength, ← Nat.add_assoc]
      exact Reads.blank hFirst (ih hRest _)

/- Reading does not look behind a blank. -/
theorem append_blank
    {pos pos' : Nat}
    {cs cs' : List Char}
    {ts : List Token}
    {b : Char}
    (hReads : Reads pos cs ts pos' cs')
    (hBlank : IsBlank b)
    (rest : List Char) :
    Reads pos (cs ++ b :: rest) ts pos'
      (cs' ++ b :: rest) := by
  induction hReads with
  | nil pos cs =>
      exact Reads.nil pos _
  | blank hFirst _ ih =>
      exact Reads.blank hFirst ih
  | token hLongest hDenotes hValue hMark _ ih =>
      have hLonger := hLongest.append_blank hBlank rest
      have hKept :=
        not_isBareMark_append_blank hMark hBlank rest
      rw [List.append_assoc] at hLonger hKept ⊢
      exact Reads.token hLonger hDenotes hValue hKept ih

end Reads

/-
  A walk to the end of a text is a reading of it. The
  induction is on the number of characters, since a token
  may take several.
-/
theorem reads_of_walk
    {n pos p : Nat}
    {cs : List Char}
    {ts : List Token}
    (hLength : cs.length ≤ n)
    (hWalk : walk 0 pos cs = (ts, .ok p)) :
    Reads pos cs ts p [] := by
  induction n generalizing pos cs ts with
  | zero =>
      have hNil : cs = [] :=
        List.eq_nil_of_length_eq_zero
          (Nat.le_zero.mp hLength)
      subst hNil
      cases hWalk
      exact Reads.nil _ []
  | succ n ih =>
      cases cs with
      | nil =>
          cases hWalk
          exact Reads.nil _ []
      | cons c cs =>
          rw [List.length_cons] at hLength
          by_cases hBlank : isBlank c = true
          · rw [walk, if_pos hBlank] at hWalk
            exact Reads.blank ((isBlank_iff c).mp hBlank)
              (ih (by omega) hWalk)
          · rw [Bool.not_eq_true] at hBlank
            rw [walk_token pos hBlank] at hWalk
            cases hResult : (scan c cs).result with
            | error e =>
                simp only [hResult] at hWalk
                cases hWalk
            | ok found =>
                rcases found with ⟨kind, lexeme⟩
                simp only [hResult, Prod.mk.injEq] at hWalk
                rcases hWalk with ⟨rfl, hEnd⟩
                have hRest :=
                  ih (by rw [List.length_drop]; omega)
                    (Prod.ext rfl hEnd)
                exact (Reads.of_scan pos hResult).trans hRest

end Lexer

/- A source that is read to its end is lexed. -/
theorem lex_of_reads
    {src : String}
    {ts : List Token}
    {pos : Nat}
    (hReads : Lexer.Reads 0 src.toList ts pos []) :
    lex src = .ok ⟨ts, Token.eofAt pos, rfl⟩ := by
  have hWalk := Lexer.walk_of_reads hReads
  rw [Lexer.walk, List.append_nil] at hWalk
  rw [lex, hWalk]

------------------------------------------------------------
-- Reading Further Down
------------------------------------------------------------

/- A value whose region starts further down. -/
def Located.shift
    {α : Type}
    (n : Nat)
    (x : Located α) : Located α :=
  { x with span := x.span.shift n }

theorem Span.between_shift
    (n lo hi : Nat) :
    between (n + lo) (n + hi) = (between lo hi).shift n := by
  rw [between, Nat.add_sub_add_left]
  rfl

theorem Token.eofAt_shift
    (n pos : Nat) :
    eofAt (n + pos) = (eofAt pos).shift n := by
  rw [eofAt, Span.between_shift]
  rfl

namespace Lexer

/- A walk depends on its position only by the regions. -/
theorem walk_shift
    (n skip pos : Nat)
    (cs : List Char) :
    walk skip (n + pos) cs =
      ((walk skip pos cs).1.map (Token.shift n),
        ((walk skip pos cs).2.map (n + ·)).mapError
          (Located.shift n)) := by
  induction cs generalizing skip pos with
  | nil =>
      cases skip <;> rfl
  | cons c cs ih =>
      cases skip with
      | succ skip =>
          rw [walk, walk, Nat.add_assoc, ih]
      | zero =>
          rw [walk, walk]
          by_cases hBlank : isBlank c = true
          · rw [if_pos hBlank, if_pos hBlank, Nat.add_assoc,
              ih]
          · rw [if_neg hBlank, if_neg hBlank]
            simp only [Nat.add_assoc, Span.between_shift, ih]
            cases (scan c cs).result with
            | error e =>
                rfl
            | ok found =>
                rfl

end Lexer

------------------------------------------------------------
-- Joined Sources
------------------------------------------------------------

/-
  A walk over a text, blanks and another text. The blanks
  are read before the second text, which starts after them.
-/
theorem Lexer.walk_joined
    {cs blanks : List Char}
    {ts : List Token}
    {p : Nat}
    (hWalk : walk 0 0 cs = (ts, .ok p))
    (hBlanks : ∀ c ∈ blanks, IsBlank c)
    (hSome : blanks ≠ [])
    (rest : List Char) :
    let n := Text.byteLength (cs ++ blanks)
    walk 0 0 (cs ++ (blanks ++ rest)) =
      (ts ++ (walk 0 0 rest).1.map (Token.shift n),
        ((walk 0 0 rest).2.map (n + ·)).mapError
          (Located.shift n)) := by
  intro n
  rcases List.exists_cons_of_ne_nil hSome with
    ⟨b, more, hCons⟩
  have hBlank : IsBlank b :=
    hBlanks b (by rw [hCons]; exact List.mem_cons_self)
  have hReads :=
    (reads_of_walk (Nat.le_refl _) hWalk).append_blank
      hBlank (more ++ rest)
  rw [← List.cons_append, ← hCons, List.nil_append]
    at hReads
  have hEnd : p + Text.byteLength blanks = n + 0 := by
    have hStop :=
      end_of_walk (congrArg Prod.snd hWalk)
    rw [hStop, Nat.zero_add, ← Text.byteLength_append]
    rfl
  have hJoined := hReads.trans (Reads.gap hBlanks p rest)
  rw [List.append_nil, hEnd] at hJoined
  rw [walk_of_reads hJoined, walk_shift]

/-
  A source that is lexed, some blanks and another source.
  The tokens are those of the first source without its end
  of input, and those of the second one further down. If the
  second source has an error, then it is the error of the
  whole, further down.
-/
theorem lex_joins_at_blanks
    {a w : String}
    {s : TokenStream}
    (hFirst : lex a = .ok s)
    (hBlanks : ∀ c ∈ w.toList, IsBlank c)
    (hSome : w ≠ "")
    (b : String) :
    let n := (a ++ w).utf8ByteSize
    (∀ u,
      lex b = .ok u →
      ∃ v,
        lex (a ++ w ++ b) = .ok v ∧
        v.toList =
          s.tokens ++ u.toList.map (Token.shift n)) ∧
    ∀ failure,
      lex b = .error failure →
      lex (a ++ w ++ b) =
        .error
          ⟨s.tokens ++ failure.before.map (Token.shift n),
            failure.error.shift n⟩ := by
  intro n
  have hBytes :
      n = Text.byteLength (a.toList ++ w.toList) := by
    rw [← String.toList_append]
    exact Text.utf8ByteSize_eq_byteLength _
  have hJoined :=
    Lexer.walk_joined (walk_of_lex hFirst).1 hBlanks
      (by simpa using hSome) b.toList
  simp only [← hBytes] at hJoined
  rw [← List.append_assoc, ← String.toList_append,
    ← String.toList_append] at hJoined
  constructor
  · intro u hSecond
    rcases walk_of_lex hSecond with ⟨hWalk, hStop⟩
    rw [hWalk] at hJoined
    refine
      ⟨⟨s.tokens ++ u.tokens.map (Token.shift n),
        Token.eofAt (n + Text.byteLength b.toList), rfl⟩,
        ?_, ?_⟩
    · rw [lex, hJoined]
      rfl
    · rw [TokenStream.toList, TokenStream.toList, hStop,
        List.map_append, List.map_singleton,
        ← Token.eofAt_shift, List.append_assoc]
  · intro failure hSecond
    rw [walk_of_lex_error hSecond] at hJoined
    rw [lex, hJoined]
    rfl

/-
  An operator that blanks divide is two tokens. What follows
  it is a number, or a mark that has lost its digit.
-/
theorem divided_operator_is_joined :
    (∃ v,
      lex ("x<" ++ "\r\n" ++ "=0b1") = .ok v ∧
      v.toList =
        [⟨.identifier, "x", ⟨0, 1⟩⟩, ⟨.less, "<", ⟨1, 1⟩⟩,
          ⟨.assign, "=", ⟨4, 1⟩⟩, ⟨.number, "1", ⟨5, 3⟩⟩,
          ⟨.eof, "", ⟨8, 0⟩⟩]) ∧
    lex ("x<" ++ "\r\n" ++ "=0b2") =
      .error
        ⟨[⟨.identifier, "x", ⟨0, 1⟩⟩, ⟨.less, "<", ⟨1, 1⟩⟩,
          ⟨.assign, "=", ⟨4, 1⟩⟩],
          ⟨.missingDigits 2, ⟨5, 2⟩⟩⟩ := by
  have hFirst :
      lex "x<" =
        .ok ⟨[⟨.identifier, "x", ⟨0, 1⟩⟩,
          ⟨.less, "<", ⟨1, 1⟩⟩], ⟨.eof, "", ⟨2, 0⟩⟩, rfl⟩ := by
    decide +kernel
  have hNumber :
      lex "=0b1" =
        .ok ⟨[⟨.assign, "=", ⟨0, 1⟩⟩,
          ⟨.number, "1", ⟨1, 3⟩⟩], ⟨.eof, "", ⟨4, 0⟩⟩, rfl⟩ := by
    decide +kernel
  have hMark :
      lex "=0b2" =
        .error ⟨[⟨.assign, "=", ⟨0, 1⟩⟩],
          ⟨.missingDigits 2, ⟨1, 2⟩⟩⟩ := by
    decide +kernel
  have hBlanks : ∀ c ∈ "\r\n".toList, IsBlank c := by
    simp [IsBlank]
  have hSome : "\r\n" ≠ "" := by decide
  exact
    ⟨(lex_joins_at_blanks hFirst hBlanks hSome _).1 _ hNumber,
      (lex_joins_at_blanks hFirst hBlanks hSome _).2 _ hMark⟩

end WordLang
