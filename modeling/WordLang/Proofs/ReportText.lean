import WordLang.CommandLine.Run
import WordLang.Proofs.LexFailures
import WordLang.Proofs.ReportPosition

/-
  This file proves that every error of a source is reported,
  however long the source is.

  In a source of any length, the region of an error may be
  cut short. It ends between two characters all the same,
  since all characters of a token take one byte. A report
  ends in its marker, so that nothing but the last line end
  is lost when the white space at its end is cut off.

  Key definitions include:
    * `WordLang.Text.IsPlain`

  Key theorems include:
    * `WordLang.isPlain_of_lex`
    * `WordLang.Excerpt.find?_of_isPlain`
    * `WordLang.exists_report`
    * `WordLang.trimEnd_report`
-/

namespace WordLang

------------------------------------------------------------
-- Characters of One Byte
------------------------------------------------------------

namespace Text

/- Texts whose characters take one byte each. -/
def IsPlain
    (cs : List Char) : Prop :=
  ∀ c ∈ cs, c.utf8Size = 1

theorem isPlain_of_all
    {cs : List Char}
    (hAll : cs.all (·.utf8Size == 1) = true) :
    IsPlain cs := by
  intro c hMem
  exact beq_iff_eq.mp (List.all_eq_true.mp hAll c hMem)

theorem IsPlain.append
    {xs ys : List Char}
    (hLeft : IsPlain xs)
    (hRight : IsPlain ys) :
    IsPlain (xs ++ ys) :=
  List.forall_mem_append.mpr ⟨hLeft, hRight⟩

/- The parts of a plain text are as long as they look. -/
theorem IsPlain.byteLength_eq
    {cs : List Char}
    (hPlain : IsPlain cs) :
    byteLength cs = cs.length := by
  induction cs with
  | nil =>
      rfl
  | cons c cs ih =>
      rcases List.forall_mem_cons.mp hPlain with
        ⟨hFirst, hRest⟩
      rw [byteLength, hFirst, ih hRest, List.length_cons]
      omega

/- A plain text can be cut anywhere. -/
theorem IsPlain.splitAtByte?_eq
    {cs : List Char}
    (hPlain : IsPlain cs)
    {n : Nat}
    (hInside : n ≤ byteLength cs) :
    splitAtByte? n cs = some (cs.take n, cs.drop n) := by
  have hTake : IsPlain (cs.take n) :=
    fun c hMem => hPlain c (List.mem_of_mem_take hMem)
  rw [hPlain.byteLength_eq] at hInside
  rw [splitAtByte?_eq_some_iff, hTake.byteLength_eq,
    List.length_take, Nat.min_eq_left hInside]
  exact ⟨(List.take_append_drop n cs).symm, rfl⟩

/- Characters before one of a byte take one byte. -/
theorem utf8Size_eq_one_of_le
    {c d : Char}
    (hOrder : c ≤ d)
    (hByte : d.utf8Size = 1) :
    c.utf8Size = 1 := by
  rw [Char.utf8Size_eq_one_iff] at hByte ⊢
  exact UInt32.le_trans hOrder hByte

end Text

/- Blanks take one byte. -/
theorem IsBlank.utf8Size_eq
    {c : Char}
    (hBlank : IsBlank c) :
    c.utf8Size = 1 := by
  rcases hBlank with rfl | rfl | rfl | rfl <;> rfl

theorem IsLetter.utf8Size_eq
    {c : Char}
    (hLetter : IsLetter c) :
    c.utf8Size = 1 := by
  rcases hLetter with ⟨-, hUpper⟩ | ⟨-, hLower⟩ | rfl
  · exact Text.utf8Size_eq_one_of_le hUpper rfl
  · exact Text.utf8Size_eq_one_of_le hLower rfl
  · rfl

theorem Radix.IsDigit.utf8Size_eq
    {r : Radix}
    {c : Char}
    (hDigit : r.IsDigit c) :
    c.utf8Size = 1 := by
  cases r with
  | decimal =>
      exact Text.utf8Size_eq_one_of_le hDigit.2 rfl
  | hexadecimal =>
      rcases hDigit with ⟨-, hHigh⟩ | ⟨-, hHigh⟩ | ⟨-, hHigh⟩
      · exact Text.utf8Size_eq_one_of_le hHigh rfl
      · exact Text.utf8Size_eq_one_of_le hHigh rfl
      · exact Text.utf8Size_eq_one_of_le hHigh rfl
  | octal =>
      exact Text.utf8Size_eq_one_of_le hDigit.2 rfl
  | binary =>
      rcases hDigit with rfl | rfl <;> rfl

theorem Radix.isPlain_mark
    (r : Radix) :
    Text.IsPlain r.mark := by
  cases r <;> exact Text.isPlain_of_all rfl

/- All characters of a token take one byte. -/
theorem IsTokenText.isPlain
    {text : List Char}
    (hToken : IsTokenText text) :
    Text.IsPlain text := by
  rcases hToken with ⟨C, hContains⟩
  cases C with
  | punctuator =>
      rcases hContains with ⟨kind, hSymbol⟩
      have hTable :
          punctuators.all
            (fun p => p.1.toList.all (·.utf8Size == 1)) =
            true := by
        decide
      have hPlain := List.all_eq_true.mp hTable _ hSymbol
      rw [String.toList_ofList] at hPlain
      exact Text.isPlain_of_all hPlain
  | word =>
      rcases hContains with ⟨d, ds, rfl, hLetter, hMore⟩
      refine List.forall_mem_cons.mpr
        ⟨hLetter.utf8Size_eq, ?_⟩
      intro c hMem
      rcases hMore c hMem with hLetter | hDigit
      · exact hLetter.utf8Size_eq
      · exact hDigit.utf8Size_eq
  | number r =>
      rcases hContains with ⟨digits, rfl, -, hDigits⟩
      exact r.isPlain_mark.append
        (fun c hMem => (hDigits c hMem).utf8Size_eq)

------------------------------------------------------------
-- Sources
------------------------------------------------------------

/-
  A text that is read to its end is made of blanks and
  tokens. The induction is on the number of characters.
-/
theorem Lexer.isPlain_of_walk
    {cs : List Char}
    {n pos stop : Nat}
    {ts : List Token}
    (hLength : cs.length ≤ n)
    (hWalk : walk 0 pos cs = (ts, .ok stop)) :
    Text.IsPlain cs := by
  induction n generalizing pos cs ts with
  | zero =>
      have hNil : cs = [] :=
        List.eq_nil_of_length_eq_zero
          (Nat.le_zero.mp hLength)
      rw [hNil]
      exact List.forall_mem_nil _
  | succ n ih =>
      rcases blanks_before cs with
        ⟨gap, rest, rfl, hGap, hHead⟩
      have hPlainGap : Text.IsPlain gap := by
        intro c hMem
        have hBlank := (isBlank_iff c).mp (hGap c hMem)
        exact hBlank.utf8Size_eq
      rw [walk_gap hGap] at hWalk
      cases rest with
      | nil =>
          rw [List.append_nil]
          exact hPlainGap
      | cons c cs =>
          have hRight := scan_right c cs
          rw [walk_token _ (hHead c rfl)] at hWalk
          cases hResult : (scan c cs).result with
          | error e =>
              simp only [hResult] at hWalk
              cases hWalk
          | ok found =>
              rcases found with ⟨kind, lexeme⟩
              simp only [hResult, Prod.mk.injEq] at hWalk
              simp only [Scan.Right, hResult] at hRight
              rw [List.length_append,
                List.length_cons] at hLength
              have hRest :=
                ih (by rw [List.length_drop]; omega)
                  (Prod.ext rfl hWalk.2)
              have hToken := hRight.1.isToken.isPlain
              have hWhole := hToken.append hRest
              rw [List.take_succ_cons, List.cons_append,
                List.take_append_drop] at hWhole
              exact hPlainGap.append hWhole

/- A source that is read into tokens is plain. -/
theorem isPlain_of_lex
    {src : String}
    {s : TokenStream}
    (hLex : lex src = .ok s) :
    Text.IsPlain src.toList :=
  Lexer.isPlain_of_walk (Nat.le_refl _)
    (walk_of_lex hLex).1

/-
  The text of an error of the lexer is short, or all its
  characters take one byte.
-/
theorem LexError.FitsAt.short_or_isPlain
    {e : LexError}
    {rest text : List Char}
    (hFits : e.FitsAt rest text) :
    Text.byteLength text ≤ Span.maxLen ∨
      Text.IsPlain text := by
  cases e with
  | unexpectedChar c =>
      rcases hFits with ⟨rfl, -⟩
      have hFour : c.utf8Size ≤ 4 := Char.utf8Size_le_four c
      refine .inl ?_
      rw [Text.byteLength, Text.byteLength, Span.maxLen]
      omega
  | missingDigits radix =>
      rcases hFits with ⟨r, -, -, rfl, -⟩
      exact .inr r.isPlain_mark
  | tooLarge =>
      exact .inr hFits.1.isToken.isPlain

/- An error of the lexer ends between two characters. -/
theorem exists_cut_of_lex_failure
    {src : String}
    {failure : LexFailure}
    (hLex : lex src = .error failure) :
    ∃ before inside after,
      Text.Cut src.toList failure.error.span before inside
        after := by
  rcases failing_scan_of_lex_error hLex with
    ⟨before, inside, after, hText, -, hFits, hSpan, -⟩
  rcases hFits.short_or_isPlain with hShort | hPlain
  · exact ⟨before, inside, after,
      cut_of_between hText hSpan hShort⟩
  · -- The part of the text that the region has room for.
    have hTake : Text.IsPlain (inside.take Span.maxLen) :=
      fun c hMem => hPlain c (List.mem_of_mem_take hMem)
    rw [Span.between, Nat.add_sub_cancel_left] at hSpan
    refine ⟨before, inside.take Span.maxLen,
      inside.drop Span.maxLen ++ after, ?_, ?_, ?_⟩
    · rw [hText, ← List.append_assoc (inside.take _),
        List.take_append_drop]
    · rw [hSpan]
    · rw [hSpan, hTake.byteLength_eq, List.length_take,
        hPlain.byteLength_eq, Nat.min_comm]

------------------------------------------------------------
-- Reports
------------------------------------------------------------

/- There is an excerpt for every region of a plain text. -/
theorem Excerpt.find?_of_isPlain
    {src : List Char}
    (hPlain : Text.IsPlain src)
    (s : Span) :
    ∃ x, find? src s = some x := by
  unfold find?
  generalize hStart : min s.lo (Text.byteLength src) = lo
  have hLo : lo ≤ Text.byteLength src := by omega
  have hCut := hPlain.splitAtByte?_eq hLo
  rcases Text.splitAtByte?_eq_some_iff.mp hCut with
    ⟨-, hBefore⟩
  have hAfter : Text.IsPlain (src.drop lo) :=
    fun c hMem => hPlain c (List.mem_of_mem_drop hMem)
  simp only [hCut, bind, Option.bind]
  generalize hLead :
    ((src.take lo).reverse.takeWhile (· ≠ '\n')).reverse =
      lead
  have hLeadBytes : Text.byteLength lead ≤ lo := by
    have hSuffix : lead <:+ src.take lo := by
      rw [← hLead, ← List.reverse_prefix,
        List.reverse_reverse]
      exact List.takeWhile_prefix _
    rcases hSuffix with ⟨front, hFront⟩
    rw [← hFront, Text.byteLength_append] at hBefore
    omega
  generalize hLine :
    trimReturns
      (lead ++ (src.drop lo).takeWhile (· ≠ '\n')) = line
  have hLineBytes :
      Text.byteLength line ≤
        Text.byteLength lead +
          Text.byteLength (src.drop lo) := by
    have hStarts : line <+: lead ++ src.drop lo := by
      rw [← hLine]
      exact (trimReturns_starts _).trans
        ((List.prefix_append_right_inj lead).mpr
          (List.takeWhile_prefix _))
    have hBytes := Text.byteLength_le_of_starts hStarts
    rwa [Text.byteLength_append] at hBytes
  rw [hAfter.splitAtByte?_eq (by omega)]
  exact ⟨_, rfl⟩

/- Every error of a source has a report. -/
theorem exists_report
    {src : String}
    {target : Target}
    {e : CompileError}
    (hError : compile src target = .error e) :
    ∃ report, e.report? src = some report := by
  have hFind :
      ∃ x, Excerpt.find? src.toList e.span = some x := by
    cases hLex : lex src with
    | error failure =>
        rw [compile_of_lex_error hLex] at hError
        cases hError
        rcases exists_cut_of_lex_failure hLex with
          ⟨before, inside, after, hCut⟩
        rcases Excerpt.find?_of_cut hCut with
          ⟨i, j, line, shown, width, -, hFind⟩
        exact ⟨_, hFind⟩
    | ok stream =>
        exact Excerpt.find?_of_isPlain (isPlain_of_lex hLex)
          e.span
  rcases hFind with ⟨x, hFind⟩
  unfold CompileError.report?
  rw [hFind]
  exact ⟨_, rfl⟩

------------------------------------------------------------
-- Line Ends
------------------------------------------------------------

/- A last line end is cut off and nothing before it. -/
theorem Text.trimEnd_concat
    {cs : List Char}
    {c : Char}
    (hSolid : isSpace c = false) :
    trimEnd (String.ofList (cs ++ [c, '\n'])) ++ "\n" =
      String.ofList (cs ++ [c, '\n']) := by
  have hEnd : isSpace '\n' = true := by decide
  have hTrim :
      trimEnd (String.ofList (cs ++ [c, '\n'])) =
        String.ofList (cs ++ [c]) := by
    simp [trimEnd, hEnd, hSolid]
  rw [hTrim]
  apply String.toList_injective
  simp

/- The last character of a marker can be seen. -/
theorem Excerpt.exists_marker_eq_concat
    (x : Excerpt) :
    ∃ cs c,
      x.marker = cs ++ [c] ∧ Text.isSpace c = false := by
  unfold marker
  generalize x.lead.map _ = front
  cases x.width - 1 with
  | zero =>
      exact ⟨front, '^', rfl, by decide⟩
  | succ n =>
      refine ⟨front ++ '^' :: List.replicate n '~', '~', ?_,
        by decide⟩
      rw [List.replicate_succ', ← List.cons_append,
        ← List.append_assoc]

/- A report has one line end at its end. -/
theorem trimEnd_report
    {src : String}
    {e : CompileError}
    {report : String}
    (hReport : e.report? src = some report) :
    Text.trimEnd report ++ "\n" = report := by
  unfold CompileError.report? at hReport
  rcases Option.bind_eq_some_iff.mp hReport with
    ⟨x, -, hText⟩
  rcases x.exists_marker_eq_concat with
    ⟨cs, c, hMarker, hSolid⟩
  have hChars : ∃ ds, report.toList = ds ++ [c, '\n'] := by
    rw [← Option.some.inj hText, hMarker]
    simp only [String.toList_append, String.toList_ofList,
      ← List.append_assoc]
    rw [List.append_assoc _ [c]]
    exact ⟨_, rfl⟩
  rcases hChars with ⟨ds, hChars⟩
  rw [← String.ofList_toList (s := report), hChars]
  exact Text.trimEnd_concat hSolid

/- The message of a rejected source is its report. -/
theorem Failure.message?_rejected
    {src : String}
    {e : CompileError}
    {report : String}
    (hReport : e.report? src = some report) :
    (rejected src e).message? = some report := by
  rw [message?, hReport, Option.getD_some,
    trimEnd_report hReport]

end WordLang
