import Mathlib.Data.List.DropRight
import WordLang.Proofs.ErrorRegions

/-
  This file proves that reports tell where an error is.

  The line and the column of a report count from one. With
  the lines before and the characters before the column, the
  text up to the region of the error is complete. The marker
  is as wide as the part of the region that is shown, which
  leaves out later lines and return characters at the end of
  the line, and never empty.

  Key definitions include:
    * `WordLang.Text.joinLines`
    * `WordLang.Excerpt.Shows`

  Key theorems include:
    * `WordLang.Text.exists_lines`
    * `WordLang.Excerpt.find?_of_cut`
    * `WordLang.compile_error_is_pinpointed`
-/

namespace WordLang

------------------------------------------------------------
-- Lines
------------------------------------------------------------

namespace Text

/- Lines one after another, each with its line end. -/
def joinLines
    (ls : List (List Char)) : List Char :=
  ls.flatMap (· ++ ['\n'])

/- A text is some lines and a part of the next one. -/
theorem exists_lines
    (cs : List Char) :
    ∃ ls lead,
      cs = joinLines ls ++ lead ∧
      (∀ l ∈ ls, '\n' ∉ l) ∧
      '\n' ∉ lead := by
  induction cs with
  | nil =>
      exact ⟨[], [], rfl, by simp, by simp⟩
  | cons c cs ih =>
      rcases ih with ⟨ls, lead, rfl, hLines, hLead⟩
      by_cases hBreak : c = '\n'
      · subst hBreak
        refine ⟨[] :: ls, lead, rfl, ?_, hLead⟩
        simpa using hLines
      · cases ls with
        | nil =>
            refine ⟨[], c :: lead, rfl, by simp, ?_⟩
            simpa [eq_comm, hBreak] using hLead
        | cons l ls =>
            rw [List.forall_mem_cons] at hLines
            refine ⟨(c :: l) :: ls, lead, rfl, ?_, hLead⟩
            rw [List.forall_mem_cons, List.mem_cons,
              not_or]
            exact ⟨⟨Ne.symm hBreak, hLines.1⟩, hLines.2⟩

/- There is a line end after each line. -/
theorem count_joinLines
    {ls : List (List Char)}
    (hLines : ∀ l ∈ ls, '\n' ∉ l) :
    (joinLines ls).count '\n' = ls.length := by
  induction ls with
  | nil => rfl
  | cons l ls ih =>
      rw [List.forall_mem_cons] at hLines
      have hFirst : l.count '\n' = 0 :=
        List.count_eq_zero.mpr hLines.1
      rw [joinLines, List.flatMap_cons, List.count_append,
        List.count_append, hFirst, ← joinLines,
        ih hLines.2]
      simp
      omega

/- Lines are separated at their line ends. -/
theorem splitOn_joinLines_append
    {ls : List (List Char)}
    (hLines : ∀ l ∈ ls, '\n' ∉ l)
    (cs : List Char) :
    (joinLines ls ++ cs).splitOn '\n' =
      ls ++ cs.splitOn '\n' := by
  induction ls with
  | nil => rfl
  | cons l ls ih =>
      rw [List.forall_mem_cons] at hLines
      have hFirst : ∀ c ∈ l, (c == '\n') = false := by
        intro c hChar
        simpa using ne_of_mem_of_not_mem hChar hLines.1
      have hJoin :
          joinLines (l :: ls) ++ cs =
            l ++ '\n' :: (joinLines ls ++ cs) := by
        simp [joinLines]
      have hRest := ih hLines.2
      unfold List.splitOn at hRest ⊢
      rw [hJoin, List.splitOnP_append_cons _ _ (by rfl),
        List.splitOnP_eq_singleton hFirst, hRest]
      rfl

/- The first line reaches up to the first line end. -/
theorem getElem?_zero_splitOn
    (cs : List Char) :
    (cs.splitOn '\n')[0]? =
      some (cs.takeWhile (· ≠ '\n')) := by
  induction cs with
  | nil => rfl
  | cons c cs ih =>
      unfold List.splitOn at ih ⊢
      rw [List.splitOnP_cons_eq_if_modifyHead]
      by_cases hBreak : c = '\n'
      · simp [hBreak]
      · simp [hBreak, ih]

/- A text goes on on its last line. -/
theorem rtakeWhile_append
    (front : List Char)
    {more : List Char}
    (hMore : '\n' ∉ more) :
    (front ++ more).rtakeWhile (· ≠ '\n') =
      front.rtakeWhile (· ≠ '\n') ++ more := by
  have hPart :
      ∀ c ∈ more.reverse, decide (c ≠ '\n') = true := by
    intro c hChar
    have hInside := List.mem_reverse.mp hChar
    simpa using ne_of_mem_of_not_mem hInside hMore
  rw [List.rtakeWhile, List.reverse_append,
    List.takeWhile_append_of_pos hPart,
    List.reverse_append, List.reverse_reverse]
  rfl

/- The part of the last line before a position. -/
theorem takeWhile_reverse_joinLines_append
    {ls : List (List Char)}
    {lead : List Char}
    (hLead : '\n' ∉ lead) :
    ((joinLines ls ++ lead).reverse.takeWhile
      (· ≠ '\n')).reverse = lead := by
  have hLines :
      (joinLines ls).rtakeWhile (· ≠ '\n') = [] := by
    rcases List.eq_nil_or_concat ls with rfl | ⟨ls, l, rfl⟩
    · simp [joinLines]
    · simp [joinLines, List.rtakeWhile]
  have hLast := rtakeWhile_append (joinLines ls) hLead
  rw [hLines, List.nil_append] at hLast
  exact hLast

/- A text has no fewer bytes than its start. -/
theorem byteLength_le_of_starts
    {xs ys : List Char}
    (hPrefix : xs <+: ys) :
    byteLength xs ≤ byteLength ys := by
  rcases hPrefix with ⟨zs, rfl⟩
  rw [byteLength_append]
  exact Nat.le_add_right _ _

/- The rest of a text after a part that may be longer. -/
theorem drop_of_starts
    {xs lead tail : List Char}
    (hPrefix : xs <+: lead ++ tail) :
    xs.drop lead.length <+: tail ∧
      byteLength (xs.drop lead.length) =
        byteLength xs - byteLength lead := by
  by_cases hShort : xs.length ≤ lead.length
  · have hLead : xs <+: lead :=
      List.prefix_of_prefix_length_le hPrefix
        (List.prefix_append lead tail) hShort
    have hBytes := byteLength_le_of_starts hLead
    rw [List.drop_eq_nil_of_le hShort]
    refine ⟨List.nil_prefix, ?_⟩
    rw [Nat.sub_eq_zero_of_le hBytes]
    rfl
  · have hLong : lead <+: xs :=
      List.prefix_of_prefix_length_le
        (List.prefix_append lead tail) hPrefix (by omega)
    rcases hLong with ⟨rest, rfl⟩
    rw [List.drop_left, byteLength_append,
      Nat.add_sub_cancel_left]
    exact ⟨(List.prefix_append_right_inj lead).mp hPrefix,
      rfl⟩

/- The common start of two starts of a text. -/
theorem byteLength_take_of_starts
    {xs ys zs : List Char}
    (hFirst : xs <+: zs)
    (hSecond : ys <+: zs) :
    ys.take xs.length <+: zs ∧
      byteLength (ys.take xs.length) =
        min (byteLength xs) (byteLength ys) := by
  refine ⟨(List.take_prefix _ ys).trans hSecond, ?_⟩
  rcases List.prefix_or_prefix_of_prefix hFirst hSecond with
    hShort | hShort
  · rw [← List.prefix_iff_eq_take.mp hShort,
      Nat.min_eq_left (byteLength_le_of_starts hShort)]
  · rw [List.take_of_length_le hShort.length_le,
      Nat.min_eq_right (byteLength_le_of_starts hShort)]

/- What stands on the first line of a text, cut short. -/
theorem min_length_takeWhile
    {inside after : List Char}
    {n : Nat}
    (hLine :
      n ≤ ((inside ++ after).takeWhile
        (· ≠ '\n')).length) :
    min inside.length n =
      min (inside.takeWhile (· ≠ '\n')).length n := by
  rw [List.takeWhile_append] at hLine
  split at hLine
  · rename_i hWhole
    rw [hWhole]
  · have hPrefix : inside.takeWhile (· ≠ '\n') <+: inside :=
      List.takeWhile_prefix _
    have hLe := hPrefix.length_le
    omega

end Text

------------------------------------------------------------
-- Excerpts
------------------------------------------------------------

namespace Excerpt

/-
  The line that a region starts on, numbered from zero, the
  number of characters before the region in it, the line
  without return characters at its end, and the number of
  characters to mark: those of the region that are shown,
  or one.
-/
structure Shows
    (src before inside : List Char)
    (i j : Nat)
    (line shown : List Char)
    (width : Nat) : Prop where
  isLine : (src.splitOn '\n')[i]? = some line
  inLine : j ≤ line.length
  place :
    before =
      Text.joinLines ((src.splitOn '\n').take i) ++
        line.take j
  trimmed : shown = line.rdropWhile (· = '\r')
  marked :
    width =
      max 1
        (min (inside.takeWhile (· ≠ '\n')).length
          (shown.length - j))

theorem trimReturns_starts
    (cs : List Char) :
    trimReturns cs <+: cs :=
  List.rdropWhile_prefix (· = '\r') cs

/- The characters of a region that are shown. -/
theorem splitAtByte?_shown
    {before lead inside after : List Char}
    {s : Span}
    (hLo : Text.byteLength before = s.lo)
    (hLen : Text.byteLength inside = s.len)
    (hLead : lead <:+ before) :
    let shown :=
      trimReturns
        (lead ++ (inside ++ after).takeWhile (· ≠ '\n'))
    let lineEnd :=
      s.lo - Text.byteLength lead + Text.byteLength shown
    ∃ marked rest,
      Text.splitAtByte?
          (max (min s.hi lineEnd) s.lo - s.lo)
          (inside ++ after) =
        some (marked, rest) ∧
      marked.length =
        min (inside.takeWhile (· ≠ '\n')).length
          (shown.length - lead.length) := by
  intro shown lineEnd
  have hShown :
      shown <+:
        lead ++ (inside ++ after).takeWhile (· ≠ '\n') :=
    trimReturns_starts _
  rcases Text.drop_of_starts hShown with ⟨hDrop, hBytes⟩
  have hPrefix : shown.drop lead.length <+: inside ++ after :=
    hDrop.trans (List.takeWhile_prefix _)
  rcases Text.byteLength_take_of_starts
      (List.prefix_append inside after) hPrefix with
    ⟨⟨rest, hRest⟩, hLength⟩
  refine ⟨(shown.drop lead.length).take inside.length, rest,
    ?_, ?_⟩
  · rw [Text.splitAtByte?_eq_some_iff]
    refine ⟨hRest.symm, ?_⟩
    have hLeadBytes :
        Text.byteLength lead ≤ Text.byteLength before := by
      rcases hLead with ⟨front, rfl⟩
      rw [Text.byteLength_append]
      exact Nat.le_add_left _ _
    rw [hLength, hBytes, hLen, Span.hi]
    omega
  · rw [List.length_take, List.length_drop]
    apply Text.min_length_takeWhile
    rw [← List.length_drop]
    exact hDrop.length_le

/- A region between characters has an excerpt. -/
theorem find?_of_cut
    {src before inside after : List Char}
    {s : Span}
    (hCut : Text.Cut src s before inside after) :
    ∃ i j line shown width,
      Shows src before inside i j line shown width ∧
      find? src s =
        some ⟨i + 1, line.take j, shown, width⟩ := by
  rcases Text.exists_lines before with
    ⟨ls, lead, hBefore, hLines, hLead⟩
  let line :=
    lead ++ (inside ++ after).takeWhile (· ≠ '\n')
  have hLines' :
      src.splitOn '\n' =
        ls ++ (lead ++ (inside ++ after)).splitOn '\n' := by
    rw [hCut.text, hBefore, List.append_assoc,
      Text.splitOn_joinLines_append hLines]
  have hFirst :
      (lead ++ (inside ++ after)).takeWhile (· ≠ '\n') =
        line := by
    apply List.takeWhile_append_of_pos
    intro c hChar
    simpa using ne_of_mem_of_not_mem hChar hLead
  have hLo : min s.lo (Text.byteLength src) = s.lo := by
    rw [hCut.text, Text.byteLength_append, ← hCut.lo]
    omega
  have hCount : before.count '\n' = ls.length := by
    rw [hBefore, List.count_append,
      Text.count_joinLines hLines,
      List.count_eq_zero.mpr hLead, Nat.add_zero]
  have hLeadText :
      (before.reverse.takeWhile (· ≠ '\n')).reverse =
        lead := by
    rw [hBefore]
    exact Text.takeWhile_reverse_joinLines_append hLead
  rcases splitAtByte?_shown hCut.lo hCut.len
      ⟨Text.joinLines ls, hBefore.symm⟩ with
    ⟨marked, rest, hSplit, hMarked⟩
  refine ⟨ls.length, lead.length, line, trimReturns line,
    max 1 marked.length, ⟨?_, ?_, ?_, rfl, ?_⟩, ?_⟩
  · rw [hLines', List.getElem?_append_right (Nat.le_refl _),
      Nat.sub_self, Text.getElem?_zero_splitOn, hFirst]
  · simp [line]
  · rw [hLines', List.take_left, List.take_left, hBefore]
  · rw [hMarked]
  · have hCutAt :
        Text.splitAtByte? s.lo src =
          some (before, inside ++ after) := by
      rw [← hCut.lo, hCut.text]
      exact Text.splitAtByte?_byteLength _ _
    unfold find?
    simp only [hLo, hCutAt, hLeadText, hSplit, hCount, bind,
      Option.bind, List.take_left, line]
    rw [Nat.max_comm]
    rfl

end Excerpt

------------------------------------------------------------
-- Reports
------------------------------------------------------------

/-
  An error of a source has a region between characters in
  it, which is empty only at the end of input. There is a
  report of the error, and its position is where the region
  starts.
-/
theorem compile_error_is_pinpointed
    (src : String)
    (target : Target)
    (e : CompileError)
    (hSize : src.utf8ByteSize < 2 ^ 28)
    (hError : compile src target = .error e) :
    ∃ before inside after i j line shown width,
      Text.Cut src.toList e.span before inside after ∧
      (inside = [] ↔ e.found? = some .eof) ∧
      (e.found? = some .eof →
        e.span = ⟨src.utf8ByteSize, 0⟩) ∧
      Excerpt.Shows src.toList before inside i j line shown
        width ∧
      e.report? src =
        some
          (toString (i + 1) ++ ":" ++ toString (j + 1) ++
            ": error: " ++ e.message ++ "\n" ++
            String.ofList shown ++ "\n" ++
            String.ofList
              ((line.take j).map
                  (fun c => if c = '\t' then '\t' else ' ') ++
                '^' :: List.replicate (width - 1) '~') ++
            "\n") := by
  rcases exists_cut_of_compile_error hSize hError with
    ⟨before, inside, after, hCut, hEmpty, hEnd⟩
  rcases Excerpt.find?_of_cut hCut with
    ⟨i, j, line, shown, width, hShows, hFind⟩
  refine ⟨before, inside, after, i, j, line, shown, width,
    hCut, hEmpty, hEnd, hShows, ?_⟩
  have hColumn : (line.take j).length = j := by
    rw [List.length_take, Nat.min_eq_left hShows.inLine]
  unfold CompileError.report?
  rw [hFind]
  simp only [bind, Option.bind, Excerpt.column,
    Excerpt.marker, hColumn]
  rfl

/-
  A region that goes on after the end of its line, which has
  a return character.
-/
theorem divided_target_is_pinpointed :
    "\ta +\r\nb = 1;".utf8ByteSize < 2 ^ 28 ∧
    compile "\ta +\r\nb = 1;" .linux =
      .error (.parse ⟨.notAssignable, ⟨1, 6⟩⟩) ∧
    ∃ before inside after i j line shown width,
      Text.Cut "\ta +\r\nb = 1;".toList ⟨1, 6⟩ before inside
        after ∧
      Excerpt.Shows "\ta +\r\nb = 1;".toList before inside i
        j line shown width ∧
      (CompileError.parse ⟨.notAssignable, ⟨1, 6⟩⟩).report?
          "\ta +\r\nb = 1;" =
        some
          ("1:2: error: invalid assignment target\n" ++
            "\ta +\n\t^~~\n") := by
  have hSize : "\ta +\r\nb = 1;".utf8ByteSize < 2 ^ 28 := by
    decide
  have hError :
      compile "\ta +\r\nb = 1;" .linux =
        .error (.parse ⟨.notAssignable, ⟨1, 6⟩⟩) := by
    decide +kernel
  rcases compile_error_is_pinpointed _ _ _ hSize hError with
    ⟨before, inside, after, i, j, line, shown, width, hCut,
      -, -, hShows, -⟩
  refine ⟨hSize, hError, before, inside, after, i, j, line,
    shown, width, hCut, hShows, ?_⟩
  decide +kernel

end WordLang
