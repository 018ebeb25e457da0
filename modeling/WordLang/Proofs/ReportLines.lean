import WordLang.Proofs.ReportPosition

/-
  This file proves what a report shows of an arbitrary
  region.

  A region need not come from the source it is reported
  against. It may start past the end of the source, between
  the return characters at the end of a line or inside a
  character, and it may go on over line ends. There is no
  report exactly when a character would have to be divided.
  All other reports are three lines of text, and no two
  boundaries of a source are given the same line and column.

  Key definitions include:
    * `WordLang.Text.IsBoundary`
    * `WordLang.Text.IsPlace`
    * `WordLang.Text.LineAt`

  Key theorems include:
    * `WordLang.Text.IsPlace.pos_eq`
    * `WordLang.Text.exists_lineAt`
    * `WordLang.Excerpt.find?_of_lineAt`
    * `WordLang.Excerpt.find?_eq_none_iff`
    * `WordLang.report_places_any_region`
-/

namespace WordLang

------------------------------------------------------------
-- Boundaries
------------------------------------------------------------

namespace Text

/- Byte positions at which no character is divided. -/
def IsBoundary
    (cs : List Char)
    (pos : Nat) : Prop :=
  ∃ before after,
    cs = before ++ after ∧ byteLength before = pos

/- A text can be cut at its boundaries. -/
theorem splitAtByte?_eq_none_iff
    {cs : List Char}
    {pos : Nat} :
    splitAtByte? pos cs = none ↔ ¬ IsBoundary cs pos := by
  rw [Option.eq_none_iff_forall_ne_some]
  constructor
  · rintro hNone ⟨before, after, hText, hPos⟩
    exact hNone (before, after)
      (splitAtByte?_eq_some_iff.mpr ⟨hText, hPos⟩)
  · rintro hDivided ⟨before, after⟩ hCut
    rcases splitAtByte?_eq_some_iff.mp hCut with
      ⟨hText, hPos⟩
    exact hDivided ⟨before, after, hText, hPos⟩

instance
    (cs : List Char)
    (pos : Nat) :
    Decidable (IsBoundary cs pos) :=
  decidable_of_iff (¬ splitAtByte? pos cs = none)
    (by rw [splitAtByte?_eq_none_iff, Classical.not_not])

/- Of two starts of a text the shorter starts the longer. -/
theorem starts_of_byteLength_le
    {xs ys zs : List Char}
    (hFirst : xs <+: zs)
    (hSecond : ys <+: zs)
    (hLe : byteLength xs ≤ byteLength ys) :
    xs <+: ys := by
  rcases List.prefix_or_prefix_of_prefix hFirst hSecond with
    hStarts | ⟨more, rfl⟩
  · exact hStarts
  · have hMore := length_le_byteLength more
    rw [byteLength_append] at hLe
    have hNil : more = [] :=
      List.eq_nil_of_length_eq_zero (by omega)
    simp [hNil]

/- The boundaries after the start of a text. -/
theorem isBoundary_append_iff
    {xs ys : List Char}
    {n : Nat} :
    IsBoundary (xs ++ ys) (byteLength xs + n) ↔
      IsBoundary ys n := by
  constructor
  · rintro ⟨before, after, hText, hPos⟩
    have hStarts : xs <+: before :=
      starts_of_byteLength_le (List.prefix_append xs ys)
        ⟨after, hText.symm⟩ (by omega)
    rcases hStarts with ⟨more, rfl⟩
    rw [List.append_assoc, List.append_cancel_left_eq]
      at hText
    rw [byteLength_append] at hPos
    exact ⟨more, after, hText, by omega⟩
  · rintro ⟨before, after, rfl, rfl⟩
    exact ⟨xs ++ before, after,
      (List.append_assoc xs before after).symm,
      byteLength_append xs before⟩

------------------------------------------------------------
-- Lines and Columns
------------------------------------------------------------

/-
  The line and the column of a boundary, counted from one:
  there are so many line ends before it, and so many
  characters since the last of them.
-/
def IsPlace
    (cs : List Char)
    (pos i j : Nat) : Prop :=
  ∃ before after,
    cs = before ++ after ∧
    byteLength before = pos ∧
    i = before.count '\n' + 1 ∧
    j = (before.rtakeWhile (· ≠ '\n')).length + 1

/-
  A start of a text that ends in the same line and column as
  a longer one is the longer one.
-/
theorem eq_of_place_eq
    {before more : List Char}
    (hLine :
      (before ++ more).count '\n' = before.count '\n')
    (hColumn :
      ((before ++ more).rtakeWhile (· ≠ '\n')).length =
        (before.rtakeWhile (· ≠ '\n')).length) :
    more = [] := by
  have hCount : more.count '\n' = 0 := by
    rw [List.count_append] at hLine
    omega
  rw [rtakeWhile_append before
    (List.count_eq_zero.mp hCount),
    List.length_append] at hColumn
  exact List.eq_nil_of_length_eq_zero (by omega)

/- Different boundaries have different places. -/
theorem IsPlace.pos_eq
    {cs : List Char}
    {p q i j : Nat}
    (hFirst : IsPlace cs p i j)
    (hSecond : IsPlace cs q i j) :
    p = q := by
  rcases hFirst with
    ⟨before, after, hText, rfl, rfl, rfl⟩
  rcases hSecond with
    ⟨before', after', hText', rfl, hLine, hColumn⟩
  have hStarts : before <+: cs := ⟨after, hText.symm⟩
  have hStarts' : before' <+: cs := ⟨after', hText'.symm⟩
  rcases List.prefix_or_prefix_of_prefix hStarts hStarts'
    with ⟨more, rfl⟩ | ⟨more, rfl⟩
  · have hNil : more = [] :=
      eq_of_place_eq (Nat.succ.inj hLine.symm)
        (Nat.succ.inj hColumn.symm)
    rw [hNil, List.append_nil]
  · have hNil : more = [] :=
      eq_of_place_eq (Nat.succ.inj hLine)
        (Nat.succ.inj hColumn)
    rw [hNil, List.append_nil]

/-
  The line that holds a byte position, which may lie inside
  a character: the text is `front`, the line and `rest`. The
  position just before a line end is on the line that ends
  there.
-/
structure LineAt
    (cs : List Char)
    (pos : Nat)
    (front line rest : List Char) : Prop where
  text : cs = front ++ (line ++ rest)
  starts : ∀ c ∈ front.getLast?, c = '\n'
  whole : '\n' ∉ line
  stops : ∀ c ∈ rest.head?, c = '\n'
  lo : byteLength front ≤ pos
  hi : pos ≤ byteLength front + byteLength line

/- A text starts with its first line. -/
theorem lineAt_first
    {cs : List Char}
    {pos : Nat}
    (hPos :
      pos ≤ byteLength (cs.takeWhile (· ≠ '\n'))) :
    LineAt cs pos [] (cs.takeWhile (· ≠ '\n'))
      (cs.dropWhile (· ≠ '\n')) where
  text := List.takeWhile_append_dropWhile.symm
  starts := by simp
  whole := by
    intro hMem
    simpa using List.mem_takeWhile_imp hMem
  stops := by
    intro c hHead
    have hNot := List.head?_dropWhile_not (· ≠ '\n') cs
    rw [Option.mem_def.mp hHead] at hNot
    simpa using hNot
  lo := Nat.zero_le pos
  hi := by
    rw [byteLength, Nat.zero_add]
    exact hPos

/- A line stays what it is behind a further character. -/
theorem LineAt.cons
    {cs front line rest : List Char}
    {pos : Nat}
    (hLine : LineAt cs pos front line rest)
    (c : Char) :
    ∃ front' line',
      LineAt (c :: cs) (c.utf8Size + pos) front' line'
        rest := by
  have hLo := hLine.lo
  have hHi := hLine.hi
  by_cases hJoins : front = [] ∧ c ≠ '\n'
  · -- The character stands on the same line.
    rcases hJoins with ⟨rfl, hChar⟩
    rw [byteLength] at hHi
    refine ⟨[], c :: line, ?_, by simp, ?_, hLine.stops,
      Nat.zero_le _, ?_⟩
    · rw [hLine.text]
      rfl
    · rw [List.mem_cons, not_or]
      exact ⟨Ne.symm hChar, hLine.whole⟩
    · rw [byteLength, byteLength]
      omega
  · refine ⟨c :: front, line, ?_, ?_, hLine.whole,
      hLine.stops, ?_, ?_⟩
    · rw [hLine.text]
      rfl
    · intro d hLast
      cases front with
      | nil =>
          have hBreak : c = '\n' := by
            simpa using hJoins
          simpa [hBreak, eq_comm] using hLast
      | cons e front =>
          rw [List.getLast?_cons_cons] at hLast
          exact hLine.starts d hLast
    · rw [byteLength]
      omega
    · rw [byteLength]
      omega

/- Every position of a text is on a line. -/
theorem exists_lineAt
    {cs : List Char}
    {pos : Nat}
    (hInside : pos ≤ byteLength cs) :
    ∃ front line rest, LineAt cs pos front line rest := by
  induction cs generalizing pos with
  | nil =>
      exact ⟨[], [], [], lineAt_first hInside⟩
  | cons c cs ih =>
      by_cases hFirst : pos < c.utf8Size
      · -- The position is before the character or inside.
        refine ⟨[], _, _, lineAt_first ?_⟩
        by_cases hBreak : c = '\n'
        · have hByte : c.utf8Size = 1 := by
            rw [hBreak]
            rfl
          omega
        · rw [List.takeWhile_cons_of_pos
            (by simpa using hBreak), byteLength]
          omega
      · rw [byteLength] at hInside
        have hRest : pos - c.utf8Size ≤ byteLength cs := by
          omega
        rcases ih hRest with ⟨front, line, rest, hLine⟩
        rcases hLine.cons c with ⟨front', line', hLine'⟩
        rw [Nat.add_sub_cancel' (by omega)] at hLine'
        exact ⟨front', line', rest, hLine'⟩

/- A boundary divides the line that it is on. -/
theorem LineAt.exists_lead
    {cs front line rest before after : List Char}
    {pos : Nat}
    (hLine : LineAt cs pos front line rest)
    (hText : cs = before ++ after)
    (hPos : byteLength before = pos) :
    ∃ lead tail,
      before = front ++ lead ∧
      line = lead ++ tail ∧
      after = tail ++ rest := by
  have hLo := hLine.lo
  have hHi := hLine.hi
  have hFront : front <+: before :=
    starts_of_byteLength_le ⟨_, hLine.text.symm⟩
      ⟨after, hText.symm⟩ (by omega)
  rcases hFront with ⟨lead, rfl⟩
  have hRest : lead ++ after = line ++ rest := by
    rw [hLine.text, List.append_assoc,
      List.append_cancel_left_eq] at hText
    exact hText.symm
  rw [byteLength_append] at hPos
  have hLead : lead <+: line :=
    starts_of_byteLength_le ⟨after, hRest⟩
      (List.prefix_append line rest) (by omega)
  rcases hLead with ⟨tail, rfl⟩
  rw [List.append_assoc, List.append_cancel_left_eq] at hRest
  exact ⟨lead, tail, rfl, rfl, hRest⟩

/- The part of a line before a boundary. -/
theorem LineAt.rtakeWhile_eq
    {cs front line rest lead tail : List Char}
    {pos : Nat}
    (hLine : LineAt cs pos front line rest)
    (hParts : line = lead ++ tail) :
    (front ++ lead).rtakeWhile (· ≠ '\n') = lead := by
  have hLead : '\n' ∉ lead := by
    intro hMem
    apply hLine.whole
    rw [hParts]
    exact List.mem_append_left tail hMem
  have hFront : front.rtakeWhile (· ≠ '\n') = [] := by
    rw [List.rtakeWhile_eq_nil_iff]
    intro hSome
    have hLast :=
      hLine.starts _ (List.getLast?_eq_some_getLast hSome)
    simpa using hLast
  rw [rtakeWhile_append front hLead, hFront,
    List.nil_append]

/- The part of a line after a boundary. -/
theorem LineAt.takeWhile_eq
    {cs front line rest lead tail : List Char}
    {pos : Nat}
    (hLine : LineAt cs pos front line rest)
    (hParts : line = lead ++ tail) :
    (tail ++ rest).takeWhile (· ≠ '\n') = tail := by
  have hTail :
      ∀ c ∈ tail, decide (c ≠ '\n') = true := by
    intro c hMem
    have hInside : c ∈ line := by
      rw [hParts]
      exact List.mem_append_right lead hMem
    simpa using ne_of_mem_of_not_mem hInside hLine.whole
  have hStops := hLine.stops
  rw [List.takeWhile_append_of_pos hTail]
  cases rest with
  | nil =>
      rw [List.takeWhile_nil, List.append_nil]
  | cons c rest =>
      rw [hStops c rfl, List.takeWhile_cons_of_neg
        (by simp), List.append_nil]

/- What is shown of a line ends at a boundary. -/
theorem LineAt.isBoundary_shown
    {cs front line rest : List Char}
    {pos : Nat}
    (hLine : LineAt cs pos front line rest) :
    IsBoundary cs
      (byteLength front +
        byteLength (line.rdropWhile (· = '\r'))) := by
  rcases List.rdropWhile_prefix (· = '\r') line with
    ⟨returns, hReturns⟩
  refine ⟨front ++ line.rdropWhile (· = '\r'),
    returns ++ rest, ?_, byteLength_append _ _⟩
  rw [hLine.text, List.append_assoc,
    ← List.append_assoc _ returns, hReturns]

end Text

------------------------------------------------------------
-- Excerpts
------------------------------------------------------------

namespace Excerpt

/-
  The excerpt for a region that starts at a boundary, up to
  the cut at the end of what is marked.
-/
theorem find?_of_lineAt
    {cs front line rest lead tail : List Char}
    {s : Span}
    (hLine :
      Text.LineAt cs (min s.lo (Text.byteLength cs)) front
        line rest)
    (hParts : line = lead ++ tail)
    (hLo :
      Text.byteLength (front ++ lead) =
        min s.lo (Text.byteLength cs)) :
    let lo := min s.lo (Text.byteLength cs)
    let shown := line.rdropWhile (· = '\r')
    let stop :=
      Text.byteLength front + Text.byteLength shown
    find? cs s =
      (Text.splitAtByte? (max (min s.hi stop) lo - lo)
        (tail ++ rest)).map
          (fun cut =>
            ⟨(front ++ lead).count '\n' + 1, lead, shown,
              max cut.1.length 1⟩) := by
  intro lo shown stop
  have hText : cs = (front ++ lead) ++ (tail ++ rest) := by
    rw [hLine.text, hParts]
    simp only [List.append_assoc]
  have hCut :
      Text.splitAtByte? lo cs =
        some (front ++ lead, tail ++ rest) :=
    Text.splitAtByte?_eq_some_iff.mpr ⟨hText, hLo⟩
  have hLead :
      ((front ++ lead).reverse.takeWhile
        (· ≠ '\n')).reverse = lead :=
    hLine.rtakeWhile_eq hParts
  have hStop :
      lo - Text.byteLength lead + Text.byteLength shown =
        stop := by
    rw [Text.byteLength_append] at hLo
    omega
  have hShown : trimReturns (lead ++ tail) = shown := by
    rw [← hParts]
    rfl
  unfold find?
  simp only [bind, Option.bind, hCut, hLead,
    hLine.takeWhile_eq hParts, hShown, hStop, lo]
  cases Text.splitAtByte? _ (tail ++ rest) with
  | none => rfl
  | some cut => rfl

/-
  There is an excerpt for a region that starts at a boundary
  if what is marked ends at one.
-/
theorem find?_eq_none_iff_of_isBoundary
    {cs front line rest : List Char}
    {s : Span}
    (hLine :
      Text.LineAt cs (min s.lo (Text.byteLength cs)) front
        line rest)
    (hStart :
      Text.IsBoundary cs
        (min s.lo (Text.byteLength cs))) :
    let lo := min s.lo (Text.byteLength cs)
    let shown := line.rdropWhile (· = '\r')
    let stop :=
      Text.byteLength front + Text.byteLength shown
    find? cs s = none ↔
      ¬ Text.IsBoundary cs (max (min s.hi stop) lo) := by
  intro lo shown stop
  rcases hStart with ⟨before, after, hText, hLo⟩
  rcases hLine.exists_lead hText hLo with
    ⟨lead, tail, rfl, hParts, rfl⟩
  rw [find?_of_lineAt hLine hParts hLo,
    Option.map_eq_none_iff,
    Text.splitAtByte?_eq_none_iff,
    ← Text.isBoundary_append_iff, hLo, ← hText,
    Nat.add_sub_cancel' (Nat.le_max_right _ _)]

/-
  There is no excerpt when the region starts inside a
  character, or ends inside one that is to be marked.
-/
theorem find?_eq_none_iff
    {cs front line rest : List Char}
    {s : Span}
    (hLine :
      Text.LineAt cs (min s.lo (Text.byteLength cs)) front
        line rest) :
    let lo := min s.lo (Text.byteLength cs)
    let shown := line.rdropWhile (· = '\r')
    let stop :=
      Text.byteLength front + Text.byteLength shown
    find? cs s = none ↔
      ¬ Text.IsBoundary cs lo ∨
        (lo < s.hi ∧ s.hi < stop ∧
          ¬ Text.IsBoundary cs s.hi) := by
  intro lo shown stop
  by_cases hStart : Text.IsBoundary cs lo
  · have hCut :
        find? cs s = none ↔
          ¬ Text.IsBoundary cs (max (min s.hi stop) lo) :=
      find?_eq_none_iff_of_isBoundary hLine hStart
    rw [hCut]
    by_cases hInside : lo < s.hi ∧ s.hi < stop
    · have hEnd : max (min s.hi stop) lo = s.hi := by omega
      rw [hEnd]
      constructor
      · intro hDivided
        exact .inr ⟨hInside.1, hInside.2, hDivided⟩
      · rintro (hDivided | ⟨-, -, hDivided⟩)
        · exact absurd hStart hDivided
        · exact hDivided
    · -- What is marked ends at its start or with the line.
      have hEnd :
          Text.IsBoundary cs (max (min s.hi stop) lo) := by
        by_cases hLong : lo ≤ stop ∧ stop ≤ s.hi
        · have hMax : max (min s.hi stop) lo = stop := by
            omega
          rw [hMax]
          exact hLine.isBoundary_shown
        · have hMax : max (min s.hi stop) lo = lo := by
            omega
          rw [hMax]
          exact hStart
      refine iff_of_false (fun hDivided => hDivided hEnd) ?_
      rintro (hDivided | ⟨hLow, hHigh, -⟩)
      · exact hDivided hStart
      · exact hInside ⟨hLow, hHigh⟩
  · have hCut : Text.splitAtByte? lo cs = none :=
      Text.splitAtByte?_eq_none_iff.mpr hStart
    have hNone : find? cs s = none := by
      unfold find?
      simp only [bind, Option.bind, hCut, lo]
    exact iff_of_true hNone (.inl hStart)

/- The characters that are marked. -/
theorem exists_marked_of_find?
    {cs front line rest : List Char}
    {s : Span}
    {x : Excerpt}
    (hLine :
      Text.LineAt cs (min s.lo (Text.byteLength cs)) front
        line rest)
    (hFind : find? cs s = some x) :
    let lo := min s.lo (Text.byteLength cs)
    let shown := line.rdropWhile (· = '\r')
    let stop :=
      Text.byteLength front + Text.byteLength shown
    ∃ lead marked after,
      cs = front ++ lead ++ marked ++ after ∧
      lead <+: line ∧
      Text.byteLength (front ++ lead) = lo ∧
      Text.byteLength marked = min s.hi stop - lo ∧
      x =
        ⟨(front ++ lead).count '\n' + 1, lead, shown,
          max marked.length 1⟩ := by
  intro lo shown stop
  have hStart : Text.IsBoundary cs lo := by
    by_contra hDivided
    have hNone :=
      (find?_eq_none_iff hLine).mpr (.inl hDivided)
    rw [hFind] at hNone
    contradiction
  rcases hStart with ⟨before, after, hText, hLo⟩
  rcases hLine.exists_lead hText hLo with
    ⟨lead, tail, rfl, hParts, rfl⟩
  rw [find?_of_lineAt hLine hParts hLo,
    Option.map_eq_some_iff] at hFind
  rcases hFind with ⟨⟨marked, after⟩, hCut, rfl⟩
  rcases Text.splitAtByte?_eq_some_iff.mp hCut with
    ⟨hRest, hBytes⟩
  have hMarked :
      Text.byteLength marked = min s.hi stop - lo := by
    calc Text.byteLength marked
        = max (min s.hi stop) lo - lo := hBytes
      _ = min s.hi stop - lo := by omega
  refine ⟨lead, marked, after, ?_, ⟨tail, hParts.symm⟩, hLo,
    hMarked, rfl⟩
  rw [hText, hRest]
  simp only [List.append_assoc]

end Excerpt

------------------------------------------------------------
-- Texts on One Line
------------------------------------------------------------

/- Texts without a line end. -/
def Text.OneLine
    (s : String) : Prop :=
  '\n' ∉ s.toList

instance
    (s : String) :
    Decidable (Text.OneLine s) :=
  inferInstanceAs (Decidable ('\n' ∉ s.toList))

theorem Text.OneLine.append
    {s t : String}
    (hFirst : OneLine s)
    (hSecond : OneLine t) :
    OneLine (s ++ t) := by
  unfold OneLine
  rw [String.toList_append, List.mem_append, not_or]
  exact ⟨hFirst, hSecond⟩

/- Digits are no line ends. -/
theorem Text.not_mem_toDigits
    {b : Nat}
    (hBase : 1 < b)
    (n : Nat) :
    '\n' ∉ Nat.toDigits b n := by
  have hDigit (d : Nat) : '\n' ≠ d.digitChar :=
    (Nat.digitChar_ne '\n' rfl).symm
  induction n using Nat.strongRecOn with
  | ind n ih =>
      rw [Nat.toDigits_eq_if hBase]
      split
      · rw [List.mem_singleton]
        exact hDigit n
      · rename_i hLarge
        have hLess : n / b < n :=
          Nat.div_lt_self (by omega) hBase
        rw [List.mem_append, List.mem_singleton, not_or]
        exact ⟨ih (n / b) hLess, hDigit (n % b)⟩

theorem Text.oneLine_toString
    (n : Nat) :
    OneLine (toString n) := by
  unfold OneLine
  rw [Literal.toList_toString]
  exact not_mem_toDigits (by decide) n

/- A line end in quotes is escaped. -/
theorem Text.not_mem_escape
    {mark : Char}
    (hMark : mark ≠ '\n')
    (c : Char) :
    '\n' ∉ escape mark c := by
  have hHex : '\n' ∉ hex c.toNat :=
    not_mem_toDigits (by decide) c.toNat
  unfold escape
  split
  case h_1 => decide
  case h_2 => decide
  case h_3 => decide
  case h_4 => decide
  case h_5 => decide
  case h_6 hChar _ =>
    split
    · rename_i hEq
      simp [hEq, hMark.symm]
    · split
      · simp [hHex]
      · rw [List.mem_singleton]
        exact fun hEq => hChar hEq.symm

theorem Text.oneLine_quoteChar
    (c : Char) :
    OneLine (quoteChar c) := by
  have hMark : '\x27' ≠ '\n' := by decide
  unfold OneLine quoteChar
  rw [String.toList_ofList]
  simp [not_mem_escape hMark c]

theorem Kind.oneLine_describe
    (k : Kind) :
    Text.OneLine k.describe := by
  cases k <;> decide

theorem LexError.oneLine_message
    (e : LexError) :
    Text.OneLine e.message := by
  cases e with
  | unexpectedChar c =>
      exact .append (by decide) (Text.oneLine_quoteChar c)
  | missingDigits radix =>
      exact .append
        (.append (by decide) (Text.oneLine_toString radix))
        (by decide)
  | tooLarge =>
      decide

theorem ParseError.oneLine_message
    (e : ParseError) :
    Text.OneLine e.message := by
  cases e with
  | notAssignable =>
      decide
  | noOperand found =>
      exact .append (by decide) found.oneLine_describe
  | mismatch found wanted =>
      exact .append
        (.append (.append (by decide) wanted.oneLine_describe)
          (by decide))
        found.oneLine_describe
  | badNumber =>
      decide

theorem Fault.oneLine_message
    (e : Fault) :
    Text.OneLine e.message := by
  cases e with
  | notAddressable =>
      decide
  | unresolved offset =>
      exact .append (by decide) (Text.oneLine_toString _)

/- Errors are worded on one line. -/
theorem CompileError.oneLine_message
    (e : CompileError) :
    Text.OneLine e.message := by
  cases e with
  | lex e =>
      exact e.value.oneLine_message
  | parse e =>
      exact e.value.oneLine_message
  | internal e =>
      exact .append (by decide) e.value.oneLine_message

/- The place and the message are on one line. -/
theorem CompileError.oneLine_header
    (e : CompileError)
    (i j : Nat) :
    Text.OneLine
      (toString i ++ ":" ++ toString j ++ ": error: " ++
        e.message) := by
  have hColon : Text.OneLine ":" := by decide
  have hError : Text.OneLine ": error: " := by decide
  have hLine := (Text.oneLine_toString i).append hColon
  have hPlace := hLine.append (Text.oneLine_toString j)
  exact (hPlace.append hError).append e.oneLine_message

/- The marker is on one line. -/
theorem Excerpt.not_mem_marker
    (x : Excerpt) :
    '\n' ∉ x.marker := by
  unfold marker
  rw [List.mem_append, not_or]
  constructor
  · rw [List.mem_map]
    rintro ⟨c, -, hChar⟩
    split at hChar
    · contradiction
    · contradiction
  · rw [List.mem_cons, List.mem_replicate]
    rintro (hChar | ⟨-, hChar⟩)
    · contradiction
    · contradiction

------------------------------------------------------------
-- Reports
------------------------------------------------------------

/- A report needs an excerpt. -/
theorem CompileError.report?_eq_none_iff
    {e : CompileError}
    {src : String} :
    e.report? src = none ↔
      Excerpt.find? src.toList e.span = none := by
  unfold report?
  cases Excerpt.find? src.toList e.span with
  | none => exact iff_of_true rfl rfl
  | some x => exact iff_of_false nofun nofun

/- The lines of a report. -/
theorem CompileError.exists_lines_of_report?
    {e : CompileError}
    {src report : String}
    (hReport : e.report? src = some report) :
    ∃ x : Excerpt,
      Excerpt.find? src.toList e.span = some x ∧
      report.toList =
        Text.joinLines
          [(toString x.lineNumber ++ ":" ++
              toString x.column ++ ": error: " ++
              e.message).toList,
            x.line, x.marker] := by
  unfold report? at hReport
  rcases Option.bind_eq_some_iff.mp hReport with
    ⟨x, hFind, hText⟩
  refine ⟨x, hFind, ?_⟩
  rw [← Option.some.inj hText]
  simp [Text.joinLines]

/-
  There is no report of a region whose start, clipped to the
  source, is inside a character, or that ends inside a
  character shown after its start. All others have a report
  of three lines: the place and the message, the line of the
  source that the start is on without return characters at
  its end, and a marker under the part of the region that is
  shown. Different boundaries of a source have different
  places.
-/
theorem report_places_any_region
    (src : String)
    (e : CompileError) :
    let cs := src.toList
    let lo := min e.span.lo src.utf8ByteSize
    let hi := e.span.hi
    (∃ front line rest,
      Text.LineAt cs lo front line rest ∧
      let shown := line.rdropWhile (· = '\r')
      let stop :=
        Text.byteLength front + Text.byteLength shown
      (e.report? src = none ↔
        ¬ Text.IsBoundary cs lo ∨
          (lo < hi ∧ hi < stop ∧
            ¬ Text.IsBoundary cs hi)) ∧
      ∀ report,
        e.report? src = some report →
        ∃ i lead marked after,
          let j := lead.length + 1
          let width := max marked.length 1
          let header :=
            toString i ++ ":" ++ toString j ++
              ": error: " ++ e.message
          let marker :=
            lead.map
                (fun c => if c = '\t' then '\t' else ' ') ++
              '^' :: List.replicate (width - 1) '~'
          cs = front ++ lead ++ marked ++ after ∧
          lead <+: line ∧
          Text.byteLength (front ++ lead) = lo ∧
          Text.byteLength marked = min hi stop - lo ∧
          Text.IsPlace cs lo i j ∧
          report.toList =
            Text.joinLines [header.toList, shown, marker] ∧
          ∀ l ∈ [header.toList, shown, marker],
            '\n' ∉ l) ∧
    ∀ p q i j,
      Text.IsPlace cs p i j →
      Text.IsPlace cs q i j →
      p = q := by
  intro cs lo hi
  refine ⟨?_, fun p q i j => Text.IsPlace.pos_eq⟩
  have hLo : lo = min e.span.lo (Text.byteLength cs) := by
    simp only [lo, cs, Text.utf8ByteSize_eq_byteLength]
  have hInside : lo ≤ Text.byteLength cs := by omega
  rcases Text.exists_lineAt hInside with
    ⟨front, line, rest, hLine⟩
  refine ⟨front, line, rest, hLine, ?_⟩
  intro shown stop
  rw [hLo] at hLine ⊢
  refine ⟨?_, ?_⟩
  · rw [CompileError.report?_eq_none_iff]
    exact Excerpt.find?_eq_none_iff hLine
  · intro report hReport
    rcases e.exists_lines_of_report? hReport with
      ⟨x, hFind, hLines⟩
    rcases Excerpt.exists_marked_of_find? hLine hFind with
      ⟨lead, marked, after, hText, hLead, hStart, hMarked,
        rfl⟩
    refine ⟨(front ++ lead).count '\n' + 1, lead, marked,
      after, hText, hLead, hStart, hMarked, ?_, hLines, ?_⟩
    · rcases hLead with ⟨tail, hParts⟩
      refine ⟨front ++ lead, marked ++ after, ?_, hStart, rfl,
        ?_⟩
      · rw [hText, List.append_assoc]
      · rw [hLine.rtakeWhile_eq hParts.symm]
    · have hHeader :=
        e.oneLine_header ((front ++ lead).count '\n' + 1)
          (lead.length + 1)
      have hShown : '\n' ∉ shown := by
        intro hMem
        exact hLine.whole
          ((List.rdropWhile_prefix _ line).subset hMem)
      have hMarker := Excerpt.not_mem_marker
        ⟨(front ++ lead).count '\n' + 1, lead, shown,
          max marked.length 1⟩
      simp only [List.forall_mem_cons]
      exact ⟨hHeader, hShown, hMarker, by simp⟩

/-
  A region that starts between two return characters and one
  that ends inside a character.
-/
theorem region_between_returns_is_placed :
    let src := "\té\r\r\nx"
    let e : CompileError := .lex ⟨.tooLarge, ⟨4, 9⟩⟩
    let divided : CompileError := .lex ⟨.tooLarge, ⟨0, 2⟩⟩
    let report :=
      "1:4: error: number literal out of range\n" ++
        "\té\n" ++ "\t  ^\n"
    e.report? src = some report ∧
    ¬ Text.IsBoundary src.toList 2 ∧
    divided.report? src = none ∧
    ∃ front line rest,
      Text.LineAt src.toList 4 front line rest ∧
      ∃ i lead,
        Text.byteLength (front ++ lead) = 4 ∧
        Text.IsPlace src.toList 4 i (lead.length + 1) := by
  intro src e divided report
  have hReport : e.report? src = some report := by
    decide +kernel
  rcases (report_places_any_region src e).1 with
    ⟨front, line, rest, hLine, -, hLines⟩
  rcases hLines report hReport with
    ⟨i, lead, marked, after, -, -, hStart, -, hPlace, -⟩
  exact ⟨hReport, by decide, by decide +kernel, front, line,
    rest, hLine, i, lead, hStart, hPlace⟩

end WordLang
