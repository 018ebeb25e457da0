import Mathlib.Data.List.Basic
import WordLang.Program.Outline
import WordLang.Proofs.Numeral

/-
  This file proves that an outline can be taken apart again,
  first its text into lines and then its lines into their
  levels, labels and regions.

  Nothing in a text says where a level or a label ends. What
  does is that labels hold no line end and do not start with
  a space, that a region holds no bracket, and that offsets
  hold no `@`.

  Key definitions include:
    * `WordLang.Outline.IsLabel`

  Key theorems include:
    * `WordLang.Outline.lines_injective`
    * `WordLang.Outline.Line.ofNode_injective`
    * `WordLang.Outline.varLabel_injective`
-/

namespace WordLang

------------------------------------------------------------
-- Cutting a Text at a Character
------------------------------------------------------------

namespace Text

variable {c : Char} {xs xs' ys ys' : List Char}

/- A text is cut at the first of some characters. -/
theorem cut_first_unique
    (hFirst : c ∉ xs)
    (hSecond : c ∉ xs')
    (hSame : xs ++ c :: ys = xs' ++ c :: ys') :
    xs = xs' ∧ ys = ys' := by
  induction xs generalizing xs' with
  | nil =>
      cases xs' with
      | nil =>
          exact ⟨rfl, (List.cons.inj hSame).2⟩
      | cons d xs' =>
          rcases List.cons.inj hSame with ⟨rfl, -⟩
          exact absurd List.mem_cons_self hSecond
  | cons d xs ih =>
      cases xs' with
      | nil =>
          rcases List.cons.inj hSame with ⟨rfl, -⟩
          exact absurd List.mem_cons_self hFirst
      | cons d' xs' =>
          rcases List.cons.inj hSame with ⟨rfl, hTail⟩
          rcases ih (List.not_mem_of_not_mem_cons hFirst)
              (List.not_mem_of_not_mem_cons hSecond)
              hTail with
            ⟨rfl, hRest⟩
          exact ⟨rfl, hRest⟩

/- A text is cut at the last of some characters. -/
theorem cut_last_unique
    (hFirst : c ∉ ys)
    (hSecond : c ∉ ys')
    (hSame : xs ++ c :: ys = xs' ++ c :: ys') :
    xs = xs' ∧ ys = ys' := by
  have hReverse := congrArg List.reverse hSame
  simp only [List.reverse_append, List.reverse_cons,
    List.append_assoc, List.singleton_append] at hReverse
  rcases cut_first_unique (by simpa using hFirst)
      (by simpa using hSecond) hReverse with
    ⟨hRight, hLeft⟩
  exact ⟨List.reverse_injective hLeft,
    List.reverse_injective hRight⟩

/- A text has one number of spaces at its start. -/
theorem indentation_unique
    {n n' : Nat}
    (hFirst : xs.head? ≠ some ' ')
    (hSecond : xs'.head? ≠ some ' ')
    (hSame :
      List.replicate n ' ' ++ xs =
        List.replicate n' ' ' ++ xs') :
    n = n' ∧ xs = xs' := by
  induction n generalizing n' with
  | zero =>
      cases n' with
      | zero =>
          exact ⟨rfl, hSame⟩
      | succ n' =>
          rw [List.replicate_zero, List.nil_append] at hSame
          rw [hSame] at hFirst
          exact absurd rfl hFirst
  | succ n ih =>
      cases n' with
      | zero =>
          rw [List.replicate_zero, List.nil_append] at hSame
          rw [← hSame] at hSecond
          exact absurd rfl hSecond
      | succ n' =>
          rcases ih (List.cons.inj hSame).2 with
            ⟨rfl, hRest⟩
          exact ⟨rfl, hRest⟩

end Text

------------------------------------------------------------
-- Texts and Lines
------------------------------------------------------------

namespace Outline

/-
  The labels that can be told from the spaces before them
  and the line end after them.
-/
structure IsLabel
    (label : String) : Prop where
  nonempty : label.toList ≠ []
  starts : label.toList.head? ≠ some ' '
  inLine : '\n' ∉ label.toList

instance
    (label : String) :
    Decidable (IsLabel label) :=
  decidable_of_iff
    (label.toList ≠ [] ∧
      label.toList.head? ≠ some ' ' ∧
      '\n' ∉ label.toList)
    ⟨fun h => ⟨h.1, h.2.1, h.2.2⟩,
      fun h => ⟨h.nonempty, h.starts, h.inLine⟩⟩

/- A label stays one when it is continued in its line. -/
theorem IsLabel.append
    {label text : String}
    (hLabel : IsLabel label)
    (hText : '\n' ∉ text.toList) :
    IsLabel (label ++ text) := by
  rcases hLabel with ⟨hNonempty, hStart, hInLine⟩
  constructor
  · rw [String.toList_append]
    exact List.append_ne_nil_of_left_ne_nil hNonempty _
  · rw [String.toList_append,
      List.head?_append_of_ne_nil _ hNonempty]
    exact hStart
  · rw [String.toList_append, List.mem_append]
    exact not_or.mpr ⟨hInLine, hText⟩

/- Whatever follows a line, the line ends where it does. -/
theorem Line.text_append_injective
    {line line' : Line}
    {rest rest' : List Char}
    (hLabel : IsLabel line.label)
    (hLabel' : IsLabel line'.label)
    (hSame :
      line.text.toList ++ rest =
        line'.text.toList ++ rest') :
    line = line' ∧ rest = rest' := by
  have hSplit :
      ∀ (l : Line) (cs : List Char),
        l.text.toList ++ cs =
          (List.replicate l.indent ' ' ++ l.label.toList) ++
            '\n' :: cs := by
    intro l cs
    simp [text]
  have hInLine :
      ∀ l : Line,
        IsLabel l.label →
        '\n' ∉
          List.replicate l.indent ' ' ++
            l.label.toList := by
    intro l hLabel
    simp [hLabel.inLine]
  rw [hSplit, hSplit] at hSame
  rcases Text.cut_first_unique (hInLine line hLabel)
      (hInLine line' hLabel') hSame with
    ⟨hLine, hRest⟩
  rcases Text.indentation_unique hLabel.starts
      hLabel'.starts hLine with
    ⟨hIndent, hChars⟩
  have hLevel : line.level = line'.level := by
    unfold indent at hIndent
    omega
  rcases line with ⟨level, label⟩
  rcases line' with ⟨level', label'⟩
  cases hLevel
  cases String.toList_injective hChars
  exact ⟨rfl, hRest⟩

/- A text is made of lines in one way. -/
theorem lines_injective
    {lines lines' : List Line}
    (hLabels : ∀ line ∈ lines, IsLabel line.label)
    (hLabels' : ∀ line ∈ lines', IsLabel line.label)
    (hSame :
      String.join (lines.map Line.text) =
        String.join (lines'.map Line.text)) :
    lines = lines' := by
  have hNonempty :
      ∀ (line : Line) (s : String),
        "" ≠ line.text ++ s := by
    intro line s hEmpty
    simpa [Line.text] using congrArg String.toList hEmpty
  induction lines generalizing lines' with
  | nil =>
      cases lines' with
      | nil =>
          rfl
      | cons line' lines' =>
          rw [List.map_cons, String.join_cons] at hSame
          exact absurd hSame (hNonempty _ _)
  | cons line lines ih =>
      cases lines' with
      | nil =>
          rw [List.map_cons, String.join_cons] at hSame
          exact absurd hSame.symm (hNonempty _ _)
      | cons line' lines' =>
          rcases List.forall_mem_cons.mp hLabels with
            ⟨hLabel, hRestLabels⟩
          rcases List.forall_mem_cons.mp hLabels' with
            ⟨hLabel', hRestLabels'⟩
          have hChars := congrArg String.toList hSame
          simp only [List.map_cons, String.join_cons,
            String.toList_append] at hChars
          rcases Line.text_append_injective hLabel hLabel'
              hChars with
            ⟨rfl, hRest⟩
          rw [ih hRestLabels hRestLabels'
            (String.toList_injective hRest)]

end Outline

------------------------------------------------------------
-- Offsets and Regions
------------------------------------------------------------

/- An offset is told by its digits. -/
theorem Offset.text_injective
    {o o' : Offset}
    (hSame : o.text = o'.text) :
    o = o' := by
  have hBytes := Literal.toString_injective hSame
  rcases o with ⟨bytes⟩
  rcases o' with ⟨bytes'⟩
  cases UInt32.toNat_inj.mp hBytes
  rfl

namespace Span

/- A region is written with digits and dots. -/
theorem isDigit_or_eq_of_mem_text
    {s : Span}
    {c : Char}
    (hChar : c ∈ s.text.toList) :
    c.isDigit = true ∨ c = '.' := by
  simp only [text, String.toList_append,
    List.mem_append] at hChar
  rcases hChar with (hLo | hDots) | hHi
  · exact .inl (Literal.isDigit_of_mem_toString hLo)
  · exact .inr (by simpa using hDots)
  · exact .inl (Literal.isDigit_of_mem_toString hHi)

/- A region is told by its text. -/
theorem text_injective
    {s s' : Span}
    (hSame : s.text = s'.text) :
    s = s' := by
  have hNoDot :
      ∀ n : Nat, '.' ∉ (toString n).toList := by
    intro n hMem
    exact absurd (Literal.isDigit_of_mem_toString hMem)
      (by decide)
  have hChars := congrArg String.toList hSame
  have hDots : "..".toList = ['.', '.'] := rfl
  simp only [text, String.toList_append, hDots,
    List.append_assoc, List.cons_append,
    List.nil_append] at hChars
  rcases Text.cut_first_unique (hNoDot s.lo) (hNoDot s'.lo)
      hChars with
    ⟨hLoChars, hRest⟩
  have hLo := Literal.toString_injective
    (String.toList_injective hLoChars)
  have hHi := Literal.toString_injective
    (String.toList_injective (List.cons.inj hRest).2)
  rcases s with ⟨lo, len⟩
  rcases s' with ⟨lo', len'⟩
  cases hLo
  have hLen : len = len' := by
    simp only [hi] at hHi
    omega
  rw [hLen]

end Span

------------------------------------------------------------
-- Labels
------------------------------------------------------------

namespace Outline

/- The line of a node is a label if its own label is one. -/
theorem IsLabel.ofNode
    {level : Nat}
    {label : String}
    {span : Span}
    (hLabel : IsLabel label) :
    IsLabel (Line.ofNode level label span).label := by
  have hSpan : '\n' ∉ span.text.toList := by
    intro hMem
    exact absurd (Span.isDigit_or_eq_of_mem_text hMem)
      (by decide)
  exact ((hLabel.append (by decide)).append hSpan).append
    (by decide)

/- The line of a node tells the level, label and region. -/
theorem Line.ofNode_injective
    {level level' : Nat}
    {label label' : String}
    {span span' : Span}
    (hSame :
      ofNode level label span =
        ofNode level' label' span') :
    level = level' ∧ label = label' ∧ span = span' := by
  -- The last bracket opens the region.
  have hSplit :
      ∀ (s : String) (r : Span),
        (s ++ " (" ++ r.text ++ ")").toList =
          (s.toList ++ [' ']) ++
            '(' :: (r.text.toList ++ [')']) := by
    intro s r
    simp
  have hNoBracket :
      ∀ r : Span, '(' ∉ r.text.toList ++ [')'] := by
    intro r hMem
    rcases List.mem_append.mp hMem with hText | hEnd
    · exact absurd (Span.isDigit_or_eq_of_mem_text hText)
        (by decide)
    · exact absurd hEnd (by decide)
  have hChars := congrArg (·.label.toList) hSame
  simp only [ofNode, hSplit] at hChars
  rcases Text.cut_last_unique (hNoBracket span)
      (hNoBracket span') hChars with
    ⟨hLeft, hRight⟩
  refine ⟨congrArg Line.level hSame, ?_, ?_⟩
  · exact String.toList_injective
      (List.append_cancel_right hLeft)
  · exact Span.text_injective
      (String.toList_injective
        (List.append_cancel_right hRight))

/- A name and an offset are told by the label of both. -/
theorem varLabel_injective
    {name name' : String}
    {o o' : Offset}
    (hSame :
      "local " ++ name ++ " @" ++ o.text =
        "local " ++ name' ++ " @" ++ o'.text) :
    name = name' ∧ o = o' := by
  -- The last `@` stands before the offset.
  have hSplit :
      ∀ (s : String) (o : Offset),
        ("local " ++ s ++ " @" ++ o.text).toList =
          ("local ".toList ++ s.toList ++ [' ']) ++
            '@' :: o.text.toList := by
    intro s o
    simp
  have hNoAt : ∀ o : Offset, '@' ∉ o.text.toList := by
    intro o hMem
    exact absurd (Literal.isDigit_of_mem_toString hMem)
      (by decide)
  have hChars := congrArg String.toList hSame
  rw [hSplit, hSplit] at hChars
  rcases Text.cut_last_unique (hNoAt o) (hNoAt o')
      hChars with
    ⟨hLeft, hRight⟩
  refine ⟨?_,
    Offset.text_injective (String.toList_injective hRight)⟩
  exact String.toList_injective
    (List.append_cancel_left
      (List.append_cancel_right hLeft))

/- A name in one line makes a label with its offset. -/
theorem isLabel_var
    {name : String}
    (hName : '\n' ∉ name.toList)
    (o : Offset) :
    IsLabel ("local " ++ name ++ " @" ++ o.text) := by
  have hWord : IsLabel "local " := by decide
  have hOffset : '\n' ∉ o.text.toList := by
    intro hMem
    exact absurd (Literal.isDigit_of_mem_toString hMem)
      (by decide)
  exact ((hWord.append hName).append (by decide)).append
    hOffset

end Outline

end WordLang
