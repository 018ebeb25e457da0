import WordLang.Program.Outline
import WordLang.Proofs.PhraseParsing
import WordLang.Proofs.Spelling

/-
  This file finds the programs whose outlines are too deep.

  Blocks that are nested in each other have one line each in
  an outline, and every line is one level deeper than the
  last. There is room for the spaces before a line up to a
  certain level, so some programs have no outline although
  they are programs.

  Key definitions include:
    * `WordLang.StmtTree.nested`
    * `WordLang.nestedSource`

  Key theorems include:
    * `WordLang.StmtPhrase.levels_outline_of_nested`
    * `WordLang.exists_parse_nestedSource`
-/

namespace WordLang

------------------------------------------------------------
-- Nested Blocks
------------------------------------------------------------

namespace StmtTree

/- Blocks inside each other, the last of them empty. -/
def nested : Nat → List StmtTree
| 0 => []
| n + 1 => [block (nested n)]

/- There is nothing in the blocks that could be wrong. -/
theorem soundAll_nested
    (n : Nat) :
    SoundAll (nested n) := by
  induction n with
  | zero =>
      exact ⟨trivial, trivial⟩
  | succ n ih =>
      exact soundAll_cons.mpr ⟨ih, trivial, trivial⟩

/- Nested blocks are some braces, then as many others. -/
theorem terminalsAll_nested
    (n : Nat) :
    terminalsAll (nested n) =
      List.replicate n (.symbol .lbrace) ++
        List.replicate n (.symbol .rbrace) := by
  induction n with
  | zero =>
      rfl
  | succ n ih =>
      rw [nested, terminalsAll, terminalsAll, terminals, ih,
        List.replicate_succ, List.replicate_succ']
      simp

end StmtTree

/-
  The lines of nested blocks are at levels that follow each
  other.
-/
theorem StmtPhrase.levels_outline_of_nested
    {n : Nat}
    {σs : List StmtPhrase}
    (hTree : treeAll σs = StmtTree.nested n)
    (t : Locals)
    (level : Nat)
    (rest : List Outline.Line) :
    (Stmt.outlineAllOnto t level (stmtAll t σs) rest).map
        Outline.Line.level =
      List.range' level n ++ rest.map Outline.Line.level := by
  induction n generalizing σs level with
  | zero =>
      cases σs with
      | nil =>
          rfl
      | cons σ σs =>
          cases hTree
  | succ n ih =>
      cases σs with
      | nil =>
          cases hTree
      | cons σ σs =>
          rw [treeAll, StmtTree.nested,
            List.cons.injEq] at hTree
          rcases hTree with ⟨hFirst, hNone⟩
          cases σs with
          | cons σ' σs =>
              cases hNone
          | nil =>
              cases σ with
              | block l inner r =>
                  have hInner :
                      treeAll inner = StmtTree.nested n :=
                    StmtTree.block.inj hFirst
                  have hLevels := ih hInner (level + 1)
                  simp only [stmtAll, stmt,
                    Stmt.outlineAllOnto, Stmt.outlineOnto,
                    List.map_cons, hLevels,
                    List.range'_succ, List.cons_append]
                  rfl
              | _ =>
                  cases hFirst

------------------------------------------------------------
-- Sources
------------------------------------------------------------

/- The source of nested blocks, with blanks in between. -/
def nestedSource
    (n : Nat) : String :=
  String.ofList
    (Terminal.spell
      (List.replicate n (.symbol .lbrace) ++
        List.replicate n (.symbol .rbrace)))

/- A brace and a blank for both ends of each block. -/
theorem utf8ByteSize_nestedSource
    (n : Nat) :
    (nestedSource n).utf8ByteSize = 4 * n := by
  have hBraces :
      ∀ x : Terminal,
        Text.byteLength (x.spelling.toList ++ [' ']) = 2 →
        Text.byteLength
            (Terminal.spell (List.replicate n x)) =
          2 * n := by
    intro x hOne
    induction n with
    | zero =>
        rfl
    | succ n ih =>
        rw [List.replicate_succ, Terminal.spell,
          List.flatMap_cons, Text.byteLength_append, hOne,
          ← Terminal.spell, ih]
        omega
  rw [Text.utf8ByteSize_eq_byteLength, nestedSource,
    String.toList_ofList, Terminal.spell,
    List.flatMap_append, Text.byteLength_append,
    ← Terminal.spell, ← Terminal.spell, hBraces _ (by decide),
    hBraces _ (by decide)]
  omega

/- A program has no outline if one of its lines is deep. -/
theorem Program.outlineText?_eq_none_iff
    (p : Program) :
    p.outlineText? = none ↔
      ∃ line ∈ p.outline,
        Outline.maxIndent < line.indent := by
  simp [outlineText?, Outline.text?, Outline.Line.fits]

/- The lines of a table are not deep. -/
theorem Program.exists_deep_line_iff
    (p : Program) :
    (∃ line ∈ p.outline, Outline.maxIndent < line.indent) ↔
      ∃ line ∈ Stmt.outlineAllOnto p.locals 0 p.body [],
        Outline.maxIndent < line.indent := by
  constructor
  · rintro ⟨line, hMem, hDeep⟩
    rcases List.mem_append.mp hMem with hTable | hBody
    · rcases List.mem_map.mp hTable with ⟨entry, -, rfl⟩
      exact absurd hDeep (Nat.not_lt_zero _)
    · exact ⟨line, hBody, hDeep⟩
  · rintro ⟨line, hBody, hDeep⟩
    exact ⟨line, List.mem_append_right _ hBody, hDeep⟩

/-
  Nested blocks are a program, which has no outline if and
  only if the last block is too deep.
-/
theorem exists_parse_nestedSource
    {n : Nat}
    (hSize : 4 * n ≤ Span.maxLen) :
    ∃ s p,
      lex (nestedSource n) = .ok s ∧
      Program.parse s = .ok p ∧
      (p.outlineText? = none ↔
        Outline.maxIndent < 2 * (n - 1)) := by
  have hSpellable :
      ∀ x ∈
          List.replicate n (Terminal.symbol .lbrace) ++
            List.replicate n (Terminal.symbol .rbrace),
        x.Spellable := by
    intro x hMem
    rcases List.mem_append.mp hMem with hLeft | hRight
    · rw [List.eq_of_mem_replicate hLeft]
      rfl
    · rw [List.eq_of_mem_replicate hRight]
      rfl
  have hBytes := utf8ByteSize_nestedSource n
  rw [Text.utf8ByteSize_eq_byteLength, nestedSource,
    String.toList_ofList] at hBytes
  rcases Terminal.lex_spell hSpellable (by omega) with
    ⟨s, hLex, hTerminals⟩
  rw [TokenStream.terminals_eq_map
    (isEof_eq_false_of_lex hLex),
    ← StmtTree.terminalsAll_nested] at hTerminals
  rcases StmtPhrase.existsAll_of_terminals
      (StmtTree.nested n) hTerminals with
    ⟨σs, hTokens, hTree⟩
  have hSound :
      StmtTree.SoundAll (StmtPhrase.treeAll σs) := by
    rw [hTree]
    exact StmtTree.soundAll_nested n
  have hParse := Program.parse_phrases hSound hTokens.symm
  refine ⟨s, _, hLex, hParse, ?_⟩
  rw [Program.outlineText?_eq_none_iff,
    Program.exists_deep_line_iff]
  have hLevels :=
    StmtPhrase.levels_outline_of_nested hTree
      (Locals.empty.after s.tokens) 0 []
  generalize Stmt.outlineAllOnto _ 0 _ [] = lines at *
  have hIndents :
      (∃ line ∈ lines, Outline.maxIndent < line.indent) ↔
        ∃ level ∈ lines.map Outline.Line.level,
          Outline.maxIndent < 2 * level := by
    simp only [List.mem_map, exists_exists_and_eq_and,
      Outline.Line.indent]
  rw [hIndents, hLevels]
  simp only [List.map_nil, List.append_nil,
    List.mem_range'_1, Nat.zero_le, true_and, Nat.zero_add]
  constructor
  · rintro ⟨level, hLevel, hDeep⟩
    omega
  · intro hDeep
    exact ⟨n - 1, by omega, hDeep⟩

end WordLang
