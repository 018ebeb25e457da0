import Mathlib.Data.Finset.Card
import Mathlib.Data.List.Nodup
import WordLang.Proofs.MovedNodes

/-
  This file proves that programs can be written one after
  another.

  The first program does not look at what follows it, and
  its variables keep their offsets. The second one finds a
  table with the names of the first. Names that are not in
  the table are added behind them, and apart from the new
  offsets the second program is read as before.

  Key definitions include:
    * `WordLang.Token.names`

  Key theorems include:
    * `WordLang.Locals.names_ofNames`
    * `WordLang.Locals.names_after`
    * `WordLang.Program.parse_concatenates`
-/

namespace WordLang

------------------------------------------------------------
-- Names
------------------------------------------------------------

/- The names in a list of tokens. -/
def Token.names
    (ts : List Token) : List String :=
  (ts.filter (·.kind = .identifier)).map Token.lexeme

namespace Locals

/- A name is added unless the table has it. -/
theorem names_resolve
    (t : Locals)
    (name : String) :
    (t.resolve name).2.names =
      if name ∈ t.names then
        t.names
      else
        t.names ++ [name] := by
  have hAbsent : t.offset? name = none ↔ name ∉ t.names := by
    rw [offset?, Option.map_eq_none_iff,
      List.idxOf?_eq_none_iff]
  unfold resolve
  cases hOffset : t.offset? name with
  | none =>
      rw [if_neg (hAbsent.mp hOffset)]
  | some o =>
      have hMem : name ∈ t.names := by
        by_contra hNot
        rw [hAbsent.mpr hNot] at hOffset
        cases hOffset
      rw [if_pos hMem]

/- The last name is resolved in the table of the others. -/
theorem ofNames_concat
    (names : List String)
    (name : String) :
    ofNames (names ++ [name]) =
      ((ofNames names).resolve name).2 := by
  rw [ofNames, List.foldl_append]
  rfl

/- A table has each name once, in the order of first use. -/
theorem names_ofNames
    (names : List String) :
    (ofNames names).names = names.eraseDups := by
  induction names using List.reverseRecOn with
  | nil =>
      rfl
  | append_singleton names name ih =>
      rw [ofNames_concat, names_resolve, ih,
        List.eraseDups_append]
      by_cases hMem : name ∈ names
      · simp [hMem, List.removeAll]
      · simp [hMem, List.removeAll, List.eraseDups_cons]

theorem nodup_names_ofNames
    (names : List String) :
    (ofNames names).names.Nodup := by
  induction names using List.reverseRecOn with
  | nil =>
      exact List.nodup_nil
  | append_singleton names name ih =>
      rw [ofNames_concat, names_resolve]
      split
      · exact ih
      · rename_i hNew
        rw [← List.concat_eq_append]
        exact ih.concat hNew

/- A token adds its name, if it is one. -/
theorem names_after_concat
    (t : Locals)
    (ts : List Token)
    (token : Token) :
    (t.after (ts ++ [token])).names =
      if token.kind = .identifier ∧
          token.lexeme ∉ (t.after ts).names then
        (t.after ts).names ++ [token.lexeme]
      else
        (t.after ts).names := by
  rw [after_append, after, List.foldl_cons, List.foldl_nil]
  by_cases hName : token.kind = .identifier
  · rw [if_pos hName, names_resolve]
    by_cases hMem : token.lexeme ∈ (t.after ts).names
    · simp [hMem]
    · simp [hName, hMem]
  · simp [hName]

/-
  Some tokens add the names that they write on their own, as
  far as the table does not have them.
-/
theorem names_after
    (t : Locals)
    (ts : List Token) :
    (t.after ts).names =
      t.names ++
        (empty.after ts).names.filter (· ∉ t.names) := by
  -- The last token is the one that adds its name last.
  induction ts using List.reverseRecOn with
  | nil =>
      simp [after, empty]
  | append_singleton ts token ih =>
      rw [names_after_concat, names_after_concat]
      by_cases hName : token.kind = .identifier
      · by_cases hOld : token.lexeme ∈ t.names
        · by_cases hNew :
              token.lexeme ∈ (empty.after ts).names
          · simp [ih, hOld, hNew]
          · simp [ih, hName, hOld, hNew]
        · by_cases hNew :
              token.lexeme ∈ (empty.after ts).names
          · simp [ih, hOld, hNew]
          · simp [ih, hName, hOld, hNew]
      · simp [ih, hName]

/- The table of some tokens is that of their names. -/
theorem after_eq_ofNames
    (ts : List Token) :
    empty.after ts = ofNames (Token.names ts) := by
  rw [ofNames, Token.names, List.foldl_map,
    List.foldl_filter, after]
  simp only [decide_eq_true_eq]

/- The table of some tokens has each of their names once. -/
theorem nodup_after
    (ts : List Token) :
    (empty.after ts).names.Nodup := by
  rw [after_eq_ofNames]
  exact nodup_names_ofNames _

/- The table of some tokens has no other names. -/
theorem names_after_subset
    (ts : List Token) :
    (empty.after ts).names ⊆ Token.names ts := by
  rw [after_eq_ofNames, names_ofNames]
  intro name hMem
  exact List.mem_eraseDups.mp hMem

/- A table has at most as many names as there are. -/
theorem size_after_le_card
    {ts us : List Token}
    (hTokens : ts ⊆ us) :
    (empty.after ts).size ≤
      (Token.names us).toFinset.card := by
  have hNames : (empty.after ts).names ⊆ Token.names us := by
    intro name hMem
    rcases List.mem_map.mp (names_after_subset ts hMem) with
      ⟨token, hToken, rfl⟩
    rcases List.mem_filter.mp hToken with ⟨hMem, hKind⟩
    exact List.mem_map_of_mem
      (List.mem_filter.mpr ⟨hTokens hMem, hKind⟩)
  calc
    (empty.after ts).size
        = (empty.after ts).names.toFinset.card :=
          (List.toFinset_card_of_nodup (nodup_after ts)).symm
    _ ≤ (Token.names us).toFinset.card := by
          apply Finset.card_le_card
          intro name hMem
          rw [List.mem_toFinset] at hMem ⊢
          exact hNames hMem

end Locals

------------------------------------------------------------
-- Phrases One After Another
------------------------------------------------------------

namespace StmtPhrase

theorem tokensAll_append
    (σs τs : List StmtPhrase) :
    tokensAll (σs ++ τs) = tokensAll σs ++ tokensAll τs := by
  induction σs with
  | nil => rfl
  | cons σ σs ih => simp [tokensAll, ih]

theorem stmtAll_append
    (t : Locals)
    (σs τs : List StmtPhrase) :
    stmtAll t (σs ++ τs) = stmtAll t σs ++ stmtAll t τs := by
  induction σs with
  | nil => rfl
  | cons σ σs ih => simp [stmtAll, ih]

theorem soundAll_append
    {σs τs : List StmtPhrase}
    (hFirst : StmtTree.SoundAll (treeAll σs))
    (hSecond : StmtTree.SoundAll (treeAll τs)) :
    StmtTree.SoundAll (treeAll (σs ++ τs)) := by
  rw [StmtTree.soundAll_iff, treeAll_eq_map] at *
  rw [List.map_append, List.forall_mem_append]
  exact ⟨hFirst, hSecond⟩

/- Phrases that are moved by nothing have the same tokens. -/
theorem tokensAll_unmoved
    (σs : List StmtPhrase) :
    tokensAll (relocateAll (Span.shift 0) σs) =
      tokensAll σs := by
  have hPlace :
      Token.relocate (Span.shift 0) = id := by
    funext t
    simp [Token.relocate, Span.shift]
  rw [tokensAll_relocate, hPlace, List.map_id]

end StmtPhrase

------------------------------------------------------------
-- Programs One After Another
------------------------------------------------------------

namespace Program

/- A list that ends the input is a stream. -/
theorem ofTokens?_concat
    {ts : List Token}
    {stop : Token}
    (hStop : stop.isEof = true) :
    ofTokens? (ts ++ [stop]) =
      some (parse ⟨ts, stop, hStop⟩) := by
  have hList :=
    TokenStream.ofList?_toList ⟨ts, stop, hStop⟩
  rw [TokenStream.toList] at hList
  rw [ofTokens?, hList, Option.map_some]

/- The stream of a list that is read. -/
theorem exists_parse
    {ts : List Token}
    {stop : Token}
    {p : Program}
    (hRead : ofTokens? (ts ++ [stop]) = some (.ok p)) :
    ∃ hStop, parse ⟨ts, stop, hStop⟩ = .ok p := by
  rcases Option.map_eq_some_iff.mp hRead with
    ⟨s, hList, hParse⟩
  have hTokens := TokenStream.toList_of_ofList? hList
  rcases s with ⟨us, end_, hEnd⟩
  rcases List.append_inj' hTokens rfl with ⟨rfl, hLast⟩
  cases hLast
  exact ⟨hEnd, hParse⟩

/-
  Two programs one after another are read as one. Its table
  has the names of the first program, then those that only
  the second one has. Its statements are those of the first
  program, unchanged, then those of the second one at the
  same places, with their variables in the new table.
-/
theorem parse_concatenates
    {xs ys : List Token}
    {stop stop' last : Token}
    {p q : Program}
    (hXs : ∀ t ∈ xs, t.isEof = false)
    (hYs : ∀ t ∈ ys, t.isEof = false)
    (hLast : last.isEof = true)
    (hNames :
      (Token.names (xs ++ ys)).toFinset.card < 2 ^ 29 - 1)
    (hFirst : ofTokens? (xs ++ [stop]) = some (.ok p))
    (hSecond : ofTokens? (ys ++ [stop']) = some (.ok q)) :
    ∃ r body,
      ofTokens? (xs ++ ys ++ [last]) = some (.ok r) ∧
      r.locals.names =
        p.locals.names ++
          q.locals.names.filter (· ∉ p.locals.names) ∧
      r.body = p.body ++ body ∧
      Stmt.movedAll? 0 q.locals r.locals q.body =
        some body := by
  rcases exists_parse hFirst with ⟨hStop, hParse⟩
  rcases exists_parse hSecond with ⟨hStop', hParse'⟩
  rcases exists_phrases hXs hParse with
    ⟨σs, hTokens, hSound, hLocals, hBody⟩
  rcases exists_phrases hYs hParse' with
    ⟨τs, hTokens', hSound', hLocals', hBody'⟩
  dsimp only at hTokens hTokens' hLocals hLocals'
  let τs₀ := StmtPhrase.relocateAll (Span.shift 0) τs
  let t := Locals.empty.after (xs ++ ys)
  have hTable : t = p.locals.after ys := by
    rw [hLocals, ← Locals.after_append]
  have hExtends : p.locals.Extends t := by
    rw [hTable]
    exact Locals.extends_after _ _
  -- The phrases of both programs are those of the whole.
  have hWhole :
      parse ⟨xs ++ ys, last, hLast⟩ =
        .ok ⟨mainName, StmtPhrase.stmtAll t (σs ++ τs₀),
          t⟩ := by
    apply parse_phrases
    · apply StmtPhrase.soundAll_append hSound
      rw [StmtPhrase.treeAll_relocate]
      exact hSound'
    · rw [StmtPhrase.tokensAll_append,
        StmtPhrase.tokensAll_unmoved, hTokens, hTokens']
  have hKept : p.body = StmtPhrase.stmtAll t σs := by
    rw [hLocals] at hExtends
    have hAgain :=
      parse_phrases_of_extends (s := ⟨xs, stop, hStop⟩)
        hSound hTokens.symm hExtends
    rw [hParse] at hAgain
    cases hAgain
    rfl
  have hSize : q.locals.size < 2 ^ 29 := by
    have hLe :=
      Locals.size_after_le_card
        (List.subset_append_right xs ys)
    rw [← hLocals'] at hLe
    omega
  have hTranslates :
      q.locals.Translates t (StmtPhrase.tokensAll τs) := by
    rw [hTokens']
    apply Locals.Has.translates _ _ hSize
    · rw [hLocals']
      exact Locals.has_after _ _
    · rw [hTable]
      exact Locals.has_after _ _
  refine ⟨_, StmtPhrase.stmtAll t τs₀,
    (ofTokens?_concat hLast).trans (congrArg some hWhole),
    ?_, ?_, ?_⟩
  · rw [hTable, Locals.names_after, ← hLocals']
  · rw [hKept]
    exact StmtPhrase.stmtAll_append t σs τs₀
  · rw [hBody']
    exact StmtPhrase.movedAll?_stmtAll 0 τs hTranslates

/-
  The first program ends in an `if` without `else`, and the
  programs share a variable.
-/
theorem branch_and_copy_concatenate :
    let xs : List Token :=
      [⟨.kwIf, "if", ⟨0, 2⟩⟩, ⟨.lparen, "(", ⟨3, 1⟩⟩,
        ⟨.identifier, "a", ⟨4, 1⟩⟩, ⟨.rparen, ")", ⟨5, 1⟩⟩,
        ⟨.identifier, "b", ⟨7, 1⟩⟩,
        ⟨.semicolon, ";", ⟨8, 1⟩⟩]
    let ys : List Token :=
      [⟨.identifier, "c", ⟨10, 1⟩⟩, ⟨.assign, "=", ⟨12, 1⟩⟩,
        ⟨.identifier, "b", ⟨14, 1⟩⟩,
        ⟨.semicolon, ";", ⟨15, 1⟩⟩]
    let p : Program :=
      ⟨mainName,
        [.ifThen (.var ⟨8⟩ ⟨4, 1⟩)
          (.expr (.var ⟨16⟩ ⟨7, 1⟩) ⟨7, 2⟩) ⟨0, 9⟩],
        ⟨["a", "b"]⟩⟩
    let q : Program :=
      ⟨mainName,
        [.expr
          (.assign (.var ⟨8⟩ ⟨10, 1⟩) (.var ⟨16⟩ ⟨14, 1⟩)
            ⟨10, 5⟩) ⟨10, 6⟩],
        ⟨["c", "b"]⟩⟩
    ofTokens? (xs ++ [.eofAt 9]) = some (.ok p) ∧
    ofTokens? (ys ++ [.eofAt 16]) = some (.ok q) ∧
    ∃ r body,
      ofTokens? (xs ++ ys ++ [.eofAt 16]) = some (.ok r) ∧
      r.locals.names = ["a", "b", "c"] ∧
      r.body = p.body ++ body ∧
      Stmt.movedAll? 0 q.locals r.locals q.body =
        some body := by
  intro xs ys p q
  have hFirst :
      ofTokens? (xs ++ [.eofAt 9]) = some (.ok p) := by
    decide +kernel
  have hSecond :
      ofTokens? (ys ++ [.eofAt 16]) = some (.ok q) := by
    decide +kernel
  have hNames :
      (Token.names (xs ++ ys)).toFinset.card <
        2 ^ 29 - 1 := by
    have hThree :
        (Token.names (xs ++ ys)).toFinset.card = 3 := by
      decide +kernel
    omega
  exact ⟨hFirst, hSecond,
    parse_concatenates (by decide) (by decide) rfl hNames
      hFirst hSecond⟩

end Program

end WordLang
