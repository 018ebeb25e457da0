import WordLang.Proofs.LeafTokens
import WordLang.Proofs.NameTables

/-
  This file says which variables are in a tree that was read
  from tokens.

  Every name becomes one node, which carries the offset of
  the name, so nodes and names agree up to their order. The
  table lists the names in the order of first use, also if
  the tokens go on behind the end of input.

  Key definitions include:
    * `WordLang.Locals.Lists`

  Key theorems include:
    * `WordLang.TokenStream.exists_ended`
    * `WordLang.Expr.exists_phrase`
    * `WordLang.Locals.lists_ofNames`
    * `WordLang.Locals.table_lists_names_read`
-/

namespace WordLang

------------------------------------------------------------
-- The First End of Input
------------------------------------------------------------

section Ended

variable {e : Token}

/- A parser does not look behind the end of input. -/
theorem Parser.run_ended
    (hEnd : e.isEof = true)
    (stop : Token)
    (p : Parser)
    (ts us : List Token) :
    run stop p (ts ++ e :: us) = run e p ts := by
  induction ts generalizing p with
  | nil =>
      simp only [List.nil_append, run, hEnd, if_true]
      cases p.step e <;> rfl
  | cons t ts ih =>
      simp only [List.cons_append, run]
      cases p.step t with
      | error => rfl
      | ok p => simp only [ih]

theorem Reading.run_ended
    (hEnd : e.isEof = true)
    (stop : Token)
    (r : Reading)
    (locals : Locals)
    (ts us : List Token) :
    run stop r locals (ts ++ e :: us) =
      run e r locals ts := by
  induction ts generalizing r locals with
  | nil =>
      simp only [List.nil_append, run, hEnd, if_true]
  | cons t ts ih =>
      simp only [List.cons_append, run]
      split
      · rfl
      · cases r.step locals t with
        | error => rfl
        | ok step =>
            cases step with
            | more r locals => exact ih r locals
            | done => rfl

end Ended

/- Only what stands before the end of input is read. -/
theorem TokenStream.exists_ended
    (s : TokenStream) :
    ∃ s' : TokenStream,
      s'.tokens = s.toList.takeWhile (!·.isEof) ∧
      Program.parse s' = Program.parse s ∧
      Expr.parse s' = Expr.parse s := by
  by_cases hInside : ∃ a ∈ s.tokens, a.isEof = true
  · rcases hInside with ⟨a, hMem, hEof⟩
    rcases List.exists_of_eraseP hMem hEof with
      ⟨e, ts, us, hBefore, hEnd, hTokens, -⟩
    refine ⟨⟨ts, e, hEnd⟩, ?_, ?_, ?_⟩
    · rw [toList, hTokens, List.append_assoc,
        List.takeWhile_append_of_pos
          (by simpa using hBefore)]
      simp [hEnd]
    · rw [Program.parse, Program.parse, hTokens,
        Parser.run_ended hEnd]
    · rw [Expr.parse, Expr.parse, hTokens,
        Reading.run_ended hEnd]
  · refine ⟨s, ?_, rfl, rfl⟩
    rw [toList,
      List.takeWhile_append_of_pos (by simpa using hInside)]
    simp [s.isEof_stop]

/- An expression that was read is that of a phrase. -/
theorem Expr.exists_phrase
    {s : TokenStream}
    {e : Expr}
    {t : Locals}
    (hInside : ∀ a ∈ s.tokens, a.isEof = false)
    (hParse : parse s = .ok (e, t)) :
    ∃ φ : ExprPhrase,
      φ.tokens = s.tokens ∧
      φ.tree.Sound ∧
      t = Locals.empty.after s.tokens ∧
      e = φ.expr t := by
  rcases (parse_agrees s).isOk_iff.mp ⟨_, hParse⟩ with
    ⟨d, hRead⟩
  rcases ExprTree.ofTerminals?_eq_some_iff.mp hRead with
    ⟨hDerives, hValid, hTerminals⟩
  rw [TokenStream.terminals_eq_map hInside] at hTerminals
  rcases ExprPhrase.exists_of_terminals hTerminals.symm with
    ⟨φ, hTokens, rfl⟩
  have hSound : φ.tree.Sound :=
    ⟨ExprTree.derives_iff.mp hDerives, hValid⟩
  have hPhrase :=
    parse_phrase (s := s) hSound hTokens.symm
  rw [hParse] at hPhrase
  cases hPhrase
  exact ⟨φ, hTokens, hSound, by rw [hTokens], rfl⟩

------------------------------------------------------------
-- Tables and Trees
------------------------------------------------------------

namespace Locals

/-
  What a table says about the names it was made from and the
  nodes of a tree.

  The table lists the distinct names in order of first use,
  the first one at offset 8 and each further one 8 bytes
  after the one before. The tree has one variable for each
  name that was written, repetitions included, at the offset
  of this name. So all variables of the tree are in the
  table, and all entries of the table are in the tree.
-/
structure Lists
    (t : Locals)
    (names : List String)
    (nodes : List Expr) : Prop where
  entries :
    t.entries.map (fun (name, o) => (name, o.bytes.toNat)) =
      names.eraseDups.zipIdx.map
        (fun (name, i) => (name, 8 * (i + 1)))
  places :
    ((nodes.filterMap Expr.offset?).map
      (fun o => o.bytes.toNat)).Perm
      (names.map
        (fun name => 8 * (names.eraseDups.idxOf name + 1)))
  used :
    ∀ name o,
      (name, o) ∈ t.entries →
      ∃ s, Expr.var o s ∈ nodes
  known :
    ∀ o s,
      Expr.var o s ∈ nodes →
      t.contains o = true ∧
      ∃ name ∈ names, (name, o) ∈ t.entries

/- The entries are the names with their offsets. -/
theorem mem_entries_iff
    {t : Locals}
    {name : String}
    {o : Offset}
    (hNodup : t.names.Nodup)
    (hSize : t.size < 2 ^ 29) :
    (name, o) ∈ t.entries ↔ t.offset? name = some o := by
  rw [offset?_eq_some_iff hNodup hSize, entries,
    List.mem_map]
  constructor
  · rintro ⟨⟨name', i⟩, hMem, hEntry⟩
    cases hEntry
    have hName := List.mem_zipIdx_iff_getElem?.mp hMem
    have hLess : i < t.size :=
      (List.getElem?_eq_some_iff.mp hName).1
    exact ⟨i, hName, toNat_offsetAt (by omega)⟩
  · rintro ⟨i, hName, hBytes⟩
    have hLess : i < t.size :=
      (List.getElem?_eq_some_iff.mp hName).1
    refine ⟨(name, i),
      List.mem_zipIdx_iff_getElem?.mpr hName, ?_⟩
    exact congrArg (Prod.mk name)
      ((eq_offsetAt_iff (by omega)).mpr hBytes)

/- Names that were resolved are at their places. -/
theorem offset?_ofNames_of_mem
    {names : List String}
    {name : String}
    (hMem : name ∈ names) :
    (ofNames names).offset? name =
      some ((ofNames names).place name) := by
  rcases List.append_of_mem hMem with ⟨before, after, hCall⟩
  rw [place, offset?_of_call hCall, Option.getD_some]

theorem toNat_place_ofNames
    {names : List String}
    {name : String}
    (hSize : names.eraseDups.length < 2 ^ 29)
    (hMem : name ∈ names) :
    ((ofNames names).place name).bytes.toNat =
      8 * (names.eraseDups.idxOf name + 1) := by
  rcases List.append_of_mem hMem with ⟨before, after, hCall⟩
  rw [place, offset?_of_call hCall, Option.getD_some,
    toNat_of_call hSize hCall]

/-
  The table of some names lists what is in a tree with one
  variable for each name.
-/
theorem lists_ofNames
    {names : List String}
    {nodes : List Expr}
    (hSize : names.eraseDups.length < 2 ^ 29 - 1)
    (hNodes :
      (nodes.filterMap Expr.offset?).Perm
        (names.map (ofNames names).place)) :
    (ofNames names).Lists names nodes := by
  have hNodup := nodup_names_ofNames names
  have hFits : (ofNames names).size < 2 ^ 29 := by
    rw [size_ofNames]
    omega
  have hEntry (name : String) (o : Offset) :
      (name, o) ∈ (ofNames names).entries ↔
        (ofNames names).offset? name = some o :=
    mem_entries_iff hNodup hFits
  refine
    { entries := ?_
      places := ?_
      used := ?_
      known := ?_ }
  · rw [Locals.entries, names_ofNames, List.map_map]
    apply List.map_congr_left
    rintro ⟨name, i⟩ hMem
    have hName := List.mem_zipIdx_iff_getElem?.mp hMem
    have hLess := (List.getElem?_eq_some_iff.mp hName).1
    show (name, (offsetAt i).bytes.toNat) = _
    rw [toNat_offsetAt (by omega)]
  · refine (hNodes.map _).trans (List.Perm.of_eq ?_)
    rw [List.map_map]
    apply List.map_congr_left
    intro name hMem
    exact toNat_place_ofNames (by omega) hMem
  · intro name o hMem
    have hOffset := (hEntry name o).mp hMem
    have hName : name ∈ names := by
      rcases (offset?_eq_some_iff hNodup hFits).mp hOffset
        with ⟨i, hName, -⟩
      rw [names_ofNames] at hName
      exact List.mem_eraseDups.mp
        (List.mem_of_getElem? hName)
    rw [offset?_ofNames_of_mem hName,
      Option.some.injEq] at hOffset
    have hVariable : o ∈ nodes.filterMap Expr.offset? := by
      rw [hNodes.mem_iff, ← hOffset]
      exact List.mem_map_of_mem hName
    rcases List.mem_filterMap.mp hVariable with
      ⟨e, hNode, hOffset⟩
    rcases Expr.offset?_eq_some_iff.mp hOffset with ⟨s, rfl⟩
    exact ⟨s, hNode⟩
  · intro o s hNode
    have hVariable : o ∈ nodes.filterMap Expr.offset? :=
      List.mem_filterMap.mpr ⟨_, hNode, rfl⟩
    rcases List.mem_map.mp
        (hNodes.mem_iff.mp hVariable) with
      ⟨name, hName, rfl⟩
    have hOffset := offset?_ofNames_of_mem hName
    refine ⟨?_, name, hName, (hEntry name _).mpr hOffset⟩
    rw [contains, nameOf?_of_offset? hFits hOffset]
    rfl

/-
  The table of a program or an expression lists the names
  that stand before the first end of input.
-/
theorem table_lists_names_read
    {tokens : List Token}
    (hNames :
      (Token.names
        (tokens.takeWhile (!·.isEof))).eraseDups.length <
        2 ^ 29 - 1) :
    let names :=
      Token.names (tokens.takeWhile (!·.isEof))
    (∀ p,
      Program.ofTokens? tokens = some (.ok p) →
      p.locals.Lists names p.exprs) ∧
    (∀ e t,
      Expr.ofTokens? tokens = some (.ok (e, t)) →
      t.Lists names e.parts) := by
  intro names
  have hBefore :
      ∀ a ∈ tokens.takeWhile (!·.isEof),
        a.isEof = false := by
    intro a hMem
    simpa using List.mem_takeWhile_imp hMem
  constructor
  · intro p hRead
    rcases Option.map_eq_some_iff.mp hRead with
      ⟨s, hStream, hParse⟩
    rcases s.exists_ended with ⟨s', hTokens, hSame, -⟩
    rw [TokenStream.toList_of_ofList? hStream] at hTokens
    rw [← hTokens] at hBefore
    rcases Program.exists_phrases hBefore
        (hSame.trans hParse) with
      ⟨σs, hPhrases, -, hLocals, hBody⟩
    rw [hTokens] at hPhrases hLocals
    rw [after_eq_ofNames] at hLocals
    have hNodes :=
      StmtPhrase.leaves_perm Expr.seesLeaves_offset?
        p.locals σs
    rw [StmtPhrase.offsets_leavesAll, ← hBody, hPhrases,
      hLocals] at hNodes
    rw [hLocals]
    exact lists_ofNames hNames hNodes
  · intro e t hRead
    rcases Option.map_eq_some_iff.mp hRead with
      ⟨s, hStream, hParse⟩
    rcases s.exists_ended with ⟨s', hTokens, -, hSame⟩
    rw [TokenStream.toList_of_ofList? hStream] at hTokens
    rw [← hTokens] at hBefore
    rcases Expr.exists_phrase hBefore
        (hSame.trans hParse) with
      ⟨φ, hPhrase, -, hLocals, rfl⟩
    rw [hTokens] at hPhrase hLocals
    rw [after_eq_ofNames] at hLocals
    have hNodes :=
      φ.leaves_perm Expr.seesLeaves_offset? t
    rw [φ.offsets_leaves, hPhrase, hLocals] at hNodes
    rw [hLocals]
    exact lists_ofNames hNames hNodes

/-
  Operands that change places, and a name behind the first
  end of input, read as a program and as an expression.
-/
theorem swapped_operands_are_listed :
    let compared : List Token :=
      [⟨.identifier, "b", ⟨0, 1⟩⟩, ⟨.greater, ">", ⟨2, 1⟩⟩,
        ⟨.minus, "-", ⟨4, 1⟩⟩, ⟨.identifier, "a", ⟨5, 1⟩⟩,
        ⟨.plus, "+", ⟨7, 1⟩⟩, ⟨.identifier, "b", ⟨9, 1⟩⟩]
    let behind : List Token :=
      [.eofAt 11, ⟨.identifier, "c", ⟨11, 1⟩⟩, .eofAt 12]
    let ended : List Token :=
      ⟨.semicolon, ";", ⟨10, 1⟩⟩ :: behind
    let e : Expr :=
      .binary .lt
        (.binary .add
          (.binary .sub (.int 0 ⟨4, 1⟩)
            (.var ⟨16⟩ ⟨5, 1⟩) ⟨4, 2⟩)
          (.var ⟨8⟩ ⟨9, 1⟩) ⟨4, 6⟩)
        (.var ⟨8⟩ ⟨0, 1⟩) ⟨0, 10⟩
    let p : Program :=
      ⟨Program.mainName, [.expr e ⟨0, 11⟩], ⟨["b", "a"]⟩⟩
    Program.ofTokens? (compared ++ ended) = some (.ok p) ∧
    Expr.ofTokens? (compared ++ behind) =
      some (.ok (e, ⟨["b", "a"]⟩)) ∧
    p.locals.Lists ["b", "a", "b"] p.exprs ∧
    Locals.Lists ⟨["b", "a"]⟩ ["b", "a", "b"] e.parts := by
  intro compared behind ended e p
  have hProgram :
      Program.ofTokens? (compared ++ ended) =
        some (.ok p) := by
    decide +kernel
  have hExpr :
      Expr.ofTokens? (compared ++ behind) =
        some (.ok (e, ⟨["b", "a"]⟩)) := by
    decide +kernel
  exact ⟨hProgram, hExpr,
    (table_lists_names_read (by decide)).1 p hProgram,
    (table_lists_names_read (by decide)).2 e _ hExpr⟩

end Locals

end WordLang
