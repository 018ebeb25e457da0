import WordLang.Proofs.MovedNodes

/-
  This file reads the nodes of a program from the texts of
  their regions.

  The region of a node cuts a text out of the source that is
  lexed and read on its own, and gives the node back: moved
  up to the start, and with a table of the text's own. The
  zero of a minus sign has the sign as its text.

  Key definitions include:
    * `WordLang.Expr.IsReadFrom`
    * `WordLang.Stmt.IsReadFrom`
    * `WordLang.Expr.IsSignZero`

  Key theorems include:
    * `WordLang.ExprPhrase.isReadFrom`
    * `WordLang.StmtPhrase.isReadFrom`
    * `WordLang.Program.regions_delimit_nodes`
-/

namespace WordLang

------------------------------------------------------------
-- Texts of Tokens
------------------------------------------------------------

/- A region that starts further up. -/
def Span.unshift
    (n : Nat)
    (s : Span) : Span :=
  ⟨s.lo - n, s.len⟩

/- A minus sign is written in one way. -/
theorem Denotes.eq_minus
    {text : List Char}
    {lexeme : String}
    (hDenotes : Denotes text .minus lexeme) :
    text = ['-'] := by
  rcases hDenotes with ⟨C, -, hDescribes⟩
  cases C with
  | punctuator =>
      rcases hDescribes with ⟨hMem, hText⟩
      have hLexeme : lexeme = "-" := by
        simpa [punctuators] using hMem
      rw [hLexeme] at hText
      rw [← String.toList_ofList (l := text), ← hText]
      rfl
  | word =>
      rcases hDescribes.1 with hKeyword | ⟨hName, -⟩
      · simp [keywords] at hKeyword
      · cases hName
  | number r =>
      cases hDescribes.1

/-
  The region of some tokens of a source cuts out a text that
  is lexed into the same tokens, moved up.
-/
theorem exists_text
    {src : String}
    {s : TokenStream}
    {ts : List Token}
    {region : Span}
    (hBytes : src.utf8ByteSize < 2 ^ 28)
    (hLex : lex src = .ok s)
    (hInfix : ts <:+: s.tokens)
    (hCovers : Token.Covers ts region) :
    ∃ text s',
      Text.slice? region.lo region.len src.toList =
        some text ∧
      lex (String.ofList text) = .ok s' ∧
      s'.tokens =
        ts.map (Token.relocate (Span.unshift region.lo)) ∧
      ∀ t ∈ ts,
        (t.span.unshift region.lo).shift region.lo =
          t.span := by
  rcases hInfix with ⟨us, ws, hTokens⟩
  rw [List.append_assoc] at hTokens
  have hFits := byteLength_le_maxLen hBytes
  rcases exists_cut hFits hLex hTokens.symm hCovers with
    ⟨before, text, after, s', hCut, hLex', rfl⟩
  have hBack (s : Span) :
      (s.shift region.lo).unshift region.lo = s := by
    simp [Span.shift, Span.unshift]
  refine ⟨text, s', hCut.slice?_eq, hLex', ?_, ?_⟩
  · -- The tokens of the source are those of the text, moved
    -- down, so moving them up gives those of the text back.
    rw [List.map_map]
    have hSame :
        Token.relocate (Span.unshift region.lo) ∘
            Token.shift region.lo = id := by
      funext t
      show { t with
        span := (t.span.shift region.lo).unshift region.lo } =
          t
      rw [hBack]
    rw [hSame, List.map_id]
  · intro t hMem
    rcases List.mem_map.mp hMem with ⟨t, -, rfl⟩
    exact congrArg (Span.shift region.lo) (hBack t.span)

------------------------------------------------------------
-- Nodes and Their Texts
------------------------------------------------------------

/- A zero that has a minus sign as its text. -/
def Expr.IsSignZero
    (src : String)
    (e : Expr) : Prop :=
  e = .int 0 e.span ∧
    Text.slice? e.span.lo e.span.len src.toList = some ['-']

/-
  The text of an expression's region is read as the
  expression, in its own place and with its own table.
-/
def Expr.IsReadFrom
    (src : String)
    (t : Locals)
    (e : Expr) : Prop :=
  ∃ text s e' t',
    Text.slice? e.span.lo e.span.len src.toList =
      some text ∧
    lex (String.ofList text) = .ok s ∧
    parse s = .ok (e', t') ∧
    e'.moved? e.span.lo t' t = some e

/-
  The text of a statement's region is read as the statement
  and nothing else.
-/
def Stmt.IsReadFrom
    (src : String)
    (t : Locals)
    (s : Stmt) : Prop :=
  ∃ text stream p s',
    Text.slice? s.span.lo s.span.len src.toList =
      some text ∧
    lex (String.ofList text) = .ok stream ∧
    Program.parse stream = .ok p ∧
    p.body = [s'] ∧
    s'.moved? s.span.lo p.locals t = some s

section

variable {src : String}
variable {s : TokenStream}
variable {t : Locals}

/- The table of a text that was cut out is translated. -/
theorem Locals.translates_text
    {ts : List Token}
    (place : Span → Span)
    (hBytes : src.utf8ByteSize < 2 ^ 28)
    (hLex : lex src = .ok s)
    (hHas : t.Has s.tokens)
    (hInfix : ts <:+: s.tokens) :
    (empty.after (ts.map (Token.relocate place))).Translates
      t (ts.map (Token.relocate place)) := by
  have hTokens := length_tokens_le_of_lex hLex
  have hLength := hInfix.length_le
  have hSize :=
    size_after_le empty (ts.map (Token.relocate place))
  have hEmpty : empty.size = 0 := rfl
  rw [List.length_map, hEmpty] at hSize
  apply (has_after _ _).translates
  · exact has_relocate place
      (fun token hMem => hHas token (hInfix.subset hMem))
  · omega

/- A phrase of a source is read from its text. -/
theorem ExprPhrase.isReadFrom
    {φ : ExprPhrase}
    (hBytes : src.utf8ByteSize < 2 ^ 28)
    (hLex : lex src = .ok s)
    (hHas : t.Has s.tokens)
    (hSound : φ.tree.Sound)
    (hInfix : φ.tokens <:+: s.tokens) :
    (φ.expr t).IsReadFrom src t := by
  have hOrder : Token.InOrder φ.tokens :=
    (inOrder_of_lex hLex).sublist hInfix.sublist
  rcases exists_text hBytes hLex hInfix (φ.covers t hOrder)
    with ⟨text, s', hText, hLex', hTokens, hBack⟩
  have hNames :=
    Locals.translates_text
      (Span.unshift (φ.expr t).span.lo) hBytes hLex hHas
      hInfix
  -- From here on with the phrase as it is in its own text.
  rw [← tokens_relocate] at hTokens hNames
  have hSound' :
      (φ.relocate
        (Span.unshift (φ.expr t).span.lo)).tree.Sound := by
    rwa [tree_relocate]
  have hMoved := moved?_expr (φ.expr t).span.lo _ hNames
  rw [φ.relocate_relocate hBack] at hMoved
  exact ⟨text, s', _, _, hText, hLex',
    Expr.parse_phrase hSound' hTokens, hMoved⟩

/- A statement of a source is read from its text. -/
theorem StmtPhrase.isReadFrom
    {σ : StmtPhrase}
    (hBytes : src.utf8ByteSize < 2 ^ 28)
    (hLex : lex src = .ok s)
    (hHas : t.Has s.tokens)
    (hSound : σ.tree.Sound)
    (hInfix : σ.tokens <:+: s.tokens) :
    (σ.stmt t).IsReadFrom src t := by
  have hOrder : Token.InOrder σ.tokens :=
    (inOrder_of_lex hLex).sublist hInfix.sublist
  rcases exists_text hBytes hLex hInfix (σ.covers t hOrder)
    with ⟨text, s', hText, hLex', hTokens, hBack⟩
  have hNames :=
    Locals.translates_text
      (Span.unshift (σ.stmt t).span.lo) hBytes hLex hHas
      hInfix
  rw [← tokens_relocate] at hTokens hNames
  have hMoved := moved?_stmt (σ.stmt t).span.lo _ hNames
  rw [relocate_relocate σ hBack] at hMoved
  let τ := relocate (Span.unshift (σ.stmt t).span.lo) σ
  have hSound' : StmtTree.SoundAll (treeAll [τ]) := by
    rw [treeAll, tree_relocate]
    exact StmtTree.soundAll_cons.mpr
      ⟨hSound, trivial, trivial⟩
  have hAll : s'.tokens = tokensAll [τ] := by
    rw [hTokens, tokensAll, tokensAll, List.append_nil]
  refine ⟨text, s', _, _, hText, hLex',
    Program.parse_phrases hSound' hAll, rfl, ?_⟩
  rw [hTokens]
  exact hMoved

/- The zero of a minus sign has the sign as its text. -/
theorem Expr.isSignZero
    {sign : Token}
    (hBytes : src.utf8ByteSize < 2 ^ 28)
    (hLex : lex src = .ok s)
    (hMem : sign ∈ s.tokens)
    (hKind : sign.kind = .minus) :
    (Expr.int 0 sign.span).IsSignZero src := by
  have hFits := byteLength_le_maxLen hBytes
  rcases (isTokenAt_of_lex hFits hLex sign hMem).2 with
    ⟨before, text, after, hSrc, hLo, hLen, -, hDenotes⟩
  rw [hKind] at hDenotes
  have hCut :
      Text.Cut src.toList sign.span before text after :=
    ⟨hSrc, hLo, hLen⟩
  rw [hDenotes.eq_minus] at hCut
  exact ⟨rfl, hCut.slice?_eq⟩

end

namespace Program

/-
  Every statement and every expression of a program is read
  from the text of its region, except for the zeros of minus
  signs.
-/
theorem regions_delimit_nodes
    {src : String}
    {s : TokenStream}
    {p : Program}
    (hBytes : src.utf8ByteSize < 2 ^ 28)
    (hLex : lex src = .ok s)
    (hParse : parse s = .ok p) :
    (∀ e ∈ p.exprs,
      e.IsSignZero src ∨ e.IsReadFrom src p.locals) ∧
    (∀ st ∈ p.stmts, st.IsReadFrom src p.locals) := by
  have hInside : ∀ a ∈ s.tokens, a.isEof = false := by
    intro a hMem
    exact decide_eq_false
      (kind_ne_eof_of_lex (byteLength_le_maxLen hBytes) hLex
        a hMem)
  rcases exists_phrases hInside hParse with
    ⟨σs, hTokens, hSound, hLocals, hBody⟩
  have hHas : p.locals.Has s.tokens := by
    rw [hLocals]
    exact Locals.has_after _ _
  have hStmts :
      ∀ st ∈ p.stmts, st.ReadIn p.locals s.tokens := by
    rw [stmts, hBody, ← hTokens]
    intro st hMem
    exact StmtPhrase.readIn_of_mem_partsAll σs hSound hMem
  constructor
  · intro e hMem
    simp only [exprs, List.mem_flatMap] at hMem
    rcases hMem with ⟨e₁, ⟨st, hStmt, hExpr⟩, hPart⟩
    rcases hStmts st hStmt with ⟨σ, hSound, hInfix, rfl⟩
    rw [σ.exprs_stmt] at hExpr
    rcases List.mem_map.mp hExpr with ⟨φ, hPhrase, rfl⟩
    have hSoundExpr :=
      StmtPhrase.sound_of_mem_phrases hSound hPhrase
    have hRead :=
      ExprPhrase.readIn_of_inside hSoundExpr
        (ExprPhrase.readIn_of_mem_inner hSoundExpr)
        ((StmtPhrase.infix_of_mem_phrases hPhrase).trans
          hInfix) e hPart
    rcases hRead with
      ⟨ψ, hSound, hInfix, rfl⟩ | ⟨sign, hMem, hKind, rfl⟩
    · exact .inr
        (ψ.isReadFrom hBytes hLex hHas hSound hInfix)
    · exact .inl (Expr.isSignZero hBytes hLex hMem hKind)
  · intro st hMem
    rcases hStmts st hMem with ⟨σ, hSound, hInfix, rfl⟩
    exact σ.isReadFrom hBytes hLex hHas hSound hInfix

/-
  A comparison whose operands change places, with a sign in
  it, and a statement that ends inside of others. The names
  of the last two texts are in another order than in the
  program.
-/
theorem swapped_comparison_is_delimited :
    let src := "x = 1; if (y >= -x) \x7b (y) = +x; \x7d"
    let zero := Expr.int 0 ⟨16, 1⟩
    let comparison :=
      Expr.binary .le
        (.binary .sub zero (.var ⟨8⟩ ⟨17, 1⟩) ⟨16, 2⟩)
        (.var ⟨16⟩ ⟨11, 1⟩) ⟨11, 7⟩
    let copy :=
      Stmt.expr
        (.assign (.var ⟨16⟩ ⟨22, 3⟩) (.var ⟨8⟩ ⟨28, 2⟩)
          ⟨22, 8⟩)
        ⟨22, 9⟩
    src.utf8ByteSize < 2 ^ 28 ∧
      ∃ s p,
        lex src = .ok s ∧
        parse s = .ok p ∧
        zero ∈ p.exprs ∧
        comparison ∈ p.exprs ∧
        copy ∈ p.stmts ∧
        zero.IsSignZero src ∧
        comparison.IsReadFrom src p.locals ∧
        copy.IsReadFrom src p.locals := by
  intro src zero comparison copy
  have hSize : src.utf8ByteSize < 2 ^ 28 := by decide
  let s : TokenStream :=
    ⟨[⟨.identifier, "x", ⟨0, 1⟩⟩, ⟨.assign, "=", ⟨2, 1⟩⟩,
      ⟨.number, "1", ⟨4, 1⟩⟩, ⟨.semicolon, ";", ⟨5, 1⟩⟩,
      ⟨.kwIf, "if", ⟨7, 2⟩⟩, ⟨.lparen, "(", ⟨10, 1⟩⟩,
      ⟨.identifier, "y", ⟨11, 1⟩⟩,
      ⟨.greaterEq, ">=", ⟨13, 2⟩⟩, ⟨.minus, "-", ⟨16, 1⟩⟩,
      ⟨.identifier, "x", ⟨17, 1⟩⟩, ⟨.rparen, ")", ⟨18, 1⟩⟩,
      ⟨.lbrace, "\x7b", ⟨20, 1⟩⟩, ⟨.lparen, "(", ⟨22, 1⟩⟩,
      ⟨.identifier, "y", ⟨23, 1⟩⟩, ⟨.rparen, ")", ⟨24, 1⟩⟩,
      ⟨.assign, "=", ⟨26, 1⟩⟩, ⟨.plus, "+", ⟨28, 1⟩⟩,
      ⟨.identifier, "x", ⟨29, 1⟩⟩,
      ⟨.semicolon, ";", ⟨30, 1⟩⟩,
      ⟨.rbrace, "\x7d", ⟨32, 1⟩⟩], .eofAt 33, rfl⟩
  let p : Program :=
    ⟨mainName,
      [.expr
        (.assign (.var ⟨8⟩ ⟨0, 1⟩) (.int 1 ⟨4, 1⟩) ⟨0, 5⟩)
        ⟨0, 6⟩,
      .ifThen comparison (.block [copy] ⟨20, 13⟩) ⟨7, 26⟩],
      ⟨["x", "y"]⟩⟩
  have hLex : lex src = .ok s := by decide +kernel
  have hParse : parse s = .ok p := by decide +kernel
  have hZero : zero ∈ p.exprs := by decide +kernel
  have hComparison : comparison ∈ p.exprs := by
    decide +kernel
  have hCopy : copy ∈ p.stmts := by decide +kernel
  rcases regions_delimit_nodes hSize hLex hParse with
    ⟨hExprs, hStmts⟩
  refine ⟨hSize, s, p, hLex, hParse, hZero, hComparison,
    hCopy, ?_, ?_, hStmts copy hCopy⟩
  · exact ⟨rfl, by decide +kernel⟩
  · apply (hExprs comparison hComparison).resolve_left
    exact fun hSign => absurd hSign.1 (by decide +kernel)

end Program

end WordLang
