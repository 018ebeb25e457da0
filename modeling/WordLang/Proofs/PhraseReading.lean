import WordLang.Proofs.ParserSafety
import WordLang.Proofs.Phrases

/-
  This file reads the phrases of expressions.

  Reading the tokens of a phrase gives what the phrase says,
  regions and offsets included. The tokens add their names
  to the table, and any later table has their offsets.

  Key definitions include:
    * `WordLang.Locals.after`
    * `WordLang.Locals.Has`
    * `WordLang.Reading.Reads`
    * `WordLang.Reading.Takes`

  Key theorems include:
    * `WordLang.Locals.has_after`
    * `WordLang.Reading.reads_tokens`
    * `WordLang.Expr.parse_phrase`
-/

namespace WordLang

------------------------------------------------------------
-- Names of Tokens
------------------------------------------------------------

namespace Locals

/- A table with the names of some further tokens. -/
def after
    (t : Locals)
    (ts : List Token) : Locals :=
  ts.foldl
    (fun t token =>
      if token.kind = .identifier then
        (t.resolve token.lexeme).2
      else
        t) t

theorem after_append
    (t : Locals)
    (us vs : List Token) :
    t.after (us ++ vs) = (t.after us).after vs :=
  List.foldl_append

/- Only names change the table. -/
theorem after_cons
    {k : Kind}
    (t : Locals)
    (token : TokenOf k)
    (ts : List Token)
    (hKind : k ≠ .identifier) :
    t.after (token.1 :: ts) = t.after ts := by
  rw [after, List.foldl_cons, token.2, if_neg hKind]
  rfl

theorem after_ended
    {k : Kind}
    (t : Locals)
    (ts : List Token)
    (last : TokenOf k)
    (hLast : k ≠ .identifier) :
    t.after (ts ++ [last.1]) = t.after ts := by
  rw [after_append, after_cons _ _ _ hLast]
  rfl

theorem after_enclosed
    {k k' : Kind}
    (t : Locals)
    (first : TokenOf k)
    (ts : List Token)
    (last : TokenOf k')
    (hFirst : k ≠ .identifier)
    (hLast : k' ≠ .identifier) :
    t.after (first.1 :: (ts ++ [last.1])) = t.after ts := by
  rw [after_cons _ _ _ hFirst, after_ended _ _ _ hLast]

theorem after_name
    (t : Locals)
    (token : TokenOf .identifier) :
    t.after [token.1] = (t.resolve token.1.lexeme).2 := by
  rw [after, List.foldl_cons, List.foldl_nil,
    if_pos token.2]

/- No name is lost. -/
theorem extends_after
    (t : Locals)
    (ts : List Token) :
    t.Extends (t.after ts) := by
  induction ts generalizing t with
  | nil =>
      exact Extends.refl t
  | cons token ts ih =>
      rw [after, List.foldl_cons]
      split
      · exact (t.extends_resolve token.lexeme).1.trans (ih _)
      · exact ih t

/- A table has at most one name for each token. -/
theorem size_after_le
    (t : Locals)
    (ts : List Token) :
    (t.after ts).size ≤ t.size + ts.length := by
  induction ts generalizing t with
  | nil =>
      exact Nat.le_refl _
  | cons token ts ih =>
      let t₁ :=
        if token.kind = .identifier then
          (t.resolve token.lexeme).2
        else
          t
      have hFirst : t₁.size ≤ t.size + 1 := by
        unfold t₁
        split
        · exact Parser.size_resolve_le t token.lexeme
        · exact Nat.le_succ _
      have hRest := ih t₁
      rw [List.length_cons]
      show (t₁.after ts).size ≤ _
      omega

/- A table that has the names of some tokens. -/
def Has
    (t : Locals)
    (ts : List Token) : Prop :=
  ∀ token ∈ ts,
    token.kind = .identifier →
    ∃ o, t.offset? token.lexeme = some o

/- The names of the tokens are in the table. -/
theorem has_after
    (t : Locals)
    (ts : List Token) :
    (t.after ts).Has ts := by
  intro token hMem hName
  rcases List.append_of_mem hMem with ⟨us, vs, rfl⟩
  have hResolved :=
    ((t.after us).extends_resolve token.lexeme).2
  rw [after_append, after, List.foldl_cons, if_pos hName]
  exact ⟨_, (extends_after _ vs).offset? hResolved⟩

end Locals

------------------------------------------------------------
-- Reading Tokens of an Expression
------------------------------------------------------------

theorem TokenOf.isEof_eq_false
    {k : Kind}
    (t : TokenOf k)
    (hKind : k ≠ .eof) :
    t.1.isEof = false := by
  simpa [Token.isEof, t.2] using hKind

namespace Frame

/- Whether the last token was a sign. -/
def afterSign : List Frame → Bool
| sign .. :: _ => true
| _ => false

/-
  No operator that binds at least as strongly as `n` takes
  the next operand from the left. Assignments are never
  taken by an operator.
-/
def Stops
    (frames : List Frame)
    (n : Nat) : Prop :=
  ∀ power,
    n ≤ power →
    1 ≤ power →
    ∀ e, collapse power frames e = (e, frames)

theorem Stops.mono
    {frames : List Frame}
    {m n : Nat}
    (hStops : Stops frames m)
    (hLe : m ≤ n) :
    Stops frames n := by
  intro power hPower
  exact hStops power (Nat.le_trans hLe hPower)

theorem stops_nil : Stops [] 0 := by
  intro power _ _ e
  rfl

theorem stops_paren
    (s : Span)
    (rest : List Frame) :
    Stops (.paren s :: rest) 0 := by
  intro power _ _ e
  rfl

theorem stops_assign
    (target : Expr)
    (rest : List Frame) :
    Stops (.assign target :: rest) 0 := by
  intro power _ hPower e
  rw [collapse, if_neg (by omega)]

theorem stops_binary
    (o : Operator)
    (lhs : Expr)
    (rest : List Frame) :
    Stops (.binary o lhs :: rest) (o.power + 1) := by
  intro power hPower _ e
  rw [collapse, if_neg (by omega)]

end Frame

theorem Connective.power_operator
    (c : Connective) :
    c.operator.power = c.level.rank := by
  cases c <;> rfl

namespace Reading

variable {frames frames' : List Frame}
variable {e : Expr}
variable {t : Locals}

/-
  Some tokens of an expression lead from one state and table
  to another.
-/
inductive Reads :
    Reading →
    Locals →
    List Token →
    Reading →
    Locals →
    Prop where
  | nil (r : Reading) (t : Locals) :
      Reads r t [] r t
  | cons
      {r r₁ r' : Reading}
      {t t₁ t' : Locals}
      {token : Token}
      {ts : List Token} :
      token.isEof = false →
      r.step t token = .ok (.more r₁ t₁) →
      Reads r₁ t₁ ts r' t' →
      Reads r t (token :: ts) r' t'

theorem Reads.append
    {r r₁ r' : Reading}
    {t₁ t' : Locals}
    {us vs : List Token}
    (hFirst : Reads r t us r₁ t₁)
    (hSecond : Reads r₁ t₁ vs r' t') :
    Reads r t (us ++ vs) r' t' := by
  induction hFirst with
  | nil r t =>
      exact hSecond
  | cons hEof hStep _ ih =>
      exact .cons hEof hStep (ih hSecond)

theorem ofPrimary_eq_operator
    (e : Expr)
    (hSign : Frame.afterSign frames = false) :
    ofPrimary frames e = operator frames e := by
  match frames with
  | .sign negative s :: rest =>
      cases hSign
  | [] | .paren _ :: rest | .binary _ _ :: rest
  | .assign _ :: rest =>
      rfl

/- An operand takes the sign in front of it. -/
theorem ofPrimary_sign
    (rest : List Frame)
    (negative : Bool)
    (s : Span)
    (e : Expr) :
    ofPrimary (.sign negative s :: rest) e =
      operator rest (e.withSign s negative) := by
  cases negative <;> rfl

/- The operator after a left operand is read. -/
theorem step_connective
    {lhs : Expr}
    {c : Connective}
    (sign : TokenOf c.kind)
    (hCollapse :
      Frame.collapse c.level.rank frames' e =
        (lhs, frames)) :
    (operator frames' e).step t sign.1 =
      .ok (.more
        (operand (.binary c.operator lhs :: frames)) t) := by
  simp only [step, stepOperator, sign.2, c.operator?_kind,
    c.power_operator, hCollapse]

/- The sign of an assignment is read after its target. -/
theorem step_assign
    {target : Expr}
    (sign : TokenOf .assign)
    (hCollapse :
      Frame.collapse 1 frames' e = (target, frames))
    (hVar : target.isVar = true) :
    (operator frames' e).step t sign.1 =
      .ok (.more (operand (.assign target :: frames)) t) := by
  simp only [step, stepOperator, sign.2, Kind.operator?,
    hCollapse, hVar, if_true]

/- A parenthesis is closed. -/
theorem step_rparen
    {inner : Expr}
    {s : Span}
    (rparen : TokenOf .rparen)
    (hCollapse :
      Frame.collapse 0 frames' e =
        (inner, .paren s :: frames)) :
    (operator frames' e).step t rparen.1 =
      .ok (.more
        (ofPrimary frames
          (inner.respan (s.through rparen.1.span))) t) := by
  simp only [step, stepOperator, rparen.2, Kind.operator?,
    hCollapse]

/- A parenthesis is opened. -/
theorem step_lparen
    (lparen : TokenOf .lparen) :
    (operand frames).step t lparen.1 =
      .ok (.more
        (operand (.paren lparen.1.span :: frames)) t) := by
  simp only [step, stepOperand, lparen.2]

/- A sign is read where there is none. -/
theorem step_sign
    {negative : Bool}
    (sign : TokenOf (.ofSign negative))
    (hSign : Frame.afterSign frames = false) :
    (operand frames).step t sign.1 =
      .ok (.more
        (operand (.sign negative sign.1.span :: frames))
        t) := by
  match frames with
  | .sign negative s :: rest =>
      cases hSign
  | [] | .paren _ :: rest | .binary _ _ :: rest
  | .assign _ :: rest =>
      cases negative <;>
        simp [step, stepOperand, sign.2, Kind.ofSign]

/-
  The operand `φ` of what is open is read. It may not be
  complete yet, but each collapse that another token can
  cause gives what it would give if it were.
-/
def Takes
    (frames : List Frame)
    (t t' : Locals)
    (φ : ExprPhrase)
    (n : Nat) : Prop :=
  ∃ frames' e,
    Reads (operand frames) t φ.tokens
      (operator frames' e) (t.after φ.tokens) ∧
    ∀ power ≤ n,
      Frame.collapse power frames' e =
        Frame.collapse power frames (φ.expr t')

/- What is read as a primary is read as an operand. -/
theorem takes_of_primary
    {t' : Locals}
    {φ : ExprPhrase}
    (n : Nat)
    (hReads :
      Reads (operand frames) t φ.tokens
        (ofPrimary frames (φ.expr t')) (t.after φ.tokens))
    (hSign : Frame.afterSign frames = false) :
    Takes frames t t' φ n := by
  refine ⟨frames, φ.expr t', ?_, fun power _ => rfl⟩
  rwa [ofPrimary_eq_operator _ hSign] at hReads

/-
  Two operands and the token between them are read, if the
  token is read after the first one.
-/
theorem reads_between
    {r r' r'' : Reading}
    {k : Kind}
    {us vs : List Token}
    (sign : TokenOf k)
    (hEof : k ≠ .eof)
    (hName : k ≠ .identifier)
    (hLeft : Reads r t us r' (t.after us))
    (hStep :
      r'.step (t.after us) sign.1 =
        .ok (.more (operand frames) (t.after us)))
    (hRight :
      Reads (operand frames) (t.after us) vs r''
        ((t.after us).after vs)) :
    Reads r t (us ++ sign.1 :: vs) r''
      (t.after (us ++ sign.1 :: vs)) := by
  rw [Locals.after_append, Locals.after_cons _ _ _ hName]
  exact hLeft.append
    (.cons (sign.isEof_eq_false hEof) hStep hRight)

/-
  Reading comes to every phrase. Operands that a sign may
  stand in front of are stated apart, since they take the
  sign with them. Any later table has the names.
-/
theorem reads_tokens
    {φ : ExprPhrase}
    {t' : Locals}
    (hValid : φ.tree.Valid) :
    (φ.tree.IsA 6 →
      ∀ frames t,
        (t.after φ.tokens).Extends t' →
        Reads (operand frames) t φ.tokens
          (ofPrimary frames (φ.expr t'))
          (t.after φ.tokens)) ∧
    (∀ n frames t,
      φ.tree.IsA n →
      Frame.Stops frames n →
      Frame.afterSign frames = false →
      (t.after φ.tokens).Extends t' →
      Takes frames t t' φ n) := by
  -- Each operand is read with the table that the tokens
  -- before it leave, and written with the later one.
  induction φ with
  | number token =>
      have hReads
          (frames : List Frame)
          (t : Locals) :
          Reads (operand frames) t [token.1]
            (ofPrimary frames
              ((ExprPhrase.number token).expr t'))
            (t.after [token.1]) := by
        rcases Option.isSome_iff_exists.mp hValid with
          ⟨value, hRead⟩
        rw [Locals.after_cons t token [] (by decide)]
        refine .cons (token.isEof_eq_false (by decide)) ?_
          (.nil _ _)
        simp only [step, stepOperand, token.2, hRead,
          ExprPhrase.expr, Option.getD_some]
        rfl
      exact ⟨fun _ frames t _ => hReads frames t,
        fun n frames t _ _ hSign _ =>
          takes_of_primary n (hReads frames t) hSign⟩
  | name token =>
      have hReads
          (frames : List Frame)
          (t : Locals)
          (hExtends : (t.after [token.1]).Extends t') :
          Reads (operand frames) t [token.1]
            (ofPrimary frames
              ((ExprPhrase.name token).expr t'))
            (t.after [token.1]) := by
        have hResolved := (t.extends_resolve token.1.lexeme).2
        rw [Locals.after_name] at hExtends ⊢
        refine .cons (token.isEof_eq_false (by decide)) ?_
          (.nil _ _)
        simp only [step, stepOperand, token.2,
          ExprPhrase.expr, hExtends.offset? hResolved,
          Option.getD_some]
      exact ⟨fun _ => hReads,
        fun n frames t _ _ hSign hExtends =>
          takes_of_primary n (hReads frames t hExtends) hSign⟩
  | paren l d r ih =>
      have hReads
          (hInner : d.tree.IsA 0)
          (frames : List Frame)
          (t : Locals)
          (hExtends :
            (t.after (ExprPhrase.paren l d r).tokens).Extends
              t') :
          Reads (operand frames) t
            (ExprPhrase.paren l d r).tokens
            (ofPrimary frames
              ((ExprPhrase.paren l d r).expr t'))
            (t.after (ExprPhrase.paren l d r).tokens) := by
        rw [ExprPhrase.tokens, Locals.after_enclosed _ _ _ _
          (by decide) (by decide)] at hExtends ⊢
        rcases (ih hValid).2 0 (.paren l.1.span :: frames) t
            hInner (Frame.stops_paren _ _) rfl hExtends with
          ⟨frames', e, hReads, hCollapse⟩
        have hClose := hCollapse 0 (Nat.le_refl 0)
        refine .cons (l.isEof_eq_false (by decide))
          (step_lparen l) (hReads.append ?_)
        exact .cons (r.isEof_eq_false (by decide))
          (step_rparen r hClose) (.nil _ _)
      exact ⟨fun hIsA => hReads hIsA.2,
        fun n frames t hIsA _ hSign hExtends =>
          takes_of_primary n
            (hReads hIsA.2 frames t hExtends) hSign⟩
  | signed negative sign d ih =>
      refine ⟨fun hIsA => absurd hIsA.1 (by decide), ?_⟩
      intro n frames t hIsA hStops hSign hExtends
      have hName : Kind.ofSign negative ≠ .identifier := by
        cases negative <;> decide
      have hEof : Kind.ofSign negative ≠ .eof := by
        cases negative <;> decide
      have hTable :
          t.after (ExprPhrase.signed negative sign d).tokens =
            t.after d.tokens :=
        Locals.after_cons _ _ _ hName
      rw [hTable] at hExtends
      have hReads :=
        (ih hValid).1 hIsA.2
          (.sign negative sign.1.span :: frames) t hExtends
      rw [ofPrimary_sign] at hReads
      refine ⟨frames, _, ?_, fun power _ => rfl⟩
      rw [hTable]
      exact .cons (sign.isEof_eq_false hEof)
        (step_sign sign hSign) hReads
  | chain c l sign r ihLeft ihRight =>
      have hBounds := c.rank_level_bounds
      have hName : c.kind ≠ .identifier := by
        cases c <;> decide
      have hEof : c.kind ≠ .eof := by
        cases c <;> decide
      refine ⟨fun hIsA => absurd hIsA.1 (by omega), ?_⟩
      intro n frames t hIsA hStops hSign hExtends
      rcases hIsA with ⟨hRank, hLeft, hRight⟩
      rw [ExprPhrase.tokens, Locals.after_append,
        Locals.after_cons _ _ _ hName] at hExtends
      have hStopsLeft := hStops.mono hRank
      rcases (ihLeft hValid.1).2 c.level.rank frames t hLeft
          hStopsLeft hSign
          ((Locals.extends_after _ _).trans hExtends) with
        ⟨frames₁, e₁, hReadsLeft, hCollapseLeft⟩
      have hReady :
          Frame.collapse c.level.rank frames₁ e₁ =
            (l.expr t', frames) := by
        rw [hCollapseLeft _ (Nat.le_refl _),
          hStopsLeft _ (Nat.le_refl _) hBounds.1]
      have hStopsRight :=
        Frame.stops_binary c.operator (l.expr t') frames
      rw [c.power_operator] at hStopsRight
      rcases (ihRight hValid.2).2 (c.level.rank + 1)
          (.binary c.operator (l.expr t') :: frames)
          (t.after l.tokens) hRight hStopsRight rfl hExtends
        with ⟨frames₂, e₂, hReadsRight, hCollapseRight⟩
      refine ⟨frames₂, e₂, ?_, ?_⟩
      · exact reads_between sign hEof hName hReadsLeft
          (step_connective sign hReady) hReadsRight
      · intro power hPower
        rw [hCollapseRight power (by omega), Frame.collapse,
          c.power_operator, if_pos (by omega)]
        rfl
  | assign d sign v ihTarget ihValue =>
      rcases hValid with ⟨hPlace, hValidTarget, hValidValue⟩
      refine ⟨fun hIsA => absurd hIsA.1 (by decide), ?_⟩
      intro n frames t hIsA hStops hSign hExtends
      rcases hIsA with ⟨rfl, hTarget, hValue⟩
      rw [ExprPhrase.tokens, Locals.after_append,
        Locals.after_cons _ _ _ (by decide)] at hExtends
      have hStopsTarget := hStops.mono (Nat.zero_le 1)
      rcases (ihTarget hValidTarget).2 1 frames t hTarget
          hStopsTarget hSign
          ((Locals.extends_after _ _).trans hExtends) with
        ⟨frames₁, e₁, hReadsTarget, hCollapseTarget⟩
      have hReady :
          Frame.collapse 1 frames₁ e₁ =
            (d.expr t', frames) := by
        rw [hCollapseTarget _ (Nat.le_refl _),
          hStopsTarget _ (Nat.le_refl _) (Nat.le_refl _)]
      have hVar : (d.expr t').isVar = true := by
        rw [d.isVar_expr, hPlace]
      rcases (ihValue hValidValue).2 0
          (.assign (d.expr t') :: frames)
          (t.after d.tokens) hValue (Frame.stops_assign _ _)
          rfl hExtends with
        ⟨frames₂, e₂, hReadsValue, hCollapseValue⟩
      refine ⟨frames₂, e₂, ?_, ?_⟩
      · exact reads_between sign (by decide) (by decide)
          hReadsTarget (step_assign sign hReady hVar)
          hReadsValue
      · intro power hPower
        have hZero : power = 0 := Nat.le_zero.mp hPower
        rw [hCollapseValue power hPower, Frame.collapse,
          if_pos hZero]
        rfl

/- An expression is complete when its tokens are read. -/
theorem reads_start
    {φ : ExprPhrase}
    {t' : Locals}
    (hSound : φ.tree.Sound)
    (hExtends : (t.after φ.tokens).Extends t') :
    ∃ frames e,
      Reads .start t φ.tokens (operator frames e)
        (t.after φ.tokens) ∧
      Frame.collapse 0 frames e = (φ.expr t', []) := by
  rcases (reads_tokens hSound.2).2 0 [] t hSound.1
      Frame.stops_nil rfl hExtends with
    ⟨frames, e, hReads, hCollapse⟩
  exact ⟨frames, e, hReads, hCollapse 0 (Nat.le_refl 0)⟩

/- A run goes on where some tokens lead. -/
theorem run_of_reads
    {r r' : Reading}
    {t' : Locals}
    {ts : List Token}
    (stop : Token)
    (hReads : Reads r t ts r' t') :
    run stop r t ts = run stop r' t' [] := by
  induction hReads with
  | nil r t =>
      rfl
  | cons hEof hStep _ ih =>
      rw [← ih, run, hEof, if_neg (by decide), hStep]

end Reading

/- The tokens of a phrase are read as its expression. -/
theorem Expr.parse_phrase
    {φ : ExprPhrase}
    {s : TokenStream}
    (hSound : φ.tree.Sound)
    (hTokens : s.tokens = φ.tokens) :
    parse s =
      .ok (φ.expr (Locals.empty.after φ.tokens),
        Locals.empty.after φ.tokens) := by
  rcases Reading.reads_start hSound
      (Locals.Extends.refl (Locals.empty.after φ.tokens))
    with ⟨frames, e, hReads, hCollapse⟩
  rw [parse, hTokens, Reading.run_of_reads _ hReads,
    Reading.run, Reading.close, hCollapse]
  rfl

end WordLang
