import WordLang.Proofs.Lexemes
import WordLang.Proofs.ParserMeaning

/-
  This file says which tokens an expression was read from.

  The tokens of a source stand one after another. While an
  expression is read, the tokens read so far divide into
  those of each open operator and those of the operand at
  hand, and the region of the operand runs from the first
  of its tokens to the last. This is kept by every token
  that is read.

  Key definitions include:
    * `WordLang.Token.InOrder`
    * `WordLang.Token.Covers`
    * `WordLang.ExprTree.ReadFrom`
    * `WordLang.Reading.ReadFrom`
    * `WordLang.Parser.Tracks`

  Key theorems include:
    * `WordLang.inOrder_of_lex`
    * `WordLang.Frame.collapse_readFrom`
    * `WordLang.Reading.step_readFrom`
    * `WordLang.Parser.step_tracks`
-/

namespace WordLang

------------------------------------------------------------
-- Tokens in Order
------------------------------------------------------------

namespace Token

/-
  Tokens that stand one after another, none longer than a
  region can be.
-/
structure InOrder
    (ts : List Token) : Prop where
  apart :
    ts.Pairwise (fun a b => a.span.hi ≤ b.span.lo)
  fits : ∀ t ∈ ts, t.span.len ≤ Span.maxLen

theorem InOrder.sublist
    {us ts : List Token}
    (hOrder : InOrder ts)
    (hSublist : us.Sublist ts) :
    InOrder us :=
  ⟨hOrder.apart.sublist hSublist,
    fun t hMem => hOrder.fits t (hSublist.mem hMem)⟩

/- The tokens start at the given byte. -/
def StartAt
    (ts : List Token)
    (lo : Nat) : Prop :=
  ∃ first, ts.head? = some first ∧ first.span.lo = lo

/-
  A region that runs from the first of some tokens to the
  last.
-/
def Covers
    (ts : List Token)
    (s : Span) : Prop :=
  ∃ first last,
    ts.head? = some first ∧
    ts.getLast? = some last ∧
    s = Span.between first.span.lo last.span.hi

theorem StartAt.append
    {us : List Token}
    {lo : Nat}
    (hStart : StartAt us lo)
    (vs : List Token) :
    StartAt (us ++ vs) lo := by
  rcases hStart with ⟨first, hHead, hLo⟩
  exact ⟨first, by rw [List.head?_append, hHead]; rfl, hLo⟩

theorem Covers.startAt
    {ts : List Token}
    {s : Span}
    (hCovers : Covers ts s) :
    StartAt ts s.lo := by
  rcases hCovers with ⟨first, last, hHead, -, rfl⟩
  exact ⟨first, hHead, rfl⟩

theorem covers_singleton
    {t : Token}
    (hFits : t.span.len ≤ Span.maxLen) :
    Covers [t] t.span := by
  refine ⟨t, t, rfl, rfl, ?_⟩
  have hLen : t.span.hi - t.span.lo = t.span.len := by
    rw [Span.hi, Nat.add_sub_cancel_left]
  rw [Span.between, hLen, Nat.min_eq_left hFits]

/- The first of some tokens starts before the last ends. -/
theorem InOrder.first_le_last
    {ts : List Token}
    {first last : Token}
    (hOrder : InOrder ts)
    (hHead : ts.head? = some first)
    (hLast : ts.getLast? = some last) :
    first.span.lo ≤ last.span.hi := by
  cases ts with
  | nil =>
      cases hHead
  | cons t ts =>
      cases hHead
      cases ts with
      | nil =>
          cases hLast
          exact Nat.le_add_right _ _
      | cons u ts =>
          rw [List.getLast?_cons_cons] at hLast
          have hApart :=
            (List.pairwise_cons.mp hOrder.apart).1 last
              (List.mem_of_getLast? hLast)
          unfold Span.hi at hApart ⊢
          omega

/- Regions of tokens that follow each other are joined. -/
theorem Covers.through
    {us vs : List Token}
    {s s' : Span}
    (hCovers : Covers vs s')
    (hStart : StartAt us s.lo)
    (hOrder : InOrder (us ++ vs)) :
    Covers (us ++ vs) (s.through s') := by
  rcases hStart with ⟨first, hHead, hLo⟩
  rcases hCovers with ⟨first', last, hHead', hLast, rfl⟩
  have hApart : first.span.hi ≤ first'.span.lo :=
    (List.pairwise_append.mp hOrder.apart).2.2 first
      (List.mem_of_mem_head? hHead) first'
      (List.mem_of_mem_head? hHead')
  have hInner : first'.span.lo ≤ last.span.hi :=
    (hOrder.sublist
      (List.sublist_append_right us vs)).first_le_last
        hHead' hLast
  refine ⟨first, last, ?_, ?_, ?_⟩
  · rw [List.head?_append, hHead]
    rfl
  · rw [List.getLast?_append, hLast]
    rfl
  · -- A part that is too long makes the whole too long.
    have hBefore : first.span.lo ≤ first'.span.lo := by
      unfold Span.hi at hApart
      omega
    simp only [Span.through, ← hLo]
    simp only [Span.between, Span.mk.injEq, true_and]
    simp only [Span.hi, Span.maxLen] at hInner ⊢
    omega

end Token

namespace Token

/- Tokens in order that start at the given byte or later. -/
structure InOrderFrom
    (pos : Nat)
    (ts : List Token) : Prop where
  inOrder : InOrder ts
  after : ∀ t ∈ ts, pos ≤ t.span.lo

theorem inOrderFrom_nil
    (pos : Nat) :
    InOrderFrom pos [] :=
  ⟨⟨List.Pairwise.nil, by simp⟩, by simp⟩

theorem InOrderFrom.mono
    {pos pos' : Nat}
    {ts : List Token}
    (hOrder : InOrderFrom pos' ts)
    (hLe : pos ≤ pos') :
    InOrderFrom pos ts :=
  ⟨hOrder.inOrder,
    fun t hMem => Nat.le_trans hLe (hOrder.after t hMem)⟩

/- A token in front of the tokens after it. -/
theorem InOrderFrom.cons
    {pos hi : Nat}
    {ts : List Token}
    (kind : Kind)
    (lexeme : String)
    (hOrder : InOrderFrom hi ts)
    (hLe : pos ≤ hi) :
    InOrderFrom pos
      (⟨kind, lexeme, Span.between pos hi⟩ :: ts) := by
  have hEnd : (Span.between pos hi).hi ≤ hi := by
    simp only [Span.between, Span.hi]
    omega
  have hRest := hOrder.mono hLe
  refine ⟨⟨?_, ?_⟩, ?_⟩
  · exact List.pairwise_cons.mpr
      ⟨fun t hMem =>
        Nat.le_trans hEnd (hOrder.after t hMem),
        hOrder.inOrder.apart⟩
  · exact List.forall_mem_cons.mpr
      ⟨Nat.min_le_right _ _, hOrder.inOrder.fits⟩
  · exact List.forall_mem_cons.mpr
      ⟨Nat.le_refl pos, hRest.after⟩

end Token

/- The tokens of a walk stand one after another. -/
theorem Lexer.inOrderFrom_walk
    (skip pos : Nat)
    (cs : List Char) :
    Token.InOrderFrom
      (pos + Text.byteLength (cs.take skip))
      (walk skip pos cs).1 := by
  induction cs generalizing skip pos with
  | nil =>
      rw [walk]
      exact Token.inOrderFrom_nil _
  | cons c cs ih =>
      cases skip with
      | succ skip =>
          rw [walk, List.take_succ_cons, Text.byteLength,
            ← Nat.add_assoc]
          exact ih skip (pos + c.utf8Size)
      | zero =>
          rw [walk, List.take_zero, Text.byteLength,
            Nat.add_zero]
          by_cases hBlank : isBlank c = true
          · rw [if_pos hBlank]
            refine (ih 0 (pos + c.utf8Size)).mono ?_
            omega
          · rw [if_neg hBlank]
            cases hResult : (scan c cs).result with
            | error e =>
                simp only [hResult]
                exact Token.inOrderFrom_nil pos
            | ok found =>
                have hRest :=
                  ih (scan c cs).extra (pos + c.utf8Size)
                simp only [hResult, Text.byteLength,
                  ← Nat.add_assoc]
                exact hRest.cons _ _ (by omega)

/- The tokens of a source stand one after another. -/
theorem inOrder_of_lex
    {src : String}
    {s : TokenStream}
    (hLex : lex src = .ok s) :
    Token.InOrder s.tokens := by
  have hOrder := Lexer.inOrderFrom_walk 0 0 src.toList
  rw [(walk_of_lex hLex).1] at hOrder
  exact hOrder.inOrder

------------------------------------------------------------
-- Operands
------------------------------------------------------------

theorem Expr.span_respan
    (e : Expr)
    (s : Span) :
    (e.respan s).span = s := by
  cases e <;> rfl

theorem Operator.span_apply
    (o : Operator)
    (lhs rhs : Expr) :
    (o.apply lhs rhs).span =
      lhs.span.through rhs.span := by
  unfold apply
  split <;> rfl

/- An expression that was read from some tokens. -/
structure ExprTree.ReadFrom
    (d : ExprTree)
    (e : Expr)
    (ts : List Token) : Prop where
  terminals : ts.map Token.terminal = d.terminals
  covers : Token.Covers ts e.span

namespace Frame

/- Where what is open starts. -/
def start : Frame → Nat
| sign _ s => s.lo
| paren s => s.lo
| binary _ lhs => lhs.span.lo
| assign target => target.span.lo

/- Something open that was read from some tokens. -/
structure ReadFrom
    (tree : OpenTree)
    (frame : Frame)
    (ts : List Token) : Prop where
  terminals : ts.map Token.terminal = tree.terminals
  start : Token.StartAt ts frame.start

/- All that is open was read from some tokens in turn. -/
def AllReadFrom :
    List OpenTree →
    List Frame →
    List Token →
    Prop
| [], [], ts => ts = []
| tree :: trees, frame :: frames, ts =>
    ∃ us vs,
      ts = us ++ vs ∧
      AllReadFrom trees frames us ∧
      ReadFrom tree frame vs
| _, _, _ => False

end Frame

/- The tokens are those of what is open. -/
theorem Frame.AllReadFrom.terminals_eq
    {trees : List OpenTree}
    {frames : List Frame}
    {ts : List Token}
    (hRead : AllReadFrom trees frames ts) :
    ts.map Token.terminal =
      OpenTree.terminalsAll trees := by
  induction trees generalizing frames ts with
  | nil =>
      cases frames with
      | nil =>
          rw [AllReadFrom] at hRead
          rw [hRead]
          rfl
      | cons frame frames =>
          exact hRead.elim
  | cons tree trees ih =>
      cases frames with
      | nil =>
          exact hRead.elim
      | cons frame frames =>
          rcases hRead with ⟨us, vs, rfl, hOuter, hOpen⟩
          rw [List.map_append, ih hOuter, hOpen.terminals]
          rfl

namespace Reading

/- What a reader holds was read from some tokens. -/
def ReadFrom :
    TreeReading →
    Reading →
    List Token →
    Prop
| .operand trees, .operand frames, ts =>
    Frame.AllReadFrom trees frames ts
| .operator trees d, .operator frames e, ts =>
    ∃ us vs,
      ts = us ++ vs ∧
      Frame.AllReadFrom trees frames us ∧
      d.ReadFrom e vs
| _, _, _ => False

end Reading

variable {t : Locals}
variable {trees : List OpenTree}
variable {frames : List Frame}
variable {d : ExprTree}
variable {e : Expr}
variable {ts : List Token}

/- What was opened last takes the operand. -/
theorem Reading.ReadFrom.fill
    {tree : OpenTree}
    {frame : Frame}
    {d' : ExprTree}
    {e' : Expr}
    {s : Span}
    (hRead :
      ReadFrom (.operator (tree :: trees) d)
        (.operator (frame :: frames) e) ts)
    (hOrder : Token.InOrder ts)
    (hTerminals :
      d'.terminals = tree.terminals ++ d.terminals)
    (hStart : frame.start = s.lo)
    (hSpan : e'.span = s.through e.span) :
    ReadFrom (.operator trees d') (.operator frames e')
      ts := by
  rcases hRead with
    ⟨_, vs, rfl, ⟨us, ws, rfl, hOuter, hOpen⟩, hOperand⟩
  rw [List.append_assoc] at hOrder
  have hInner : Token.InOrder (ws ++ vs) :=
    hOrder.sublist (List.sublist_append_right us _)
  have hOpens := hOpen.start
  rw [hStart] at hOpens
  refine ⟨us, ws ++ vs, List.append_assoc _ _ _, hOuter,
    ?_, ?_⟩
  · rw [List.map_append, hOpen.terminals,
      hOperand.terminals, hTerminals]
  · rw [hSpan]
    exact hOperand.covers.through hOpens hInner

/-
  A collapse only moves tokens from what is open to the
  operand.
-/
theorem Frame.collapse_readFrom
    (power : Nat)
    (hFrames : List.Forall₂ (Means t) trees frames)
    (hRead :
      Reading.ReadFrom (.operator trees d)
        (.operator frames e) ts)
    (hOrder : Token.InOrder ts) :
    Reading.ReadFrom
      (.operator (OpenTree.collapse power trees d).2
        (OpenTree.collapse power trees d).1)
      (.operator (collapse power frames e).2
        (collapse power frames e).1) ts := by
  induction hFrames generalizing d e with
  | nil =>
      exact hRead
  | @cons tree frame trees frames hFirst hRest ih =>
      match tree, frame, hFirst with
      | .sign negative, .sign negative' span, hFirst =>
          exact hRead
      | .paren, .paren span, hFirst =>
          exact hRead
      | .chain c l, .binary o lhs, hFirst =>
          rw [OpenTree.collapse, collapse,
            Connective.power_of_operator? hFirst.1]
          split
          · exact ih (hRead.fill hOrder rfl rfl
              (o.span_apply lhs e))
          · exact hRead
      | .assign d', .assign target, hFirst =>
          rw [OpenTree.collapse, collapse]
          split
          · exact ih (hRead.fill hOrder rfl rfl rfl)
          · exact hRead

/- An operator is the same to both readers. -/
theorem Token.connective_of_operator?
    (token : Token)
    {o : Operator}
    (hOperator : token.kind.operator? = some o) :
    ∃ c : Connective,
      token.terminal.connective? = some c ∧
      o.power = c.level.rank ∧
      token.terminal = .symbol c.kind := by
  have hSome := Connective.operator?_isSome token.kind
  rw [hOperator] at hSome
  rcases Option.isSome_iff_exists.mp hSome.symm with
    ⟨c, hKind⟩
  have hTerminal : token.terminal.connective? = some c := by
    rw [token.connective?_terminal, hKind]
  rw [Connective.kind_of_ofKind? hKind] at hOperator
  exact ⟨c, hTerminal,
    Connective.power_of_operator? hOperator,
    Terminal.eq_of_connective? hTerminal⟩

/- A sign that is read is open. -/
theorem TreeReading.eq_of_stepSign
    {q : TreeReading}
    (negative : Bool)
    (hStep :
      stepOperand trees
          (.symbol (if negative then .minus else .plus)) =
        some (.more q)) :
    q = operand (.sign negative :: trees) := by
  cases hSign : OpenTree.afterSign trees with
  | true =>
      cases negative <;>
        simp [stepOperand, hSign] at hStep
  | false =>
      have hRead := step_sign negative hSign
      rw [step, hStep] at hRead
      cases hRead
      rfl

namespace Reading

/- A finished operand takes the sign in front of it. -/
theorem ofPrimary_readFrom
    (hFrames : List.Forall₂ (Frame.Means t) trees frames)
    (hRead :
      ReadFrom (.operator trees d) (.operator frames e) ts)
    (hOrder : Token.InOrder ts) :
    ReadFrom (TreeReading.ofPrimary trees d)
      (ofPrimary frames e) ts := by
  cases hFrames with
  | nil =>
      exact hRead
  | @cons tree frame trees frames hFirst hRest =>
      match tree, frame, hFirst with
      | .sign false, .sign false span, _ =>
          exact hRead.fill hOrder rfl rfl
            (e.span_respan _)
      | .sign true, .sign true span, _ =>
          exact hRead.fill hOrder rfl rfl rfl
      | .paren, .paren _, _ | .chain _ _, .binary _ _, _
      | .assign _, .assign _, _ =>
          exact hRead

/- A sign that is read is open. -/
theorem eq_of_stepSign
    {t' : Locals}
    {token : Token}
    {r : Reading}
    (negative : Bool)
    (hKind : token.kind = if negative then .minus else .plus)
    (hStep : stepOperand frames t token = .ok (.more r t')) :
    r = operand (.sign negative token.span :: frames) := by
  match frames with
  | .sign _ _ :: _ =>
      cases negative <;> simp [stepOperand, hKind] at hStep
  | [] | .paren _ :: _ | .binary _ _ :: _ | .assign _ :: _ =>
      cases negative <;>
        simp only [stepOperand, hKind] at hStep <;>
        cases hStep <;>
        rfl

/- A token is the first of an operand. -/
theorem stepOperand_readFrom
    {t' : Locals}
    {token : Token}
    {q : TreeReading}
    {r : Reading}
    (hFrames : List.Forall₂ (Frame.Means t) trees frames)
    (hRead : Frame.AllReadFrom trees frames ts)
    (hOrder : Token.InOrder (ts ++ [token]))
    (hTree :
      TreeReading.stepOperand trees token.terminal =
        some (.more q))
    (hStep : stepOperand frames t token = .ok (.more r t')) :
    ReadFrom q r (ts ++ [token]) := by
  have hFits : token.span.len ≤ Span.maxLen :=
    hOrder.fits token (by simp)
  -- A token that opens something.
  have hOpen
      {tree : OpenTree}
      {frame : Frame}
      (hTerminals : [token.terminal] = tree.terminals)
      (hStart : token.span.lo = frame.start) :
      ReadFrom (.operand (tree :: trees))
        (.operand (frame :: frames)) (ts ++ [token]) :=
    ⟨ts, [token], rfl, hRead, hTerminals,
      token, rfl, hStart⟩
  -- A token that is an operand.
  have hPrimary
      {d : ExprTree}
      {e : Expr}
      (hTerminals : [token.terminal] = d.terminals)
      (hSpan : token.span = e.span) :
      ReadFrom (TreeReading.ofPrimary trees d)
        (ofPrimary frames e) (ts ++ [token]) := by
    refine ofPrimary_readFrom hFrames ?_ hOrder
    refine ⟨ts, [token], rfl, hRead, hTerminals, ?_⟩
    rw [← hSpan]
    exact Token.covers_singleton hFits
  cases hKind : token.kind with
  | number =>
      have hTerminal :
          token.terminal = .number token.lexeme := by
        rw [Token.terminal, hKind]
      rw [hTerminal] at hTree hPrimary
      simp only [stepOperand, hKind] at hStep
      cases hValue : Literal.read? token.lexeme with
      | none =>
          simp [hValue] at hStep
      | some value =>
          simp only [TreeReading.stepOperand, hValue,
            Option.isSome_some, if_true] at hTree hStep
          cases hTree
          cases hStep
          exact hPrimary rfl rfl
  | identifier =>
      have hTerminal :
          token.terminal = .name token.lexeme := by
        rw [Token.terminal, hKind]
      rw [hTerminal] at hTree hPrimary
      simp only [stepOperand, hKind] at hStep
      cases hTree
      cases hStep
      exact hPrimary rfl rfl
  | lparen =>
      have hTerminal : token.terminal = .symbol .lparen := by
        rw [Token.terminal, hKind]
      rw [hTerminal] at hTree hOpen
      simp only [stepOperand, hKind] at hStep
      cases hTree
      cases hStep
      exact hOpen rfl rfl
  | plus =>
      have hTerminal : token.terminal = .symbol .plus := by
        rw [Token.terminal, hKind]
      rw [hTerminal] at hTree hOpen
      cases TreeReading.eq_of_stepSign false hTree
      cases eq_of_stepSign false hKind hStep
      exact hOpen rfl rfl
  | minus =>
      have hTerminal : token.terminal = .symbol .minus := by
        rw [Token.terminal, hKind]
      rw [hTerminal] at hTree hOpen
      cases TreeReading.eq_of_stepSign true hTree
      cases eq_of_stepSign true hKind hStep
      exact hOpen rfl rfl
  | _ =>
      -- No other token starts an operand.
      simp [stepOperand, hKind] at hStep

/- A token after an operand opens what the operand is in. -/
theorem readFrom_push
    {tree : OpenTree}
    {frame : Frame}
    {token : Token}
    (hRead :
      ReadFrom (.operator trees d) (.operator frames e) ts)
    (hTerminals :
      tree.terminals = d.terminals ++ [token.terminal])
    (hStart : frame.start = e.span.lo) :
    ReadFrom (.operand (tree :: trees))
      (.operand (frame :: frames)) (ts ++ [token]) := by
  rcases hRead with ⟨us, vs, rfl, hOuter, hOperand⟩
  refine ⟨us, vs ++ [token], List.append_assoc _ _ _,
    hOuter, ?_, ?_⟩
  · rw [List.map_append, hOperand.terminals, hTerminals]
    rfl
  · rw [hStart]
    exact hOperand.covers.startAt.append [token]

/- A closing parenthesis takes the one that is open. -/
theorem readFrom_close
    {span : Span}
    {token : Token}
    (hRead :
      ReadFrom (.operator (.paren :: trees) d)
        (.operator (.paren span :: frames) e) ts)
    (hKind : token.kind = .rparen)
    (hOrder : Token.InOrder (ts ++ [token])) :
    ReadFrom (.operator trees (.paren d))
      (.operator frames
        (e.respan (span.through token.span)))
      (ts ++ [token]) := by
  have hFits : token.span.len ≤ Span.maxLen :=
    hOrder.fits token (by simp)
  have hTerminal : token.terminal = .symbol .rparen := by
    rw [Token.terminal, hKind]
  rcases hRead with
    ⟨_, vs, rfl, ⟨us, ws, rfl, hOuter, hOpen⟩, hOperand⟩
  have hInner : Token.InOrder (ws ++ vs ++ [token]) := by
    refine hOrder.sublist ?_
    rw [List.append_assoc us]
    exact (List.sublist_append_right us _).append_right _
  refine ⟨us, ws ++ vs ++ [token], by simp, hOuter, ?_, ?_⟩
  · simp only [List.map_append, hOpen.terminals,
      hOperand.terminals, List.map_cons, hTerminal]
    rfl
  · rw [Expr.span_respan]
    exact (Token.covers_singleton hFits).through
      (hOpen.start.append vs) hInner

section Operator

variable {t' : Locals}
variable {token : Token}
variable {q : TreeReading}
variable {r : Reading}

/- A closing parenthesis after an operand. -/
theorem stepRparen_readFrom
    (hFrames : List.Forall₂ (Frame.Means t) trees frames)
    (hMeans : d.Means t e)
    (hRead :
      ReadFrom (.operator trees d) (.operator frames e) ts)
    (hOrder : Token.InOrder (ts ++ [token]))
    (hKind : token.kind = .rparen)
    (hTree :
      TreeReading.stepOperator trees d token.terminal =
        some (.more q))
    (hStep :
      stepOperator frames e t token = .ok (.more r t')) :
    ReadFrom q r (ts ++ [token]) := by
  have hTerminal : token.terminal = .symbol .rparen := by
    rw [Token.terminal, hKind]
  have hWhole :=
    Frame.collapse_readFrom 0 hFrames hRead
      (hOrder.sublist (List.sublist_append_left ts _))
  have hRest := (Frame.collapse_means 0 hFrames hMeans).2
  simp only [TreeReading.stepOperator, hTerminal,
    Terminal.connective?, Connective.ofKind?, if_true]
    at hTree
  simp only [stepOperator, hKind, Kind.operator?] at hStep
  generalize OpenTree.collapse 0 trees d = a
    at hWhole hRest hTree
  generalize Frame.collapse 0 frames e = b
    at hWhole hRest hStep
  rcases a with ⟨d', trees'⟩
  rcases b with ⟨e', frames'⟩
  cases hRest with
  | nil =>
      cases hTree
  | @cons f g fs gs hFrame hRest =>
      cases f with
      | paren =>
          cases g with
          | paren span =>
              cases hTree
              cases hStep
              exact ofPrimary_readFrom hRest
                (readFrom_close hWhole hKind hOrder) hOrder
          | _ =>
              exact hFrame.elim
      | _ =>
          cases hTree

/- A token after an operand. -/
theorem stepOperator_readFrom
    (hFrames : List.Forall₂ (Frame.Means t) trees frames)
    (hMeans : d.Means t e)
    (hRead :
      ReadFrom (.operator trees d) (.operator frames e) ts)
    (hOrder : Token.InOrder (ts ++ [token]))
    (hTree :
      TreeReading.stepOperator trees d token.terminal =
        some (.more q))
    (hStep :
      stepOperator frames e t token = .ok (.more r t')) :
    ReadFrom q r (ts ++ [token]) := by
  have hCollapse (power : Nat) :=
    Frame.collapse_readFrom power hFrames hRead
      (hOrder.sublist (List.sublist_append_left ts _))
  cases hOperator : token.kind.operator? with
  | some o =>
      rcases token.connective_of_operator? hOperator with
        ⟨c, hConnective, hPower, hTerminal⟩
      simp only [TreeReading.stepOperator, hConnective]
        at hTree
      simp only [stepOperator, hOperator, hPower] at hStep
      cases hTree
      cases hStep
      refine readFrom_push (hCollapse _) ?_ rfl
      rw [hTerminal]
      rfl
  | none =>
      by_cases hAssign : token.kind = .assign
      · have hTerminal : token.terminal = .symbol .assign := by
          rw [Token.terminal, hAssign]
        simp only [TreeReading.stepOperator, hTerminal,
          Terminal.connective?, Connective.ofKind?, if_true]
          at hTree
        simp only [stepOperator, hAssign, Kind.operator?]
          at hStep
        split at hTree
        · split at hStep
          · cases hTree
            cases hStep
            refine readFrom_push (hCollapse 1) ?_ rfl
            rw [hTerminal]
            rfl
          · cases hStep
        · cases hTree
      by_cases hParen : token.kind = .rparen
      · exact stepRparen_readFrom hFrames hMeans hRead
          hOrder hParen hTree hStep
      · -- Any other token ends the expression.
        unfold stepOperator at hStep
        rw [hOperator] at hStep
        split at hStep
        · contradiction
        · contradiction
        · contradiction
        · cases hClose : (operator frames e).close token <;>
            rw [hClose] at hStep <;>
            cases hStep

end Operator

/- What was read is kept with every token. -/
theorem step_readFrom
    {t' : Locals}
    {token : Token}
    {q q' : TreeReading}
    {r r' : Reading}
    (hMeans : Means t q r)
    (hRead : ReadFrom q r ts)
    (hOrder : Token.InOrder (ts ++ [token]))
    (hTree : q.step token.terminal = some (.more q'))
    (hStep : r.step t token = .ok (.more r' t')) :
    ReadFrom q' r' (ts ++ [token]) := by
  match q, r, hMeans with
  | .operand trees, .operand frames, hFrames =>
      exact stepOperand_readFrom hFrames hRead hOrder hTree
        hStep
  | .operator trees d, .operator frames e,
      ⟨hFrames, hOperand⟩ =>
      exact stepOperator_readFrom hFrames hOperand hRead
        hOrder hTree hStep

/- The tokens are those of what the reader holds. -/
theorem ReadFrom.terminals_eq
    {q : TreeReading}
    {r : Reading}
    (hRead : ReadFrom q r ts) :
    ts.map Token.terminal = q.terminals := by
  match q, r, hRead with
  | .operand trees, .operand frames, hOpen =>
      exact Frame.AllReadFrom.terminals_eq hOpen
  | .operator trees d, .operator frames e,
      ⟨us, vs, hSplit, hOpen, hOperand⟩ =>
      rw [hSplit, List.map_append,
        Frame.AllReadFrom.terminals_eq hOpen,
        hOperand.terminals]
      rfl

end Reading

------------------------------------------------------------
-- Parsers
------------------------------------------------------------

namespace Parser

/-
  The tokens read last are those of the expression that is
  being read, if one is.
-/
def Tracks
    (q : TreeParser)
    (p : Parser)
    (ts : List Token) : Prop :=
  ∀ u rd u' rd',
    q.position = .inExpr u rd →
    p.position = .inExpr u' rd' →
    ∃ us vs, ts = us ++ vs ∧ Reading.ReadFrom rd rd' vs

variable {q q' : TreeParser}
variable {p p' : Parser}
variable {token : Token}

/- No expression is being read. -/
theorem tracks_of_ne
    (hPosition : ∀ u rd, p.position ≠ .inExpr u rd) :
    Tracks q p ts := by
  intro u rd u' rd' _ hParser
  exact absurd hParser (hPosition u' rd')

/- An expression is about to be read. -/
theorem tracks_start
    {u : TreePurpose}
    {u' : Purpose}
    (hTree : q.position = .inExpr u (.operand []))
    (hParser : p.position = .inExpr u' .start) :
    Tracks q p ts := by
  intro u₁ rd u₁' rd' hTree₁ hParser₁
  rw [hTree] at hTree₁
  rw [hParser] at hParser₁
  cases hTree₁
  cases hParser₁
  exact ⟨ts, [], (List.append_nil ts).symm, rfl⟩

/- A finished expression is not read any more. -/
theorem tracks_useExpr
    {u : Purpose}
    (hUse : p.useExpr u e token = .ok p') :
    Tracks q p' ts := by
  apply tracks_of_ne
  unfold useExpr Token.expect at hUse
  split at hUse
  · cases u <;> cases hUse <;> simp [goto, push]
  · cases hUse

/- A token of an expression. -/
theorem stepExpr_tracks
    {u : TreePurpose}
    {u' : Purpose}
    {rd : TreeReading}
    {rd' : Reading}
    {us vs : List Token}
    (hMeans : Reading.Means p.locals rd rd')
    (hRead : Reading.ReadFrom rd rd' vs)
    (hOrder : Token.InOrder (us ++ vs ++ [token]))
    (hTree : q.stepExpr u rd token.terminal = some q')
    (hStep : p.stepExpr u' rd' token = .ok p') :
    Tracks q' p' (us ++ vs ++ [token]) := by
  have hAgrees := Reading.step_agrees hMeans token
  rw [List.append_assoc] at hOrder ⊢
  unfold TreeParser.stepExpr at hTree
  unfold stepExpr at hStep
  rcases hAgrees.both with
    ⟨hNone, -⟩ | ⟨a, b, hTreeRead, hRead', hBoth⟩
  · rw [hNone] at hTree
    cases hTree
  rw [hTreeRead] at hTree
  rw [hRead'] at hStep
  cases a <;> cases b <;> try exact False.elim hBoth
  case more.more rd₁ rd₁' locals =>
    cases hTree
    cases hStep
    intro u₁ rd₂ u₁' rd₂' hTree₁ hParser₁
    cases hTree₁
    cases hParser₁
    refine ⟨us, vs ++ [token], rfl, ?_⟩
    exact Reading.step_readFrom hMeans hRead
      (hOrder.sublist (List.sublist_append_right us _))
      hTreeRead hRead'
  case done.done d e =>
    exact tracks_useExpr hStep

/- The first token of an expression. -/
theorem stepStart_tracks
    {u : TreePurpose}
    {u' : Purpose}
    (hOrder : Token.InOrder (ts ++ [token]))
    (hTree :
      q.stepExpr u (.operand []) token.terminal = some q')
    (hStep : p.stepExpr u' .start token = .ok p') :
    Tracks q' p' (ts ++ [token]) := by
  have hNothing :
      Reading.ReadFrom (.operand []) .start [] := rfl
  rw [← List.append_nil ts] at hOrder ⊢
  exact stepExpr_tracks (Reading.means_start p.locals)
    hNothing hOrder hTree hStep

/- The first token of a statement. -/
theorem stepStmt_tracks
    (hOrder : Token.InOrder (ts ++ [token]))
    (hTree : q.stepStmt token.terminal = some q')
    (hStep : p.stepStmt token = .ok p') :
    Tracks q' p' (ts ++ [token]) := by
  unfold TreeParser.stepStmt at hTree
  simp only [Token.terminal_eq_symbol_iff, ne_eq,
    reduceCtorEq, not_false_eq_true] at hTree
  cases hKind : token.kind with
  | kwReturn =>
      simp only [stepStmt, hKind, if_true] at hTree hStep
      cases hTree
      cases hStep
      exact tracks_start rfl rfl
  | kwIf | kwWhile | kwFor | lbrace =>
      simp only [stepStmt, hKind] at hStep
      cases hStep
      exact tracks_of_ne (by simp [goto, enterBlock])
  | _ =>
      -- Any other token is taken for an expression.
      simp only [stepStmt, hKind, reduceCtorEq, if_false]
        at hTree hStep
      exact stepStart_tracks hOrder hTree hStep

/- No statement starts with such a token. -/
theorem stepStmt_ne_ok
    (hKind : token.kind = .rbrace ∨ token.kind = .kwElse) :
    p.stepStmt token ≠ .ok p' := by
  rcases hKind with hBrace | hElse
  · simp [stepStmt, stepExpr, Reading.step, Reading.start,
      Reading.stepOperand, hBrace]
  · simp [stepStmt, stepExpr, Reading.step, Reading.start,
      Reading.stepOperand, hElse]

/- A token where a statement may start. -/
theorem stepBoundary_tracks
    (hOrder : Token.InOrder (ts ++ [token]))
    (hTree : q.stepBoundary token.terminal = some q')
    (hStep : p.stepBoundary token = .ok p') :
    Tracks q' p' (ts ++ [token]) := by
  unfold stepBoundary at hStep
  split at hStep
  · cases hStep
    exact tracks_of_ne (by simp)
  · cases hStep
  · cases hStep
    exact tracks_of_ne (by simp [goto])
  · by_cases hBrace : token.kind = .rbrace
    · exact absurd hStep (stepStmt_ne_ok (.inl hBrace))
    · rw [TreeParser.stepBoundary_eq_stepStmt q fun h =>
        hBrace (Token.kind_of_terminal h)] at hTree
      exact stepStmt_tracks hOrder hTree hStep

/- A token after a finished statement. -/
theorem stepAfter_tracks
    {s : StmtTree}
    {a : Stmt}
    (hOrder : Token.InOrder (ts ++ [token]))
    (hTree : q.stepAfter s token.terminal = some q')
    (hStep : p.stepAfter a token = .ok p') :
    Tracks q' p' (ts ++ [token]) := by
  by_cases hElse : token.kind = .kwElse
  · -- An `else` is never part of an expression.
    unfold stepAfter at hStep
    split at hStep
    · cases hStep
      exact tracks_of_ne (by simp)
    · have hStmt : (p.settle a).stepStmt token = .ok p' := by
        simpa [stepBoundary, settle, hElse] using hStep
      exact absurd hStmt (stepStmt_ne_ok (.inr hElse))
  · have hOther : token.terminal ≠ .symbol .kwElse :=
      fun h => hElse (Token.kind_of_terminal h)
    unfold TreeParser.stepAfter at hTree
    rw [if_neg hOther] at hTree
    have hSettled :
        (p.settle a).stepBoundary token = .ok p' := by
      unfold stepAfter at hStep
      split at hStep
      · contradiction
      · exact hStep
    exact stepBoundary_tracks hOrder hTree hSettled

/- What was read is kept with every token. -/
theorem step_tracks
    (hMeans : Means q p)
    (hTracks : Tracks q p ts)
    (hOrder : Token.InOrder (ts ++ [token]))
    (hTree : q.step token.terminal = some q')
    (hStep : p.step token = .ok p') :
    Tracks q' p' (ts ++ [token]) := by
  have hPosition := hMeans.position
  unfold TreeParser.step at hTree
  unfold step at hStep
  simp only [Token.terminal_eq_symbol_iff, ne_eq,
    reduceCtorEq, not_false_eq_true] at hTree
  cases hTreeCase : q.position <;>
    cases hCase : p.position <;>
    rw [hTreeCase, hCase] at hPosition <;>
    simp only [hTreeCase] at hTree <;>
    simp only [hCase] at hStep <;>
    try exact False.elim hPosition
  case boundary.boundary =>
      exact stepBoundary_tracks hOrder hTree hStep
  case afterStmt.afterStmt s a =>
      exact stepAfter_tracks hOrder hTree hStep
  case beforeHead.beforeHead head head' start =>
      cases hPosition
      by_cases hKind : token.kind = .lparen
      · rw [if_pos hKind] at hTree
        rw [Token.expect, if_pos hKind] at hStep
        cases head with
        | ifHead | whileHead =>
            cases hTree
            cases hStep
            exact tracks_start rfl rfl
        | forHead =>
            cases hStep
            exact tracks_of_ne (by simp [goto])
      · rw [if_neg hKind] at hTree
        cases hTree
  case beforeInit.beforeInit =>
      by_cases hKind : token.kind = .semicolon
      · rw [if_pos hKind] at hStep
        cases hStep
        exact tracks_of_ne (by simp [goto])
      · rw [if_neg hKind] at hTree hStep
        exact stepStart_tracks hOrder hTree hStep
  case beforePredicate.beforePredicate =>
      by_cases hKind : token.kind = .semicolon
      · rw [if_pos hKind] at hStep
        cases hStep
        exact tracks_of_ne (by simp [goto])
      · rw [if_neg hKind] at hTree hStep
        exact stepStart_tracks hOrder hTree hStep
  case beforeStep.beforeStep =>
      by_cases hKind : token.kind = .rparen
      · rw [if_pos hKind] at hStep
        cases hStep
        exact tracks_of_ne (by simp [push])
      · rw [if_neg hKind] at hTree hStep
        exact stepStart_tracks hOrder hTree hStep
  case inExpr.inExpr u rd u' rd' =>
      rcases hTracks u rd u' rd' hTreeCase hCase with
        ⟨us, vs, rfl, hRead⟩
      exact stepExpr_tracks hPosition.2 hRead hOrder hTree
        hStep

end Parser

end WordLang
