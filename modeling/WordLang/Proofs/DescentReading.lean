import WordLang.Proofs.Descent
import WordLang.Proofs.PhraseReading

/-
  This file compares the procedures for expressions with the
  reader that takes one token at a time.

  Where the procedure of a level reads an operand and stops
  before a token, the reader comes to a state in which that
  token finds the operand in one piece. Where the procedure
  fails, so does the reader, with the same error. The cursor
  moves forward, but not past the first end of input, and
  the limits are enough if they allow for the tokens that
  are left.

  Key definitions include:
    * `WordLang.TokenStream.firstEof`
    * `WordLang.Reading.Follows`
    * `WordLang.Token.Closes`
    * `WordLang.Descent.Moves`
    * `WordLang.Descent.Short`
    * `WordLang.Descent.ReadsOperand`

  Key theorems include:
    * `WordLang.Reading.step_eq_of_collapse`
    * `WordLang.Descent.readsOperand_chain`
    * `WordLang.Descent.reads_levels`
    * `WordLang.Descent.readsOperand_expr`
-/

namespace WordLang

------------------------------------------------------------
-- The First End of Input
------------------------------------------------------------

namespace TokenStream

/- The index of the first end of input. -/
def firstEof
    (s : TokenStream) : Nat :=
  s.toList.findIdx Token.isEof

variable {s : TokenStream}
variable {i : Nat}

/- A stream has a token at each index up to its last one. -/
theorem getElem?_toList
    (hIndex : i ≤ s.tokens.length) :
    s.toList[i]? = some (s.peek i) := by
  unfold toList peek
  rw [List.getD_eq_getElem?_getD]
  rcases Nat.lt_or_eq_of_le hIndex with hInside | rfl
  · rw [List.getElem?_append_left hInside,
      List.getElem?_eq_getElem hInside]
    rfl
  · simp

theorem firstEof_le
    (s : TokenStream) :
    s.firstEof ≤ s.tokens.length := by
  have hSome : ∃ t ∈ s.toList, t.isEof = true :=
    ⟨s.stop, by simp [toList], s.isEof_stop⟩
  have hLt := List.findIdx_lt_length_of_exists hSome
  have hLength : s.toList.length = s.tokens.length + 1 := by
    simp [toList]
  unfold firstEof
  omega

theorem isEof_peek_firstEof
    (s : TokenStream) :
    (s.peek s.firstEof).isEof = true := by
  have hToken := getElem?_toList s.firstEof_le
  rcases List.getElem?_eq_some_iff.mp hToken with
    ⟨hInside, hEq⟩
  rw [← hEq]
  exact List.findIdx_getElem

theorem isEof_peek_of_lt
    (hIndex : i < s.firstEof) :
    (s.peek i).isEof = false := by
  have hInside : i ≤ s.tokens.length :=
    Nat.le_of_lt (Nat.lt_of_lt_of_le hIndex s.firstEof_le)
  have hToken := getElem?_toList hInside
  rcases List.getElem?_eq_some_iff.mp hToken with
    ⟨hInside, hEq⟩
  rw [← hEq]
  exact List.not_of_lt_findIdx hIndex

/- A token that does not end the input is before the end. -/
theorem lt_firstEof
    (hIndex : i ≤ s.firstEof)
    (hEof : (s.peek i).isEof = false) :
    i < s.firstEof := by
  rcases Nat.lt_or_eq_of_le hIndex with hLt | rfl
  · exact hLt
  · rw [s.isEof_peek_firstEof] at hEof
    cases hEof

/- What is left of a stream starts with its next token. -/
theorem drop_tokens
    (hIndex : i < s.tokens.length) :
    s.tokens.drop i =
      s.peek i :: s.tokens.drop (i + 1) := by
  rw [List.drop_eq_getElem_cons hIndex, peek,
    List.getD_eq_getElem?_getD,
    List.getElem?_eq_getElem hIndex, Option.getD_some]

/- Behind the last token, only the end is left. -/
theorem peek_of_le
    (hIndex : s.tokens.length ≤ i) :
    s.peek i = s.stop := by
  rw [peek, List.getD_eq_getElem?_getD,
    List.getElem?_eq_none hIndex, Option.getD_none]

end TokenStream

------------------------------------------------------------
-- Reading On
------------------------------------------------------------

namespace Reading

variable {s : TokenStream}
variable {β : Type}
variable {resume : Reading → Locals → Nat → Parsed β}
variable {finish : Expr → Locals → Nat → Parsed β}

/-
  What comes of reading on from a state, with a table and at
  an index, is what comes of it after one step more. When an
  expression is complete, something else goes on with it.
-/
def Follows
    (s : TokenStream)
    (resume : Reading → Locals → Nat → Parsed β)
    (finish : Expr → Locals → Nat → Parsed β) : Prop :=
  ∀ r t i,
    resume r t i =
      match r.step t (s.peek i) with
      | .error e => .error e
      | .ok (.more r' t') => resume r' t' (i + 1)
      | .ok (.done e) => finish e t i

namespace Follows

variable {r r' : Reading}
variable {t t' : Locals}
variable {i : Nat}

theorem more
    (hFollows : Follows s resume finish)
    (hStep : r.step t (s.peek i) = .ok (.more r' t')) :
    resume r t i = resume r' t' (i + 1) := by
  rw [hFollows r t i, hStep]

theorem error
    {e : Located ParseError}
    (hFollows : Follows s resume finish)
    (hStep : r.step t (s.peek i) = .error e) :
    resume r t i = .error e := by
  rw [hFollows r t i, hStep]

theorem done
    {e : Expr}
    (hFollows : Follows s resume finish)
    (hStep : r.step t (s.peek i) = .ok (.done e)) :
    resume r t i = finish e t i := by
  rw [hFollows r t i, hStep]

/- States that the next token makes one. -/
theorem congr
    (hFollows : Follows s resume finish)
    (hStep : r.step t (s.peek i) = r'.step t (s.peek i)) :
    resume r t i = resume r' t i := by
  rw [hFollows r t i, hFollows r' t i, hStep]

end Follows

end Reading

namespace Token

/-
  The strength with which a token collapses what is open to
  its left.
-/
def demand
    (t : Token) : Nat :=
  match t.kind.operator? with
  | some o => o.power
  | none => if t.kind = .assign then 1 else 0

/-
  The token `t` does not go on with an operand that binds at
  least as strongly as `n`.
-/
structure Closes
    (t : Token)
    (n : Nat) : Prop where
  operator : ∀ o, t.kind.operator? = some o → o.power < n
  assign : n = 0 → t.kind ≠ .assign

/- Nothing goes on with a complete expression. -/
theorem Closes.operator?_eq_none
    {t : Token}
    (hCloses : t.Closes 0) :
    t.kind.operator? = none := by
  cases hOperator : t.kind.operator? with
  | none => rfl
  | some o =>
      exact absurd (hCloses.operator o hOperator)
        (Nat.not_lt_zero _)

theorem Closes.demand_eq_zero
    {t : Token}
    (hCloses : t.Closes 0) :
    t.demand = 0 := by
  unfold demand
  rw [hCloses.operator?_eq_none]
  simp only [hCloses.assign rfl, if_false]

theorem Closes.demand_le
    {t : Token}
    {n : Nat}
    (hCloses : t.Closes (n + 1))
    (hPos : 1 ≤ n) :
    t.demand ≤ n := by
  unfold demand
  split
  · rename_i o hOperator
    exact Nat.le_of_lt_succ (hCloses.operator o hOperator)
  · split <;> omega

/- Operators have one of four strengths. -/
theorem power_of_operator?
    {k : Kind}
    {o : Operator}
    (hOperator : k.operator? = some o) :
    1 ≤ o.power ∧ o.power ≤ 4 := by
  cases k <;> cases hOperator <;> decide

/- No operator goes on with an operand that has a sign. -/
theorem closes_five
    (t : Token) :
    t.Closes 5 where
  operator o hOperator := by
    have hBounds := power_of_operator? hOperator
    omega
  assign hZero := by cases hZero

end Token

namespace Reading

/-
  A token sees what is open to its left only as far as it
  collapses it.
-/
theorem step_eq_of_collapse
    {frames frames' : List Frame}
    {e e' : Expr}
    {token : Token}
    (t : Locals)
    (hCollapse :
      Frame.collapse token.demand frames e =
        Frame.collapse token.demand frames' e') :
    (operator frames e).step t token =
      (operator frames' e').step t token := by
  unfold Token.demand at hCollapse
  simp only [step, stepOperator]
  cases hOperator : token.kind.operator? with
  | some o =>
      simp only [hOperator] at hCollapse
      simp only [hCollapse]
  | none =>
      simp only [hOperator] at hCollapse
      by_cases hAssign : token.kind = .assign
      · simp only [hAssign, if_true] at hCollapse
        simp only [hAssign, hCollapse]
      · simp only [hAssign, if_false] at hCollapse
        split
        · rename_i hSome
          cases hSome
        · contradiction
        · rw [hCollapse]
        · simp only [close, hCollapse]

/- An operator takes the operand behind it. -/
theorem step_binary
    {o : Operator}
    {token : Token}
    (t : Locals)
    (lhs rhs : Expr)
    (frames : List Frame)
    (hPower : 1 ≤ o.power)
    (hCloses : token.Closes (o.power + 1)) :
    (operator (.binary o lhs :: frames) rhs).step t token =
      (operator frames (o.apply lhs rhs)).step t token := by
  apply step_eq_of_collapse
  rw [Frame.collapse, if_pos (hCloses.demand_le hPower)]

/- An assignment takes the value behind it. -/
theorem step_store
    {token : Token}
    (t : Locals)
    (target value : Expr)
    (frames : List Frame)
    (hCloses : token.Closes 0) :
    (operator (.assign target :: frames) value).step t
        token =
      (operator frames (.store target value)).step t
        token := by
  apply step_eq_of_collapse
  rw [Frame.collapse, if_pos hCloses.demand_eq_zero]

/- A complete expression is handed over. -/
theorem step_complete
    {token : Token}
    (t : Locals)
    (e : Expr)
    (hCloses : token.Closes 0) :
    (operator [] e).step t token = .ok (.done e) := by
  have hAssign := hCloses.assign rfl
  simp only [step, stepOperator, hCloses.operator?_eq_none]
  split
  · rename_i hSome
    cases hSome
  · contradiction
  · rfl
  · rfl

/- An open parenthesis has to be closed. -/
theorem step_unclosed
    {token : Token}
    (t : Locals)
    (span : Span)
    (frames : List Frame)
    (e : Expr)
    (hCloses : token.Closes 0)
    (hParen : token.kind ≠ .rparen) :
    (operator (.paren span :: frames) e).step t token =
      .error ⟨.mismatch token.kind .rparen, token.span⟩ := by
  have hAssign := hCloses.assign rfl
  simp only [step, stepOperator, hCloses.operator?_eq_none]
  rfl

end Reading

------------------------------------------------------------
-- What a Call Does
------------------------------------------------------------

namespace Descent

open Reading (Follows)

/-
  The cursor has moved forward, and not past the first end
  of input.
-/
structure Moves
    (s : TokenStream)
    (d d' : State) : Prop where
  forward : d.index < d'.index
  barrier : d'.index ≤ s.firstEof

theorem Moves.trans_le
    {s : TokenStream}
    {d d₁ d' : State}
    (hFirst : Moves s d d₁)
    (hLe : d₁.index ≤ d'.index)
    (hBarrier : d'.index ≤ s.firstEof) :
    Moves s d d' :=
  ⟨Nat.lt_of_lt_of_le hFirst.forward hLe, hBarrier⟩

theorem Moves.trans
    {s : TokenStream}
    {d d₁ d' : State}
    (hFirst : Moves s d d₁)
    (hSecond : Moves s d₁ d') :
    Moves s d d' :=
  hFirst.trans_le (Nat.le_of_lt hSecond.forward)
    hSecond.barrier

/- A token that does not end the input moves the cursor. -/
theorem moves_next
    {s : TokenStream}
    {d : State}
    (hIndex : d.index ≤ s.firstEof)
    (hEof : (s.peek d.index).isEof = false) :
    Moves s d d.next :=
  ⟨Nat.lt_succ_self _,
    TokenStream.lt_firstEof hIndex hEof⟩

/- More tokens are left than the limits allow for. -/
def Short
    (s : TokenStream)
    (passes depth : Nat)
    (d : State) : Prop :=
  passes < s.firstEof - d.index ∨
    depth ≤ s.firstEof - d.index

theorem Short.mono
    {s : TokenStream}
    {passes depth : Nat}
    {d d' : State}
    (hShort : Short s passes depth d')
    (hLe : d.index ≤ d'.index) :
    Short s passes depth d := by
  unfold Short at hShort ⊢
  omega

/- A call that was made behind a token needs less. -/
theorem Short.of_moves
    {s : TokenStream}
    {passes depth : Nat}
    {d d' : State}
    (hShort : Short s passes depth d')
    (hMoves : Moves s d d') :
    Short s passes (depth + 1) d := by
  have hForward := hMoves.forward
  have hBarrier := hMoves.barrier
  unfold Short at hShort ⊢
  omega

/- What is open waits for an operand of the strength `n`. -/
structure Waits
    (frames : List Frame)
    (n : Nat) : Prop where
  stops : Frame.Stops frames n
  unsigned : Frame.afterSign frames = false

theorem Waits.mono
    {frames : List Frame}
    {m n : Nat}
    (hWaits : Waits frames m)
    (hLe : m ≤ n) :
    Waits frames n :=
  ⟨hWaits.stops.mono hLe, hWaits.unsigned⟩

section Operands

variable {β : Type}
variable {s : TokenStream}
variable {resume : Reading → Locals → Nat → Parsed β}
variable {finish : Expr → Locals → Nat → Parsed β}
variable {passes depth : Nat}

/-
  An operand of the strength `n` was read. Whatever is open
  to the left of it, the reader comes to hold it too.
-/
structure OperandTaken
    (s : TokenStream)
    (resume : Reading → Locals → Nat → Parsed β)
    (n : Nat)
    (d : State)
    (e : Expr)
    (d' : State) : Prop where
  moves : Moves s d d'
  closes : (s.peek d'.index).Closes n
  resumes :
    ∀ frames,
      Waits frames n →
      resume (.operand frames) d.locals d.index =
        resume (.operator frames e) d'.locals d'.index

/- The reader does not take an operand either. -/
def OperandRefused
    (resume : Reading → Locals → Nat → Parsed β)
    (n : Nat)
    (d : State)
    (error : Located ParseError) : Prop :=
  ∀ frames,
    Waits frames n →
    resume (.operand frames) d.locals d.index = .error error

/- The call reads an operand of the strength `n`. -/
def ReadsOperand
    (s : TokenStream)
    (resume : Reading → Locals → Nat → Parsed β)
    (passes depth n : Nat)
    (x : Call Expr) : Prop :=
  ∀ d,
    d.index ≤ s.firstEof →
    x.Ends d (OperandTaken s resume n d)
      (OperandRefused resume n d) (Short s passes depth d)

/-
  The call reads a primary. The sign in front of it is read
  before the call, so a sign is an error.
-/
def ReadsPrimary
    (s : TokenStream)
    (resume : Reading → Locals → Nat → Parsed β)
    (passes depth : Nat)
    (x : Call Expr) : Prop :=
  ∀ d,
    d.index ≤ s.firstEof →
    x.Ends d
      (fun e d' =>
        Moves s d d' ∧
        ∀ frames,
          resume (.operand frames) d.locals d.index =
            resume (.ofPrimary frames e) d'.locals d'.index)
      (fun error =>
        ∀ frames,
          (Frame.afterSign frames = false →
            (s.peek d.index).kind ≠ .plus ∧
              (s.peek d.index).kind ≠ .minus) →
          resume (.operand frames) d.locals d.index =
            .error error)
      (Short s passes depth d)

/- A token that no operand starts with is an error. -/
theorem step_noOperand
    {frames : List Frame}
    {t : Token}
    (locals : Locals)
    (hNumber : t.kind ≠ .number)
    (hName : t.kind ≠ .identifier)
    (hParen : t.kind ≠ .lparen)
    (hSign :
      Frame.afterSign frames = false →
      t.kind ≠ .plus ∧ t.kind ≠ .minus) :
    (Reading.operand frames).step locals t =
      .error ⟨.noOperand t.kind, t.span⟩ := by
  unfold Reading.step Reading.stepOperand
  unfold Frame.afterSign at hSign
  grind

/- A primary is read, with what is in its parentheses. -/
theorem readsPrimary_primary
    {inner : Call Expr}
    (hFollows : Follows s resume finish)
    (hInner : ReadsOperand s resume passes depth 0 inner) :
    ReadsPrimary s resume passes (depth + 1)
      (primary s inner) := by
  intro d hIndex
  -- A token that a primary starts with is read.
  have hReads
      {kind : Kind}
      (hKind : (s.peek d.index).kind = kind)
      (hEof : kind ≠ .eof) :
      (if (s.peek d.index).isEof then d else d.next) =
          d.next ∧
        Moves s d d.next := by
    have hToken := isEof_eq_false hKind hEof
    exact ⟨if_neg (by simp [hToken]),
      moves_next hIndex hToken⟩
  unfold primary
  rw [ends_advance_any]
  split
  · rename_i hKind
    rcases hReads hKind (by decide) with ⟨hState, hNext⟩
    rw [hState]
    cases hRead :
        Literal.read? (s.peek d.index).lexeme with
    | some value =>
        refine Call.ends_pure.mpr ⟨hNext, ?_⟩
        intro frames
        apply hFollows.more
        simp only [Reading.step, Reading.stepOperand, hKind,
          hRead]
        rfl
    | none =>
        intro frames _
        apply hFollows.error
        simp only [Reading.step, Reading.stepOperand, hKind,
          hRead]
  · rename_i hKind
    rcases hReads hKind (by decide) with ⟨hState, hNext⟩
    rw [hState, Call.ends_bind]
    refine ⟨⟨hNext.forward, hNext.barrier⟩, ?_⟩
    intro frames
    apply hFollows.more
    simp only [Reading.step, Reading.stepOperand, hKind]
    rfl
  · rename_i hKind
    rcases hReads hKind (by decide) with ⟨hState, hNext⟩
    rw [hState]
    have hOpen (frames : List Frame) :
        resume (.operand frames) d.locals d.index =
          resume
            (.operand
              (.paren (s.peek d.index).span :: frames))
            d.next.locals d.next.index :=
      hFollows.more (Reading.step_lparen ⟨_, hKind⟩)
    have hWaits (frames : List Frame) :
        Waits (.paren (s.peek d.index).span :: frames) 0 :=
      ⟨Frame.stops_paren _ _, rfl⟩
    refine (hInner d.next hNext.barrier).bind ?_ ?_ ?_
    · intro error hError frames _
      rw [hOpen]
      exact hError _ (hWaits frames)
    · intro hShort
      exact hShort.of_moves hNext
    · intro e d' hTaken
      apply ends_expect (by decide)
      · intro hParen
        have hLast :=
          moves_next hTaken.moves.barrier
            (isEof_eq_false hParen (by decide))
        refine Call.ends_pure.mpr
          ⟨(hNext.trans hTaken.moves).trans hLast, ?_⟩
        intro frames
        rw [hOpen, hTaken.resumes _ (hWaits frames)]
        exact hFollows.more
          (Reading.step_rparen ⟨_, hParen⟩ rfl)
      · intro hParen frames _
        rw [hOpen, hTaken.resumes _ (hWaits frames)]
        exact hFollows.error
          (Reading.step_unclosed _ _ _ _ hTaken.closes
            hParen)
  · rename_i hNumber hName hParen
    intro frames hSign
    exact hFollows.error
      (step_noOperand d.locals hNumber hName hParen hSign)

/- A sign and the primary behind it are read. -/
theorem ends_signed
    {inner : Call Expr}
    {d : State}
    (negative : Bool)
    (hFollows : Follows s resume finish)
    (hPrimary :
      ReadsPrimary s resume passes depth (primary s inner))
    (hIndex : d.index ≤ s.firstEof)
    (hKind : (s.peek d.index).kind = .ofSign negative) :
    (advance s >>= fun _ =>
      primary s inner >>= fun e =>
        pure (e.withSign (s.peek d.index).span
          negative)).Ends d
      (OperandTaken s resume 5 d)
      (OperandRefused resume 5 d)
      (Short s passes depth d) := by
  have hEof : (s.peek d.index).isEof = false :=
    isEof_eq_false hKind (by cases negative <;> decide)
  have hNext := moves_next hIndex hEof
  have hOpen
      {frames : List Frame}
      (hWaits : Waits frames 5) :
      resume (.operand frames) d.locals d.index =
        resume
          (.operand
            (.sign negative (s.peek d.index).span :: frames))
          d.next.locals d.next.index :=
    hFollows.more
      (Reading.step_sign ⟨_, hKind⟩ hWaits.unsigned)
  rw [ends_advance hEof]
  refine (hPrimary d.next hNext.barrier).bind ?_ ?_ ?_
  · intro error hError frames hWaits
    rw [hOpen hWaits]
    exact hError _ (fun hUnsigned => nomatch hUnsigned)
  · intro hShort
    exact hShort.mono (Nat.le_of_lt hNext.forward)
  · rintro e d' ⟨hMoves, hTaken⟩
    refine Call.ends_pure.mpr
      ⟨hNext.trans hMoves, Token.closes_five _, ?_⟩
    intro frames hWaits
    rw [hOpen hWaits, hTaken, Reading.ofPrimary_sign]

theorem readsOperand_unary
    {inner : Call Expr}
    (hFollows : Follows s resume finish)
    (hPrimary :
      ReadsPrimary s resume passes depth
        (primary s inner)) :
    ReadsOperand s resume passes depth 5
      (unary s inner) := by
  intro d hIndex
  unfold unary
  rw [ends_look]
  split
  · rename_i hKind
    exact ends_signed false hFollows hPrimary hIndex hKind
  · rename_i hKind
    exact ends_signed true hFollows hPrimary hIndex hKind
  · rename_i hPlus hMinus
    refine (hPrimary d hIndex).imp ?_ ?_ id
    · rintro e d' ⟨hMoves, hTaken⟩
      refine ⟨hMoves, Token.closes_five _, ?_⟩
      intro frames hWaits
      rw [hTaken,
        Reading.ofPrimary_eq_operator e hWaits.unsigned]
    · intro error hError frames _
      exact hError frames (fun _ => ⟨hPlus, hMinus⟩)

------------------------------------------------------------
-- Operators
------------------------------------------------------------

theorem operatorAt?_eq_some
    {level : Nat}
    {t : Token}
    {o : Operator}
    (hOperator : operatorAt? level t = some o) :
    t.kind.operator? = some o ∧ o.power = level := by
  unfold operatorAt? at hOperator
  rcases Option.filter_eq_some_iff.mp hOperator with
    ⟨hSome, hPower⟩
  exact ⟨hSome, of_decide_eq_true hPower⟩

theorem isEof_of_operatorAt?
    {level : Nat}
    {t : Token}
    {o : Operator}
    (hOperator : operatorAt? level t = some o) :
    t.isEof = false := by
  rcases operatorAt?_eq_some hOperator with ⟨hSome, -⟩
  apply isEof_eq_false rfl
  intro hEof
  rw [hEof] at hSome
  cases hSome

/- A chain ends before a token that is not of its level. -/
theorem closes_of_operatorAt?
    {level : Nat}
    {t : Token}
    (hLevel : 1 ≤ level)
    (hCloses : t.Closes (level + 1))
    (hOperator : operatorAt? level t = none) :
    t.Closes level where
  operator o hSome := by
    have hPower := hCloses.operator o hSome
    have hOther : o.power ≠ level := by
      intro hEq
      rw [operatorAt?, hSome] at hOperator
      simp [Option.filter, hEq] at hOperator
    omega
  assign hZero := by omega

/-
  The operands of a chain are read one by one. Each of them
  is taken in by the operator in front of it.
-/
theorem ends_chainFrom
    {level : Nat}
    {operand : Call Expr}
    (hFollows : Follows s resume finish)
    (hLevel : 1 ≤ level)
    (hOperand :
      ReadsOperand s resume passes depth (level + 1) operand)
    (n : Nat)
    {lhs : Expr}
    {d : State}
    (hIndex : d.index ≤ s.firstEof)
    (hCloses : (s.peek d.index).Closes (level + 1)) :
    (chainFrom s level operand n lhs).Ends d
      (fun e d' =>
        d.index ≤ d'.index ∧
        d'.index ≤ s.firstEof ∧
        (s.peek d'.index).Closes level ∧
        ∀ frames,
          Waits frames level →
          resume (.operator frames lhs) d.locals d.index =
            resume (.operator frames e) d'.locals d'.index)
      (fun error =>
        ∀ frames,
          Waits frames level →
          resume (.operator frames lhs) d.locals d.index =
            .error error)
      (n < s.firstEof - d.index ∨
        Short s passes depth d) := by
  induction n generalizing lhs d with
  | zero =>
      rw [chainFrom, ends_look]
      split
      · rename_i hNone
        exact ⟨Nat.le_refl _, hIndex,
          closes_of_operatorAt? hLevel hCloses hNone,
          fun _ _ => rfl⟩
      · rename_i hSome
        have hEof := isEof_of_operatorAt? hSome
        have hLt := TokenStream.lt_firstEof hIndex hEof
        exact .inl (by omega)
  | succ n ih =>
      rw [chainFrom, ends_look]
      split
      · rename_i hNone
        exact ⟨Nat.le_refl _, hIndex,
          closes_of_operatorAt? hLevel hCloses hNone,
          fun _ _ => rfl⟩
      · rename_i o hSome
        have hEof := isEof_of_operatorAt? hSome
        have hNext := moves_next hIndex hEof
        rcases operatorAt?_eq_some hSome with
          ⟨hOperator, hPower⟩
        have hOpen
            {frames : List Frame}
            (hWaits : Waits frames level) :
            resume (.operator frames lhs) d.locals d.index =
              resume (.operand (.binary o lhs :: frames))
                d.next.locals d.next.index := by
          apply hFollows.more
          simp only [Reading.step, Reading.stepOperator,
            hOperator, hPower,
            hWaits.stops level (Nat.le_refl _) hLevel]
          rfl
        have hInner (frames : List Frame) :
            Waits (.binary o lhs :: frames) (level + 1) :=
          ⟨hPower ▸ Frame.stops_binary o lhs frames, rfl⟩
        rw [ends_advance hEof]
        refine (hOperand d.next hNext.barrier).bind ?_ ?_ ?_
        · intro error hError frames hWaits
          rw [hOpen hWaits]
          exact hError _ (hInner frames)
        · intro hShort
          exact .inr
            (hShort.mono (Nat.le_of_lt hNext.forward))
        · intro rhs d₁ hTaken
          have hMoves := hNext.trans hTaken.moves
          have hForward := hMoves.forward
          have hJoin
              {frames : List Frame}
              (hWaits : Waits frames level) :
              resume (.operator frames lhs) d.locals
                  d.index =
                resume (.operator frames (o.apply lhs rhs))
                  d₁.locals d₁.index := by
            rw [hOpen hWaits,
              hTaken.resumes _ (hInner frames)]
            apply hFollows.congr
            exact Reading.step_binary _ _ _ _ (by omega)
              (by rw [hPower]; exact hTaken.closes)
          refine (ih hMoves.barrier hTaken.closes).imp
            ?_ ?_ ?_
          · rintro e d' ⟨hLe, hBarrier, hStops, hResumes⟩
            refine ⟨by omega, hBarrier, hStops, ?_⟩
            intro frames hWaits
            rw [hJoin hWaits, hResumes frames hWaits]
          · intro error hError frames hWaits
            rw [hJoin hWaits, hError frames hWaits]
          · rintro (hPasses | hShort)
            · exact .inl (by omega)
            · exact .inr (hShort.mono (by omega))

theorem readsOperand_chain
    {level : Nat}
    {operand : Call Expr}
    (hFollows : Follows s resume finish)
    (hLevel : 1 ≤ level)
    (hOperand :
      ReadsOperand s resume passes depth (level + 1)
        operand) :
    ReadsOperand s resume passes depth level
      (chain s passes level operand) := by
  intro d hIndex
  -- What is open to the left is weaker than the level, and
  -- all the more so than the operands of the chain.
  have hWeaker : level ≤ level + 1 := Nat.le_succ _
  unfold chain
  refine (hOperand d hIndex).bind ?_ id ?_
  · intro error hError frames hWaits
    exact hError frames (hWaits.mono hWeaker)
  · intro lhs d₁ hTaken
    have hForward := hTaken.moves.forward
    refine (ends_chainFrom hFollows hLevel hOperand passes
      hTaken.moves.barrier hTaken.closes).imp ?_ ?_ ?_
    · rintro e d' ⟨hLe, hBarrier, hStops, hResumes⟩
      refine ⟨hTaken.moves.trans_le hLe hBarrier, hStops, ?_⟩
      intro frames hWaits
      rw [hTaken.resumes frames (hWaits.mono hWeaker),
        hResumes frames hWaits]
    · intro error hError frames hWaits
      rw [hTaken.resumes frames (hWaits.mono hWeaker),
        hError frames hWaits]
    · rintro (hPasses | hShort)
      · exact .inl (by omega)
      · exact hShort.mono (Nat.le_of_lt hForward)

/- Every level that is stronger than assignment is read. -/
theorem reads_levels
    {inner : Call Expr}
    (hFollows : Follows s resume finish)
    (hInner : ReadsOperand s resume passes depth 0 inner) :
    ReadsPrimary s resume passes (depth + 1)
      (primary s inner) ∧
    ReadsOperand s resume passes (depth + 1) 5
      (unary s inner) ∧
    ReadsOperand s resume passes (depth + 1) 4
      (product s passes inner) ∧
    ReadsOperand s resume passes (depth + 1) 3
      (sum s passes inner) ∧
    ReadsOperand s resume passes (depth + 1) 2
      (relation s passes inner) ∧
    ReadsOperand s resume passes (depth + 1) 1
      (equality s passes inner) := by
  have hPrimary := readsPrimary_primary hFollows hInner
  have hUnary := readsOperand_unary hFollows hPrimary
  have hProduct :=
    readsOperand_chain hFollows (by decide) hUnary
  have hSum :=
    readsOperand_chain hFollows (by decide) hProduct
  have hRelation :=
    readsOperand_chain hFollows (by decide) hSum
  have hEquality :=
    readsOperand_chain hFollows (by decide) hRelation
  exact ⟨hPrimary, hUnary, hProduct, hSum, hRelation,
    hEquality⟩

------------------------------------------------------------
-- Assignments
------------------------------------------------------------

theorem readsOperand_assignment
    {inner : Call Expr}
    (hFollows : Follows s resume finish)
    (hInner : ReadsOperand s resume passes depth 0 inner) :
    ReadsOperand s resume passes (depth + 1) 0
      (assignment s passes inner) := by
  intro d hIndex
  have hWeaker : 0 ≤ 1 := Nat.zero_le _
  rcases reads_levels hFollows hInner with
    ⟨-, -, -, -, -, hEquality⟩
  unfold assignment
  refine (hEquality d hIndex).bind ?_ id ?_
  · intro error hError frames hWaits
    exact hError frames (hWaits.mono hWeaker)
  · intro target d₁ hTaken
    have hCollapse
        {frames : List Frame}
        (hWaits : Waits frames 0) :
        Frame.collapse 1 frames target = (target, frames) :=
      hWaits.stops 1 hWeaker (Nat.le_refl _) target
    apply ends_take (by decide)
    · intro hAssign
      have hNext :=
        moves_next hTaken.moves.barrier
          (isEof_eq_false hAssign (by decide))
      have hMoves := hTaken.moves.trans hNext
      cases hVar : target.isVar with
      | false =>
          intro frames hWaits
          rw [hTaken.resumes frames (hWaits.mono hWeaker)]
          apply hFollows.error
          simp only [Reading.step, Reading.stepOperator,
            hAssign, Kind.operator?, hCollapse hWaits, hVar]
          rfl
      | true =>
          have hOpen
              {frames : List Frame}
              (hWaits : Waits frames 0) :
              resume (.operand frames) d.locals d.index =
                resume (.operand (.assign target :: frames))
                  d₁.next.locals d₁.next.index := by
            rw [hTaken.resumes frames (hWaits.mono hWeaker)]
            exact hFollows.more
              (Reading.step_assign ⟨_, hAssign⟩
                (hCollapse hWaits) hVar)
          have hValue (frames : List Frame) :
              Waits (.assign target :: frames) 0 :=
            ⟨Frame.stops_assign target frames, rfl⟩
          refine (hInner d₁.next hNext.barrier).bind ?_ ?_ ?_
          · intro error hError frames hWaits
            rw [hOpen hWaits]
            exact hError _ (hValue frames)
          · intro hShort
            exact hShort.of_moves hMoves
          · intro value d' hTakenValue
            refine Call.ends_pure.mpr
              ⟨hMoves.trans hTakenValue.moves,
                hTakenValue.closes, ?_⟩
            intro frames hWaits
            rw [hOpen hWaits,
              hTakenValue.resumes _ (hValue frames)]
            exact hFollows.congr
              (Reading.step_store _ _ _ _ hTakenValue.closes)
    · intro hAssign
      refine Call.ends_pure.mpr ⟨hTaken.moves, ?_, ?_⟩
      · refine ⟨?_, fun _ => hAssign⟩
        intro o hOperator
        have hPower := hTaken.closes.operator o hOperator
        have hBounds := Token.power_of_operator? hOperator
        omega
      · intro frames hWaits
        exact hTaken.resumes frames (hWaits.mono hWeaker)

/- An expression is read, however deeply it is nested. -/
theorem readsOperand_expr
    (hFollows : Follows s resume finish) :
    ReadsOperand s resume passes depth 0
      (expr s passes depth) := by
  induction depth with
  | zero =>
      intro d _
      exact .inr (Nat.zero_le _)
  | succ depth ih =>
      exact readsOperand_assignment hFollows ih

end Operands

end Descent

end WordLang
