import Mathlib.Data.List.Forall2
import WordLang.Expr.Reader
import WordLang.Proofs.TreeReader

/-
  This file proves that expressions are read as what their
  derivations stand for.

  The reader of expressions and the reader of derivations
  take the same tokens in step. What the first one holds is
  what the trees of the other stand for, in the table of
  the variables seen so far. The table only grows, so trees
  that were read before keep what they stand for.

  Key definitions include:
    * `WordLang.Locals.Extends`
    * `WordLang.ExprTree.Means`
    * `WordLang.Agrees`
    * `WordLang.Reading.Means`
    * `WordLang.TokenStream.terminals`

  Key theorems include:
    * `WordLang.ExprTree.lower?_of_extends`
    * `WordLang.Reading.step_agrees`
    * `WordLang.Expr.parse_agrees`
-/

namespace WordLang

------------------------------------------------------------
-- Tables
------------------------------------------------------------

namespace Locals

/- A table that has further variables at its end. -/
def Extends
    (t t' : Locals) : Prop :=
  t.names <+: t'.names

theorem Extends.refl
    (t : Locals) :
    t.Extends t :=
  List.prefix_rfl

/- A variable keeps its offset. -/
theorem Extends.offset?
    {t t' : Locals}
    {s : String}
    {o : Offset}
    (hExtends : t.Extends t')
    (hOffset : t.offset? s = some o) :
    t'.offset? s = some o := by
  obtain ⟨rest, hNames⟩ := hExtends
  unfold Locals.offset? at hOffset ⊢
  obtain ⟨i, hIndex, rfl⟩ := Option.map_eq_some_iff.mp hOffset
  rw [← hNames]
  unfold List.idxOf? at hIndex ⊢
  rw [List.findIdx?_append, hIndex]
  rfl

/- A name that has been resolved has its offset. -/
theorem extends_resolve
    (t : Locals)
    (s : String) :
    t.Extends (t.resolve s).2 ∧
      (t.resolve s).2.offset? s = some (t.resolve s).1 := by
  unfold resolve
  cases hOffset : t.offset? s with
  | some o =>
      exact ⟨Extends.refl t, hOffset⟩
  | none =>
      refine ⟨List.prefix_append _ _, ?_⟩
      unfold Locals.offset? at hOffset ⊢
      have hAbsent : t.names.idxOf? s = none :=
        Option.map_eq_none_iff.mp hOffset
      unfold List.idxOf? at hAbsent ⊢
      rw [List.findIdx?_append, hAbsent]
      simp [size]

end Locals

------------------------------------------------------------
-- Expressions
------------------------------------------------------------

namespace Expr

theorem bare_respan
    (e : Expr)
    (span : Span) :
    (e.respan span).bare = e.bare := by
  cases e <;> rfl

theorem isVar_bare
    (e : Expr) :
    e.bare.isVar = e.isVar := by
  cases e <;> rfl

end Expr

namespace Connective

/- An operator as it is written is one of these. -/
theorem operator?_isSome
    (k : Kind) :
    k.operator?.isSome = (ofKind? k).isSome := by
  cases k <;> rfl

/- Operators bind as the grammar says. -/
theorem power_of_operator?
    {c : Connective}
    {o : Operator}
    (hOperator : c.kind.operator? = some o) :
    o.power = c.level.rank := by
  cases c <;> cases hOperator <;> rfl

/- Operators are applied as the grammar says. -/
theorem bare_apply
    {c : Connective}
    {o : Operator}
    (hOperator : c.kind.operator? = some o)
    (lhs rhs : Expr) :
    (o.apply lhs rhs).bare =
      c.combine lhs.bare rhs.bare := by
  cases c <;> cases hOperator <;> rfl

theorem isVar_combine
    (c : Connective)
    (a b : Expr) :
    (c.combine a b).isVar = false := by
  cases c <;> rfl

end Connective

namespace ExprTree

variable {t t' : Locals}

/- What a derivation stands for, up to the regions. -/
def Means
    (t : Locals)
    (d : ExprTree)
    (e : Expr) : Prop :=
  d.lower? t = some e.bare

/- A larger table does not change what a tree stands for. -/
theorem lower?_of_extends
    {d : ExprTree}
    {e : Expr}
    (hExtends : t.Extends t')
    (hLower : d.lower? t = some e) :
    d.lower? t' = some e := by
  induction d generalizing e with
  | number s =>
      exact hLower
  | name s =>
      obtain ⟨o, hOffset, rfl⟩ :=
        Option.map_eq_some_iff.mp hLower
      rw [lower?, hExtends.offset? hOffset]
      rfl
  | paren d ih =>
      exact ih hLower
  | signed negative d ih =>
      cases negative with
      | false =>
          exact ih hLower
      | true =>
          rcases lower?_negative.mp hLower with
            ⟨a, hOperand, hResult⟩
          exact lower?_negative.mpr
            ⟨a, ih hOperand, hResult⟩
  | chain c l r ihLeft ihRight =>
      rcases lower?_chain.mp hLower with
        ⟨a, b, hLeft, hRight, hResult⟩
      exact lower?_chain.mpr
        ⟨a, b, ihLeft hLeft, ihRight hRight, hResult⟩
  | assign d v ihTarget ihValue =>
      rcases lower?_assign.mp hLower with
        ⟨a, b, hTarget, hValue, hResult⟩
      exact lower?_assign.mpr
        ⟨a, b, ihTarget hTarget, ihValue hValue, hResult⟩

theorem Means.extends
    {d : ExprTree}
    {e : Expr}
    (hMeans : d.Means t e)
    (hExtends : t.Extends t') :
    d.Means t' e :=
  lower?_of_extends hExtends hMeans

/- Places stand for variables, and nothing else does. -/
theorem isVar_of_lower?
    {d : ExprTree}
    {e : Expr}
    (hLower : d.lower? t = some e) :
    e.isVar = d.isPlace := by
  induction d generalizing e with
  | number s =>
      obtain ⟨v, -, rfl⟩ := Option.map_eq_some_iff.mp hLower
      rfl
  | name s =>
      obtain ⟨o, -, rfl⟩ := Option.map_eq_some_iff.mp hLower
      rfl
  | paren d ih =>
      exact ih hLower
  | signed negative d ih =>
      cases negative with
      | false =>
          exact ih hLower
      | true =>
          rcases lower?_negative.mp hLower with ⟨a, -, rfl⟩
          rfl
  | chain c l r =>
      rcases lower?_chain.mp hLower with ⟨a, b, -, -, rfl⟩
      exact c.isVar_combine a b
  | assign d v =>
      rcases lower?_assign.mp hLower with ⟨a, b, -, -, rfl⟩
      rfl

theorem Means.isVar_eq
    {d : ExprTree}
    {e : Expr}
    (hMeans : d.Means t e) :
    e.isVar = d.isPlace := by
  rw [← Expr.isVar_bare]
  exact isVar_of_lower? hMeans

end ExprTree

------------------------------------------------------------
-- Reading Expressions
------------------------------------------------------------

/- Most tokens are known by their kind. -/
theorem Token.terminal_eq_symbol
    {token : Token}
    (hNumber : token.kind ≠ .number)
    (hName : token.kind ≠ .identifier) :
    token.terminal = .symbol token.kind := by
  unfold Token.terminal
  split <;> simp_all

/- A token is a symbol only if it is of its kind. -/
theorem Token.kind_of_terminal
    {token : Token}
    {k : Kind}
    (hTerminal : token.terminal = .symbol k) :
    token.kind = k := by
  unfold Token.terminal at hTerminal
  split at hTerminal <;> simp_all

/- A token of a fixed kind is the symbol of its kind. -/
theorem Token.terminal_eq_symbol_iff
    {token : Token}
    {k : Kind}
    (hNumber : k ≠ .number)
    (hName : k ≠ .identifier) :
    token.terminal = .symbol k ↔ token.kind = k := by
  constructor
  · exact kind_of_terminal
  · rintro rfl
    exact terminal_eq_symbol hNumber hName

/- The operator that a token is. -/
theorem Token.connective?_terminal
    (token : Token) :
    token.terminal.connective? =
      Connective.ofKind? token.kind := by
  unfold Token.terminal
  split <;> simp_all [Terminal.connective?,
    Connective.ofKind?]

/- Two readers that both fail, or both give an answer. -/
def Agrees
    {α β : Type}
    (R : α → β → Prop) :
    Option α →
    Parsed β →
    Prop
| some a, .ok b => R a b
| none, .error _ => True
| _, _ => False

/- Both have failed, or both have an answer. -/
theorem Agrees.both
    {α β : Type}
    {R : α → β → Prop}
    {a? : Option α}
    {b? : Parsed β}
    (hAgrees : Agrees R a? b?) :
    (a? = none ∧ ∃ e, b? = .error e) ∨
      ∃ a b, a? = some a ∧ b? = .ok b ∧ R a b := by
  cases a? with
  | none =>
      cases b? with
      | error e => exact .inl ⟨rfl, e, rfl⟩
      | ok b => exact hAgrees.elim
  | some a =>
      cases b? with
      | error e => exact hAgrees.elim
      | ok b => exact .inr ⟨a, b, rfl, rfl, hAgrees⟩

/- A failure is one whatever the answers are. -/
theorem Agrees.of_none
    {α β γ : Type}
    {R : α → β → Prop}
    {S : γ → β → Prop}
    {b? : Parsed β}
    (hAgrees : Agrees R none b?) :
    Agrees S none b? := by
  cases b? with
  | error e => trivial
  | ok b => exact hAgrees.elim

/- An answer that is used further. -/
theorem Agrees.map
    {α β γ δ : Type}
    {R : α → β → Prop}
    {S : γ → δ → Prop}
    {a? : Option α}
    {b? : Parsed β}
    {f : α → γ}
    {g : β → δ}
    (hAgrees : Agrees R a? b?)
    (hMap : ∀ a b, R a b → S (f a) (g b)) :
    Agrees S (a?.map f) (b?.map g) := by
  rcases hAgrees.both with
    ⟨rfl, e, rfl⟩ | ⟨a, b, rfl, rfl, hRelated⟩
  · trivial
  · exact hMap a b hRelated

/- What is open in a reader is what is open in the other. -/
def Frame.Means
    (t : Locals) :
    OpenTree →
    Frame →
    Prop
| .sign negative, .sign negative' _ => negative = negative'
| .paren, .paren _ => True
| .chain c l, .binary o lhs =>
    c.kind.operator? = some o ∧ l.Means t lhs
| .assign d, .assign target => d.Means t target
| _, _ => False

namespace Frame

variable {t t' : Locals}
variable {trees : List OpenTree}
variable {frames : List Frame}
variable {d : ExprTree}
variable {e : Expr}

theorem Means.extends
    {tree : OpenTree}
    {frame : Frame}
    (hMeans : Means t tree frame)
    (hExtends : t.Extends t') :
    Means t' tree frame := by
  cases tree <;> cases frame <;>
    first
    | exact hMeans
    | exact ExprTree.Means.extends hMeans hExtends
    | exact ⟨hMeans.1, hMeans.2.extends hExtends⟩

/- A collapse keeps what is open alike. -/
theorem collapse_means
    (power : Nat)
    (hFrames : List.Forall₂ (Means t) trees frames)
    (hMeans : d.Means t e) :
    (OpenTree.collapse power trees d).1.Means t
        (collapse power frames e).1 ∧
      List.Forall₂ (Means t)
        (OpenTree.collapse power trees d).2
        (collapse power frames e).2 := by
  induction hFrames generalizing d e with
  | nil =>
      exact ⟨hMeans, .nil⟩
  | @cons tree frame trees frames hFirst hRest ih =>
      match tree, frame, hFirst with
      | .sign negative, .sign negative' span, hFirst =>
          exact ⟨hMeans, .cons hFirst hRest⟩
      | .paren, .paren span, hFirst =>
          exact ⟨hMeans, .cons hFirst hRest⟩
      | .chain c l, .binary o lhs, hFirst =>
          have hPower :=
            Connective.power_of_operator? hFirst.1
          rw [OpenTree.collapse, collapse, hPower]
          split
          · apply ih
            rw [ExprTree.Means, ExprTree.lower?, hFirst.2,
              hMeans, Connective.bare_apply hFirst.1]
            rfl
          · exact ⟨hMeans, .cons hFirst hRest⟩
      | .assign d', .assign target, hFirst =>
          rw [OpenTree.collapse, collapse]
          split
          · apply ih
            rw [ExprTree.Means, ExprTree.lower?, hFirst,
              hMeans]
            rfl
          · exact ⟨hMeans, .cons hFirst hRest⟩

end Frame

namespace Reading

variable {t t' : Locals}
variable {q : TreeReading}
variable {r : Reading}

/- A reader holds what the trees of the other stand for. -/
def Means
    (t : Locals) :
    TreeReading →
    Reading →
    Prop
| .operand trees, .operand frames =>
    List.Forall₂ (Frame.Means t) trees frames
| .operator trees d, .operator frames e =>
    List.Forall₂ (Frame.Means t) trees frames ∧ d.Means t e
| _, _ => False

/- The readers start alike. -/
theorem means_start
    (t : Locals) :
    Means t (.operand []) .start :=
  .nil

/- A finished operand takes the same sign. -/
theorem ofPrimary_means
    {trees : List OpenTree}
    {frames : List Frame}
    {d : ExprTree}
    {e : Expr}
    (hFrames : List.Forall₂ (Frame.Means t) trees frames)
    (hMeans : d.Means t e) :
    Means t (TreeReading.ofPrimary trees d)
      (ofPrimary frames e) := by
  match trees, frames, hFrames with
  | [], [], hFrames =>
      exact ⟨hFrames, hMeans⟩
  | .sign false :: trees, .sign false span :: frames,
      .cons hSign hRest =>
      refine ⟨hRest, ?_⟩
      rw [ExprTree.Means, Expr.bare_respan]
      exact hMeans
  | .sign true :: trees, .sign true span :: frames,
      .cons hSign hRest =>
      refine ⟨hRest, ?_⟩
      rw [ExprTree.Means, ExprTree.lower?, hMeans]
      rfl
  | .paren :: trees, .paren span :: frames, hFrames =>
      exact ⟨hFrames, hMeans⟩
  | .chain c l :: trees, .binary o lhs :: frames, hFrames =>
      exact ⟨hFrames, hMeans⟩
  | .assign d' :: trees, .assign target :: frames, hFrames =>
      exact ⟨hFrames, hMeans⟩

/- What a token does to both readers. -/
def Step.Means
    (t : Locals) :
    TreeReading.Step →
    Step →
    Prop
| .more q, .more r t' => t.Extends t' ∧ Reading.Means t' q r
| .done d, .done e => d.Means t e
| _, _ => False

/- Both readers hold a complete expression, or none does. -/
theorem close_agrees
    (hMeans : Means t q r)
    (token : Token) :
    Agrees (ExprTree.Means t) q.close (r.close token) := by
  match q, r, hMeans with
  | .operand trees, .operand frames, hFrames =>
      trivial
  | .operator trees d, .operator frames e,
      ⟨hFrames, hOperand⟩ =>
      have hCollapse :=
        Frame.collapse_means 0 hFrames hOperand
      unfold TreeReading.close close
      dsimp only
      generalize OpenTree.collapse 0 trees d = a at hCollapse ⊢
      generalize Frame.collapse 0 frames e = b at hCollapse ⊢
      obtain ⟨d', trees'⟩ := a
      obtain ⟨e', frames'⟩ := b
      obtain ⟨hOperand', hFrames'⟩ := hCollapse
      match trees', frames', hFrames' with
      | [], [], _ | .sign _ :: _, .sign _ _ :: _, _
      | .chain _ _ :: _, .binary _ _ :: _, _
      | .assign _ :: _, .assign _ :: _, _ =>
          exact hOperand'
      | .paren :: _, .paren _ :: _, _ =>
          trivial

/- Both readers read a sign, unless there is one already. -/
theorem stepSign_agrees
    {trees : List OpenTree}
    {frames : List Frame}
    (hFrames : List.Forall₂ (Frame.Means t) trees frames)
    {token : Token}
    (negative : Bool)
    (hKind :
      token.kind = if negative then .minus else .plus) :
    Agrees (Step.Means t)
      (TreeReading.stepOperand trees (.symbol token.kind))
      (stepOperand frames t token) := by
  match trees, frames, hFrames with
  | .sign _ :: _, .sign _ _ :: _, _ =>
      cases negative <;>
        simp [stepOperand, TreeReading.stepOperand, hKind,
          OpenTree.afterSign, Agrees]
  | [], [], hFrames | .paren :: _, .paren _ :: _, hFrames
  | .chain _ _ :: _, .binary _ _ :: _, hFrames
  | .assign _ :: _, .assign _ :: _, hFrames =>
      cases negative <;>
        simp only [stepOperand, TreeReading.stepOperand,
          hKind, OpenTree.afterSign] <;>
        exact ⟨Locals.Extends.refl t, .cons rfl hFrames⟩

/- Both readers read the start of an operand. -/
theorem stepOperand_agrees
    {trees : List OpenTree}
    {frames : List Frame}
    (hFrames : List.Forall₂ (Frame.Means t) trees frames)
    (token : Token) :
    Agrees (Step.Means t)
      (TreeReading.stepOperand trees token.terminal)
      (stepOperand frames t token) := by
  have hSame := Locals.Extends.refl t
  cases hKind : token.kind with
  | number =>
      simp only [stepOperand, TreeReading.stepOperand,
        Token.terminal, hKind]
      cases hRead : Literal.read? token.lexeme with
      | none =>
          trivial
      | some value =>
          refine ⟨hSame, ofPrimary_means hFrames ?_⟩
          rw [ExprTree.Means, ExprTree.lower?, hRead]
          rfl
  | identifier =>
      simp only [stepOperand, TreeReading.stepOperand,
        Token.terminal, hKind]
      obtain ⟨hExtends, hOffset⟩ :=
        t.extends_resolve token.lexeme
      refine ⟨hExtends, ofPrimary_means ?_ ?_⟩
      · exact hFrames.imp fun _ _ hMeans =>
          hMeans.extends hExtends
      · rw [ExprTree.Means, ExprTree.lower?, hOffset]
        rfl
  | lparen =>
      simp only [stepOperand, TreeReading.stepOperand,
        Token.terminal, hKind]
      exact ⟨hSame, .cons trivial hFrames⟩
  | plus =>
      rw [Token.terminal_eq_symbol (by simp [hKind])
        (by simp [hKind])]
      exact stepSign_agrees hFrames false hKind
  | minus =>
      rw [Token.terminal_eq_symbol (by simp [hKind])
        (by simp [hKind])]
      exact stepSign_agrees hFrames true hKind
  | _ =>
      -- No other token starts an operand.
      simp [stepOperand, TreeReading.stepOperand,
        Token.terminal, hKind, Agrees]

section Operator

variable {trees : List OpenTree}
variable {frames : List Frame}
variable {d : ExprTree}
variable {e : Expr}
variable {token : Token}

/- Both readers read an operator. -/
theorem stepConnective_agrees
    {o : Operator}
    (hFrames : List.Forall₂ (Frame.Means t) trees frames)
    (hOperand : d.Means t e)
    (hOperator : token.kind.operator? = some o) :
    Agrees (Step.Means t)
      (TreeReading.stepOperator trees d token.terminal)
      (stepOperator frames e t token) := by
  have hSome := Connective.operator?_isSome token.kind
  rw [hOperator] at hSome
  obtain ⟨c, hConnective⟩ :=
    Option.isSome_iff_exists.mp hSome.symm
  have hTerminal : token.terminal.connective? = some c := by
    rw [Token.connective?_terminal, hConnective]
  have hKind : c.kind.operator? = some o := by
    rw [← Connective.kind_of_ofKind? hConnective, hOperator]
  have hPower := Connective.power_of_operator? hKind
  obtain ⟨hLeft, hRest⟩ :=
    Frame.collapse_means c.level.rank hFrames hOperand
  simp only [TreeReading.stepOperator, stepOperator,
    hTerminal, hOperator, hPower]
  exact ⟨Locals.Extends.refl t, .cons ⟨hKind, hLeft⟩ hRest⟩

/- Both readers read the sign of an assignment. -/
theorem stepAssign_agrees
    (hFrames : List.Forall₂ (Frame.Means t) trees frames)
    (hOperand : d.Means t e)
    (hKind : token.kind = .assign) :
    Agrees (Step.Means t)
      (TreeReading.stepOperator trees d token.terminal)
      (stepOperator frames e t token) := by
  obtain ⟨hTarget, hRest⟩ :=
    Frame.collapse_means 1 hFrames hOperand
  have hPlace := hTarget.isVar_eq
  simp only [TreeReading.stepOperator, stepOperator,
    Token.terminal, hKind, Terminal.connective?,
    Connective.ofKind?, Kind.operator?, if_true, hPlace]
  split
  · exact ⟨Locals.Extends.refl t, .cons hTarget hRest⟩
  · trivial

/- Both readers read a closing parenthesis. -/
theorem stepRparen_agrees
    (hFrames : List.Forall₂ (Frame.Means t) trees frames)
    (hOperand : d.Means t e)
    (hKind : token.kind = .rparen) :
    Agrees (Step.Means t)
      (TreeReading.stepOperator trees d token.terminal)
      (stepOperator frames e t token) := by
  have hCollapse := Frame.collapse_means 0 hFrames hOperand
  have hOther :
      Terminal.symbol .rparen ≠ .symbol .assign := by
    decide
  simp only [TreeReading.stepOperator, stepOperator,
    Token.terminal, hKind, Terminal.connective?,
    Connective.ofKind?, Kind.operator?, if_true,
    if_neg hOther]
  generalize OpenTree.collapse 0 trees d = a at hCollapse ⊢
  generalize Frame.collapse 0 frames e = b at hCollapse ⊢
  obtain ⟨d', trees'⟩ := a
  obtain ⟨e', frames'⟩ := b
  obtain ⟨hInner, hRest⟩ := hCollapse
  cases hRest with
  | nil =>
      exact hInner
  | @cons tree frame _ _ hFirst hRest =>
      cases tree <;> cases frame <;>
        try exact False.elim hFirst
      case paren.paren span =>
        refine ⟨Locals.Extends.refl t,
          ofPrimary_means hRest ?_⟩
        rw [ExprTree.Means, Expr.bare_respan]
        exact hInner
      all_goals exact hInner

/- Any other token ends the expression for both readers. -/
theorem stepOther_agrees
    (hFrames : List.Forall₂ (Frame.Means t) trees frames)
    (hOperand : d.Means t e)
    (hOperator : token.kind.operator? = none)
    (hAssign : token.kind ≠ .assign)
    (hParen : token.kind ≠ .rparen) :
    Agrees (Step.Means t)
      (TreeReading.stepOperator trees d token.terminal)
      (stepOperator frames e t token) := by
  have hMeans :
      Means t (.operator trees d) (.operator frames e) :=
    ⟨hFrames, hOperand⟩
  have hConnective : token.terminal.connective? = none := by
    have hSome := Connective.operator?_isSome token.kind
    rw [hOperator] at hSome
    rw [Token.connective?_terminal,
      ← Option.not_isSome_iff_eq_none, ← hSome]
    simp
  have hTree :
      TreeReading.stepOperator trees d token.terminal =
        (TreeReading.close (.operator trees d)).map
          .done := by
    unfold TreeReading.stepOperator
    rw [hConnective]
    dsimp only
    rw [if_neg fun h => hAssign (Token.kind_of_terminal h),
      if_neg fun h => hParen (Token.kind_of_terminal h)]
  have hStep :
      stepOperator frames e t token =
        (close (.operator frames e) token).map .done := by
    unfold stepOperator
    rw [hOperator]
    split
    · contradiction
    · contradiction
    · contradiction
    · rfl
  rw [hTree, hStep]
  exact (close_agrees hMeans token).map fun _ _ h => h

/- Both readers read a token after an operand. -/
theorem stepOperator_agrees
    (hFrames : List.Forall₂ (Frame.Means t) trees frames)
    (hOperand : d.Means t e)
    (token : Token) :
    Agrees (Step.Means t)
      (TreeReading.stepOperator trees d token.terminal)
      (stepOperator frames e t token) := by
  cases hOperator : token.kind.operator? with
  | some o =>
      exact stepConnective_agrees hFrames hOperand hOperator
  | none =>
      by_cases hAssign : token.kind = .assign
      · exact stepAssign_agrees hFrames hOperand hAssign
      by_cases hParen : token.kind = .rparen
      · exact stepRparen_agrees hFrames hOperand hParen
      · exact stepOther_agrees hFrames hOperand hOperator
          hAssign hParen

end Operator

/- Both readers read a token. -/
theorem step_agrees
    (hMeans : Means t q r)
    (token : Token) :
    Agrees (Step.Means t) (q.step token.terminal)
      (r.step t token) := by
  match q, r, hMeans with
  | .operand trees, .operand frames, hFrames =>
      exact stepOperand_agrees hFrames token
  | .operator trees d, .operator frames e,
      ⟨hFrames, hOperand⟩ =>
      exact stepOperator_agrees hFrames hOperand token

/- Both readers end with the same table. -/
theorem closeWith_agrees
    (hMeans : Means t q r)
    (token : Token) :
    Agrees (fun d a => d.Means a.2 a.1) q.close
      (do return (← r.close token, t)) := by
  have hClose := close_agrees hMeans token
  revert hClose
  cases q.close <;> cases r.close token <;> exact id

/- Both readers read an expression up to the end of input. -/
theorem run_agrees
    (hMeans : Means t q r)
    {stop : Token}
    (hStop : stop.isEof = true)
    (tokens : List Token) :
    Agrees (fun d a => d.Means a.2 a.1)
      ((q.run
        (((tokens ++ [stop]).takeWhile (!·.isEof)).map
          Token.terminal)).bind TreeReading.close)
      (r.run stop t tokens) := by
  induction tokens generalizing q r t with
  | nil =>
      rw [List.nil_append, List.takeWhile_cons, hStop]
      exact closeWith_agrees hMeans stop
  | cons token tokens ih =>
      rw [List.cons_append, List.takeWhile_cons, run]
      cases hEof : token.isEof with
      | true =>
          exact closeWith_agrees hMeans token
      | false =>
          have hStep := step_agrees hMeans token
          simp only [Bool.not_false, if_true, List.map_cons,
            TreeReading.run]
          rcases hStep.both with
            ⟨hTree, e, hRead⟩ | ⟨a, b, hTree, hRead, hBoth⟩
          · rw [hTree, hRead]
            trivial
          · rw [hTree, hRead]
            cases a <;> cases b <;>
              try exact False.elim hBoth
            case more.more q' r' t' =>
              exact ih hBoth.2
            case done.done d e =>
              trivial

end Reading

/- The tokens before the end of input, to the grammar. -/
def TokenStream.terminals
    (s : TokenStream) : List Terminal :=
  (s.toList.takeWhile (!·.isEof)).map Token.terminal

/- They are those of all tokens, if none ends the input. -/
theorem TokenStream.terminals_eq_map
    {s : TokenStream}
    (hInside : ∀ a ∈ s.tokens, a.isEof = false) :
    s.terminals = s.tokens.map Token.terminal := by
  rw [terminals, toList,
    List.takeWhile_append_of_pos (by simpa using hInside)]
  simp [s.isEof_stop]

/-
  An expression is read if there is a derivation, and it is
  what the derivation stands for.
-/
theorem Expr.parse_agrees
    (s : TokenStream) :
    Agrees (fun d a => d.Means a.2 a.1)
      (ExprTree.ofTerminals? s.terminals)
      (Expr.parse s) :=
  Reading.run_agrees (Reading.means_start .empty)
    s.isEof_stop s.tokens

end WordLang
