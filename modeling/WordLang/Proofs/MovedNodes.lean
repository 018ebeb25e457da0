import WordLang.Proofs.PhraseParts

/-
  This file moves nodes to another place in a source.

  A node that is read further down in a source has regions
  that start further down, and its variables may have other
  offsets. Apart from this it is the same node, and what is
  read from a phrase is moved with the phrase.

  Key definitions include:
    * `WordLang.Locals.translate?`
    * `WordLang.Expr.moved?`
    * `WordLang.Stmt.moved?`

  Key theorems include:
    * `WordLang.ExprPhrase.moved?_expr`
    * `WordLang.StmtPhrase.moved?_stmt`
-/

namespace WordLang

------------------------------------------------------------
-- Moved Nodes
------------------------------------------------------------

/-
  The offset that one table has for the name at an offset of
  another.
-/
def Locals.translate?
    (t t' : Locals)
    (o : Offset) : Option Offset :=
  (t.nameOf? o).bind t'.offset?

namespace Expr

/-
  An expression whose regions start further down, and whose
  variables are those of the same names in another table.
-/
def moved?
    (n : Nat)
    (t t' : Locals) :
    Expr → Option Expr
| int value s => some (int value (s.shift n))
| var o s =>
    (t.translate? t' o).map (fun o' => var o' (s.shift n))
| binary op lhs rhs s => do
    let lhs ← lhs.moved? n t t'
    let rhs ← rhs.moved? n t t'
    return binary op lhs rhs (s.shift n)
| assign target value s => do
    let target ← target.moved? n t t'
    let value ← value.moved? n t t'
    return assign target value (s.shift n)

/- An expression that may be left out. -/
def movedOption?
    (n : Nat)
    (t t' : Locals) :
    Option Expr →
    Option (Option Expr)
| none => some none
| some e => (e.moved? n t t').map some

end Expr

namespace Stmt

mutual

/- A statement whose expressions are moved. -/
def moved?
    (n : Nat)
    (t t' : Locals) :
    Stmt → Option Stmt
| expr e s => do
    let e ← e.moved? n t t'
    return expr e (s.shift n)
| ret e s => do
    let e ← e.moved? n t t'
    return ret e (s.shift n)
| ifThen predicate thenArm s => do
    let predicate ← predicate.moved? n t t'
    let thenArm ← moved? n t t' thenArm
    return ifThen predicate thenArm (s.shift n)
| ifElse predicate thenArm elseArm s => do
    let predicate ← predicate.moved? n t t'
    let thenArm ← moved? n t t' thenArm
    let elseArm ← moved? n t t' elseArm
    return ifElse predicate thenArm elseArm (s.shift n)
| whileLoop predicate body s => do
    let predicate ← predicate.moved? n t t'
    let body ← moved? n t t' body
    return whileLoop predicate body (s.shift n)
| forLoop init predicate step body s => do
    let init ← Expr.movedOption? n t t' init
    let predicate ← Expr.movedOption? n t t' predicate
    let step ← Expr.movedOption? n t t' step
    let body ← moved? n t t' body
    return forLoop init predicate step body (s.shift n)
| block body s => do
    let body ← movedAll? n t t' body
    return block body (s.shift n)

/- Statements whose expressions are moved. -/
def movedAll?
    (n : Nat)
    (t t' : Locals) :
    List Stmt → Option (List Stmt)
| [] => some []
| s :: ss => do
    let s ← moved? n t t' s
    let ss ← movedAll? n t t' ss
    return s :: ss

end

end Stmt

------------------------------------------------------------
-- Moved Phrases
------------------------------------------------------------

theorem Span.shift_through
    (n : Nat)
    (s s' : Span) :
    (s.through s').shift n =
      (s.shift n).through (s'.shift n) := by
  simp only [Span.through, Span.between, Span.shift,
    Span.hi, Span.mk.injEq, true_and]
  omega

namespace Locals

variable {t t' : Locals}
variable {us ts : List Token}

/- The names of some tokens are in both tables. -/
def Translates
    (t t' : Locals)
    (ts : List Token) : Prop :=
  ∀ token ∈ ts,
    token.kind = .identifier →
    ∃ o o',
      t.offset? token.lexeme = some o ∧
      t'.offset? token.lexeme = some o' ∧
      t.translate? t' o = some o'

theorem Translates.mono
    (hNames : t.Translates t' ts)
    (hSubset : us ⊆ ts) :
    t.Translates t' us :=
  fun token hMem => hNames token (hSubset hMem)

theorem Translates.phrase
    {σ : StmtPhrase}
    {φ : ExprPhrase}
    (hNames : t.Translates t' σ.tokens)
    (hMem : φ ∈ σ.phrases) :
    t.Translates t' φ.tokens :=
  hNames.mono (StmtPhrase.infix_of_mem_phrases hMem).subset

theorem Translates.arm
    {σ τ : StmtPhrase}
    (hNames : t.Translates t' σ.tokens)
    (hMem : τ ∈ σ.arms) :
    t.Translates t' τ.tokens :=
  hNames.mono (StmtPhrase.infix_of_mem_arms hMem).subset

theorem Translates.slot
    {h : ForPhrase}
    {σ : StmtPhrase}
    {φ : Option ExprPhrase}
    (hNames : t.Translates t' (h.tokens ++ σ.tokens))
    (hSlot : φ ∈ h.slots) :
    t.Translates t' (ExprPhrase.tokensOption φ) :=
  hNames.mono
    (List.subset_append_of_subset_left _
      (ForPhrase.infix_of_mem_slots hSlot).subset)

/- A small table gives each of its names back. -/
theorem Has.translates
    (hHas : t.Has ts)
    (hHas' : t'.Has ts)
    (hSize : t.size < 2 ^ 29) :
    t.Translates t' ts := by
  intro token hMem hName
  rcases hHas token hMem hName with ⟨o, hOffset⟩
  rcases hHas' token hMem hName with ⟨o', hOffset'⟩
  refine ⟨o, o', hOffset, hOffset', ?_⟩
  rw [translate?, nameOf?_of_offset? hSize hOffset]
  exact hOffset'

/- Names do not depend on where the tokens are. -/
theorem has_relocate
    (place : Span → Span)
    (hHas : t.Has ts) :
    t.Has (ts.map (Token.relocate place)) := by
  intro token hMem hName
  rcases List.mem_map.mp hMem with ⟨token, hToken, rfl⟩
  exact hHas token hToken hName

end Locals

namespace Expr

variable {n : Nat}
variable {t t' : Locals}

/- A moved expression has the moved region. -/
theorem moved?_region
    {e e' : Expr}
    (hMoved : e.moved? n t t' = some e') :
    e'.span = e.span.shift n ∧
      ∀ s,
        (e.respan s).moved? n t t' =
          some (e'.respan (s.shift n)) := by
  cases e with
  | int value span =>
      cases hMoved
      exact ⟨rfl, fun _ => rfl⟩
  | var o span =>
      rcases Option.map_eq_some_iff.mp hMoved with
        ⟨o', hOffset, rfl⟩
      refine ⟨rfl, fun s => ?_⟩
      rw [respan, moved?, hOffset]
      rfl
  | binary op lhs rhs span
  | assign lhs rhs span =>
      simp only [moved?, Option.bind_eq_bind,
        Option.bind_eq_some_iff] at hMoved
      rcases hMoved with ⟨lhs', hLeft, rhs', hRight, hExpr⟩
      cases hExpr
      refine ⟨rfl, fun s => ?_⟩
      rw [respan, moved?, hLeft, hRight]
      rfl

theorem moved?_withSign
    {e e' : Expr}
    (s : Span)
    (negative : Bool)
    (hMoved : e.moved? n t t' = some e') :
    (e.withSign s negative).moved? n t t' =
      some (e'.withSign (s.shift n) negative) := by
  rcases moved?_region hMoved with ⟨hSpan, hRespan⟩
  cases negative with
  | false =>
      rw [withSign, withSign, hRespan, Span.shift_through,
        hSpan]
  | true =>
      rw [withSign, withSign, join, join, moved?, hMoved,
        Span.shift_through, hSpan]
      rfl

theorem moved?_apply
    {e₁ e₂ e₁' e₂' : Expr}
    (o : Operator)
    (hLeft : e₁.moved? n t t' = some e₁')
    (hRight : e₂.moved? n t t' = some e₂') :
    (o.apply e₁ e₂).moved? n t t' =
      some (o.apply e₁' e₂') := by
  have hSpan :
      (e₁.span.through e₂.span).shift n =
        e₁'.span.through e₂'.span := by
    rw [Span.shift_through, (moved?_region hLeft).1,
      (moved?_region hRight).1]
  unfold Operator.apply
  split
  · rw [moved?, hLeft, hRight, hSpan]
    rfl
  · rw [join, join, moved?, hLeft, hRight, hSpan]
    rfl

theorem moved?_store
    {e₁ e₂ e₁' e₂' : Expr}
    (hTarget : e₁.moved? n t t' = some e₁')
    (hValue : e₂.moved? n t t' = some e₂') :
    (e₁.store e₂).moved? n t t' = some (e₁'.store e₂') := by
  have hSpan :
      (e₁.span.through e₂.span).shift n =
        e₁'.span.through e₂'.span := by
    rw [Span.shift_through, (moved?_region hTarget).1,
      (moved?_region hValue).1]
  rw [store, store, moved?, hTarget, hValue, hSpan]
  rfl

end Expr

namespace ExprPhrase

variable {t t' : Locals}

/- What is read from a phrase further down is moved. -/
theorem moved?_expr
    (n : Nat)
    (φ : ExprPhrase)
    (hNames : t.Translates t' φ.tokens) :
    (φ.expr t).moved? n t t' =
      some ((φ.relocate (Span.shift n)).expr t') := by
  induction φ with
  | number token =>
      rfl
  | name token =>
      rcases hNames token.1 List.mem_cons_self token.2 with
        ⟨o, o', hOffset, hOffset', hTranslate⟩
      have hMoved :
          (relocate (Span.shift n) (name token)).expr t' =
            .var o' (token.1.span.shift n) := by
        show Expr.var
          ((t'.offset? token.1.lexeme).getD ⟨0⟩) _ = _
        rw [hOffset']
        rfl
      rw [expr, hOffset, Option.getD_some, Expr.moved?,
        hTranslate, hMoved]
      rfl
  | paren l d r ih =>
      have hInner := ih (hNames.mono (by simp [tokens]))
      rw [expr, (Expr.moved?_region hInner).2,
        Span.shift_through]
      rfl
  | signed negative sign d ih =>
      have hOperand := ih (hNames.mono (by simp [tokens]))
      exact Expr.moved?_withSign _ negative hOperand
  | chain c l sign r ihLeft ihRight =>
      have hLeft := ihLeft (hNames.mono (by simp [tokens]))
      have hRight := ihRight (hNames.mono (by simp [tokens]))
      exact Expr.moved?_apply c.operator hLeft hRight
  | assign d sign v ihTarget ihValue =>
      have hTarget :=
        ihTarget (hNames.mono (by simp [tokens]))
      have hValue := ihValue (hNames.mono (by simp [tokens]))
      exact Expr.moved?_store hTarget hValue

theorem movedOption?_expr
    (n : Nat)
    (φ : Option ExprPhrase)
    (hNames : t.Translates t' (tokensOption φ)) :
    Expr.movedOption? n t t' (φ.map (expr t)) =
      some ((φ.map (relocate (Span.shift n))).map
        (expr t')) := by
  cases φ with
  | none => rfl
  | some φ =>
      rw [Option.map_some, Expr.movedOption?,
        moved?_expr n φ hNames]
      rfl

end ExprPhrase

namespace Stmt

variable {n : Nat}
variable {t t' : Locals}

/- A moved statement has the moved region. -/
theorem moved?_span
    {s s' : Stmt}
    (hMoved : s.moved? n t t' = some s') :
    s'.span = s.span.shift n := by
  cases s <;>
    simp only [moved?, Option.bind_eq_bind,
      Option.bind_eq_some_iff] at hMoved <;>
    grind [span]

end Stmt

namespace StmtPhrase

variable {t t' : Locals}

mutual

/- What is read from a phrase further down is moved. -/
theorem moved?_stmt
    (n : Nat) :
    (σ : StmtPhrase) →
    t.Translates t' σ.tokens →
    (σ.stmt t).moved? n t t' =
      some ((relocate (Span.shift n) σ).stmt t')
| ret keyword φ semicolon, hNames => by
    have hValue :=
      φ.moved?_expr n (hNames.phrase (by simp [phrases]))
    rw [stmt, Stmt.moved?, hValue, Span.shift_through]
    rfl
| expr φ semicolon, hNames => by
    have hValue :=
      φ.moved?_expr n (hNames.phrase (by simp [phrases]))
    rw [stmt, Stmt.moved?, hValue, Span.shift_through,
      ← (Expr.moved?_region hValue).1]
    rfl
| ifThen h σ, hNames => by
    have hPredicate :=
      h.predicate.moved?_expr n
        (hNames.phrase (by simp [phrases]))
    have hArm :=
      moved?_stmt n σ (hNames.arm (by simp [arms]))
    rw [stmt, Stmt.moved?, hPredicate, hArm,
      Span.shift_through, ← Stmt.moved?_span hArm]
    rfl
| whileLoop h σ, hNames => by
    have hPredicate :=
      h.predicate.moved?_expr n
        (hNames.phrase (by simp [phrases]))
    have hBody :=
      moved?_stmt n σ (hNames.arm (by simp [arms]))
    rw [stmt, Stmt.moved?, hPredicate, hBody,
      Span.shift_through, ← Stmt.moved?_span hBody]
    rfl
| ifElse h σ keyword σ', hNames => by
    have hPredicate :=
      h.predicate.moved?_expr n
        (hNames.phrase (by simp [phrases]))
    have hThen :=
      moved?_stmt n σ (hNames.arm (by simp [arms]))
    have hElse :=
      moved?_stmt n σ' (hNames.arm (by simp [arms]))
    rw [stmt, Stmt.moved?, hPredicate, hThen, hElse,
      Span.shift_through, ← Stmt.moved?_span hElse]
    rfl
| forLoop h σ, hNames => by
    have hInit :=
      ExprPhrase.movedOption?_expr n h.init
        (hNames.slot (by simp [ForPhrase.slots]))
    have hPredicate :=
      ExprPhrase.movedOption?_expr n h.predicate
        (hNames.slot (by simp [ForPhrase.slots]))
    have hStep :=
      ExprPhrase.movedOption?_expr n h.step
        (hNames.slot (by simp [ForPhrase.slots]))
    have hBody :=
      moved?_stmt n σ (hNames.arm (by simp [arms]))
    rw [stmt, Stmt.moved?, hInit, hPredicate, hStep, hBody,
      Span.shift_through, ← Stmt.moved?_span hBody]
    rfl
| block l σs r, hNames => by
    have hBody :=
      movedAll?_stmtAll n σs
        (hNames.mono (by simp [tokens]))
    rw [stmt, Stmt.moved?, hBody, Span.shift_through]
    rfl

theorem movedAll?_stmtAll
    (n : Nat) :
    (σs : List StmtPhrase) →
    t.Translates t' (tokensAll σs) →
    Stmt.movedAll? n t t' (stmtAll t σs) =
      some (stmtAll t' (relocateAll (Span.shift n) σs))
| [], _ => rfl
| σ :: σs, hNames => by
    have hFirst :=
      moved?_stmt n σ (hNames.mono (by simp [tokensAll]))
    have hRest :=
      movedAll?_stmtAll n σs
        (hNames.mono (by simp [tokensAll]))
    rw [stmtAll, Stmt.movedAll?, hFirst, hRest]
    rfl

end

end StmtPhrase

end WordLang
