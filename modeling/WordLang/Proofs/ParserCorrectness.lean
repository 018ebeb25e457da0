import WordLang.Proofs.ParserMeaning

/-
  This file proves that the parser accepts exactly what the
  grammar derives, and builds what the derivation stands
  for.

  Key theorems include:
    * `WordLang.Agrees.isOk_iff`
    * `WordLang.parse_accepts_grammar`
-/

namespace WordLang

namespace Agrees

variable {α β : Type}
variable {R : α → β → Prop}
variable {a? : Option α}
variable {b? : Parsed β}

/- One reader has an answer if the other has. -/
theorem isOk_iff
    (hAgrees : Agrees R a? b?) :
    (∃ b, b? = .ok b) ↔ ∃ a, a? = some a := by
  rcases hAgrees.both with
    ⟨rfl, e, rfl⟩ | ⟨a, b, rfl, rfl, -⟩
  · constructor
    · rintro ⟨b, hOk⟩
      cases hOk
    · rintro ⟨a, hSome⟩
      cases hSome
  · exact ⟨fun _ => ⟨a, rfl⟩, fun _ => ⟨b, rfl⟩⟩

/- The answers of both are related. -/
theorem related
    {a : α}
    {b : β}
    (hAgrees : Agrees R a? b?)
    (hSome : a? = some a)
    (hOk : b? = .ok b) :
    R a b := by
  subst hSome hOk
  exact hAgrees

end Agrees

/- There is at most one derivation of an expression. -/
theorem Expr.IsDerivation.unique
    {d d' : ExprTree}
    {xs : List Terminal}
    (hFirst : IsDerivation d xs)
    (hSecond : IsDerivation d' xs) :
    d = d' := by
  have hRead := ExprTree.ofTerminals?_eq_some_iff.mpr hFirst
  rw [ExprTree.ofTerminals?_eq_some_iff.mpr hSecond] at hRead
  exact (Option.some.inj hRead).symm

/- There is at most one derivation of a program. -/
theorem Program.IsDerivation.unique
    {ss ss' : List StmtTree}
    {xs : List Terminal}
    (hFirst : IsDerivation ss xs)
    (hSecond : IsDerivation ss' xs) :
    ss = ss' := by
  have hRead := StmtTree.ofTerminals?_eq_some_iff.mpr hFirst
  rw [StmtTree.ofTerminals?_eq_some_iff.mpr hSecond] at hRead
  exact (Option.some.inj hRead).symm

/-
  A stream is accepted as a program if the tokens before
  the first end of input have a derivation. There is only
  one, and the program is what it stands for, with every
  variable where the table of the program has it. The same
  holds for expressions.
-/
theorem parse_accepts_grammar
    (s : TokenStream) :
    ((∃ p, Program.parse s = .ok p) ↔
      ∃ ss, Program.IsDerivation ss s.terminals) ∧
    (∀ ss ss',
      Program.IsDerivation ss s.terminals →
      Program.IsDerivation ss' s.terminals →
      ss = ss') ∧
    (∀ p ss,
      Program.parse s = .ok p →
      Program.IsDerivation ss s.terminals →
      p.name = Program.mainName ∧
      StmtTree.lowerAll? p.locals ss =
        some (Stmt.bareAll p.body)) ∧
    ((∃ a, Expr.parse s = .ok a) ↔
      ∃ d, Expr.IsDerivation d s.terminals) ∧
    (∀ d d',
      Expr.IsDerivation d s.terminals →
      Expr.IsDerivation d' s.terminals →
      d = d') ∧
    (∀ e locals d,
      Expr.parse s = .ok (e, locals) →
      Expr.IsDerivation d s.terminals →
      d.lower? locals = some e.bare) := by
  have hProgram := Program.parse_agrees s
  have hExpr := Expr.parse_agrees s
  refine ⟨?_, ?_, ?_, ?_, ?_, ?_⟩
  · rw [hProgram.isOk_iff]
    simp only [StmtTree.ofTerminals?_eq_some_iff]
  · intro ss ss' hFirst hSecond
    exact hFirst.unique hSecond
  · intro p ss hOk hDerivation
    exact hProgram.related
      (StmtTree.ofTerminals?_eq_some_iff.mpr hDerivation) hOk
  · rw [hExpr.isOk_iff]
    simp only [ExprTree.ofTerminals?_eq_some_iff]
  · intro d d' hFirst hSecond
    exact hFirst.unique hSecond
  · intro e locals d hOk hDerivation
    exact hExpr.related
      (ExprTree.ofTerminals?_eq_some_iff.mpr hDerivation) hOk

end WordLang
