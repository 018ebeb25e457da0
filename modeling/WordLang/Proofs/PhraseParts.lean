import WordLang.Proofs.PhraseParsing
import WordLang.Proofs.StackDepth

/-
  This file finds the nodes of a program in its tokens.

  The statements of a program and their expressions are read
  from phrases, and the tokens of these phrases follow each
  other in the source. The zero that a minus sign is read
  with is the one node that has no phrase.

  Key definitions include:
    * `WordLang.Program.stmts`
    * `WordLang.Program.exprs`
    * `WordLang.Expr.ReadIn`
    * `WordLang.Stmt.ReadIn`

  Key theorems include:
    * `WordLang.ExprPhrase.readIn_of_mem_inner`
    * `WordLang.StmtPhrase.readIn_of_mem_partsAll`
-/

namespace WordLang

------------------------------------------------------------
-- Nodes
------------------------------------------------------------

namespace Expr

/- The expressions inside an expression. -/
def inner : Expr → List Expr
| int _ _ => []
| var _ _ => []
| binary _ lhs rhs _ =>
    lhs :: lhs.inner ++ rhs :: rhs.inner
| assign target value _ =>
    target :: target.inner ++ value :: value.inner

/- An expression and the expressions inside it. -/
def parts
    (e : Expr) : List Expr :=
  e :: e.inner

theorem parts_binary
    (op : BinOp)
    (lhs rhs : Expr)
    (s : Span) :
    (binary op lhs rhs s).parts =
      binary op lhs rhs s :: (lhs.parts ++ rhs.parts) :=
  rfl

theorem parts_assign
    (target value : Expr)
    (s : Span) :
    (assign target value s).parts =
      assign target value s ::
        (target.parts ++ value.parts) :=
  rfl

theorem inner_respan
    (e : Expr)
    (s : Span) :
    (e.respan s).inner = e.inner := by
  cases e <;> rfl

end Expr

/- The expressions that a statement has of its own. -/
def Stmt.exprs : Stmt → List Expr
| expr e _ => [e]
| ret e _ => [e]
| ifThen predicate _ _ => [predicate]
| ifElse predicate _ _ _ => [predicate]
| whileLoop predicate _ _ => [predicate]
| forLoop init predicate step _ _ =>
    init.toList ++ predicate.toList ++ step.toList
| block _ _ => []

namespace Program

/- All statements of a program, at any depth. -/
def stmts
    (p : Program) : List Stmt :=
  Stmt.partsAll p.body

/- All expressions of a program, at any depth. -/
def exprs
    (p : Program) : List Expr :=
  (p.stmts.flatMap Stmt.exprs).flatMap Expr.parts

end Program

------------------------------------------------------------
-- Phrases Inside Phrases
------------------------------------------------------------

theorem HeadPhrase.infix_predicate
    {k : Kind}
    (h : HeadPhrase k) :
    h.predicate.tokens <:+: h.tokens :=
  ⟨[h.keyword.1, h.lparen.1], [h.rparen.1],
    by simp [tokens]⟩

namespace ForPhrase

open ExprPhrase (tokensOption)

/- The expressions of a head that may be left out. -/
def slots
    (h : ForPhrase) : List (Option ExprPhrase) :=
  [h.init, h.predicate, h.step]

theorem infix_of_mem_slots
    {h : ForPhrase}
    {φ : Option ExprPhrase}
    (hSlot : φ ∈ h.slots) :
    tokensOption φ <:+: h.tokens := by
  simp only [slots, List.mem_cons, List.not_mem_nil,
    or_false] at hSlot
  rcases hSlot with rfl | rfl | rfl
  · exact ⟨[h.keyword.1, h.lparen.1],
      h.first.1 :: (tokensOption h.predicate ++
        h.second.1 :: (tokensOption h.step ++
          [h.rparen.1])),
      by simp [tokens]⟩
  · exact ⟨h.keyword.1 :: h.lparen.1 ::
        (tokensOption h.init ++ [h.first.1]),
      h.second.1 :: (tokensOption h.step ++ [h.rparen.1]),
      by simp [tokens]⟩
  · exact ⟨h.keyword.1 :: h.lparen.1 ::
        (tokensOption h.init ++ h.first.1 ::
          (tokensOption h.predicate ++ [h.second.1])),
      [h.rparen.1], by simp [tokens]⟩

end ForPhrase

namespace StmtPhrase

/- The expressions that a statement has of its own. -/
def phrases : StmtPhrase → List ExprPhrase
| ret _ φ _ => [φ]
| ifThen h _ => [h.predicate]
| ifElse h _ _ _ => [h.predicate]
| whileLoop h _ => [h.predicate]
| forLoop h _ =>
    h.init.toList ++ h.predicate.toList ++ h.step.toList
| block _ _ _ => []
| expr φ _ => [φ]

/- The statements directly inside a statement. -/
def arms : StmtPhrase → List StmtPhrase
| ifThen _ σ => [σ]
| ifElse _ σ _ σ' => [σ, σ']
| whileLoop _ σ => [σ]
| forLoop _ σ => [σ]
| block _ σs _ => σs
| _ => []

theorem infix_of_mem_phrases
    {σ : StmtPhrase}
    {φ : ExprPhrase}
    (hMem : φ ∈ σ.phrases) :
    φ.tokens <:+: σ.tokens := by
  cases σ with
  | ret keyword ψ semicolon =>
      rw [List.mem_singleton.mp hMem]
      exact ⟨[keyword.1], [semicolon.1], by simp [tokens]⟩
  | expr ψ semicolon =>
      rw [List.mem_singleton.mp hMem]
      exact (List.prefix_append _ _).isInfix
  | ifThen h σ | ifElse h σ keyword σ' | whileLoop h σ =>
      rw [List.mem_singleton.mp hMem]
      exact h.infix_predicate.trans
        (List.prefix_append _ _).isInfix
  | forLoop h σ =>
      have hSlot : some φ ∈ h.slots := by
        simp only [phrases, List.mem_append,
          Option.mem_toList] at hMem
        simp only [ForPhrase.slots, List.mem_cons,
          List.not_mem_nil, or_false]
        tauto
      exact (ForPhrase.infix_of_mem_slots hSlot).trans
        (List.prefix_append _ _).isInfix
  | block l σs r =>
      cases hMem

theorem infix_of_mem
    {σ : StmtPhrase}
    {σs : List StmtPhrase}
    (hMem : σ ∈ σs) :
    σ.tokens <:+: tokensAll σs := by
  induction σs with
  | nil =>
      cases hMem
  | cons σ₁ σs ih =>
      rcases List.mem_cons.mp hMem with rfl | hRest
      · exact (List.prefix_append _ _).isInfix
      · exact (ih hRest).trans
          (List.suffix_append _ _).isInfix

theorem infix_of_mem_arms
    {σ τ : StmtPhrase}
    (hMem : τ ∈ σ.arms) :
    τ.tokens <:+: σ.tokens := by
  cases σ with
  | ret keyword φ semicolon | expr φ semicolon =>
      cases hMem
  | ifThen h σ | whileLoop h σ | forLoop h σ =>
      rw [List.mem_singleton.mp hMem]
      exact (List.suffix_append _ _).isInfix
  | ifElse h σ keyword σ' =>
      rcases List.mem_pair.mp hMem with rfl | rfl
      · exact ⟨h.tokens, keyword.1 :: σ'.tokens,
          by simp [tokens]⟩
      · exact ⟨h.tokens ++ (σ.tokens ++ [keyword.1]), [],
          by simp [tokens]⟩
  | block l σs r =>
      have hBody : tokensAll σs <:+: (block l σs r).tokens :=
        ⟨[l.1], [r.1], by simp [tokens]⟩
      exact (infix_of_mem hMem).trans hBody

end StmtPhrase

------------------------------------------------------------
-- Nodes of Phrases
------------------------------------------------------------

/-
  An expression that is read from a phrase among some
  tokens, or the zero of a minus sign among them.
-/
def Expr.ReadIn
    (t : Locals)
    (ts : List Token)
    (e : Expr) : Prop :=
  (∃ φ : ExprPhrase,
    φ.tree.Sound ∧ φ.tokens <:+: ts ∧ φ.expr t = e) ∨
  (∃ sign ∈ ts, sign.kind = .minus ∧ e = .int 0 sign.span)

theorem Expr.ReadIn.mono
    {t : Locals}
    {us ts : List Token}
    {e : Expr}
    (hRead : e.ReadIn t us)
    (hInfix : us <:+: ts) :
    e.ReadIn t ts := by
  rcases hRead with
    ⟨φ, hSound, hTokens, hExpr⟩ | ⟨sign, hMem, hZero⟩
  · exact .inl ⟨φ, hSound, hTokens.trans hInfix, hExpr⟩
  · exact .inr ⟨sign, hInfix.subset hMem, hZero⟩

namespace ExprPhrase

variable {t : Locals}

/- A phrase inside some tokens is read with its parts. -/
theorem readIn_of_inside
    {φ : ExprPhrase}
    {ts : List Token}
    (hSound : φ.tree.Sound)
    (hInner : ∀ e ∈ (φ.expr t).inner, e.ReadIn t φ.tokens)
    (hInfix : φ.tokens <:+: ts) :
    ∀ e ∈ (φ.expr t).parts, e.ReadIn t ts := by
  intro e hMem
  rcases List.mem_cons.mp hMem with rfl | hMem
  · exact .inl ⟨φ, hSound, hInfix, rfl⟩
  · exact (hInner e hMem).mono hInfix

theorem readIn_of_mem_inner
    {φ : ExprPhrase}
    (hSound : φ.tree.Sound) :
    ∀ e ∈ (φ.expr t).inner, e.ReadIn t φ.tokens := by
  have hOperand
      {ψ : ExprPhrase}
      {n : Nat}
      (hIsA : ψ.tree.IsA n)
      (hValid : ψ.tree.Valid) :
      ψ.tree.Sound :=
    ⟨hIsA.mono (Nat.zero_le n), hValid⟩
  have hBetween
      {l r : ExprPhrase}
      {sign : Token}
      (hLeft : l.tree.Sound)
      (hRight : r.tree.Sound)
      (hInnerLeft :
        ∀ e ∈ (l.expr t).inner, e.ReadIn t l.tokens)
      (hInnerRight :
        ∀ e ∈ (r.expr t).inner, e.ReadIn t r.tokens) :
      ∀ e,
        e ∈ (l.expr t).parts ∨ e ∈ (r.expr t).parts →
        e.ReadIn t (l.tokens ++ sign :: r.tokens) := by
    rintro e (hMem | hMem)
    · exact readIn_of_inside hLeft hInnerLeft
        (List.prefix_append _ _).isInfix e hMem
    · have hInfix :
          r.tokens <:+: l.tokens ++ sign :: r.tokens :=
        ⟨l.tokens ++ [sign], [], by simp⟩
      exact readIn_of_inside hRight hInnerRight hInfix e hMem
  induction φ with
  | number token | name token =>
      intro e hMem
      cases hMem
  | paren l d r ih =>
      rw [expr, Expr.inner_respan]
      intro e hMem
      exact (ih ⟨hSound.1.2, hSound.2⟩ e hMem).mono
        ⟨[l.1], [r.1], by simp [tokens]⟩
  | signed negative sign d ih =>
      have hInner : d.tree.Sound :=
        hOperand hSound.1.2 hSound.2
      have hInfix :
          d.tokens <:+: (signed negative sign d).tokens :=
        (List.suffix_cons _ _).isInfix
      intro e hMem
      cases negative with
      | false =>
          rw [expr, Expr.withSign, Expr.inner_respan] at hMem
          exact (ih hInner e hMem).mono hInfix
      | true =>
          rcases List.mem_cons.mp hMem with rfl | hMem
          · exact .inr ⟨sign.1, List.mem_cons_self, sign.2,
              rfl⟩
          · exact readIn_of_inside hInner (ih hInner) hInfix e
              hMem
  | chain c l sign r ihLeft ihRight =>
      rcases hSound with ⟨⟨-, hRankL, hRankR⟩, hValid⟩
      have hLeft := hOperand hRankL hValid.1
      have hRight := hOperand hRankR hValid.2
      intro e hMem
      apply hBetween hLeft hRight (ihLeft hLeft)
        (ihRight hRight)
      rw [expr, Operator.apply] at hMem
      split at hMem
      · exact (List.mem_append.mp hMem).symm
      · exact List.mem_append.mp hMem
  | assign d sign v ihTarget ihValue =>
      rcases hSound with
        ⟨⟨-, hRankT, hRankV⟩, -, hValidT, hValidV⟩
      have hTarget := hOperand hRankT hValidT
      have hValue := hOperand hRankV hValidV
      intro e hMem
      apply hBetween hTarget hValue (ihTarget hTarget)
        (ihValue hValue)
      exact List.mem_append.mp hMem

end ExprPhrase

/- A statement that is read from a phrase. -/
def Stmt.ReadIn
    (t : Locals)
    (ts : List Token)
    (s : Stmt) : Prop :=
  ∃ σ : StmtPhrase,
    σ.tree.Sound ∧ σ.tokens <:+: ts ∧ σ.stmt t = s

theorem Stmt.ReadIn.mono
    {t : Locals}
    {us ts : List Token}
    {s : Stmt}
    (hRead : s.ReadIn t us)
    (hInfix : us <:+: ts) :
    s.ReadIn t ts := by
  rcases hRead with ⟨σ, hSound, hTokens, hStmt⟩
  exact ⟨σ, hSound, hTokens.trans hInfix, hStmt⟩

namespace StmtPhrase

variable {t : Locals}

theorem treeAll_eq_map
    (σs : List StmtPhrase) :
    treeAll σs = σs.map tree := by
  induction σs with
  | nil => rfl
  | cons σ σs ih => rw [treeAll, ih, List.map_cons]

theorem sound_of_mem
    {σ : StmtPhrase}
    {σs : List StmtPhrase}
    (hSound : StmtTree.SoundAll (treeAll σs))
    (hMem : σ ∈ σs) :
    σ.tree.Sound := by
  rw [treeAll_eq_map, StmtTree.soundAll_iff] at hSound
  exact hSound σ.tree (List.mem_map_of_mem hMem)

/- What is inside a sound phrase is sound. -/
theorem sound_of_mem_arms
    {σ τ : StmtPhrase}
    (hSound : σ.tree.Sound)
    (hMem : τ ∈ σ.arms) :
    τ.tree.Sound := by
  cases σ with
  | ret keyword φ semicolon | expr φ semicolon =>
      cases hMem
  | ifThen h σ | whileLoop h σ =>
      rw [List.mem_singleton.mp hMem]
      exact ⟨hSound.1.2, hSound.2⟩
  | forLoop h σ =>
      rw [List.mem_singleton.mp hMem]
      exact ⟨hSound.1.2.2.2, hSound.2⟩
  | ifElse h σ keyword σ' =>
      rcases List.mem_pair.mp hMem with rfl | rfl
      · exact ⟨hSound.1.2.1, hSound.2.2.1⟩
      · exact ⟨hSound.1.2.2, hSound.2.2.2⟩
  | block l σs r =>
      exact sound_of_mem hSound hMem

theorem sound_of_mem_phrases
    {σ : StmtPhrase}
    {φ : ExprPhrase}
    (hSound : σ.tree.Sound)
    (hMem : φ ∈ σ.phrases) :
    φ.tree.Sound := by
  cases σ with
  | ret keyword ψ semicolon | expr ψ semicolon =>
      rw [List.mem_singleton.mp hMem]
      exact hSound.1
  | ifThen h σ | ifElse h σ keyword σ' | whileLoop h σ =>
      rw [List.mem_singleton.mp hMem]
      exact hSound.1.1
  | forLoop h σ =>
      rcases hSound.1 with ⟨hInit, hPredicate, hStep, -⟩
      simp only [phrases, List.mem_append,
        Option.mem_toList] at hMem
      rcases hMem with (hMem | hMem) | hMem
      · exact hInit _ (Option.mem_map_of_mem _ hMem)
      · exact hPredicate _ (Option.mem_map_of_mem _ hMem)
      · exact hStep _ (Option.mem_map_of_mem _ hMem)
  | block l σs r =>
      cases hMem

theorem exprs_stmt
    (t : Locals)
    (σ : StmtPhrase) :
    (σ.stmt t).exprs = σ.phrases.map (ExprPhrase.expr t) := by
  cases σ <;>
    simp [stmt, phrases, Stmt.exprs, Option.toList_map]

mutual

theorem readIn_of_mem_parts
    {s : Stmt} :
    (σ : StmtPhrase) →
    σ.tree.Sound →
    s ∈ (σ.stmt t).parts →
    s.ReadIn t σ.tokens
| ret keyword φ semicolon, hSound, hMem
| expr φ semicolon, hSound, hMem => by
    rw [List.mem_singleton.mp hMem]
    exact ⟨_, hSound, List.infix_rfl, rfl⟩
| ifThen h σ, hSound, hMem | whileLoop h σ, hSound, hMem
| forLoop h σ, hSound, hMem => by
    rcases List.mem_cons.mp hMem with rfl | hMem
    · exact ⟨_, hSound, List.infix_rfl, rfl⟩
    · exact (readIn_of_mem_parts σ
        (sound_of_mem_arms hSound List.mem_cons_self)
        hMem).mono (infix_of_mem_arms List.mem_cons_self)
| ifElse h σ keyword σ', hSound, hMem => by
    rcases List.mem_cons.mp hMem with rfl | hMem
    · exact ⟨_, hSound, List.infix_rfl, rfl⟩
    have hThen : σ ∈ (ifElse h σ keyword σ').arms :=
      List.mem_cons_self
    have hElse : σ' ∈ (ifElse h σ keyword σ').arms :=
      List.mem_cons_of_mem σ List.mem_cons_self
    rcases List.mem_append.mp hMem with hMem | hMem
    · exact (readIn_of_mem_parts σ
        (sound_of_mem_arms hSound hThen) hMem).mono
        (infix_of_mem_arms hThen)
    · exact (readIn_of_mem_parts σ'
        (sound_of_mem_arms hSound hElse) hMem).mono
        (infix_of_mem_arms hElse)
| block l σs r, hSound, hMem => by
    rcases List.mem_cons.mp hMem with rfl | hMem
    · exact ⟨_, hSound, List.infix_rfl, rfl⟩
    · have hBody : tokensAll σs <:+: (block l σs r).tokens :=
        ⟨[l.1], [r.1], by simp [tokens]⟩
      exact (readIn_of_mem_partsAll σs hSound hMem).mono
        hBody

theorem readIn_of_mem_partsAll
    {s : Stmt} :
    (σs : List StmtPhrase) →
    StmtTree.SoundAll (treeAll σs) →
    s ∈ Stmt.partsAll (stmtAll t σs) →
    s.ReadIn t (tokensAll σs)
| [], hSound, hMem => by
    cases hMem
| σ :: σs, hSound, hMem => by
    rcases StmtTree.soundAll_cons.mp hSound with
      ⟨hFirst, hRest⟩
    rcases List.mem_append.mp hMem with hMem | hMem
    · exact (readIn_of_mem_parts σ hFirst hMem).mono
        (List.prefix_append _ _).isInfix
    · exact (readIn_of_mem_partsAll σs hRest hMem).mono
        (List.suffix_append _ _).isInfix

end

end StmtPhrase

end WordLang
