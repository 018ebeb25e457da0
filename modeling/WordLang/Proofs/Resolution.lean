import WordLang.Proofs.Emission
import WordLang.Proofs.FrameLayout
import WordLang.Proofs.ParserCorrectness

/-
  This file says which programs have code.

  A program is resolved when each of its variables is in its
  own table and values are assigned to variables only. These
  are exactly the programs that are lowered without a fault,
  and every program that was read from a stream of tokens is
  one of them, unless it has so many variables that their
  offsets do not fit into 32 bits.

  Key definitions include:
    * `WordLang.Expr.Resolved`
    * `WordLang.Stmt.Resolved`
    * `WordLang.Program.Resolved`

  Key theorems include:
    * `WordLang.Program.fault?_lower_eq_none_iff`
    * `WordLang.StmtTree.resolved_of_lower?`
    * `WordLang.Program.resolved_of_parse`
-/

namespace WordLang

------------------------------------------------------------
-- Resolved Programs
------------------------------------------------------------

namespace Expr

/-
  Every variable is in the table, and values are assigned to
  variables only.
-/
def Resolved
    (locals : Locals) :
    Expr → Prop
| int _ _ => True
| var offset _ => locals.contains offset = true
| binary _ lhs rhs _ =>
    lhs.Resolved locals ∧ rhs.Resolved locals
| assign target value _ =>
    target.isVar = true ∧
      target.Resolved locals ∧ value.Resolved locals

end Expr

namespace Stmt

mutual

/- Every expression in a statement is resolved. -/
def Resolved
    (locals : Locals) :
    Stmt → Prop
| expr e _ => e.Resolved locals
| ret e _ => e.Resolved locals
| ifThen predicate thenArm _ =>
    predicate.Resolved locals ∧ Resolved locals thenArm
| ifElse predicate thenArm elseArm _ =>
    predicate.Resolved locals ∧
      Resolved locals thenArm ∧ Resolved locals elseArm
| whileLoop predicate body _ =>
    predicate.Resolved locals ∧ Resolved locals body
| forLoop init predicate step body _ =>
    (∀ e ∈ init, e.Resolved locals) ∧
      (∀ e ∈ predicate, e.Resolved locals) ∧
      (∀ e ∈ step, e.Resolved locals) ∧
      Resolved locals body
| block body _ => ResolvedAll locals body

/- Every expression in some statements is resolved. -/
def ResolvedAll
    (locals : Locals) :
    List Stmt → Prop
| [] => True
| s :: ss => Resolved locals s ∧ ResolvedAll locals ss

end

end Stmt

/- A program whose expressions fit its own table. -/
def Program.Resolved
    (p : Program) : Prop :=
  Stmt.ResolvedAll p.locals p.body

------------------------------------------------------------
-- Faults
------------------------------------------------------------

namespace Emitter

variable {k : Nat}

/- Nothing is emitted without a fault. -/
theorem fault?_nothing :
    (nothing k).fault? = none := rfl

/- So are lines. -/
theorem fault?_lines
    (ls : List Line) :
    (lines ls k).fault? = none := rfl

/- So are instructions. -/
theorem fault?_instrs
    (is : List Instr) :
    (instrs is k).fault? = none := rfl

/- A sequence has no fault if its parts have none. -/
theorem fault?_append_eq_none_iff
    (a b : Emitter) :
    ((a ++ b) k).fault? = none ↔
      (a k).fault? = none ∧
      (b (a k).labels).fault? = none := by
  change (append a b k).fault? = none ↔ _
  unfold append
  cases hFault : (a k).fault? with
  | some fault =>
      simp [hFault]
  | none =>
      simp [hFault]

/- The number of a label makes no fault. -/
theorem fault?_withLabel
    (emit : UInt32 → Emitter) :
    (withLabel emit k).fault? =
      (emit (UInt32.ofNat (k + 1)) (k + 1)).fault? := rfl

end Emitter

namespace Expr

variable (locals : Locals)

/- Exactly the variables of the table have an address. -/
theorem fault?_address_eq_none_iff
    (e : Expr)
    (k : Nat) :
    (e.address locals k).fault? = none ↔
      e.isVar = true ∧ e.Resolved locals := by
  cases e with
  | var offset span =>
      by_cases hContains : locals.contains offset = true
      · simp [address, hContains, Emitter.fault?_instrs,
          isVar, Resolved]
      · simp [address, hContains, Emitter.fail, isVar,
          Resolved]
  | int value span | binary op lhs rhs span
  | assign target value span =>
      simp [address, Emitter.fail, isVar]

/- An expression has code if it is resolved. -/
theorem fault?_code_eq_none_iff
    (e : Expr)
    (k : Nat) :
    (e.code locals k).fault? = none ↔
      e.Resolved locals := by
  induction e generalizing k with
  | int value span =>
      simp [code, Emitter.fault?_instrs, Resolved]
  | var offset span =>
      simp [code, Emitter.fault?_append_eq_none_iff,
        Emitter.fault?_instrs, fault?_address_eq_none_iff,
        isVar]
  | binary op lhs rhs span ihLhs ihRhs =>
      simp [code, Emitter.fault?_append_eq_none_iff,
        Emitter.fault?_instrs, ihLhs, ihRhs, Resolved]
  | assign target value span ihTarget ihValue =>
      simp [code, Emitter.fault?_append_eq_none_iff,
        Emitter.fault?_instrs, fault?_address_eq_none_iff,
        ihValue, Resolved, and_assoc]

/- The same, for one that may be left out. -/
theorem fault?_codeOption_eq_none_iff
    (e : Option Expr)
    (k : Nat) :
    (codeOption locals e k).fault? = none ↔
      ∀ e' ∈ e, e'.Resolved locals := by
  cases e with
  | none =>
      simp [codeOption, Emitter.fault?_nothing]
  | some e =>
      simp [codeOption, fault?_code_eq_none_iff]

/- The same, for a predicate. -/
theorem fault?_codeUnless_eq_none_iff
    (target : Label)
    (e : Expr)
    (k : Nat) :
    (e.codeUnless locals target k).fault? = none ↔
      e.Resolved locals := by
  simp [codeUnless, Emitter.fault?_append_eq_none_iff,
    Emitter.fault?_instrs, fault?_code_eq_none_iff]

end Expr

namespace Stmt

variable (locals : Locals)

mutual

/- A statement has code if it is resolved. -/
theorem fault?_code_eq_none_iff
    (s : Stmt)
    (k : Nat) :
    (s.code locals k).fault? = none ↔
      s.Resolved locals := by
  match s with
  | expr e _ =>
      simp [code, Resolved, Expr.fault?_code_eq_none_iff]
  | ret e _ =>
      simp [code, Resolved, Emitter.fault?_instrs,
        Emitter.fault?_append_eq_none_iff,
        Expr.fault?_code_eq_none_iff]
  | ifThen predicate thenArm _ =>
      simp [code, Resolved, Emitter.fault?_withLabel,
        Emitter.fault?_append_eq_none_iff,
        Emitter.fault?_lines,
        Expr.fault?_codeUnless_eq_none_iff,
        fault?_code_eq_none_iff thenArm]
  | ifElse predicate thenArm elseArm _ =>
      simp [code, Resolved, Emitter.fault?_withLabel,
        Emitter.fault?_append_eq_none_iff,
        Emitter.fault?_lines,
        Expr.fault?_codeUnless_eq_none_iff,
        fault?_code_eq_none_iff thenArm,
        fault?_code_eq_none_iff elseArm]
  | whileLoop predicate body _ =>
      simp [code, Resolved, Emitter.fault?_withLabel,
        Emitter.fault?_append_eq_none_iff,
        Emitter.fault?_lines,
        Expr.fault?_codeUnless_eq_none_iff,
        fault?_code_eq_none_iff body]
  | forLoop init predicate step body _ =>
      -- The test of the predicate is left out with it.
      cases predicate with
      | none =>
          simp [code, Resolved, Emitter.fault?_withLabel,
            Emitter.fault?_append_eq_none_iff,
            Emitter.fault?_lines, Emitter.fault?_nothing,
            Expr.fault?_codeOption_eq_none_iff,
            fault?_code_eq_none_iff body,
            and_comm, and_left_comm]
      | some predicate =>
          simp [code, Resolved, Emitter.fault?_withLabel,
            Emitter.fault?_append_eq_none_iff,
            Emitter.fault?_lines,
            Expr.fault?_codeOption_eq_none_iff,
            Expr.fault?_codeUnless_eq_none_iff,
            fault?_code_eq_none_iff body,
            and_comm, and_left_comm]
  | block body _ =>
      simp [code, Resolved, fault?_codeAll_eq_none_iff body]

/- Statements have code if all of them are resolved. -/
theorem fault?_codeAll_eq_none_iff
    (ss : List Stmt)
    (k : Nat) :
    (codeAll locals ss k).fault? = none ↔
      ResolvedAll locals ss := by
  match ss with
  | [] =>
      simp [codeAll, ResolvedAll, Emitter.fault?_nothing]
  | s :: ss =>
      simp [codeAll, ResolvedAll,
        Emitter.fault?_append_eq_none_iff,
        fault?_code_eq_none_iff s,
        fault?_codeAll_eq_none_iff ss]

end

end Stmt

/- A program has code if it is resolved. -/
theorem Program.fault?_lower_eq_none_iff
    (p : Program) :
    p.lower.fault? = none ↔ p.Resolved := by
  simp [lower, Resolved, Emitter.fault?_append_eq_none_iff,
    Emitter.fault?_instrs, Emitter.fault?_lines,
    Stmt.fault?_codeAll_eq_none_iff]

------------------------------------------------------------
-- Programs From Derivations
------------------------------------------------------------

/- The offset of a name of a small table is in the table. -/
theorem Locals.contains_of_offset?
    {t : Locals}
    {name : String}
    {offset : Offset}
    (hSize : t.size < 2 ^ 28)
    (hOffset : t.offset? name = some offset) :
    t.contains offset = true := by
  rw [contains,
    nameOf?_of_offset? (Nat.lt_trans hSize (by decide))
      hOffset]
  rfl

/- Regions do not matter. -/
theorem Expr.resolved_bare
    {t : Locals}
    {e : Expr} :
    e.bare.Resolved t ↔ e.Resolved t := by
  induction e with
  | int value span =>
      rfl
  | var offset span =>
      rfl
  | binary op lhs rhs span ihLhs ihRhs =>
      simp only [bare, Resolved, ihLhs, ihRhs]
  | assign target value span ihTarget ihValue =>
      simp only [bare, Resolved, ihTarget, ihValue,
        isVar_bare]

namespace Stmt

variable {t : Locals}

mutual

/- Nor do they in statements. -/
theorem resolved_bare
    (s : Stmt) :
    s.bare.Resolved t ↔ s.Resolved t := by
  match s with
  | expr e _ | ret e _ =>
      simp only [bare, Resolved, Expr.resolved_bare]
  | ifThen predicate thenArm _ =>
      simp only [bare, Resolved, Expr.resolved_bare,
        resolved_bare thenArm]
  | ifElse predicate thenArm elseArm _ =>
      simp only [bare, Resolved, Expr.resolved_bare,
        resolved_bare thenArm, resolved_bare elseArm]
  | whileLoop predicate body _ =>
      simp only [bare, Resolved, Expr.resolved_bare,
        resolved_bare body]
  | forLoop init predicate step body _ =>
      cases init <;> cases predicate <;> cases step <;>
        simp [bare, Resolved, Expr.resolved_bare,
          resolved_bare body]
  | block body _ =>
      simp only [bare, Resolved, resolvedAll_bareAll body]

theorem resolvedAll_bareAll
    (ss : List Stmt) :
    ResolvedAll t (bareAll ss) ↔ ResolvedAll t ss := by
  match ss with
  | [] =>
      rfl
  | s :: ss =>
      simp only [bareAll, ResolvedAll, resolved_bare s,
        resolvedAll_bareAll ss]

end

end Stmt

/- The operands of an operation are resolved with it. -/
theorem Connective.resolved_combine
    (c : Connective)
    {t : Locals}
    {a b : Expr}
    (hLeft : a.Resolved t)
    (hRight : b.Resolved t) :
    (c.combine a b).Resolved t := by
  cases c with
  | greater | greaterEqual =>
      exact ⟨hRight, hLeft⟩
  | _ =>
      exact ⟨hLeft, hRight⟩

/- Valid derivations stand for resolved expressions. -/
theorem ExprTree.resolved_of_lower?
    {t : Locals}
    (hSize : t.size < 2 ^ 28)
    {d : ExprTree}
    {e : Expr}
    (hValid : d.Valid)
    (hLower : d.lower? t = some e) :
    e.Resolved t := by
  induction d generalizing e with
  | number s =>
      rcases Option.map_eq_some_iff.mp hLower with
        ⟨v, -, rfl⟩
      trivial
  | name s =>
      rcases Option.map_eq_some_iff.mp hLower with
        ⟨offset, hOffset, rfl⟩
      exact Locals.contains_of_offset? hSize hOffset
  | paren d ih =>
      exact ih hValid hLower
  | signed negative d ih =>
      cases negative with
      | false =>
          exact ih hValid hLower
      | true =>
          rcases lower?_negative.mp hLower with
            ⟨a, hOperand, rfl⟩
          exact ⟨trivial, ih hValid hOperand⟩
  | chain c l r ihLeft ihRight =>
      rcases lower?_chain.mp hLower with
        ⟨a, b, hLeft, hRight, rfl⟩
      exact c.resolved_combine (ihLeft hValid.1 hLeft)
        (ihRight hValid.2 hRight)
  | assign d v ihTarget ihValue =>
      rcases hValid with ⟨hPlace, hTargetValid, hValueValid⟩
      rcases lower?_assign.mp hLower with
        ⟨a, b, hTarget, hValue, rfl⟩
      have hVar : a.isVar = true := by
        rw [isVar_of_lower? hTarget, hPlace]
      exact ⟨hVar, ihTarget hTargetValid hTarget,
        ihValue hValueValid hValue⟩

/- The same, for one that may be left out. -/
theorem ExprTree.resolved_of_lowerOption?
    {t : Locals}
    (hSize : t.size < 2 ^ 28)
    {d : Option ExprTree}
    {e : Option Expr}
    (hValid : ∀ d' ∈ d, d'.Valid)
    (hLower : lowerOption? t d = some e) :
    ∀ e' ∈ e, e'.Resolved t := by
  cases d with
  | none =>
      cases hLower
      simp
  | some d =>
      rcases Option.map_eq_some_iff.mp hLower with
        ⟨a, hExpr, rfl⟩
      intro e' hMem
      cases hMem
      exact resolved_of_lower? hSize (hValid d rfl) hExpr

namespace StmtTree

mutual

/- Valid derivations stand for resolved statements. -/
theorem resolved_of_lower?
    {t : Locals}
    (hSize : t.size < 2 ^ 28)
    {d : StmtTree}
    {s : Stmt}
    (hValid : d.AllExprs (·.Valid))
    (hLower : d.lower? t = some s) :
    s.Resolved t := by
  match d with
  | ret d | expr d =>
      simp only [lower?_ret, lower?_expr] at hLower
      rcases hLower with ⟨e, hExpr, rfl⟩
      exact ExprTree.resolved_of_lower? hSize hValid hExpr
  | ifThen p d | whileLoop p d =>
      simp only [lower?_ifThen, lower?_whileLoop] at hLower
      rcases hLower with ⟨e, a, hPredicate, hArm, rfl⟩
      exact
        ⟨ExprTree.resolved_of_lower? hSize hValid.1
          hPredicate,
        resolved_of_lower? hSize hValid.2 hArm⟩
  | ifElse p d d' =>
      rcases hValid with ⟨hPredicateValid, hThenValid,
        hElseValid⟩
      rcases lower?_ifElse.mp hLower with
        ⟨e, a, b, hPredicate, hThen, hElse, rfl⟩
      exact
        ⟨ExprTree.resolved_of_lower? hSize hPredicateValid
          hPredicate,
        resolved_of_lower? hSize hThenValid hThen,
        resolved_of_lower? hSize hElseValid hElse⟩
  | forLoop i p n d =>
      rcases hValid with ⟨hInitValid, hPredicateValid,
        hStepValid, hBodyValid⟩
      rcases lower?_forLoop.mp hLower with
        ⟨i', p', n', a, hInit, hPredicate, hStep, hBody,
          rfl⟩
      exact
        ⟨ExprTree.resolved_of_lowerOption? hSize hInitValid
          hInit,
        ExprTree.resolved_of_lowerOption? hSize
          hPredicateValid hPredicate,
        ExprTree.resolved_of_lowerOption? hSize hStepValid
          hStep,
        resolved_of_lower? hSize hBodyValid hBody⟩
  | block ds =>
      rcases lower?_block.mp hLower with ⟨body, hBody, rfl⟩
      exact resolvedAll_of_lowerAll? hSize hValid hBody

/- The same, for statements one after another. -/
theorem resolvedAll_of_lowerAll?
    {t : Locals}
    (hSize : t.size < 2 ^ 28)
    {ds : List StmtTree}
    {ss : List Stmt}
    (hValid : AllExprsAll (·.Valid) ds)
    (hLower : lowerAll? t ds = some ss) :
    Stmt.ResolvedAll t ss := by
  match ds with
  | [] =>
      cases hLower
      trivial
  | d :: ds =>
      rcases lowerAll?_cons.mp hLower with
        ⟨a, body, hFirst, hBody, rfl⟩
      exact ⟨resolved_of_lower? hSize hValid.1 hFirst,
        resolvedAll_of_lowerAll? hSize hValid.2 hBody⟩

end

end StmtTree

------------------------------------------------------------
-- Programs From Tokens
------------------------------------------------------------

namespace Program

/- A program that was read has a derivation. -/
theorem derivation_of_parse
    {s : TokenStream}
    {p : Program}
    (hParse : parse s = .ok p) :
    ∃ ds,
      IsDerivation ds s.terminals ∧
      StmtTree.lowerAll? p.locals ds =
        some (Stmt.bareAll p.body) := by
  have hAgrees := parse_agrees s
  rcases hAgrees.isOk_iff.mp ⟨p, hParse⟩ with ⟨ds, hTrees⟩
  have hMeans := hAgrees.related hTrees hParse
  exact ⟨ds, StmtTree.ofTerminals?_eq_some_iff.mp hTrees,
    hMeans.2⟩

/- A program that was read is resolved. -/
theorem resolved_of_parse
    {s : TokenStream}
    {p : Program}
    (hParse : parse s = .ok p)
    (hSize : p.locals.size < 2 ^ 28) :
    p.Resolved := by
  rcases derivation_of_parse hParse with
    ⟨ds, hDerivation, hLower⟩
  apply (Stmt.resolvedAll_bareAll p.body).mp
  exact StmtTree.resolvedAll_of_lowerAll? hSize
    hDerivation.valid hLower

end Program

end WordLang
