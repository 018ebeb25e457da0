import WordLang.Proofs.FaultOrder
import WordLang.Proofs.LeafTokens

/-
  This file follows constants from a tree into its code.

  Every constant becomes one line, which moves it into
  `rax`, and no other line does such a thing. So the code
  has the constants of the tree in the order of its nodes.
  The numbers in a source are among them, each as often as
  it is written.

  Key definitions include:
    * `WordLang.Line.constant?`
    * `WordLang.Emitter.Moves`

  Key theorems include:
    * `WordLang.Emitter.Moves.append`
    * `WordLang.Stmt.moves_code`
    * `WordLang.Program.constants_lower`
    * `WordLang.Program.values_subperm_constants`
-/

namespace WordLang

------------------------------------------------------------
-- Lines With Constants
------------------------------------------------------------

/- The constant that a line moves into `rax`. -/
def Line.constant? : Line → Option Int64
| .instr (.movImm .rax v) => some v
| _ => none

namespace Emitter

/- Code with these constants, if it has no fault. -/
def Moves
    (vs : List Int64)
    (a : Emitter) : Prop :=
  ∀ k,
    (a k).fault? = none →
    (a k).lines.filterMap Line.constant? = vs

variable {a b : Emitter}
variable {us vs : List Int64}

theorem moves_nothing :
    Moves [] nothing :=
  fun _ _ => rfl

theorem moves_lines
    (ls : List Line) :
    Moves (ls.filterMap Line.constant?) (lines ls) :=
  fun _ _ => rfl

/- Constants stand in the order of the code. -/
theorem Moves.append
    (hFirst : Moves us a)
    (hSecond : Moves vs b) :
    Moves (us ++ vs) (a ++ b) := by
  intro k hFault
  rcases (fault?_append_eq_none_iff a b).mp hFault with
    ⟨hFine, hFine'⟩
  rw [append_of_none hFine, List.filterMap_append,
    hFirst k hFine, hSecond _ hFine']

/- Other lines do not count. -/
theorem Moves.then_lines
    (hMoves : Moves vs a)
    (ls : List Line)
    (hLines : ls.filterMap Line.constant? = []) :
    Moves vs (a ++ lines ls) := by
  have hBoth := hMoves.append (moves_lines ls)
  rw [hLines, List.append_nil] at hBoth
  exact hBoth

theorem Moves.after_lines
    (hMoves : Moves vs a)
    (ls : List Line)
    (hLines : ls.filterMap Line.constant? = []) :
    Moves vs (lines ls ++ a) := by
  have hBoth := (moves_lines ls).append hMoves
  rw [hLines, List.nil_append] at hBoth
  exact hBoth

theorem Moves.withLabel
    {emit : UInt32 → Emitter}
    (hMoves : ∀ id, Moves vs (emit id)) :
    Moves vs (.withLabel emit) :=
  fun k => hMoves _ (k + 1)

end Emitter

------------------------------------------------------------
-- Constants of Expressions
------------------------------------------------------------

namespace Expr

variable (locals : Locals)

/- An address has no constants, nor has its variable. -/
theorem moves_address
    (e : Expr) :
    Emitter.Moves (e.parts.filterMap value?)
      (e.address locals) := by
  intro k hFault
  have hVar :=
    ((e.fault?_address_eq_none_iff locals k).mp hFault).1
  cases e with
  | var o s =>
      rw [address] at hFault ⊢
      split
      · rfl
      · rename_i hUnknown
        rw [if_neg hUnknown] at hFault
        cases hFault
  | int _ _ | binary _ _ _ _ | assign _ _ _ =>
      cases hVar

theorem constants_binOp
    (op : BinOp) :
    ((.mov .rdi .rax :: .pop .rax :: op.code).map
      Line.instr).filterMap Line.constant? = [] := by
  cases op <;> rfl

/- The code of an expression has its constants. -/
theorem moves_code
    (e : Expr) :
    Emitter.Moves (e.parts.filterMap value?)
      (e.code locals) := by
  induction e with
  | int v s =>
      exact Emitter.moves_lines _
  | var o s =>
      exact (moves_address locals (var o s)).then_lines
        _ rfl
  | binary op lhs rhs s ihLhs ihRhs =>
      rw [seesLeaves_value?.parts_binary]
      have hRight :=
        ihRhs.then_lines _ (constants_binOp op)
      exact ihLhs.append (hRight.after_lines _ rfl)
  | assign target value s ihTarget ihValue =>
      rw [seesLeaves_value?.parts_assign]
      exact (moves_address locals target).append
        ((ihValue.then_lines _ rfl).after_lines _ rfl)

theorem moves_codeOption
    (e : Option Expr) :
    Emitter.Moves
      ((e.toList.flatMap parts).filterMap value?)
      (codeOption locals e) := by
  cases e with
  | none =>
      exact Emitter.moves_nothing
  | some e =>
      simpa [codeOption] using e.moves_code locals

theorem moves_codeUnless
    (target : Label)
    (e : Expr) :
    Emitter.Moves (e.parts.filterMap value?)
      (e.codeUnless locals target) :=
  (e.moves_code locals).then_lines _ rfl

end Expr

------------------------------------------------------------
-- Constants of Statements
------------------------------------------------------------

namespace Stmt

variable (locals : Locals)

mutual

/- The code of a statement has its constants. -/
theorem moves_code :
    (s : Stmt) →
    Emitter.Moves
      ((s.lowered.flatMap Expr.parts).filterMap Expr.value?)
      (s.code locals)
| expr e _ => by
    simpa [lowered, code] using e.moves_code locals
| ret e _ => by
    simpa [lowered, code, Emitter.instrs] using
      (e.moves_code locals).then_lines
        [.instr (.jmp .atExit)] rfl
| ifThen predicate thenArm _ => by
    apply Emitter.Moves.withLabel
    intro id
    simpa [lowered] using
      (predicate.moves_codeUnless locals _).append
        ((moves_code thenArm).then_lines _ rfl)
| ifElse predicate thenArm elseArm _ => by
    apply Emitter.Moves.withLabel
    intro id
    have hElse :=
      (moves_code elseArm).then_lines
        [.label ⟨.finish, id⟩] rfl
    simpa [lowered] using
      (predicate.moves_codeUnless locals _).append
        ((moves_code thenArm).append
          (hElse.after_lines _ rfl))
| whileLoop predicate body _ => by
    apply Emitter.Moves.withLabel
    intro id
    have hTest :=
      (predicate.moves_codeUnless locals
        ⟨.finish, id⟩).append
        ((moves_code body).then_lines
          [.instr (.jmp ⟨.begin, id⟩),
           .label ⟨.finish, id⟩] rfl)
    simpa [lowered] using hTest.after_lines _ rfl
| forLoop init predicate step body _ => by
    apply Emitter.Moves.withLabel
    intro id
    have hBody :=
      (moves_code body).append
        ((Expr.moves_codeOption locals step).then_lines
          [.instr (.jmp ⟨.begin, id⟩),
           .label ⟨.finish, id⟩] rfl)
    -- The test of the predicate is left out with it.
    cases predicate with
    | none =>
        simpa [lowered] using
          (Expr.moves_codeOption locals init).append
            ((Emitter.moves_nothing.append
              hBody).after_lines _ rfl)
    | some e =>
        simpa [lowered] using
          (Expr.moves_codeOption locals init).append
            (((e.moves_codeUnless locals _).append
              hBody).after_lines _ rfl)
| block body _ => by
    exact moves_codeAll body

theorem moves_codeAll :
    (ss : List Stmt) →
    Emitter.Moves
      (((loweredAll ss).flatMap
        Expr.parts).filterMap Expr.value?)
      (codeAll locals ss)
| [] => by
    exact Emitter.moves_nothing
| s :: ss => by
    simpa [loweredAll, codeAll] using
      (moves_code s).append (moves_codeAll ss)

end

end Stmt

------------------------------------------------------------
-- Constants of Programs
------------------------------------------------------------

namespace Program

/- The code of a program has its constants in order. -/
theorem constants_lower
    {p : Program}
    (hFault : p.lower.fault? = none) :
    p.lower.lines.filterMap Line.constant? =
      p.nodes.filterMap Expr.value? := by
  have hPrologue :
      ((prologue p.locals).map Line.instr).filterMap
        Line.constant? = [] := by
    unfold prologue
    split <;> rfl
  have hMoves :=
    ((Stmt.moves_codeAll p.locals p.body).then_lines
      epilogue rfl).after_lines _ hPrologue
  exact hMoves 0 hFault

/- The numbers among some tokens are in the code. -/
theorem values_subperm_constants
    {s : TokenStream}
    {p : Program}
    (hInside : ∀ a ∈ s.tokens, a.isEof = false)
    (hParse : parse s = .ok p)
    (hFault : p.lower.fault? = none) :
    (s.tokens.filterMap Token.value?).Subperm
      (p.lower.lines.filterMap Line.constant?) := by
  rcases exists_phrases hInside hParse with
    ⟨σs, hTokens, -, -, hBody⟩
  have hLeaves :=
    StmtPhrase.leaves_perm Expr.seesLeaves_value?
      p.locals σs
  rw [← hBody] at hLeaves
  have hNodes :
      (p.nodes.filterMap Expr.value?).Perm
        ((StmtPhrase.leavesAll p.locals σs).filterMap
          Expr.value?) :=
    (p.nodes_perm.filterMap _).trans hLeaves
  rw [constants_lower hFault, ← hTokens]
  exact (StmtPhrase.values_leavesAll
    p.locals σs).subperm.trans hNodes.symm.subperm

end Program

end WordLang
