import WordLang.Proofs.AssemblyReader
import WordLang.Proofs.Emission
import WordLang.Proofs.FrameLayout

/-
  This file proves which programs have code that can be
  encoded.

  The instructions with a number in them that depends on the
  table of variables are the address of a variable and the
  reservation of the frame. Below 2^28 variables every
  address has an encoding. The frame has one only below
  2^28 - 1 variables: one more and it takes 2^31 bytes,
  which `sub` cannot take away at once.

  Key definitions include:
    * `WordLang.AllEncoded`

  Key theorems include:
    * `WordLang.Expr.encodes_code`
    * `WordLang.Program.all_isEncodable_lower`
    * `WordLang.Program.read?_text_lower`
-/

namespace WordLang

------------------------------------------------------------
-- Expressions and Statements
------------------------------------------------------------

/- All lines have an encoding. -/
def AllEncoded
    (ls : List Line) : Prop :=
  ls.all Line.isEncodable = true

theorem isComposed_allEncoded :
    IsComposed AllEncoded where
  nil := rfl
  append ls ls' hFirst hSecond := by
    rw [AllEncoded, List.all_append, hFirst, hSecond]
    rfl
  label l := rfl
  jump l := rfl
  branch l := rfl

namespace Expr

variable {locals : Locals}

/- The variables of a small table are near the frame base. -/
theorem encodes_address
    (hSize : locals.size ≤ 2 ^ 28)
    (e : Expr) :
    (e.address locals).Ensures AllEncoded := by
  intro k ls k' hEmits
  rcases emits_address.mp hEmits with
    ⟨offset, span, -, hContains, rfl, -⟩
  rcases (locals.contains_iff offset).mp hContains with
    ⟨-, -, hInside⟩
  simp only [AllEncoded, List.all_cons, List.all_nil,
    Bool.and_true, Line.isEncodable, Instr.isEncodable,
    decide_eq_true_eq]
  omega

/- Other numbers in expressions are words. -/
theorem encodes_code
    (hSize : locals.size ≤ 2 ^ 28)
    (e : Expr) :
    (e.code locals).Ensures AllEncoded := by
  have hJoin {a b : Emitter} :
      a.Ensures AllEncoded →
      b.Ensures AllEncoded →
      (a ++ b).Ensures AllEncoded :=
    .append isComposed_allEncoded
  induction e with
  | int value span =>
      exact .lines rfl
  | var offset span =>
      exact hJoin (encodes_address hSize _) (.lines rfl)
  | binary op lhs rhs span ihLhs ihRhs =>
      have hOp :
          (Emitter.instrs
            (.mov .rdi .rax :: .pop .rax ::
              op.code)).Ensures AllEncoded := by
        apply Emitter.Ensures.lines
        cases op <;> rfl
      exact hJoin ihLhs
        (hJoin (.lines rfl) (hJoin ihRhs hOp))
  | assign target value span ihTarget ihValue =>
      exact hJoin (encodes_address hSize target)
        (hJoin (.lines rfl) (hJoin ihValue (.lines rfl)))

end Expr

------------------------------------------------------------
-- Programs
------------------------------------------------------------

namespace Program

/- The frame is reserved by a single instruction. -/
theorem all_isEncodable_prologue
    (locals : Locals) :
    ((prologue locals).map Line.instr).all
        Line.isEncodable =
      decide ((frameSize locals).toNat < 2 ^ 31) := by
  unfold prologue
  by_cases hEmpty : frameSize locals = 0
  · rw [if_pos hEmpty, hEmpty]
    rfl
  · rw [if_neg hEmpty]
    simp [Line.isEncodable, Instr.isEncodable]

/- The frame of fewer than 2^28 - 1 variables is encoded. -/
theorem frameSize_lt_iff
    {locals : Locals}
    (hSize : locals.size < 2 ^ 28) :
    (frameSize locals).toNat < 2 ^ 31 ↔
      locals.size < 2 ^ 28 - 1 := by
  rw [toNat_frameSize locals hSize]
  omega

/- Only the frame can keep a program from being encoded. -/
theorem all_isEncodable_lower
    {p : Program}
    (hFault : p.lower.fault? = none)
    (hLocals : p.locals.size < 2 ^ 28) :
    p.lower.lines.all Line.isEncodable =
      decide (p.locals.size < 2 ^ 28 - 1) := by
  rcases emits_lower hFault with ⟨body, hBody, hLines⟩
  have hEncodes : body.all Line.isEncodable = true :=
    Stmt.ensures_codeAll isComposed_allEncoded
      (Expr.encodes_code (by omega)) p.body _ _ _ hBody
  have hEnd : epilogue.all Line.isEncodable = true := rfl
  rw [hLines, List.all_append, List.all_append,
    all_isEncodable_prologue, hEncodes, hEnd, Bool.and_self,
    Bool.and_true]
  exact decide_eq_decide.mpr (frameSize_lt_iff hLocals)

/- The text of a program is read back if it is encoded. -/
theorem read?_text_lower
    {p : Program}
    (target : Target)
    (hName : p.name = mainName)
    (hFault : p.lower.fault? = none)
    (hLocals : p.locals.size < 2 ^ 28) :
    Assembly.read? target p.name
        (Assembly.text target p.name p.lower.lines) =
      if p.locals.size < 2 ^ 28 - 1 then
        some p.lower.lines
      else
        none := by
  rw [hName, Assembly.read?_text,
    all_isEncodable_lower hFault hLocals]
  simp only [decide_eq_true_eq]

end Program

end WordLang
