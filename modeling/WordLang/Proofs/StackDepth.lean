import WordLang.Proofs.Resolution
import WordLang.Proofs.StmtCode

/-
  This file counts the words that code keeps on the stack.

  The count is a 32-bit word. It has no answer when a word
  is taken off an empty stack or when it does not fit. The
  code of an expression or a statement leaves the count as
  it was, so a statement that starts with nothing on the
  stack ends with nothing on it.

  Key definitions include:
    * `WordLang.Line.depth?`
    * `WordLang.depthAfter?`
    * `WordLang.Emitter.KeepsDepth`
    * `WordLang.Stmt.parts`
    * `WordLang.Program.Balanced`

  Key theorems include:
    * `WordLang.Expr.keepsDepth_code`
    * `WordLang.Stmt.keepsDepth_code`
    * `WordLang.Program.balanced_of_resolved`
-/

namespace WordLang

------------------------------------------------------------
-- Counting
------------------------------------------------------------

/- The number of words on the stack after a line. -/
def Line.depth? :
    Nat →
    Line →
    Option Nat
| d, .instr (.push _) =>
    if d + 1 < 2 ^ 32 then some (d + 1) else none
| 0, .instr (.pop _) => none
| d + 1, .instr (.pop _) => some d
| d, _ => some d

/- The number of words on the stack after some lines. -/
def depthAfter?
    (d : Nat)
    (ls : List Line) : Option Nat :=
  ls.foldlM Line.depth? d

/- Lines that leave the stack alone. -/
def Line.isNeutral : Line → Bool
| .instr (.push _) => false
| .instr (.pop _) => false
| _ => true

/-
  Where there is room for `n` more words, the lines can be
  run through and leave the number of words as it was.
-/
def KeepDepth
    (n : Nat)
    (ls : List Line) : Prop :=
  ∀ d, d + n < 2 ^ 32 → depthAfter? d ls = some d

namespace KeepDepth

/- More room does no harm. -/
theorem mono
    {m n : Nat}
    {ls : List Line}
    (hKeep : KeepDepth m ls)
    (hLe : m ≤ n) :
    KeepDepth n ls := by
  intro d hRoom
  exact hKeep d (by omega)

/- One part after another. -/
theorem append
    {n : Nat}
    {ls ls' : List Line}
    (hFirst : KeepDepth n ls)
    (hSecond : KeepDepth n ls') :
    KeepDepth n (ls ++ ls') := by
  intro d hRoom
  rw [depthAfter?, List.foldlM_append]
  change (depthAfter? d ls).bind (depthAfter? · ls') = _
  rw [hFirst d hRoom, Option.bind_some, hSecond d hRoom]

/- Lines that leave the stack alone. -/
theorem of_isNeutral
    {ls : List Line}
    (hNeutral : ls.all Line.isNeutral = true) :
    KeepDepth 0 ls := by
  induction ls with
  | nil =>
      intro d _
      rfl
  | cons l ls ih =>
      rw [List.all_cons, Bool.and_eq_true] at hNeutral
      intro d hRoom
      have hLine : l.depth? d = some d := by
        unfold Line.isNeutral at hNeutral
        unfold Line.depth?
        grind
      rw [depthAfter?, List.foldlM_cons, hLine]
      exact ih hNeutral.2 d hRoom

/- A word that waits while other code runs. -/
theorem saved
    {n : Nat}
    {ls : List Line}
    (hKeep : KeepDepth n ls)
    (src dst : Reg) :
    KeepDepth (n + 1)
      (.instr (.push src) ::
        (ls ++ [.instr (.pop dst)])) := by
  intro d hRoom
  have hPush :
      Line.depth? d (.instr (.push src)) = some (d + 1) :=
    if_pos (by omega)
  rw [depthAfter?, List.foldlM_cons, hPush]
  change depthAfter? (d + 1) _ = _
  rw [depthAfter?, List.foldlM_append]
  change (depthAfter? (d + 1) ls).bind _ = _
  rw [hKeep (d + 1) (by omega)]
  rfl

end KeepDepth

------------------------------------------------------------
-- Emitters
------------------------------------------------------------

namespace Emitter

/-
  Whatever is emitted leaves the number of words as it was,
  where there is room for `n` more.
-/
def KeepsDepth
    (n : Nat)
    (e : Emitter) : Prop :=
  ∀ k ls k', e.Emits k ls k' → KeepDepth n ls

namespace KeepsDepth

variable {m n : Nat}
variable {a b : Emitter}

theorem mono
    (hKeeps : KeepsDepth m a)
    (hLe : m ≤ n) :
    KeepsDepth n a := by
  intro k ls k' hEmits
  exact (hKeeps k ls k' hEmits).mono hLe

theorem append
    (hFirst : KeepsDepth n a)
    (hSecond : KeepsDepth n b) :
    KeepsDepth n (a ++ b) := by
  intro k ls k' hEmits
  rcases emits_append.mp hEmits with
    ⟨ls₁, k₁, ls₂, hA, hB, rfl⟩
  exact (hFirst _ _ _ hA).append (hSecond _ _ _ hB)

theorem nothing :
    KeepsDepth n nothing := by
  intro k ls k' hEmits
  rcases emits_nothing.mp hEmits with ⟨rfl, rfl⟩
  exact (KeepDepth.of_isNeutral rfl).mono (Nat.zero_le n)

theorem lines
    {ls : List Line}
    (hNeutral : ls.all Line.isNeutral = true) :
    KeepsDepth n (lines ls) := by
  intro k ls' k' hEmits
  rcases emits_lines.mp hEmits with ⟨rfl, rfl⟩
  exact (KeepDepth.of_isNeutral hNeutral).mono
    (Nat.zero_le n)

theorem withLabel
    {emit : UInt32 → Emitter}
    (hKeeps : ∀ id, KeepsDepth n (emit id)) :
    KeepsDepth n (withLabel emit) := by
  intro k ls k' hEmits
  exact hKeeps _ _ _ _ (emits_withLabel.mp hEmits)

/-
  A word waits while other code runs, which is then followed
  by lines that leave the stack alone.
-/
theorem saved
    (before after : List Instr)
    (dst : Reg)
    (hKeeps : KeepsDepth n a)
    (hBefore :
      (before.map Line.instr).all Line.isNeutral = true)
    (hAfter :
      (after.map Line.instr).all Line.isNeutral = true) :
    KeepsDepth (n + 1)
      (instrs [.push .rax] ++
        (a ++ instrs (before ++ .pop dst :: after))) := by
  intro k ls k' hEmits
  simp only [emits_append, emits_instrs] at hEmits
  rcases hEmits with
    ⟨_, _, _, ⟨rfl, rfl⟩,
      ⟨inner, _, _, hInner, ⟨rfl, rfl⟩, rfl⟩, rfl⟩
  have hWaits :
      KeepDepth n (inner ++ before.map Line.instr) :=
    (hKeeps _ _ _ hInner).append
      ((KeepDepth.of_isNeutral hBefore).mono
        (Nat.zero_le n))
  have hRest :
      KeepDepth (n + 1) (after.map Line.instr) :=
    (KeepDepth.of_isNeutral hAfter).mono (Nat.zero_le _)
  have hAll := (hWaits.saved .rax dst).append hRest
  simpa using hAll

end KeepsDepth

end Emitter

------------------------------------------------------------
-- Expressions
------------------------------------------------------------

namespace Expr

variable (locals : Locals)

theorem keepsDepth_address
    (e : Expr)
    {n : Nat} :
    (e.address locals).KeepsDepth n := by
  intro k ls k' hEmits
  rcases emits_address.mp hEmits with
    ⟨offset, span, rfl, -, rfl, rfl⟩
  exact (KeepDepth.of_isNeutral rfl).mono (Nat.zero_le n)

/- The code of an operation leaves the stack alone. -/
theorem isNeutral_binOp
    (op : BinOp) :
    (op.code.map Line.instr).all Line.isNeutral = true := by
  cases op <;> rfl

/- An expression takes off what it has put on the stack. -/
theorem keepsDepth_code
    (e : Expr) :
    (e.code locals).KeepsDepth e.words := by
  induction e with
  | int value span =>
      exact .lines rfl
  | var offset span =>
      exact .append (keepsDepth_address locals _)
        (.lines rfl)
  | binary op lhs rhs span ihLhs ihRhs =>
      have hSaved :=
        ihRhs.saved [.mov .rdi .rax] op.code .rax rfl
          (isNeutral_binOp op)
      rw [words]
      apply Emitter.KeepsDepth.append
      · exact ihLhs.mono (by omega)
      · exact hSaved.mono (by omega)
  | assign target value span ihTarget ihValue =>
      have hSaved :=
        ihValue.saved [] [.store .rdi .rax] .rdi rfl rfl
      rw [words]
      apply Emitter.KeepsDepth.append
      · exact keepsDepth_address locals target
      · exact hSaved.mono (by omega)

theorem keepsDepth_codeOption
    (e : Option Expr) :
    (codeOption locals e).KeepsDepth (wordsOption e) := by
  cases e with
  | none =>
      exact .nothing
  | some e =>
      exact keepsDepth_code locals e

theorem keepsDepth_codeUnless
    (target : Label)
    (e : Expr) :
    (e.codeUnless locals target).KeepsDepth e.words :=
  .append (keepsDepth_code locals e) (.lines rfl)

end Expr

------------------------------------------------------------
-- Statements
------------------------------------------------------------

namespace Stmt

variable (locals : Locals)

mutual

/- A statement takes off what it has put on the stack. -/
theorem keepsDepth_code
    (s : Stmt) :
    (s.code locals).KeepsDepth s.words := by
  match s with
  | expr e _ =>
      exact e.keepsDepth_code locals
  | ret e _ =>
      exact .append (e.keepsDepth_code locals) (.lines rfl)
  | ifThen predicate thenArm _ =>
      rw [code, words]
      apply Emitter.KeepsDepth.withLabel
      intro id
      apply Emitter.KeepsDepth.append
      · exact (predicate.keepsDepth_codeUnless locals _).mono
          (by omega)
      · apply Emitter.KeepsDepth.append
        · exact (keepsDepth_code thenArm).mono (by omega)
        · exact .lines rfl
  | ifElse predicate thenArm elseArm _ =>
      rw [code, words]
      apply Emitter.KeepsDepth.withLabel
      intro id
      apply Emitter.KeepsDepth.append
      · exact (predicate.keepsDepth_codeUnless locals _).mono
          (by omega)
      · apply Emitter.KeepsDepth.append
        · exact (keepsDepth_code thenArm).mono (by omega)
        · apply Emitter.KeepsDepth.append (.lines rfl)
          apply Emitter.KeepsDepth.append
          · exact (keepsDepth_code elseArm).mono (by omega)
          · exact .lines rfl
  | whileLoop predicate body _ =>
      rw [code, words]
      apply Emitter.KeepsDepth.withLabel
      intro id
      apply Emitter.KeepsDepth.append (.lines rfl)
      apply Emitter.KeepsDepth.append
      · exact (predicate.keepsDepth_codeUnless locals _).mono
          (by omega)
      · apply Emitter.KeepsDepth.append
        · exact (keepsDepth_code body).mono (by omega)
        · exact .lines rfl
  | forLoop init predicate step body _ =>
      rw [code, words]
      apply Emitter.KeepsDepth.withLabel
      intro id
      apply Emitter.KeepsDepth.append
      · exact (Expr.keepsDepth_codeOption locals init).mono
          (by omega)
      · apply Emitter.KeepsDepth.append (.lines rfl)
        apply Emitter.KeepsDepth.append
        · cases predicate with
          | none =>
              exact .nothing
          | some e =>
              exact (e.keepsDepth_codeUnless locals _).mono
                (by simp only [Expr.wordsOption]; omega)
        · apply Emitter.KeepsDepth.append
          · exact (keepsDepth_code body).mono (by omega)
          · apply Emitter.KeepsDepth.append
            · exact (Expr.keepsDepth_codeOption locals
                step).mono (by omega)
            · exact .lines rfl
  | block body _ =>
      exact keepsDepth_codeAll body

/- So do statements one after another. -/
theorem keepsDepth_codeAll
    (ss : List Stmt) :
    (codeAll locals ss).KeepsDepth (wordsAll ss) := by
  match ss with
  | [] =>
      exact .nothing
  | s :: ss =>
      rw [codeAll, wordsAll]
      apply Emitter.KeepsDepth.append
      · exact (keepsDepth_code s).mono (by omega)
      · exact (keepsDepth_codeAll ss).mono (by omega)

end

------------------------------------------------------------
-- Statements Inside Statements
------------------------------------------------------------

mutual

/- A statement and all statements inside it. -/
def parts : Stmt → List Stmt
| expr e span => [expr e span]
| ret e span => [ret e span]
| ifThen predicate thenArm span =>
    ifThen predicate thenArm span :: parts thenArm
| ifElse predicate thenArm elseArm span =>
    ifElse predicate thenArm elseArm span ::
      (parts thenArm ++ parts elseArm)
| whileLoop predicate body span =>
    whileLoop predicate body span :: parts body
| forLoop init predicate step body span =>
    forLoop init predicate step body span :: parts body
| block body span => block body span :: partsAll body

/- All statements in a list and inside its members. -/
def partsAll : List Stmt → List Stmt
| [] => []
| s :: ss => parts s ++ partsAll ss

end

mutual

/- What is inside a statement pushes no more words. -/
theorem words_le_of_mem_parts
    {s s' : Stmt}
    (hMem : s' ∈ parts s) :
    s'.words ≤ s.words := by
  match s with
  | expr e _ | ret e _ =>
      cases List.mem_singleton.mp hMem
      exact Nat.le_refl _
  | ifThen predicate arm _ | whileLoop predicate arm _
  | forLoop init predicate step arm _ =>
      rcases List.mem_cons.mp hMem with rfl | hInner
      · exact Nat.le_refl _
      · have hLe := words_le_of_mem_parts hInner
        simp only [words]
        omega
  | ifElse predicate thenArm elseArm _ =>
      rcases List.mem_cons.mp hMem with rfl | hInner
      · exact Nat.le_refl _
      · simp only [words]
        rcases List.mem_append.mp hInner with hThen | hElse
        · have hLe := words_le_of_mem_parts hThen
          omega
        · have hLe := words_le_of_mem_parts hElse
          omega
  | block body _ =>
      rcases List.mem_cons.mp hMem with rfl | hInner
      · exact Nat.le_refl _
      · exact words_le_of_mem_partsAll hInner

theorem words_le_of_mem_partsAll
    {ss : List Stmt}
    {s' : Stmt}
    (hMem : s' ∈ partsAll ss) :
    s'.words ≤ wordsAll ss := by
  match ss with
  | [] =>
      cases hMem
  | s :: ss =>
      rw [wordsAll]
      rcases List.mem_append.mp hMem with hFirst | hRest
      · have hLe := words_le_of_mem_parts hFirst
        omega
      · have hLe := words_le_of_mem_partsAll hRest
        omega

end

mutual

/- What is inside a resolved statement is resolved. -/
theorem Resolved.of_mem_parts
    {locals : Locals}
    {s s' : Stmt}
    (hResolved : s.Resolved locals)
    (hMem : s' ∈ parts s) :
    s'.Resolved locals := by
  match s with
  | expr e _ | ret e _ =>
      cases List.mem_singleton.mp hMem
      exact hResolved
  | ifThen predicate arm _ | whileLoop predicate arm _ =>
      rcases List.mem_cons.mp hMem with rfl | hInner
      · exact hResolved
      · exact Resolved.of_mem_parts hResolved.2 hInner
  | forLoop init predicate step body _ =>
      rcases List.mem_cons.mp hMem with rfl | hInner
      · exact hResolved
      · rcases hResolved with ⟨-, -, -, hBody⟩
        exact Resolved.of_mem_parts hBody hInner
  | ifElse predicate thenArm elseArm _ =>
      rcases List.mem_cons.mp hMem with rfl | hInner
      · exact hResolved
      · rcases hResolved with ⟨-, hThenArm, hElseArm⟩
        rcases List.mem_append.mp hInner with hThen | hElse
        · exact Resolved.of_mem_parts hThenArm hThen
        · exact Resolved.of_mem_parts hElseArm hElse
  | block body _ =>
      rcases List.mem_cons.mp hMem with rfl | hInner
      · exact hResolved
      · exact ResolvedAll.of_mem_partsAll hResolved hInner

theorem ResolvedAll.of_mem_partsAll
    {locals : Locals}
    {ss : List Stmt}
    {s' : Stmt}
    (hResolved : ResolvedAll locals ss)
    (hMem : s' ∈ partsAll ss) :
    s'.Resolved locals := by
  match ss with
  | [] =>
      cases hMem
  | s :: ss =>
      rcases List.mem_append.mp hMem with hFirst | hRest
      · exact Resolved.of_mem_parts hResolved.1 hFirst
      · exact ResolvedAll.of_mem_partsAll hResolved.2 hRest

end

end Stmt

/-
  Every statement of a program, also one inside another,
  has code that starts and ends with nothing on the stack.
-/
def Program.Balanced
    (p : Program) : Prop :=
  ∀ s ∈ Stmt.partsAll p.body, ∀ k,
    ∃ ls k',
      (s.code p.locals).Emits k ls k' ∧
      depthAfter? 0 ls = some 0

/- The stack of a resolved program is balanced. -/
theorem Program.balanced_of_resolved
    {p : Program}
    (hResolved : p.Resolved)
    (hWords : Stmt.wordsAll p.body < 2 ^ 32) :
    p.Balanced := by
  intro s hMem k
  have hStmt : s.Resolved p.locals :=
    Stmt.ResolvedAll.of_mem_partsAll hResolved hMem
  have hFault : (s.code p.locals k).fault? = none :=
    (Stmt.fault?_code_eq_none_iff p.locals s k).mpr hStmt
  have hEmits :
      (s.code p.locals).Emits k
        (s.code p.locals k).lines
        (s.code p.locals k).labels := by
    unfold Emitter.Emits
    rw [← hFault]
  have hRoom : 0 + s.words < 2 ^ 32 := by
    have hLe := Stmt.words_le_of_mem_partsAll hMem
    omega
  exact ⟨_, _, hEmits,
    Stmt.keepsDepth_code p.locals s k _ _ hEmits 0 hRoom⟩

end WordLang
