import WordLang.Proofs.Emission
import WordLang.Proofs.StackDepth
import WordLang.Proofs.AssemblyReader

/-
  This file follows the numbers of labels through code.

  The code of a statement consists of the code of the
  statements in it, with lines of its own before, between
  and after. Labels that stand in its own lines have the
  number that it takes for itself. All other labels belong
  to the statements in it, which take later numbers.

  Key definitions include:
    * `WordLang.jumpsOf`
    * `WordLang.Stmt.arms`
    * `WordLang.Stmt.roles`
    * `WordLang.Stmt.branches`
    * `WordLang.Stmt.Woven`

  Key theorems include:
    * `WordLang.Stmt.exists_cutAt`
    * `WordLang.Stmt.mentions_code`
    * `WordLang.Stmt.jumps_code`
    * `WordLang.Stmt.mem_labelsOf_code_iff`
-/

namespace WordLang

------------------------------------------------------------
-- Jumps
------------------------------------------------------------

/- The labels that lines jump to, in order. -/
def jumpsOf
    (ls : List Line) : List Label :=
  ls.filterMap fun l => l.jump?.map Prod.snd

@[simp] theorem jumpsOf_nil :
    jumpsOf [] = [] := rfl

@[simp] theorem jumpsOf_cons
    (l : Line)
    (ls : List Line) :
    jumpsOf (l :: ls) =
      (l.jump?.map Prod.snd).toList ++ jumpsOf ls := by
  unfold jumpsOf
  cases hJump : l.jump?.map Prod.snd <;>
    simp [hJump]

@[simp] theorem jumpsOf_append
    (ls ls' : List Line) :
    jumpsOf (ls ++ ls') = jumpsOf ls ++ jumpsOf ls' :=
  List.filterMap_append

/- Some lines define a label or jump to it. -/
def Mentions
    (ls : List Line)
    (l : Label) : Prop :=
  l ∈ labelsOf ls ∨ l ∈ jumpsOf ls

@[simp] theorem mentions_append
    {ls ls' : List Line}
    {l : Label} :
    Mentions (ls ++ ls') l ↔
      Mentions ls l ∨ Mentions ls' l := by
  simp only [Mentions, labelsOf_append, jumpsOf_append,
    List.mem_append]
  exact or_or_or_comm

theorem not_mentions_nil
    (l : Label) :
    ¬ Mentions [] l := by
  simp [Mentions]

namespace Expr

variable {locals : Locals}
variable {k k' : Nat}
variable {ls : List Line}

/- The code of an expression does not jump. -/
theorem jumpsOf_code
    {e : Expr}
    (hEmits : (e.code locals).Emits k ls k') :
    jumpsOf ls = [] := by
  induction e generalizing k k' ls with
  | int value span =>
      rcases Emitter.emits_instrs.mp hEmits with ⟨rfl, rfl⟩
      rfl
  | var offset span =>
      rw [code, Emitter.emits_append] at hEmits
      rcases hEmits with ⟨_, _, _, hFirst, hSecond, rfl⟩
      rcases emits_address.mp hFirst with
        ⟨_, _, -, -, rfl, -⟩
      rcases Emitter.emits_instrs.mp hSecond with ⟨rfl, -⟩
      rfl
  | binary op lhs rhs span ihLhs ihRhs =>
      simp only [code, Emitter.emits_append,
        Emitter.emits_instrs] at hEmits
      rcases hEmits with
        ⟨_, _, _, hLhs, ⟨_, _, _, ⟨rfl, rfl⟩,
          ⟨_, _, _, hRhs, ⟨rfl, rfl⟩, rfl⟩, rfl⟩, rfl⟩
      have hOp : jumpsOf (op.code.map .instr) = [] := by
        cases op <;> rfl
      simp [ihLhs hLhs, ihRhs hRhs, hOp, Line.jump?]
  | assign target value span ihTarget ihValue =>
      simp only [code, Emitter.emits_append,
        Emitter.emits_instrs, emits_address] at hEmits
      rcases hEmits with
        ⟨_, _, _, ⟨_, _, -, -, rfl, rfl⟩, ⟨_, _, _,
          ⟨rfl, rfl⟩, ⟨_, _, _, hValue, ⟨rfl, rfl⟩, rfl⟩,
          rfl⟩, rfl⟩
      simp [ihValue hValue, Line.jump?]

theorem jumpsOf_codeOption
    {e : Option Expr}
    (hEmits : (codeOption locals e).Emits k ls k') :
    jumpsOf ls = [] := by
  cases e with
  | none =>
      rcases Emitter.emits_nothing.mp hEmits with ⟨rfl, -⟩
      rfl
  | some e =>
      exact jumpsOf_code hEmits

/- A test jumps to where it leaves for. -/
theorem jumpsOf_codeUnless
    {target : Label}
    {e : Expr}
    (hEmits :
      (e.codeUnless locals target).Emits k ls k') :
    jumpsOf ls = [target] := by
  rcases emits_codeUnless hEmits with
    ⟨_, hCode, rfl, -, -⟩
  simp [jumpsOf_code hCode, Line.jump?]

theorem jumpsOf_codeUnlessOption
    {target : Label}
    {e : Option Expr}
    (hEmits :
      Emitter.Emits
        (match e with
        | none => .nothing
        | some e => e.codeUnless locals target)
        k ls k') :
    ∀ l ∈ jumpsOf ls, l = target := by
  cases e with
  | none =>
      rcases Emitter.emits_nothing.mp hEmits with ⟨rfl, -⟩
      simp
  | some e =>
      simp [jumpsOf_codeUnless hEmits]

end Expr

------------------------------------------------------------
-- Branches
------------------------------------------------------------

namespace Stmt

/- The statements directly inside a statement. -/
def arms : Stmt → List Stmt
| ifThen _ thenArm _ => [thenArm]
| ifElse _ thenArm elseArm _ => [thenArm, elseArm]
| whileLoop _ body _ => [body]
| forLoop _ _ _ body _ => [body]
| block body _ => body
| _ => []

/- What the labels of a statement's own mark. -/
def roles : Stmt → List Label.Role
| ifThen _ _ _ => [.finish]
| ifElse _ _ _ _ => [.orElse, .finish]
| whileLoop _ _ _ => [.begin, .finish]
| forLoop _ _ _ _ _ => [.begin, .finish]
| _ => []

/- Whether a statement branches or loops. -/
def isControl
    (s : Stmt) : Bool :=
  !s.roles.isEmpty

/- How many numbers a statement takes for itself. -/
def taken
    (s : Stmt) : Nat :=
  if s.isControl then 1 else 0

/- The branching and looping statements, outer ones first. -/
def branches
    (ss : List Stmt) : List Stmt :=
  (partsAll ss).filter isControl

/- Induction from the statements inside a statement. -/
theorem induct_arms
    {P : Stmt → Prop}
    (hStep : ∀ s, (∀ arm ∈ s.arms, P arm) → P s)
    (s : Stmt) : P s := by
  apply hStep
  intro arm hArm
  have hSmaller : sizeOf arm < sizeOf s := by
    cases s <;>
      simp only [arms, List.mem_cons, List.not_mem_nil,
        or_false] at hArm
    case block body span =>
      have hBody := List.sizeOf_lt_of_mem hArm
      simp only [block.sizeOf_spec]
      omega
    case ifElse =>
      rcases hArm with rfl | rfl <;>
        simp only [ifElse.sizeOf_spec] <;> omega
    all_goals
      subst hArm
      simp only [ifThen.sizeOf_spec, whileLoop.sizeOf_spec,
        forLoop.sizeOf_spec]
      omega
  exact induct_arms hStep arm
termination_by sizeOf s

theorem parts_eq
    (s : Stmt) :
    parts s = s :: partsAll s.arms := by
  cases s <;> simp [parts, arms, partsAll]

theorem branches_cons
    (s : Stmt)
    (ss : List Stmt) :
    branches (s :: ss) = branches [s] ++ branches ss := by
  simp [branches, partsAll]

theorem branches_singleton
    (s : Stmt) :
    branches [s] =
      (if s.isControl then [s] else []) ++
        branches s.arms := by
  unfold branches
  rw [partsAll, partsAll, List.append_nil, parts_eq,
    List.filter_cons]
  split <;> rfl

theorem controls_eq
    (s : Stmt) :
    s.controls = s.taken + controlsAll s.arms := by
  cases s <;>
    simp [controls, controlsAll, taken, isControl, roles,
      arms, Nat.add_assoc]

/- There are as many branches as numbers taken. -/
theorem length_branches
    (ss : List Stmt) :
    (branches ss).length = controlsAll ss := by
  have hAll
      {ss : List Stmt}
      (hEach : ∀ s ∈ ss,
        (branches s.arms).length = controlsAll s.arms) :
      (branches ss).length = controlsAll ss := by
    induction ss with
    | nil => rfl
    | cons s ss ih =>
        rw [List.forall_mem_cons] at hEach
        rw [branches_cons, branches_singleton,
          List.length_append, List.length_append, hEach.1,
          ih hEach.2, controlsAll, controls_eq, taken]
        split <;> rfl
  have hArms
      (s : Stmt) :
      (branches s.arms).length = controlsAll s.arms := by
    induction s using induct_arms with
    | hStep s ih => exact hAll ih
  exact hAll fun s _ => hArms s

theorem length_branches_singleton
    (s : Stmt) :
    (branches [s]).length = s.controls := by
  rw [length_branches, controlsAll, controlsAll,
    Nat.add_zero]

------------------------------------------------------------
-- Lines of a Statement
------------------------------------------------------------

/- The labels of a statement's own, from `k` in use. -/
def ownLabels
    (k : Nat)
    (s : Stmt) : List Label :=
  s.roles.map (⟨·, UInt32.ofNat (k + 1)⟩)

/-
  The lines `ls` are the code of some statements, one after
  another, with the lines `glue` before, between and after.
-/
inductive Woven
    (locals : Locals) :
    List Stmt → Nat →
    List Line → List Line → Nat → Prop where
  | done {k : Nat} {glue : List Line} :
      Woven locals [] k glue glue k
  | arm
      {s : Stmt} {ss : List Stmt} {k k₁ k' : Nat}
      {own glue ls : List Line}
      (pre : List Line)
      (hOwn : (s.code locals).Emits k own k₁)
      (hRest : Woven locals ss k₁ glue ls k') :
      Woven locals (s :: ss) k
        (pre ++ glue) (pre ++ (own ++ ls)) k'

variable {locals : Locals}

theorem woven_codeAll
    {ss : List Stmt}
    {k k' : Nat}
    {ls : List Line}
    (hEmits : (codeAll locals ss).Emits k ls k') :
    Woven locals ss k [] ls k' := by
  induction ss generalizing k ls with
  | nil =>
      rcases Emitter.emits_nothing.mp hEmits with ⟨rfl, rfl⟩
      exact .done
  | cons s ss ih =>
      rw [codeAll, Emitter.emits_append] at hEmits
      rcases hEmits with ⟨_, _, _, hFirst, hRest, rfl⟩
      exact .arm [] hFirst (ih hRest)

/-
  The code of a statement, cut into that of the statements
  in it and the lines of its own.
-/
structure CutAt
    (locals : Locals)
    (s : Stmt)
    (k : Nat)
    (head glue tail : List Line)
    (k' : Nat) : Prop where
  opens : s.isControl = true → head ≠ []
  woven :
    Woven locals s.arms
      (k + s.taken) glue tail k'
  labels : labelsOf (head ++ glue) = s.ownLabels k
  jumps :
    ∀ l ∈ jumpsOf (head ++ glue),
      l = .atExit ∨ l ∈ s.ownLabels k

theorem exists_cutAt
    {s : Stmt}
    {k k' : Nat}
    {ls : List Line}
    (hEmits : (s.code locals).Emits k ls k') :
    ∃ head glue tail,
      ls = head ++ tail ∧
      CutAt locals s k head glue tail k' := by
  cases s with
  | expr e span =>
      rw [code] at hEmits
      rcases Expr.emits_code hEmits with ⟨rfl, hLabels⟩
      refine ⟨[], ls, ls, rfl, ?_, .done, hLabels, ?_⟩
      · simp [isControl, roles]
      · simp [Expr.jumpsOf_code hEmits]
  | ret e span =>
      simp only [code, Emitter.emits_append,
        Emitter.emits_instrs] at hEmits
      rcases hEmits with ⟨ls, _, _, hValue, ⟨rfl, rfl⟩, rfl⟩
      rcases Expr.emits_code hValue with ⟨rfl, hLabels⟩
      refine ⟨ls, _, _, rfl, ?_, .done, ?_, ?_⟩
      · simp [isControl, roles]
      · simp [hLabels, ownLabels, roles]
      · simp [Expr.jumpsOf_code hValue, Line.jump?]
  | ifThen predicate thenArm span =>
      rcases emits_ifThen hEmits with
        ⟨test, _, thenLines, hTest, hThen, rfl⟩
      rcases Expr.emits_codeUnless hTest with
        ⟨_, -, hLines, rfl, hLabels⟩
      refine ⟨test, _, _, rfl, ?_, .arm [] hThen .done,
        ?_, ?_⟩
      · simp [hLines]
      · simp [hLabels, ownLabels, roles]
      · simp [Expr.jumpsOf_codeUnless hTest, Line.jump?,
          ownLabels, roles]
  | ifElse predicate thenArm elseArm span =>
      rcases emits_ifElse hEmits with
        ⟨test, _, _, _, _, hTest, hThen, hElse, rfl⟩
      rcases Expr.emits_codeUnless hTest with
        ⟨_, -, hLines, rfl, hLabels⟩
      refine ⟨test, _, _, rfl, ?_,
        .arm [] hThen (.arm _ hElse .done), ?_, ?_⟩
      · simp [hLines]
      · simp [hLabels, ownLabels, roles]
      · simp [Expr.jumpsOf_codeUnless hTest, Line.jump?,
          ownLabels, roles]
  | whileLoop predicate body span =>
      rcases emits_whileLoop hEmits with
        ⟨test, _, _, hTest, hBody, rfl⟩
      rcases Expr.emits_codeUnless hTest with
        ⟨_, -, -, rfl, hLabels⟩
      refine ⟨_, _, _, rfl, ?_, .arm test hBody .done, ?_, ?_⟩
      · simp
      · simp [hLabels, ownLabels, roles]
      · simp [Expr.jumpsOf_codeUnless hTest, Line.jump?,
          ownLabels, roles]
  | forLoop init predicate step body span =>
      rcases emits_forLoop hEmits with
        ⟨initLines, _, test, _, bodyLines, _, stepLines,
          hInit, hTest, hBody, hStep, rfl⟩
      rcases Expr.emits_codeOption hInit with
        ⟨rfl, hInitLabels⟩
      rcases Expr.emits_codeUnlessOption hTest with
        ⟨rfl, hTestLabels⟩
      rcases Expr.emits_codeOption hStep with
        ⟨rfl, hStepLabels⟩
      refine ⟨initLines ++ [_], _, _,
        (List.append_assoc initLines [_] _).symm, ?_,
        .arm test hBody .done, ?_, ?_⟩
      · simp
      · simp [hInitLabels, hTestLabels, hStepLabels,
          ownLabels, roles]
      · have hLeave := Expr.jumpsOf_codeUnlessOption hTest
        simp only [jumpsOf_append, jumpsOf_cons,
          jumpsOf_nil, Expr.jumpsOf_codeOption hInit,
          Expr.jumpsOf_codeOption hStep, Line.jump?,
          ownLabels, roles]
        grind
  | block body span =>
      rw [code] at hEmits
      refine ⟨[], [], ls, rfl, ?_, woven_codeAll hEmits, rfl,
        by simp⟩
      simp [isControl, roles]

------------------------------------------------------------
-- Numbers of Labels
------------------------------------------------------------

/- A label with a number above `k` and not above `k'`. -/
def Between
    (k k' : Nat)
    (l : Label) : Prop :=
  k < l.id.toNat ∧ l.id.toNat ≤ k'

theorem Between.mono
    {k k' j j' : Nat}
    {l : Label}
    (hBetween : Between k k' l)
    (hLower : j ≤ k)
    (hUpper : k' ≤ j') :
    Between j j' l :=
  ⟨Nat.lt_of_le_of_lt hLower hBetween.1,
    Nat.le_trans hBetween.2 hUpper⟩

/- Numbers that follow each other have no label in common. -/
theorem Between.not_later
    {k k' j j' : Nat}
    {l : Label}
    (hBetween : Between k k' l)
    (hLower : k' ≤ j) :
    ¬ Between j j' l := by
  intro hLater
  have hUpTo := hBetween.2
  have hAbove := hLater.1
  omega

/- The exit has the number zero. -/
theorem not_between_atExit
    {k k' : Nat} :
    ¬ Between k k' .atExit :=
  fun hBetween => Nat.not_lt_zero k hBetween.1

theorem toNat_id_ownLabels
    {s : Stmt}
    {k : Nat}
    {l : Label}
    (hFits : k + 1 < 2 ^ 32)
    (hOwn : l ∈ s.ownLabels k) :
    l.id.toNat = k + 1 := by
  rcases List.mem_map.mp hOwn with ⟨role, -, rfl⟩
  rw [UInt32.toNat_ofNat', Nat.mod_eq_of_lt hFits]

theorem taken_eq_one
    {s : Stmt}
    {k : Nat}
    {l : Label}
    (hOwn : l ∈ s.ownLabels k) :
    s.taken = 1 := by
  rcases List.mem_map.mp hOwn with ⟨role, hRole, -⟩
  have hControl : s.isControl = true := by
    cases hRoles : s.roles with
    | nil =>
        rw [hRoles] at hRole
        cases hRole
    | cons role roles =>
        rw [isControl, hRoles]
        rfl
  rw [taken, if_pos hControl]

namespace Woven

variable {ss : List Stmt}
variable {k k' : Nat}
variable {glue ls : List Line}
variable {l : Label}

theorem eq_add_controlsAll
    (hWoven : Woven locals ss k glue ls k') :
    k' = k + controlsAll ss := by
  induction hWoven with
  | done =>
      rfl
  | arm pre hOwn hRest ih =>
      rw [ih, (emits_code hOwn).1, controlsAll,
        Nat.add_assoc]

theorem glue_subset
    (hWoven : Woven locals ss k glue ls k') :
    glue ⊆ ls := by
  induction hWoven with
  | done =>
      exact List.Subset.refl _
  | arm pre hOwn hRest ih =>
      intro line hMem
      rcases List.mem_append.mp hMem with hMem | hMem
      · exact List.mem_append_left _ hMem
      · exact List.mem_append_right _
          (List.mem_append_right _ (ih hMem))

/- Woven code has the labels of its parts. -/
theorem mentions
    (hWoven : Woven locals ss k glue ls k')
    (hFits : k' < 2 ^ 32)
    (hArms : ∀ s ∈ ss, ∀ {k k' ls},
      (s.code locals).Emits k ls k' → k' < 2 ^ 32 →
      ∀ l, Mentions ls l → l = .atExit ∨ Between k k' l)
    (hMentions : Mentions ls l) :
    Mentions glue l ∨ l = .atExit ∨ Between k k' l := by
  induction hWoven with
  | done =>
      exact Or.inl hMentions
  | arm pre hOwn hRest ih =>
      have hOwnCount := (emits_code hOwn).1
      have hRestCount := hRest.eq_add_controlsAll
      rw [List.forall_mem_cons] at hArms
      rw [mentions_append, mentions_append] at hMentions
      rw [mentions_append]
      rcases hMentions with hPre | hOwnLine | hRestLine
      · exact Or.inl (Or.inl hPre)
      · rcases hArms.1 hOwn (by omega) l hOwnLine with
          hExit | hBetween
        · exact Or.inr (Or.inl hExit)
        · exact Or.inr
            (Or.inr (hBetween.mono Nat.le.refl (by omega)))
      · rcases ih hFits hArms.2 hRestLine with
          hGlue | hExit | hBetween
        · exact Or.inl (Or.inr hGlue)
        · exact Or.inr (Or.inl hExit)
        · exact Or.inr
            (Or.inr (hBetween.mono (by omega) Nat.le.refl))

/- Woven code jumps into the code of its parts. -/
theorem jumps
    (hWoven : Woven locals ss k glue ls k')
    (hArms : ∀ s ∈ ss, ∀ {k k' ls},
      (s.code locals).Emits k ls k' →
      ∀ l ∈ jumpsOf ls, l = .atExit ∨ l ∈ labelsOf ls)
    (hJump : l ∈ jumpsOf ls) :
    l ∈ jumpsOf glue ∨ l = .atExit ∨ l ∈ labelsOf ls := by
  induction hWoven with
  | done =>
      exact Or.inl hJump
  | arm pre hOwn hRest ih =>
      rw [List.forall_mem_cons] at hArms
      simp only [jumpsOf_append, labelsOf_append,
        List.mem_append] at hJump ⊢
      rcases hJump with hPre | hOwnLine | hRestLine
      · exact Or.inl (Or.inl hPre)
      · rcases hArms.1 hOwn l hOwnLine with hExit | hLabel
        · exact Or.inr (Or.inl hExit)
        · exact Or.inr (Or.inr (Or.inr (Or.inl hLabel)))
      · rcases ih hArms.2 hRestLine with
          hGlue | hExit | hLabel
        · exact Or.inl (Or.inr hGlue)
        · exact Or.inr (Or.inl hExit)
        · exact Or.inr (Or.inr (Or.inr (Or.inr hLabel)))

end Woven

theorem CutAt.own_subset
    {s : Stmt}
    {k k' : Nat}
    {head glue tail : List Line}
    (hCut : CutAt locals s k head glue tail k') :
    s.ownLabels k ⊆ labelsOf (head ++ tail) := by
  rw [← hCut.labels]
  apply List.filterMap_subset
  intro line hMem
  rcases List.mem_append.mp hMem with hMem | hMem
  · exact List.mem_append_left _ hMem
  · exact List.mem_append_right _
      (hCut.woven.glue_subset hMem)

/-
  What the code of a statement defines or jumps to is the
  exit, a label of its own, or a label of a statement in it.
-/
theorem CutAt.own_mentions
    {s : Stmt}
    {k k' : Nat}
    {head glue tail : List Line}
    {l : Label}
    (hCut : CutAt locals s k head glue tail k')
    (hMentions : Mentions (head ++ glue) l) :
    l = .atExit ∨ l ∈ s.ownLabels k := by
  rcases hMentions with hLabel | hJump
  · rw [hCut.labels] at hLabel
    exact Or.inr hLabel
  · exact hCut.jumps l hJump

theorem CutAt.mentions
    {s : Stmt}
    {k k' : Nat}
    {head glue tail : List Line}
    {l : Label}
    (hCut : CutAt locals s k head glue tail k')
    (hFits : k' < 2 ^ 32)
    (hArms : ∀ arm ∈ s.arms, ∀ {k k' ls},
      (arm.code locals).Emits k ls k' → k' < 2 ^ 32 →
      ∀ l, Mentions ls l → l = .atExit ∨ Between k k' l)
    (hMentions : Mentions (head ++ tail) l) :
    l = .atExit ∨ l ∈ s.ownLabels k ∨
      Between (k + s.taken) k' l := by
  have hOwn := hCut.own_mentions (l := l)
  rw [mentions_append] at hMentions hOwn
  rcases hMentions with hHead | hTail
  · rcases hOwn (Or.inl hHead) with hExit | hLabel
    · exact Or.inl hExit
    · exact Or.inr (Or.inl hLabel)
  · rcases hCut.woven.mentions hFits hArms hTail with
      hGlue | hExit | hBetween
    · rcases hOwn (Or.inr hGlue) with hExit | hLabel
      · exact Or.inl hExit
      · exact Or.inr (Or.inl hLabel)
    · exact Or.inl hExit
    · exact Or.inr (Or.inr hBetween)

/-
  The labels that the code of a statement defines or jumps
  to have the numbers that it takes, but for the exit.
-/
theorem mentions_code
    (s : Stmt)
    {k k' : Nat}
    {ls : List Line}
    (hEmits : (s.code locals).Emits k ls k')
    (hFits : k' < 2 ^ 32)
    (l : Label)
    (hMentions : Mentions ls l) :
    l = .atExit ∨ Between k k' l := by
  induction s using induct_arms generalizing k k' ls l with
  | hStep s ih =>
      rcases exists_cutAt hEmits with
        ⟨head, glue, tail, rfl, hCut⟩
      have hCount := hCut.woven.eq_add_controlsAll
      rcases hCut.mentions hFits ih hMentions with
        hExit | hOwn | hBetween
      · exact Or.inl hExit
      · have hTaken := taken_eq_one hOwn
        have hNumber := toNat_id_ownLabels (by omega) hOwn
        exact Or.inr ⟨by omega, by omega⟩
      · exact Or.inr (hBetween.mono (by omega) Nat.le.refl)

/- The code of a statement jumps to its labels or the exit. -/
theorem jumps_code
    (s : Stmt)
    {k k' : Nat}
    {ls : List Line}
    (hEmits : (s.code locals).Emits k ls k')
    (l : Label)
    (hJump : l ∈ jumpsOf ls) :
    l = .atExit ∨ l ∈ labelsOf ls := by
  induction s using induct_arms generalizing k k' ls l with
  | hStep s ih =>
      rcases exists_cutAt hEmits with
        ⟨head, glue, tail, rfl, hCut⟩
      have hOwn := hCut.own_subset
      have hGlue := hCut.jumps l
      rw [jumpsOf_append, List.mem_append] at hJump hGlue
      rcases hJump with hHead | hTail
      · rcases hGlue (Or.inl hHead) with hExit | hLabel
        · exact Or.inl hExit
        · exact Or.inr (hOwn hLabel)
      · rcases hCut.woven.jumps ih hTail with
          hLine | hExit | hLabel
        · rcases hGlue (Or.inr hLine) with hExit | hLabel
          · exact Or.inl hExit
          · exact Or.inr (hOwn hLabel)
        · exact Or.inl hExit
        · rw [labelsOf_append]
          exact Or.inr (List.mem_append_right _ hLabel)

/-
  In the code of a statement, the labels with the first
  number that it takes are those of its own.
-/
theorem mem_labelsOf_code_iff
    {s : Stmt}
    {k k' : Nat}
    {ls : List Line}
    {l : Label}
    (hEmits : (s.code locals).Emits k ls k')
    (hFits : k' < 2 ^ 32)
    (hControl : s.isControl = true)
    (hNumber : l.id.toNat = k + 1) :
    (l ∈ labelsOf ls ↔ l.role ∈ s.roles) ∧
      (l ∈ jumpsOf ls → l.role ∈ s.roles) := by
  rcases exists_cutAt hEmits with
    ⟨head, glue, tail, rfl, hCut⟩
  have hOwn
      (hMentions : Mentions (head ++ tail) l) :
      l ∈ s.ownLabels k := by
    rcases hCut.mentions hFits
        (fun s _ => @mentions_code locals s) hMentions with
      hExit | hOwn | hBetween
    · rw [hExit] at hNumber
      cases hNumber
    · exact hOwn
    · have hAbove := hBetween.1
      rw [taken, if_pos hControl] at hAbove
      omega
  have hRole
      (hMem : l ∈ s.ownLabels k) :
      l.role ∈ s.roles := by
    rcases List.mem_map.mp hMem with ⟨role, hRole, rfl⟩
    exact hRole
  refine ⟨⟨fun hLabel => hRole (hOwn (Or.inl hLabel)), ?_⟩,
    fun hJump => hRole (hOwn (Or.inr hJump))⟩
  intro hMem
  apply hCut.own_subset
  refine List.mem_map.mpr ⟨l.role, hMem, ?_⟩
  rw [← hNumber, UInt32.ofNat_toNat]

end Stmt

end WordLang
