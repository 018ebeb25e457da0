import Mathlib.Algebra.Group.Nat.Defs
import Mathlib.Data.List.Nodup
import WordLang.Program.Lowering

/-
  This file says what emitters emit.

  An emission without a fault is a list of lines and the
  number of labels in use after them. Those of a compound
  emitter are put together from those of its parts.

  The labels of a statement carry the numbers it has taken,
  one for each branching or looping statement in it, and
  they are all different as long as the numbers fit into
  32 bits.

  A property of lines that does not change when lines are
  put together is proved once for all statements.

  Key definitions include:
    * `WordLang.Emitter.Emits`
    * `WordLang.Emitter.Ensures`
    * `WordLang.IsComposed`
    * `WordLang.Stmt.controls`
    * `WordLang.labelsOf`
    * `WordLang.LabelsWithin`

  What statements emit is said by:
    * `WordLang.Emitter.emits_append`
    * `WordLang.Expr.emits_code`
    * `WordLang.Stmt.emits_code`
    * `WordLang.Stmt.ensures_code`
    * `WordLang.Program.nodup_labels_lower`
-/

namespace WordLang

------------------------------------------------------------
-- Emissions Without Fault
------------------------------------------------------------

namespace Emitter

/-
  From `k` labels in use, the emitter emits the lines `ls`
  and leaves `k'` labels in use, without a fault.
-/
def Emits
    (e : Emitter)
    (k : Nat)
    (ls : List Line)
    (k' : Nat) : Prop :=
  e k = ⟨ls, k', none⟩

theorem emits_nothing
    {k k' : Nat}
    {ls : List Line} :
    nothing.Emits k ls k' ↔ ls = [] ∧ k' = k := by
  simp [Emits, nothing, eq_comm]

theorem emits_lines
    {k k' : Nat}
    {ls ls' : List Line} :
    (lines ls).Emits k ls' k' ↔ ls' = ls ∧ k' = k := by
  simp [Emits, lines, eq_comm]

theorem emits_instrs
    {k k' : Nat}
    {is : List Instr}
    {ls : List Line} :
    (instrs is).Emits k ls k' ↔
      ls = is.map .instr ∧ k' = k :=
  emits_lines

theorem not_emits_fail
    {k k' : Nat}
    {fault : Fault}
    {span : Span}
    {ls : List Line} :
    ¬ (fail fault span).Emits k ls k' := by
  simp [Emits, fail]

/- The emission of a sequence is made from its parts. -/
theorem emits_append
    {a b : Emitter}
    {k k' : Nat}
    {ls : List Line} :
    (a ++ b).Emits k ls k' ↔
      ∃ ls₁ k₁ ls₂,
        a.Emits k ls₁ k₁ ∧
        b.Emits k₁ ls₂ k' ∧
        ls = ls₁ ++ ls₂ := by
  change append a b k = _ ↔ _
  unfold append Emits
  cases hA : a k with
  | mk ls₁ k₁ fault? =>
      cases fault? with
      | some fault =>
          simp
      | none =>
          cases hB : b k₁ with
          | mk ls₂ k₂ fault? =>
              simp only [hB, Emission.mk.injEq, and_true]
              constructor
              · rintro ⟨rfl, rfl, rfl⟩
                exact ⟨ls₁, k₁, ls₂, ⟨rfl, rfl⟩,
                  hB, rfl⟩
              · rintro ⟨_, _, _, ⟨rfl, rfl⟩, hSecond, rfl⟩
                rw [hB] at hSecond
                simp only [Emission.mk.injEq] at hSecond
                obtain ⟨rfl, rfl, rfl⟩ := hSecond
                exact ⟨rfl, rfl, rfl⟩

/- A statement with labels takes the next number. -/
theorem emits_withLabel
    {emit : UInt32 → Emitter}
    {k k' : Nat}
    {ls : List Line} :
    (withLabel emit).Emits k ls k' ↔
      (emit (UInt32.ofNat (k + 1))).Emits (k + 1) ls k' :=
  Iff.rfl

end Emitter

------------------------------------------------------------
-- Labels
------------------------------------------------------------

/- The label that a line defines. -/
def Line.label? : Line → Option Label
| instr _ => none
| label l => some l

/- The labels that lines define, in order. -/
def labelsOf
    (ls : List Line) : List Label :=
  ls.filterMap Line.label?

@[simp] theorem labelsOf_nil :
    labelsOf [] = [] := rfl

@[simp] theorem labelsOf_instr
    (i : Instr)
    (ls : List Line) :
    labelsOf (.instr i :: ls) = labelsOf ls := rfl

@[simp] theorem labelsOf_label
    (l : Label)
    (ls : List Line) :
    labelsOf (.label l :: ls) = l :: labelsOf ls := rfl

@[simp] theorem labelsOf_append
    (ls ls' : List Line) :
    labelsOf (ls ++ ls') = labelsOf ls ++ labelsOf ls' :=
  List.filterMap_append

@[simp] theorem labelsOf_instrs
    (is : List Instr) :
    labelsOf (is.map .instr) = [] := by
  induction is with
  | nil => rfl
  | cons i is ih =>
      simpa using ih

/-
  The labels that lines define are different, none is that
  of the exit, and their numbers lie above `k` and not
  above `k'`.
-/
structure LabelsWithin
    (k k' : Nat)
    (ls : List Line) : Prop where
  nodup : (labelsOf ls).Nodup
  role : ∀ l ∈ labelsOf ls, l.role ≠ .exit
  above : ∀ l ∈ labelsOf ls, k < l.id.toNat
  upTo : ∀ l ∈ labelsOf ls, l.id.toNat ≤ k'

namespace LabelsWithin

/- Lines without labels. -/
theorem of_labelsOf_eq_nil
    {k k' : Nat}
    {ls : List Line}
    (hNone : labelsOf ls = []) :
    LabelsWithin k k' ls := by
  constructor <;> simp [hNone]

/- Lines with numbers that follow each other. -/
theorem append
    {k k₁ k' : Nat}
    {ls ls' : List Line}
    (hLower : k ≤ k₁)
    (hUpper : k₁ ≤ k')
    (hFirst : LabelsWithin k k₁ ls)
    (hSecond : LabelsWithin k₁ k' ls') :
    LabelsWithin k k' (ls ++ ls') := by
  have hDisjoint :
      List.Disjoint (labelsOf ls) (labelsOf ls') := by
    intro l hl hl'
    have hUpTo := hFirst.upTo l hl
    have hAbove := hSecond.above l hl'
    omega
  constructor
  · rw [labelsOf_append]
    exact hFirst.nodup.append hSecond.nodup hDisjoint
  · intro l hl
    rw [labelsOf_append, List.mem_append] at hl
    rcases hl with hl | hl
    · exact hFirst.role l hl
    · exact hSecond.role l hl
  · intro l hl
    rw [labelsOf_append, List.mem_append] at hl
    rcases hl with hl | hl
    · exact hFirst.above l hl
    · have hAbove := hSecond.above l hl
      omega
  · intro l hl
    rw [labelsOf_append, List.mem_append] at hl
    rcases hl with hl | hl
    · have hUpTo := hFirst.upTo l hl
      omega
    · exact hSecond.upTo l hl

/-
  Labels with the first number, anywhere among lines with
  higher ones.
-/
theorem withOwn
    {k k' : Nat}
    {ls inner : List Line}
    (roles : List Label.Role)
    (hFits : k' < 2 ^ 32)
    (hUpper : k + 1 ≤ k')
    (hRoles : roles.Nodup)
    (hExit : Label.Role.exit ∉ roles)
    (hInner : LabelsWithin (k + 1) k' inner)
    (hPerm :
      (labelsOf ls).Perm
        (roles.map (⟨·, UInt32.ofNat (k + 1)⟩) ++
          labelsOf inner)) :
    LabelsWithin k k' ls := by
  have hNumber : (UInt32.ofNat (k + 1)).toNat = k + 1 := by
    rw [UInt32.toNat_ofNat', Nat.mod_eq_of_lt]
    omega
  have hMem
      (l : Label)
      (hl : l ∈ labelsOf ls) :
      (l.role ∈ roles ∧ l.id.toNat = k + 1) ∨
        l ∈ labelsOf inner := by
    rw [hPerm.mem_iff, List.mem_append,
      List.mem_map] at hl
    rcases hl with ⟨r, hr, rfl⟩ | hl
    · exact Or.inl ⟨hr, hNumber⟩
    · exact Or.inr hl
  constructor
  · rw [hPerm.nodup_iff]
    apply List.Nodup.append
    · apply hRoles.map
      intro r r' hSame
      exact congrArg Label.role hSame
    · exact hInner.nodup
    · intro l hOwn hl
      obtain ⟨r, hr, rfl⟩ := List.mem_map.mp hOwn
      have hAbove := hInner.above _ hl
      rw [hNumber] at hAbove
      omega
  · intro l hl
    rcases hMem l hl with ⟨hRole, _⟩ | hl
    · intro hSame
      rw [hSame] at hRole
      exact hExit hRole
    · exact hInner.role l hl
  · intro l hl
    rcases hMem l hl with ⟨_, hId⟩ | hl
    · omega
    · have hAbove := hInner.above l hl
      omega
  · intro l hl
    rcases hMem l hl with ⟨_, hId⟩ | hl
    · omega
    · exact hInner.upTo l hl

end LabelsWithin

------------------------------------------------------------
-- Expressions
------------------------------------------------------------

namespace Expr

/- The address of a variable is one instruction. -/
theorem emits_address
    {locals : Locals}
    {e : Expr}
    {k k' : Nat}
    {ls : List Line} :
    (e.address locals).Emits k ls k' ↔
      ∃ offset span,
        e = .var offset span ∧
        locals.contains offset = true ∧
        ls = [.instr (.lea .rax offset)] ∧
        k' = k := by
  cases e with
  | var offset span =>
      rw [address]
      by_cases hContains : locals.contains offset = true
      · simp [hContains, Emitter.emits_instrs]
      · simp [hContains, Emitter.not_emits_fail]
  | int value span =>
      simp [address, Emitter.not_emits_fail]
  | binary op lhs rhs span =>
      simp [address, Emitter.not_emits_fail]
  | assign target value span =>
      simp [address, Emitter.not_emits_fail]

/- The code of an expression has no labels. -/
theorem emits_code
    {locals : Locals}
    {e : Expr}
    {k k' : Nat}
    {ls : List Line}
    (hEmits : (e.code locals).Emits k ls k') :
    k' = k ∧ labelsOf ls = [] := by
  induction e generalizing k k' ls with
  | int value span =>
      obtain ⟨rfl, rfl⟩ := Emitter.emits_instrs.mp hEmits
      exact ⟨rfl, labelsOf_instrs _⟩
  | var offset span =>
      rw [code, Emitter.emits_append] at hEmits
      obtain ⟨ls₁, k₁, ls₂, hFirst, hSecond, rfl⟩ := hEmits
      obtain ⟨_, _, _, _, rfl, rfl⟩ :=
        emits_address.mp hFirst
      obtain ⟨rfl, rfl⟩ := Emitter.emits_instrs.mp hSecond
      exact ⟨rfl, rfl⟩
  | binary op lhs rhs span ihLhs ihRhs =>
      simp only [code, Emitter.emits_append,
        Emitter.emits_instrs] at hEmits
      obtain ⟨lhsLines, k₁, _, hLhs, ⟨_, _, _, ⟨rfl, rfl⟩,
        ⟨rhsLines, k₂, _, hRhs, ⟨rfl, rfl⟩, rfl⟩, rfl⟩,
        rfl⟩ := hEmits
      obtain ⟨rfl, hLhsLabels⟩ := ihLhs hLhs
      obtain ⟨rfl, hRhsLabels⟩ := ihRhs hRhs
      simp [hLhsLabels, hRhsLabels]
  | assign target value span ihTarget ihValue =>
      simp only [code, Emitter.emits_append,
        Emitter.emits_instrs, emits_address] at hEmits
      obtain ⟨_, _, _, ⟨_, _, _, _, rfl, rfl⟩, ⟨_, _, _,
        ⟨rfl, rfl⟩, ⟨valueLines, k₁, _, hValue,
        ⟨rfl, rfl⟩, rfl⟩, rfl⟩, rfl⟩ := hEmits
      obtain ⟨rfl, hLabels⟩ := ihValue hValue
      simp [hLabels]

/- So has that of an expression that may be left out. -/
theorem emits_codeOption
    {locals : Locals}
    {e : Option Expr}
    {k k' : Nat}
    {ls : List Line}
    (hEmits : (codeOption locals e).Emits k ls k') :
    k' = k ∧ labelsOf ls = [] := by
  cases e with
  | none =>
      obtain ⟨rfl, rfl⟩ := Emitter.emits_nothing.mp hEmits
      exact ⟨rfl, rfl⟩
  | some e =>
      exact emits_code hEmits

/- So has that of a predicate. -/
theorem emits_codeUnless
    {locals : Locals}
    {target : Label}
    {e : Expr}
    {k k' : Nat}
    {ls : List Line}
    (hEmits :
      (e.codeUnless locals target).Emits k ls k') :
    ∃ ls',
      (e.code locals).Emits k ls' k ∧
      ls = ls' ++
        [.instr (.cmpZero .rax), .instr (.je target)] ∧
      k' = k ∧ labelsOf ls = [] := by
  rw [codeUnless, Emitter.emits_append] at hEmits
  obtain ⟨ls', k₁, _, hCode, hTest, rfl⟩ := hEmits
  obtain ⟨rfl, rfl⟩ := Emitter.emits_instrs.mp hTest
  obtain ⟨rfl, hLabels⟩ := emits_code hCode
  exact ⟨ls', hCode, rfl, rfl, by simp [hLabels]⟩

/- So has that of a predicate that may be left out. -/
theorem emits_codeUnlessOption
    {locals : Locals}
    {target : Label}
    {e : Option Expr}
    {k k' : Nat}
    {ls : List Line}
    (hEmits :
      Emitter.Emits
        (match e with
        | none => .nothing
        | some e => e.codeUnless locals target)
        k ls k') :
    k' = k ∧ labelsOf ls = [] := by
  cases e with
  | none =>
      obtain ⟨rfl, rfl⟩ := Emitter.emits_nothing.mp hEmits
      exact ⟨rfl, rfl⟩
  | some e =>
      obtain ⟨_, _, _, hCount, hLabels⟩ :=
        emits_codeUnless hEmits
      exact ⟨hCount, hLabels⟩

end Expr

------------------------------------------------------------
-- Statements
------------------------------------------------------------

namespace Stmt

mutual

/- The number of branching and looping statements. -/
def controls : Stmt → Nat
| expr _ _ => 0
| ret _ _ => 0
| ifThen _ thenArm _ => 1 + controls thenArm
| ifElse _ thenArm elseArm _ =>
    1 + controls thenArm + controls elseArm
| whileLoop _ body _ => 1 + controls body
| forLoop _ _ _ body _ => 1 + controls body
| block body _ => controlsAll body

/- The same, for statements one after another. -/
def controlsAll : List Stmt → Nat
| [] => 0
| s :: ss => controls s + controlsAll ss

end

section Parts

variable {locals : Locals}
variable {span : Span}
variable {k k' : Nat}
variable {ls : List Line}

/- The parts of the code of an `if` without `else`. -/
theorem emits_ifThen
    {predicate : Expr}
    {thenArm : Stmt}
    (hEmits :
      (code locals (.ifThen predicate thenArm span)).Emits
        k ls k') :
    let id := UInt32.ofNat (k + 1)
    ∃ test k₁ thenLines,
      (predicate.codeUnless locals ⟨.finish, id⟩).Emits
        (k + 1) test k₁ ∧
      (code locals thenArm).Emits k₁ thenLines k' ∧
      ls =
        test ++ (thenLines ++ [.label ⟨.finish, id⟩]) := by
  simp only [code, Emitter.emits_withLabel,
    Emitter.emits_append, Emitter.emits_lines] at hEmits
  rcases hEmits with
    ⟨test, k₁, _, hTest,
      ⟨thenLines, _, _, hThen, ⟨rfl, rfl⟩, rfl⟩, rfl⟩
  exact ⟨test, k₁, thenLines, hTest, hThen, rfl⟩

/- The parts of the code of an `if` with `else`. -/
theorem emits_ifElse
    {predicate : Expr}
    {thenArm elseArm : Stmt}
    (hEmits :
      (code locals
        (.ifElse predicate thenArm elseArm span)).Emits
        k ls k') :
    let id := UInt32.ofNat (k + 1)
    ∃ test k₁ thenLines k₂ elseLines,
      (predicate.codeUnless locals ⟨.orElse, id⟩).Emits
        (k + 1) test k₁ ∧
      (code locals thenArm).Emits k₁ thenLines k₂ ∧
      (code locals elseArm).Emits k₂ elseLines k' ∧
      ls =
        test ++ (thenLines ++
          ([.instr (.jmp ⟨.finish, id⟩),
              .label ⟨.orElse, id⟩] ++
            (elseLines ++ [.label ⟨.finish, id⟩]))) := by
  simp only [code, Emitter.emits_withLabel,
    Emitter.emits_append, Emitter.emits_lines] at hEmits
  rcases hEmits with
    ⟨test, _, _, hTest, ⟨thenLines, _, _, hThen,
      ⟨_, _, _, ⟨rfl, rfl⟩, ⟨elseLines, _, _, hElse,
        ⟨rfl, rfl⟩, rfl⟩, rfl⟩, rfl⟩, rfl⟩
  exact ⟨test, _, thenLines, _, elseLines, hTest, hThen,
    hElse, rfl⟩

/- The parts of the code of a `while` loop. -/
theorem emits_whileLoop
    {predicate : Expr}
    {body : Stmt}
    (hEmits :
      (code locals (.whileLoop predicate body span)).Emits
        k ls k') :
    let id := UInt32.ofNat (k + 1)
    ∃ test k₁ bodyLines,
      (predicate.codeUnless locals ⟨.finish, id⟩).Emits
        (k + 1) test k₁ ∧
      (code locals body).Emits k₁ bodyLines k' ∧
      ls =
        [.label ⟨.begin, id⟩] ++ (test ++ (bodyLines ++
          [.instr (.jmp ⟨.begin, id⟩),
            .label ⟨.finish, id⟩])) := by
  simp only [code, Emitter.emits_withLabel,
    Emitter.emits_append, Emitter.emits_lines] at hEmits
  rcases hEmits with
    ⟨_, _, _, ⟨rfl, rfl⟩, ⟨test, k₁, _, hTest,
      ⟨bodyLines, _, _, hBody, ⟨rfl, rfl⟩, rfl⟩, rfl⟩, rfl⟩
  exact ⟨test, k₁, bodyLines, hTest, hBody, rfl⟩

/- The parts of the code of a `for` loop. -/
theorem emits_forLoop
    {init predicate step : Option Expr}
    {body : Stmt}
    (hEmits :
      (code locals
        (.forLoop init predicate step body span)).Emits
        k ls k') :
    let id := UInt32.ofNat (k + 1)
    ∃ initLines k₁ test k₂ bodyLines k₃ stepLines,
      (Expr.codeOption locals init).Emits
        (k + 1) initLines k₁ ∧
      Emitter.Emits
        (match predicate with
        | none => .nothing
        | some e => e.codeUnless locals ⟨.finish, id⟩)
        k₁ test k₂ ∧
      (code locals body).Emits k₂ bodyLines k₃ ∧
      (Expr.codeOption locals step).Emits
        k₃ stepLines k' ∧
      ls =
        initLines ++ ([.label ⟨.begin, id⟩] ++ (test ++
          (bodyLines ++ (stepLines ++
            [.instr (.jmp ⟨.begin, id⟩),
              .label ⟨.finish, id⟩])))) := by
  simp only [code, Emitter.emits_withLabel,
    Emitter.emits_append, Emitter.emits_lines] at hEmits
  rcases hEmits with
    ⟨initLines, _, _, hInit, ⟨_, _, _, ⟨rfl, rfl⟩,
      ⟨test, _, _, hTest, ⟨bodyLines, _, _, hBody,
        ⟨stepLines, _, _, hStep, ⟨rfl, rfl⟩, rfl⟩, rfl⟩,
        rfl⟩, rfl⟩, rfl⟩
  exact ⟨initLines, _, test, _, bodyLines, _, stepLines,
    hInit, hTest, hBody, hStep, rfl⟩

end Parts

mutual

/-
  A statement takes a number for each branching or looping
  statement in it. Its labels carry these numbers and are
  different.
-/
theorem emits_code
    {locals : Locals}
    {s : Stmt}
    {k k' : Nat}
    {ls : List Line}
    (hEmits : (s.code locals).Emits k ls k') :
    k' = k + s.controls ∧
      (k' < 2 ^ 32 → LabelsWithin k k' ls) := by
  match s with
  | expr e _ =>
      rw [code] at hEmits
      obtain ⟨rfl, hLabels⟩ := Expr.emits_code hEmits
      exact ⟨rfl, fun _ => .of_labelsOf_eq_nil hLabels⟩
  | ret e _ =>
      simp only [code, Emitter.emits_append,
        Emitter.emits_instrs] at hEmits
      obtain ⟨_, _, _, hValue, ⟨rfl, rfl⟩, rfl⟩ := hEmits
      obtain ⟨rfl, hLabels⟩ := Expr.emits_code hValue
      refine ⟨rfl, fun _ => .of_labelsOf_eq_nil ?_⟩
      simp [hLabels]
  | ifThen predicate thenArm _ =>
      rcases emits_ifThen hEmits with
        ⟨_, _, thenLines, hTest, hThen, rfl⟩
      obtain ⟨_, _, _, rfl, hTestLabels⟩ :=
        Expr.emits_codeUnless hTest
      obtain ⟨hCount, hWithin⟩ := emits_code hThen
      refine ⟨by rw [hCount, controls]; omega, ?_⟩
      intro hFits
      apply LabelsWithin.withOwn [.finish]
        hFits (by omega) (by decide) (by decide)
        (hWithin hFits)
      rw [List.perm_iff_count]
      intro l
      simp [hTestLabels, List.count_cons]
  | ifElse predicate thenArm elseArm _ =>
      rcases emits_ifElse hEmits with
        ⟨_, _, thenLines, k₂, elseLines, hTest, hThen,
          hElse, rfl⟩
      obtain ⟨_, _, _, rfl, hTestLabels⟩ :=
        Expr.emits_codeUnless hTest
      obtain ⟨hThenCount, hThenWithin⟩ := emits_code hThen
      obtain ⟨hElseCount, hElseWithin⟩ := emits_code hElse
      refine ⟨by rw [hElseCount, hThenCount, controls];
                 omega, ?_⟩
      intro hFits
      have hArms :
          LabelsWithin (k + 1) k'
            (thenLines ++ elseLines) :=
        LabelsWithin.append (by omega) (by omega)
          (hThenWithin (by omega)) (hElseWithin hFits)
      apply LabelsWithin.withOwn [.orElse, .finish]
        hFits (by omega) (by decide) (by decide) hArms
      rw [List.perm_iff_count]
      intro l
      simp only [labelsOf_append, hTestLabels,
        List.nil_append, List.count_append, List.map_cons,
        List.map_nil, labelsOf_instr, labelsOf_label,
        labelsOf_nil, List.count_cons, List.count_nil]
      omega
  | whileLoop predicate body _ =>
      rcases emits_whileLoop hEmits with
        ⟨_, _, bodyLines, hTest, hBody, rfl⟩
      obtain ⟨_, _, _, rfl, hTestLabels⟩ :=
        Expr.emits_codeUnless hTest
      obtain ⟨hCount, hWithin⟩ := emits_code hBody
      refine ⟨by rw [hCount, controls]; omega, ?_⟩
      intro hFits
      apply LabelsWithin.withOwn [.begin, .finish]
        hFits (by omega) (by decide) (by decide)
        (hWithin hFits)
      rw [List.perm_iff_count]
      intro l
      simp only [labelsOf_append, hTestLabels,
        List.nil_append, List.count_append, List.map_cons,
        List.map_nil, labelsOf_instr, labelsOf_label,
        labelsOf_nil, List.count_cons, List.count_nil]
      omega
  | forLoop init predicate step body _ =>
      rcases emits_forLoop hEmits with
        ⟨_, _, _, _, bodyLines, _, _, hInit, hTest, hBody,
          hStep, rfl⟩
      obtain ⟨rfl, hInitLabels⟩ :=
        Expr.emits_codeOption hInit
      obtain ⟨rfl, hTestLabels⟩ :=
        Expr.emits_codeUnlessOption hTest
      obtain ⟨rfl, hStepLabels⟩ :=
        Expr.emits_codeOption hStep
      obtain ⟨hCount, hWithin⟩ := emits_code hBody
      refine ⟨by rw [hCount, controls]; omega, ?_⟩
      intro hFits
      apply LabelsWithin.withOwn [.begin, .finish]
        hFits (by omega) (by decide) (by decide)
        (hWithin hFits)
      rw [List.perm_iff_count]
      intro l
      simp only [labelsOf_append, hInitLabels, hTestLabels,
        hStepLabels, List.nil_append, List.count_append,
        List.map_cons, List.map_nil, labelsOf_instr,
        labelsOf_label, labelsOf_nil, List.count_cons,
        List.count_nil]
      omega
  | block body _ =>
      rw [code] at hEmits
      exact emits_codeAll hEmits

/- The same, for statements one after another. -/
theorem emits_codeAll
    {locals : Locals}
    {ss : List Stmt}
    {k k' : Nat}
    {ls : List Line}
    (hEmits : (codeAll locals ss).Emits k ls k') :
    k' = k + controlsAll ss ∧
      (k' < 2 ^ 32 → LabelsWithin k k' ls) := by
  match ss with
  | [] =>
      rw [codeAll, Emitter.emits_nothing] at hEmits
      obtain ⟨rfl, rfl⟩ := hEmits
      exact ⟨rfl, fun _ => .of_labelsOf_eq_nil rfl⟩
  | s :: ss =>
      rw [codeAll, Emitter.emits_append] at hEmits
      obtain ⟨ls₁, k₁, ls₂, hFirst, hRest, rfl⟩ := hEmits
      obtain ⟨hCount, hWithin⟩ := emits_code hFirst
      obtain ⟨hRestCount, hRestWithin⟩ :=
        emits_codeAll hRest
      refine ⟨by rw [hRestCount, hCount, controlsAll];
                 omega, ?_⟩
      intro hFits
      exact LabelsWithin.append (by omega) (by omega)
        (hWithin (by omega)) (hRestWithin hFits)

end

end Stmt

------------------------------------------------------------
-- Properties of Lines
------------------------------------------------------------

/-
  A property that lines have if their parts have it, and
  that the lines have which statements add to the code of
  their expressions.
-/
structure IsComposed
    (P : List Line → Prop) : Prop where
  nil : P []
  append : ∀ ls ls', P ls → P ls' → P (ls ++ ls')
  label : ∀ l, P [.label l]
  jump : ∀ l, P [.instr (.jmp l)]
  branch :
    ∀ l, P [.instr (.cmpZero .rax), .instr (.je l)]

section Ensured

variable {P : List Line → Prop}

namespace Emitter

/- Whatever is emitted has a property. -/
def Ensures
    (P : List Line → Prop)
    (e : Emitter) : Prop :=
  ∀ k ls k', e.Emits k ls k' → P ls

namespace Ensures

variable {a b : Emitter}

theorem append
    (hP : IsComposed P)
    (hFirst : Ensures P a)
    (hSecond : Ensures P b) :
    Ensures P (a ++ b) := by
  intro k ls k' hEmits
  rcases emits_append.mp hEmits with
    ⟨ls₁, k₁, ls₂, hA, hB, rfl⟩
  exact hP.append _ _ (hFirst _ _ _ hA) (hSecond _ _ _ hB)

theorem lines
    {ls : List Line}
    (hLines : P ls) :
    Ensures P (lines ls) := by
  intro k ls' k' hEmits
  rcases emits_lines.mp hEmits with ⟨rfl, -⟩
  exact hLines

theorem withLabel
    {emit : UInt32 → Emitter}
    (hEnsures : ∀ id, Ensures P (emit id)) :
    Ensures P (withLabel emit) := by
  intro k ls k' hEmits
  exact hEnsures _ _ _ _ (emits_withLabel.mp hEmits)

end Ensures

end Emitter

variable {locals : Locals}

namespace Expr

theorem ensures_codeOption
    (hP : IsComposed P)
    (hExpr : ∀ e : Expr, (e.code locals).Ensures P)
    (e : Option Expr) :
    (codeOption locals e).Ensures P := by
  cases e with
  | none =>
      exact Emitter.Ensures.lines hP.nil
  | some e =>
      exact hExpr e

theorem ensures_codeUnless
    (hP : IsComposed P)
    (hExpr : ∀ e : Expr, (e.code locals).Ensures P)
    (target : Label)
    (e : Expr) :
    (e.codeUnless locals target).Ensures P :=
  .append hP (hExpr e) (.lines (hP.branch target))

end Expr

namespace Stmt

mutual

/- Statements have what their expressions have. -/
theorem ensures_code
    (hP : IsComposed P)
    (hExpr : ∀ e : Expr, (e.code locals).Ensures P)
    (s : Stmt) :
    (s.code locals).Ensures P := by
  have hTest (e : Expr) (l : Label) :
      (e.codeUnless locals l).Ensures P :=
    e.ensures_codeUnless hP hExpr l
  have hLabel (l : Label) :
      (Emitter.lines [.label l]).Ensures P :=
    .lines (hP.label l)
  have hJump (l l' : Label) :
      (Emitter.lines
        [.instr (.jmp l), .label l']).Ensures P :=
    .lines (hP.append _ _ (hP.jump l) (hP.label l'))
  match s with
  | expr e _ =>
      exact hExpr e
  | ret e _ =>
      exact .append hP (hExpr e) (.lines (hP.jump _))
  | ifThen predicate thenArm _ =>
      rw [code]
      apply Emitter.Ensures.withLabel
      intro id
      apply Emitter.Ensures.append hP (hTest predicate _)
      exact .append hP (ensures_code hP hExpr thenArm)
        (hLabel _)
  | ifElse predicate thenArm elseArm _ =>
      rw [code]
      apply Emitter.Ensures.withLabel
      intro id
      apply Emitter.Ensures.append hP (hTest predicate _)
      apply Emitter.Ensures.append hP
        (ensures_code hP hExpr thenArm)
      apply Emitter.Ensures.append hP (hJump _ _)
      exact .append hP (ensures_code hP hExpr elseArm)
        (hLabel _)
  | whileLoop predicate body _ =>
      rw [code]
      apply Emitter.Ensures.withLabel
      intro id
      apply Emitter.Ensures.append hP (hLabel _)
      apply Emitter.Ensures.append hP (hTest predicate _)
      exact .append hP (ensures_code hP hExpr body)
        (hJump _ _)
  | forLoop init predicate step body _ =>
      rw [code]
      apply Emitter.Ensures.withLabel
      intro id
      apply Emitter.Ensures.append hP
        (Expr.ensures_codeOption hP hExpr init)
      apply Emitter.Ensures.append hP (hLabel _)
      apply Emitter.Ensures.append hP
      · cases predicate with
        | none =>
            exact Emitter.Ensures.lines hP.nil
        | some e =>
            exact hTest e _
      · apply Emitter.Ensures.append hP
          (ensures_code hP hExpr body)
        exact .append hP
          (Expr.ensures_codeOption hP hExpr step)
          (hJump _ _)
  | block body _ =>
      exact ensures_codeAll hP hExpr body

theorem ensures_codeAll
    (hP : IsComposed P)
    (hExpr : ∀ e : Expr, (e.code locals).Ensures P)
    (ss : List Stmt) :
    (codeAll locals ss).Ensures P := by
  match ss with
  | [] =>
      exact Emitter.Ensures.lines hP.nil
  | s :: ss =>
      exact .append hP (ensures_code hP hExpr s)
        (ensures_codeAll hP hExpr ss)

end

end Stmt

end Ensured

------------------------------------------------------------
-- Programs
------------------------------------------------------------

namespace Program

/- The number of branching and looping statements. -/
def controls
    (p : Program) : Nat :=
  Stmt.controlsAll p.body

/- The code of a program without faults, by its parts. -/
theorem emits_lower
    {p : Program}
    (hFault : p.lower.fault? = none) :
    ∃ body,
      (Stmt.codeAll p.locals p.body).Emits
        0 body p.lower.labels ∧
      p.lower.lines =
        (prologue p.locals).map .instr ++
          (body ++ epilogue) := by
  have hEmits :
      (Emitter.instrs (prologue p.locals) ++
        (Stmt.codeAll p.locals p.body ++
          .lines epilogue)).Emits
        0 p.lower.lines p.lower.labels := by
    change p.lower = _
    rw [← hFault]
  simp only [Emitter.emits_append, Emitter.emits_instrs,
    Emitter.emits_lines] at hEmits
  rcases hEmits with
    ⟨_, _, _, ⟨rfl, rfl⟩, ⟨body, k, _, hBody,
      ⟨rfl, hLabels⟩, rfl⟩, hLines⟩
  rw [hLabels]
  exact ⟨body, hBody, hLines⟩

/- All labels of a program are different. -/
theorem nodup_labels_lower
    {p : Program}
    (hFault : p.lower.fault? = none)
    (hControls : p.controls < 2 ^ 32) :
    (labelsOf p.lower.lines).Nodup := by
  rcases emits_lower hFault with ⟨body, hBody, hLines⟩
  rcases Stmt.emits_codeAll hBody with ⟨hCount, hWithin⟩
  have hFits : p.lower.labels < 2 ^ 32 := by
    rw [hCount, Nat.zero_add]
    exact hControls
  have hExit : Label.atExit ∉ labelsOf body := by
    intro hMem
    exact (hWithin hFits).role _ hMem rfl
  rw [hLines]
  simp only [labelsOf_append, labelsOf_instrs, epilogue,
    labelsOf_label, labelsOf_instr, labelsOf_nil,
    List.nil_append]
  exact (hWithin hFits).nodup.append
    (List.nodup_singleton _)
    (List.disjoint_singleton.mpr hExit)

end Program

end WordLang
