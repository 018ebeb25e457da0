import WordLang.Proofs.StackShape

/-
  This file says where the code of a statement stands.

  The code of a statement inside another one stands in the
  code of the other, at a distance that its parts make up.
  So every statement of a program has a place in the code of
  its routine, and nothing is on the stack where the code of
  a statement starts or ends.

  Key definitions include:
    * `WordLang.Stmt.Encloses`
    * `WordLang.Stmt.Stands`
    * `WordLang.Program.Places`

  Key theorems include:
    * `WordLang.Stmt.Encloses.stands`
    * `WordLang.Stmt.Stands.pushedBy_eq_zero`
    * `WordLang.Program.Places.stands`
    * `WordLang.Program.exists_places`
-/

namespace WordLang

------------------------------------------------------------
-- Statements in Place
------------------------------------------------------------

namespace Stmt

variable {t : Locals}

/- The code of statements is that of their parts. -/
theorem codeAll_append
    (t : Locals)
    (ss ss' : List Stmt) :
    codeAll t (ss ++ ss') = codeAll t ss ++ codeAll t ss' := by
  induction ss with
  | nil =>
      rfl
  | cons s ss ih =>
      rw [List.cons_append, codeAll, codeAll, ih,
        Emitter.append_assoc]

/-
  The code of an inner statement stands in that of the
  statement around it, at a distance from its first line.
  The numbers of labels in use before both are given.
-/
inductive Encloses
    (t : Locals) :
    Stmt →
    Nat →
    Stmt →
    Nat →
    Nat →
    Prop where
  | thenOnly
      {predicate : Expr}
      {arm : Stmt}
      {span : Span}
      {k k' : Nat}
      {test : List Line}
      (hTest :
        (predicate.codeUnless t
          ⟨.finish, UInt32.ofNat (k + 1)⟩).Emits
          (k + 1) test k') :
      Encloses t (.ifThen predicate arm span) k
        arm k' test.length
  | thenArm
      {predicate : Expr}
      {arm elseArm : Stmt}
      {span : Span}
      {k k' : Nat}
      {test : List Line}
      (hTest :
        (predicate.codeUnless t
          ⟨.orElse, UInt32.ofNat (k + 1)⟩).Emits
          (k + 1) test k') :
      Encloses t (.ifElse predicate arm elseArm span) k
        arm k' test.length
  | elseArm
      {predicate : Expr}
      {thenArm arm : Stmt}
      {span : Span}
      {k k₁ k' : Nat}
      {test thenLines : List Line}
      (hTest :
        (predicate.codeUnless t
          ⟨.orElse, UInt32.ofNat (k + 1)⟩).Emits
          (k + 1) test k₁)
      (hThen : (thenArm.code t).Emits k₁ thenLines k') :
      Encloses t (.ifElse predicate thenArm arm span) k
        arm k' (test.length + (thenLines.length + 2))
  | whileBody
      {predicate : Expr}
      {body : Stmt}
      {span : Span}
      {k k' : Nat}
      {test : List Line}
      (hTest :
        (predicate.codeUnless t
          ⟨.finish, UInt32.ofNat (k + 1)⟩).Emits
          (k + 1) test k') :
      Encloses t (.whileLoop predicate body span) k
        body k' (1 + test.length)
  | forBody
      {init predicate step : Option Expr}
      {body : Stmt}
      {span : Span}
      {k k₁ k' : Nat}
      {initLines test : List Line}
      (hTest :
        Emitter.Emits
          (match predicate with
          | none => .nothing
          | some e =>
              e.codeUnless t
                ⟨.finish, UInt32.ofNat (k + 1)⟩)
          k₁ test k')
      (hInit :
        (Expr.codeOption t init).Emits
          (k + 1) initLines k₁) :
      Encloses t (.forLoop init predicate step body span) k
        body k' (initLines.length + (1 + test.length))
  | member
      {before after : List Stmt}
      {s : Stmt}
      {span : Span}
      {k k' : Nat}
      {ls : List Line}
      (hBefore : (codeAll t before).Emits k ls k') :
      Encloses t (.block (before ++ s :: after) span) k
        s k' ls.length

/-
  The code of a statement stands among some lines, where
  those before it leave nothing on the stack.
-/
structure Stands
    (t : Locals)
    (words : Nat)
    (lines : List Line)
    (s : Stmt)
    (k i : Nat) : Prop where
  fits : s.words ≤ words
  code :
    ∃ before ls after k',
      lines = before ++ (ls ++ after) ∧
      before.length = i ∧
      (s.code t).Emits k ls k' ∧
      Shape.rest.scan? t words before = some .rest

end Stmt

/- What an emitter emits is determined. -/
theorem Emitter.Emits.unique
    {e : Emitter}
    {k k₁ k₂ : Nat}
    {ls₁ ls₂ : List Line}
    (hFirst : e.Emits k ls₁ k₁)
    (hSecond : e.Emits k ls₂ k₂) :
    ls₁ = ls₂ ∧ k₁ = k₂ := by
  unfold Emits at hFirst hSecond
  rw [hFirst] at hSecond
  cases hSecond
  exact ⟨rfl, rfl⟩

namespace Stmt

variable {t : Locals}
variable {words : Nat}

/-
  Statements among others stand where the code of those
  before them ends.
-/
theorem stands_member
    {before after : List Stmt}
    {s : Stmt}
    {k k' kEnd : Nat}
    {ls ls' : List Line}
    (hFits : wordsAll (before ++ s :: after) ≤ words)
    (hAll :
      (codeAll t (before ++ s :: after)).Emits k ls kEnd)
    (hBefore : (codeAll t before).Emits k ls' k') :
    Stands t words ls s k' ls'.length := by
  have hWords :
      wordsAll before ≤ words ∧ s.words ≤ words := by
    clear hAll hBefore
    induction before with
    | nil =>
        rw [List.nil_append, wordsAll] at hFits
        rw [wordsAll]
        omega
    | cons s' before ih =>
        rw [List.cons_append, wordsAll] at hFits
        have hRest := ih (by omega)
        rw [wordsAll]
        omega
  rw [codeAll_append, Emitter.emits_append] at hAll
  rcases hAll with ⟨ls₁, k₁, _, hFirst, hRest, rfl⟩
  rcases hFirst.unique hBefore with ⟨rfl, rfl⟩
  rw [codeAll, Emitter.emits_append] at hRest
  rcases hRest with ⟨ls₂, k₂, ls₃, hOwn, -, rfl⟩
  exact ⟨hWords.2, ls₁, ls₂, ls₃, k₂, rfl, rfl, hOwn,
    scan?_codeAll hBefore hWords.1⟩

/- An inner statement stands in the code around it. -/
theorem Encloses.stands
    {s inner : Stmt}
    {k k' kEnd d : Nat}
    {ls : List Line}
    (hEncloses : Encloses t s k inner k' d)
    (hFits : s.words ≤ words)
    (hEmits : (s.code t).Emits k ls kEnd) :
    Stands t words ls inner k' d := by
  cases hEncloses with
  | thenOnly hTest =>
      rcases emits_ifThen hEmits with
        ⟨test, _, _, hTest', hThen, rfl⟩
      rcases hTest'.unique hTest with ⟨rfl, rfl⟩
      rw [Stmt.words] at hFits
      exact ⟨by omega, test, _, _, _, rfl, rfl, hThen,
        Expr.scan?_codeUnless hTest (by omega)⟩
  | thenArm hTest =>
      rcases emits_ifElse hEmits with
        ⟨test, _, _, _, _, hTest', hThen, -, rfl⟩
      rcases hTest'.unique hTest with ⟨rfl, rfl⟩
      rw [Stmt.words] at hFits
      exact ⟨by omega, test, _, _, _, rfl, rfl, hThen,
        Expr.scan?_codeUnless hTest (by omega)⟩
  | elseArm hTest hThen =>
      rcases emits_ifElse hEmits with
        ⟨test, _, thenLines, _, _, hTest', hThen', hElse,
          rfl⟩
      rcases hTest'.unique hTest with ⟨rfl, rfl⟩
      rcases hThen'.unique hThen with ⟨rfl, rfl⟩
      rw [Stmt.words] at hFits
      refine ⟨by omega,
        test ++ (thenLines ++
          [.instr (.jmp ⟨.finish, UInt32.ofNat (k + 1)⟩),
            .label ⟨.orElse, UInt32.ofNat (k + 1)⟩]), _,
        [.label ⟨.finish, UInt32.ofNat (k + 1)⟩], _,
        by simp only [List.append_assoc], by simp, hElse,
        ?_⟩
      exact Shape.scan?_append_of
        (Expr.scan?_codeUnless hTest (by omega))
        (Shape.scan?_append_of
          (scan?_code hThen (by omega)) rfl)
  | whileBody hTest =>
      rcases emits_whileLoop hEmits with
        ⟨test, _, _, hTest', hBody, rfl⟩
      rcases hTest'.unique hTest with ⟨rfl, rfl⟩
      rw [Stmt.words] at hFits
      refine ⟨by omega,
        [.label ⟨.begin, UInt32.ofNat (k + 1)⟩] ++ test, _,
        [.instr (.jmp ⟨.begin, UInt32.ofNat (k + 1)⟩),
          .label ⟨.finish, UInt32.ofNat (k + 1)⟩], _,
        by simp only [List.append_assoc],
        by simp [Nat.add_comm], hBody, ?_⟩
      exact Shape.scan?_append_of rfl
        (Expr.scan?_codeUnless hTest (by omega))
  | forBody hTest hInit =>
      rcases emits_forLoop hEmits with
        ⟨initLines, _, test, _, _, _, stepLines, hInit',
          hTest', hBody, -, rfl⟩
      rcases hInit'.unique hInit with ⟨rfl, rfl⟩
      rcases hTest'.unique hTest with ⟨rfl, rfl⟩
      rw [Stmt.words] at hFits
      refine ⟨by omega,
        initLines ++
          ([.label ⟨.begin, UInt32.ofNat (k + 1)⟩] ++ test),
        _,
        stepLines ++
          [.instr (.jmp ⟨.begin, UInt32.ofNat (k + 1)⟩),
            .label ⟨.finish, UInt32.ofNat (k + 1)⟩], _,
        by simp only [List.append_assoc],
        by simp [Nat.add_comm], hBody, ?_⟩
      exact Shape.scan?_append_of
        (Expr.scan?_codeOption hInit (by omega))
        (Shape.scan?_append_of rfl
          (Expr.scan?_codeUnlessOption hTest (by omega)))
  | member hBefore =>
      exact stands_member hFits hEmits hBefore

/- What stands in standing code stands. -/
theorem Stands.trans
    {lines : List Line}
    {s inner : Stmt}
    {k k' i d : Nat}
    (hStands : Stands t words lines s k i)
    (hEncloses : Encloses t s k inner k' d) :
    Stands t words lines inner k' (i + d) := by
  rcases hStands with
    ⟨hFits, before, ls, after, _, rfl, rfl, hEmits, hBefore⟩
  rcases hEncloses.stands hFits hEmits with
    ⟨hInner, front, ls', back, _, rfl, rfl, hEmits', hFront⟩
  refine ⟨hInner, before ++ front, ls', back ++ after, _,
    ?_, List.length_append, hEmits',
    Shape.scan?_append_of hBefore hFront⟩
  simp only [List.append_assoc]

/- Nothing is on the stack around standing code. -/
theorem Stands.pushedBy_eq_zero
    {lines : List Line}
    {s : Stmt}
    {k i : Nat}
    (hStands : Stands t words lines s k i) :
    ∃ before ls after k',
      lines = before ++ (ls ++ after) ∧
      before.length = i ∧
      (s.code t).Emits k ls k' ∧
      pushedBy before = 0 ∧
      pushedBy (before ++ ls) = 0 := by
  rcases hStands with
    ⟨hFits, before, ls, after, k', hLines, hLength, hEmits,
      hBefore⟩
  have hThrough :
      Shape.rest.scan? t words (before ++ ls) =
        some .rest :=
    Shape.scan?_append_of hBefore (scan?_code hEmits hFits)
  exact ⟨before, ls, after, k', hLines, hLength, hEmits,
    (Shape.length_stack_eq_pushedBy hBefore).symm,
    (Shape.length_stack_eq_pushedBy hThrough).symm⟩

end Stmt

/-
  The code of a statement of a program stands at a line of
  its routine, with a number of labels in use before it.
-/
inductive Program.Places
    (p : Program) :
    Stmt →
    Nat →
    Nat →
    Prop where
  | outermost
      {before after : List Stmt}
      {s : Stmt}
      {k : Nat}
      {ls : List Line}
      (hBody : p.body = before ++ s :: after)
      (hBefore : (Stmt.codeAll p.locals before).Emits 0 ls k) :
      p.Places s k ((prologue p.locals).length + ls.length)
  | inner
      {s s' : Stmt}
      {k k' pc d : Nat}
      (hOuter : p.Places s k pc)
      (hInner : Stmt.Encloses p.locals s k s' k' d) :
      p.Places s' k' (pc + d)

namespace Program

variable {p : Program}
variable {body : List Line}
variable {kEnd : Nat}

/- Statements of a program stand in the code of its body. -/
theorem Places.stands
    {s : Stmt}
    {k pc : Nat}
    (hBody :
      (Stmt.codeAll p.locals p.body).Emits 0 body kEnd)
    (hPlaces : p.Places s k pc) :
    ∃ i,
      pc = (prologue p.locals).length + i ∧
      Stmt.Stands p.locals (Stmt.wordsAll p.body) body s k
        i := by
  induction hPlaces with
  | outermost hSplit hBefore =>
      rw [hSplit] at hBody
      refine ⟨_, rfl, Stmt.stands_member ?_ hBody hBefore⟩
      exact Nat.le_of_eq (congrArg Stmt.wordsAll hSplit.symm)
  | inner _ hInner ih =>
      rcases ih with ⟨i, rfl, hStands⟩
      exact ⟨i + _, Nat.add_assoc _ _ _,
        hStands.trans hInner⟩

mutual

/- What is inside a placed statement is placed. -/
theorem exists_places_of_mem_parts
    {s s' : Stmt}
    {k pc : Nat}
    (hBody :
      (Stmt.codeAll p.locals p.body).Emits 0 body kEnd)
    (hPlaces : p.Places s k pc)
    (hMem : s' ∈ Stmt.parts s) :
    ∃ k' pc', p.Places s' k' pc' := by
  rcases hPlaces.stands hBody with
    ⟨_, -, -, _, _, _, _, -, -, hEmits, -⟩
  match s with
  | .expr e _ | .ret e _ =>
      cases List.mem_singleton.mp hMem
      exact ⟨k, pc, hPlaces⟩
  | .ifThen predicate thenArm _ =>
      rcases List.mem_cons.mp hMem with rfl | hInner
      · exact ⟨k, pc, hPlaces⟩
      · rcases Stmt.emits_ifThen hEmits with
          ⟨_, _, _, hTest, -⟩
        exact exists_places_of_mem_parts hBody
          (.inner hPlaces (.thenOnly hTest)) hInner
  | .ifElse predicate thenArm elseArm _ =>
      rcases List.mem_cons.mp hMem with rfl | hInner
      · exact ⟨k, pc, hPlaces⟩
      · rcases Stmt.emits_ifElse hEmits with
          ⟨_, _, _, _, _, hTest, hThen, -⟩
        rcases List.mem_append.mp hInner with
          hThenArm | hElseArm
        · exact exists_places_of_mem_parts hBody
            (.inner hPlaces (.thenArm hTest)) hThenArm
        · exact exists_places_of_mem_parts hBody
            (.inner hPlaces (.elseArm hTest hThen)) hElseArm
  | .whileLoop predicate inner _ =>
      rcases List.mem_cons.mp hMem with rfl | hInner
      · exact ⟨k, pc, hPlaces⟩
      · rcases Stmt.emits_whileLoop hEmits with
          ⟨_, _, _, hTest, -⟩
        exact exists_places_of_mem_parts hBody
          (.inner hPlaces (.whileBody hTest)) hInner
  | .forLoop init predicate step inner _ =>
      rcases List.mem_cons.mp hMem with rfl | hInner
      · exact ⟨k, pc, hPlaces⟩
      · rcases Stmt.emits_forLoop hEmits with
          ⟨_, _, _, _, _, _, _, hInit, hTest, -⟩
        exact exists_places_of_mem_parts hBody
          (.inner hPlaces (.forBody hTest hInit)) hInner
  | .block inner _ =>
      rcases List.mem_cons.mp hMem with rfl | hInner
      · exact ⟨k, pc, hPlaces⟩
      · apply exists_places_of_mem_partsAll hBody ?_ hInner
        intro before s after hSplit
        subst hSplit
        rw [Stmt.code, Stmt.codeAll_append,
          Emitter.emits_append] at hEmits
        rcases hEmits with ⟨_, _, _, hBefore, -⟩
        exact ⟨_, _, .inner hPlaces (.member hBefore)⟩

theorem exists_places_of_mem_partsAll
    {ss : List Stmt}
    {s' : Stmt}
    (hBody :
      (Stmt.codeAll p.locals p.body).Emits 0 body kEnd)
    (hEach :
      ∀ before s after,
        ss = before ++ s :: after →
        ∃ k pc, p.Places s k pc)
    (hMem : s' ∈ Stmt.partsAll ss) :
    ∃ k' pc', p.Places s' k' pc' := by
  match ss with
  | [] =>
      cases hMem
  | s :: ss =>
      rcases List.mem_append.mp hMem with hFirst | hRest
      · rcases hEach [] s ss rfl with ⟨_, _, hPlaces⟩
        exact exists_places_of_mem_parts hBody hPlaces hFirst
      · apply exists_places_of_mem_partsAll hBody ?_ hRest
        intro before s₁ after hSplit
        exact hEach (s :: before) s₁ after
          (congrArg (s :: ·) hSplit)

end

/- Every statement of a program is placed. -/
theorem exists_places
    {s : Stmt}
    (hBody :
      (Stmt.codeAll p.locals p.body).Emits 0 body kEnd)
    (hMem : s ∈ Stmt.partsAll p.body) :
    ∃ k pc, p.Places s k pc := by
  apply exists_places_of_mem_partsAll hBody ?_ hMem
  intro before s₁ after hSplit
  have hAll := hBody
  rw [hSplit, Stmt.codeAll_append,
    Emitter.emits_append] at hAll
  rcases hAll with ⟨_, _, _, hBefore, -⟩
  exact ⟨_, _, .outermost hSplit hBefore⟩

end Program

end WordLang
