import WordLang.Proofs.ExprCode

/-
  This file proves that the code of a statement does what
  evaluating the statement does.

  Between two statements nothing is pushed: the stack ends
  at the frame, the variables are in the frame, and `rax`
  holds the value of the last expression. From such a state
  the code of a statement leads to its own end, to the exit
  of the routine, or to a divide error. When evaluation runs
  out of rounds, the machine goes on for at least as many
  steps.

  Key definitions include:
    * `WordLang.Stmt.words`
    * `WordLang.Routine`
    * `WordLang.Routine.AtRest`
    * `WordLang.Routine.Realises`

  Key theorems include:
    * `WordLang.Routine.Realises.andThen`
    * `WordLang.Stmt.loop_realises`
    * `WordLang.Stmt.code_realises`
    * `WordLang.Stmt.codeAll_realises`
-/

namespace WordLang

------------------------------------------------------------
-- Room for Statements
------------------------------------------------------------

/- The words pushed by an expression that may be missing. -/
def Expr.wordsOption : Option Expr → Nat
| none => 0
| some e => e.words

namespace Stmt

mutual

/- The number of words a statement pushes at most. -/
def words : Stmt → Nat
| expr e _ => e.words
| ret e _ => e.words
| ifThen predicate thenArm _ =>
    max predicate.words (words thenArm)
| ifElse predicate thenArm elseArm _ =>
    max predicate.words
      (max (words thenArm) (words elseArm))
| whileLoop predicate body _ =>
    max predicate.words (words body)
| forLoop init predicate step body _ =>
    max
      (max (Expr.wordsOption init)
        (Expr.wordsOption predicate))
      (max (Expr.wordsOption step) (words body))
| block body _ => wordsAll body

/- The same, for statements one after another. -/
def wordsAll : List Stmt → Nat
| [] => 0
| s :: ss => max (words s) (wordsAll ss)

end

end Stmt

------------------------------------------------------------
-- Routines
------------------------------------------------------------

/-
  A running routine: its part of the stack, its code, whose
  labels are different, and the index of its exit.
-/
structure Routine extends Activation where
  code : List Line
  exit : Nat
  nodup_labels : (labelsOf code).Nodup
  label_exit : code[exit]? = some (.label .atExit)

namespace Routine

variable {R : Routine}
variable {m m' : Machine}

/- The state of the machine between two statements. -/
structure AtRest
    (R : Routine)
    (m : Machine)
    (env : Env) : Prop where
  holds : R.Holds m env.vars
  rax : m.rax = env.last.toBitVec
  rsp : m.rsp.toNat = R.bottom

/-
  The machine does what an ending says. It goes on at `pc`
  after a normal ending, goes to the exit with the value of
  a `return`, and meets a divide error after a fault. If
  evaluation gives up, it runs for `bound` steps.
-/
def Realises
    (R : Routine)
    (bound : Nat)
    (m : Machine)
    (pc : Nat) :
    Ending → Prop
| .normal env =>
    ∃ m',
      m.Reaches R.code m' ∧
      m'.pc = pc ∧
      R.AtRest m' env ∧
      R.Keeps m m'
| .returned value =>
    ∃ m',
      m.Reaches R.code m' ∧
      m'.pc = R.exit ∧
      m'.rax = value.toBitVec ∧
      m'.rbp = R.base ∧
      R.Keeps m m'
| .fault => m.Fails R.code
| .timeout => m.RunsFor R.code bound

namespace Realises

/- A state that is reached may come first. -/
theorem of_reaches
    {bound pc : Nat}
    {o : Ending}
    (hReaches : m.Reaches R.code m')
    (hKeeps : R.Keeps m m')
    (hRest : R.Realises bound m' pc o) :
    R.Realises bound m pc o := by
  cases o with
  | normal env =>
      obtain ⟨m₁, hLater, hPc, hAtRest, hKept⟩ := hRest
      exact ⟨m₁, hReaches.trans hLater, hPc, hAtRest,
        hKeeps.trans hKept⟩
  | returned value =>
      obtain ⟨m₁, hLater, hPc, hRax, hBase, hKept⟩ := hRest
      exact ⟨m₁, hReaches.trans hLater, hPc, hRax, hBase,
        hKeeps.trans hKept⟩
  | fault =>
      exact hReaches.fails hRest
  | timeout =>
      exact hReaches.runsFor hRest

/- One ending after another. -/
theorem andThen
    {bound pc pc' : Nat}
    {o : Ending}
    {next : Env → Ending}
    (hFirst : R.Realises bound m pc o)
    (hNext :
      ∀ env m',
        m'.pc = pc →
        R.AtRest m' env →
        R.Realises bound m' pc' (next env)) :
    R.Realises bound m pc' (o.andThen next) := by
  cases o with
  | normal env =>
      obtain ⟨m₁, hReaches, hPc, hAtRest, hKeeps⟩ := hFirst
      exact (hNext env m₁ hPc hAtRest).of_reaches hReaches
        hKeeps
  | returned value =>
      exact hFirst
  | fault =>
      exact hFirst
  | timeout =>
      exact hFirst

/- Fewer steps are enough for fewer rounds. -/
theorem mono
    {n bound pc : Nat}
    {o : Ending}
    (hRealises : R.Realises bound m pc o)
    (hLess : n ≤ bound) :
    R.Realises n m pc o := by
  cases o with
  | normal env =>
      exact hRealises
  | returned value =>
      exact hRealises
  | fault =>
      exact hRealises
  | timeout =>
      exact Machine.RunsFor.mono hRealises hLess

/- A step makes up for a round. -/
theorem step
    {n pc : Nat}
    {o : Ending}
    (hStep : m.step R.code = .running m')
    (hKeeps : R.Keeps m m')
    (hRest : R.Realises n m' pc o) :
    R.Realises (n + 1) m pc o := by
  have hReaches : m.Reaches R.code m' :=
    .step hStep (.refl _ _)
  cases o with
  | timeout =>
      exact Machine.RunsFor.succ hStep hRest
  | normal env =>
      exact of_reaches hReaches hKeeps hRest
  | returned value =>
      exact of_reaches hReaches hKeeps hRest
  | fault =>
      exact of_reaches hReaches hKeeps hRest

end Realises

end Routine

------------------------------------------------------------
-- Expressions in Statements
------------------------------------------------------------

namespace Routine

variable {R : Routine}
variable {m : Machine}

/- Between two statements there is room for all words. -/
theorem AtRest.room
    {env : Env}
    (hAtRest : R.AtRest m env)
    {n : Nat}
    (hWords : n ≤ R.words) :
    R.Room m 0 n :=
  ⟨by rw [hAtRest.rsp]; rfl, by omega⟩

/- Steps that leave registers and memory alone. -/
theorem AtRest.of_eq
    {m' : Machine}
    {env : Env}
    (hAtRest : R.AtRest m env)
    (hRax : m'.rax = m.rax)
    (hRsp : m'.rsp = m.rsp)
    (hRbp : m'.rbp = m.rbp)
    (hMemory : m'.memory = m.memory) :
    R.AtRest m' env := by
  refine ⟨hAtRest.holds.of_frame_eq hRbp ?_, ?_, ?_⟩
  · intro x _ _
    rw [hMemory]
  · rw [hRax]
    exact hAtRest.rax
  · rw [hRsp]
    exact hAtRest.rsp

end Routine

namespace Expr

variable {R : Routine}
variable {m : Machine}
variable {env : Env}
variable {k k' : Nat}
variable {ls : List Line}

/- The code of an expression in a statement. -/
theorem perform_realises
    (bound : Nat)
    {e : Expr}
    (hEmits : (e.code R.locals).Emits k ls k')
    (hCode : CodeAt R.code m.pc ls)
    (hAtRest : R.AtRest m env)
    (hWords : e.words ≤ R.words) :
    R.Realises bound m (m.pc + ls.length)
      (e.perform env) := by
  have hRuns :=
    code_runs e hEmits hCode hAtRest.holds
      (hAtRest.room hWords)
  rw [perform]
  cases hEval : e.eval env.vars with
  | none =>
      rw [hEval] at hRuns
      exact hRuns
  | some result =>
      obtain ⟨v, vars⟩ := result
      rw [hEval] at hRuns
      obtain ⟨m', hReaches, hLeaves⟩ := hRuns
      refine ⟨m', hReaches, hLeaves.pc, ⟨hLeaves.holds,
        hLeaves.rax, ?_⟩, hLeaves.keeps⟩
      rw [hLeaves.keeps.rsp]
      exact hAtRest.rsp

/- The code of an expression that may be left out. -/
theorem performOption_realises
    (bound : Nat)
    {e : Option Expr}
    (hEmits : (codeOption R.locals e).Emits k ls k')
    (hCode : CodeAt R.code m.pc ls)
    (hAtRest : R.AtRest m env)
    (hWords : wordsOption e ≤ R.words) :
    R.Realises bound m (m.pc + ls.length)
      (performOption e env) := by
  cases e with
  | none =>
      obtain ⟨rfl, rfl⟩ := Emitter.emits_nothing.mp hEmits
      exact ⟨m, .refl _ _, rfl, hAtRest,
        .of_memory_eq rfl rfl⟩
  | some e =>
      exact perform_realises bound hEmits hCode hAtRest
        hWords

/-
  The code of a predicate leads to its target when the value
  is zero, and to its end otherwise.
-/
theorem codeUnless_realises
    (bound : Nat)
    {e : Expr}
    {target : Label}
    {targetPc pc : Nat}
    {zero other : Env → Ending}
    (hEmits :
      (e.codeUnless R.locals target).Emits k ls k')
    (hCode : CodeAt R.code m.pc ls)
    (hTarget : R.code[targetPc]? = some (.label target))
    (hAtRest : R.AtRest m env)
    (hWords : e.words ≤ R.words)
    (hZero :
      ∀ env m',
        m'.pc = targetPc →
        R.AtRest m' env →
        R.Realises bound m' pc (zero env))
    (hOther :
      ∀ env m',
        m'.pc = m.pc + ls.length →
        R.AtRest m' env →
        R.Realises bound m' pc (other env)) :
    R.Realises bound m pc
      ((e.perform env).andThen fun env =>
        if env.last = 0 then zero env else other env) := by
  obtain ⟨ls', hTest, rfl, _, _⟩ := emits_codeUnless hEmits
  rw [CodeAt.append_iff] at hCode
  obtain ⟨hTestCode, hCmp, hJump, _⟩ := hCode
  apply (perform_realises bound hTest hTestCode hAtRest
    hWords).andThen
  intro env₁ m₁ hPc hAtRest₁
  rw [← hPc] at hCmp hJump
  let m₂ : Machine :=
    { m₁.next with flags := some (.ofSub m₁.rax 0) }
  have hCompared : m₁.Reaches R.code m₂ :=
    .instr hCmp rfl (.refl _ _)
  have hFlag :
      (Flags.ofSub m₁.rax 0).zero =
        decide (env₁.last = 0) := by
    have hZeroWord : (0 : Word) = (0 : Int64).toBitVec :=
      rfl
    rw [Flags.zero_ofSub, hAtRest₁.rax, hZeroWord]
    simp only [BitVec.toInt_inj, Int64.toBitVec_inj]
  by_cases hLast : env₁.last = 0
  · let m₃ : Machine := { m₂ with pc := targetPc }
    have hExec :
        m₂.exec R.code (.je target) = .running m₃ := by
      show (if (Flags.ofSub m₁.rax 0).zero then _
        else _) = _
      rw [hFlag, decide_eq_true hLast, if_pos rfl]
      exact Machine.jump_eq R.nodup_labels hTarget
    rw [if_pos hLast]
    apply (hZero env₁ m₃ rfl
      (hAtRest₁.of_eq rfl rfl rfl rfl)).of_reaches
    · exact hCompared.trans (.instr hJump hExec (.refl _ _))
    · exact .of_memory_eq rfl rfl
  · have hExec :
        m₂.exec R.code (.je target) =
          .running m₂.next := by
      show (if (Flags.ofSub m₁.rax 0).zero then _
        else _) = _
      rw [hFlag, decide_eq_false hLast]
      rfl
    rw [if_neg hLast]
    apply (hOther env₁ m₂.next ?_
      (hAtRest₁.of_eq rfl rfl rfl rfl)).of_reaches
    · exact hCompared.trans (.instr hJump hExec (.refl _ _))
    · exact .of_memory_eq rfl rfl
    · show m₁.pc + 1 + 1 = _
      rw [hPc]
      simp only [List.length_append, List.length_cons,
        List.length_nil]
      omega

end Expr

------------------------------------------------------------
-- Statements
------------------------------------------------------------

namespace Routine

variable {R : Routine}
variable {m : Machine}
variable {env : Env}

/- A label may stand in the way. -/
theorem Realises.label
    {bound pc : Nat}
    {o : Ending}
    {l : Label}
    (hLabel : R.code[m.pc]? = some (.label l))
    (hRest : R.Realises bound m.next pc o) :
    R.Realises bound m pc o :=
  hRest.of_reaches
    (.step (Machine.step_label hLabel) (.refl _ _))
    (.of_memory_eq rfl rfl)

/- Doing nothing realises a normal ending. -/
theorem AtRest.realises
    {bound pc : Nat}
    (hAtRest : R.AtRest m env)
    (hPc : m.pc = pc) :
    R.Realises bound m pc (.normal env) :=
  ⟨m, .refl _ _, hPc, hAtRest, .of_memory_eq rfl rfl⟩

/- The next line, after registers and memory as they are. -/
theorem AtRest.next
    (hAtRest : R.AtRest m env) :
    R.AtRest m.next env :=
  hAtRest.of_eq rfl rfl rfl rfl

/- A piece of code may end with a label. -/
theorem Realises.pastLabel
    {bound pc : Nat}
    {o : Ending}
    {l : Label}
    (hRealises : R.Realises bound m pc o)
    (hLabel : R.code[pc]? = some (.label l)) :
    R.Realises bound m (pc + 1) o := by
  rw [← o.andThen_normal]
  apply hRealises.andThen
  intro env m' hPc hAtRest
  apply Realises.label (by rwa [hPc])
  apply hAtRest.next.realises
  show m'.pc + 1 = _
  rw [hPc]

/- A piece of code may end with a jump. -/
theorem Realises.jump
    {bound pc pc' : Nat}
    {o : Ending}
    {l : Label}
    (hRealises : R.Realises bound m pc o)
    (hJump : R.code[pc]? = some (.instr (.jmp l)))
    (hLabel : R.code[pc']? = some (.label l)) :
    R.Realises bound m pc' o := by
  rw [← o.andThen_normal]
  apply hRealises.andThen
  intro env m' hPc hAtRest
  rw [← hPc] at hJump
  exact ⟨{ m' with pc := pc' }, .instr hJump
    (Machine.jump_eq R.nodup_labels hLabel) (.refl _ _),
    rfl, hAtRest.of_eq rfl rfl rfl rfl,
    .of_memory_eq rfl rfl⟩

end Routine

namespace Stmt

variable {R : Routine}

/-
  The code of a loop, from the label of its beginning on.
  The induction is on the rounds left: each one ends with a
  jump, which is a step for the round that is used up.
-/
theorem loop_realises
    {bound k k' beginPc jumpPc : Nat}
    {start finish : Label}
    (predicate : Option Expr)
    {round : Env → Ending}
    {ls : List Line}
    (hEmits :
      Emitter.Emits
        (match predicate with
        | none => .nothing
        | some e => e.codeUnless R.locals finish)
        k ls k')
    (hWords : Expr.wordsOption predicate ≤ R.words)
    (hBegin : R.code[beginPc]? = some (.label start))
    (hCode : CodeAt R.code (beginPc + 1) ls)
    (hJump : R.code[jumpPc]? = some (.instr (.jmp start)))
    (hFinish :
      R.code[jumpPc + 1]? = some (.label finish))
    (hRound :
      ∀ env m,
        m.pc = beginPc + 1 + ls.length →
        R.AtRest m env →
        R.Realises bound m jumpPc (round env))
    {n : Nat}
    (hRounds : n ≤ bound)
    {m : Machine}
    {env : Env}
    (hPc : m.pc = beginPc)
    (hAtRest : R.AtRest m env) :
    R.Realises n m (jumpPc + 2)
      (iterate predicate round n env) := by
  induction n generalizing m env with
  | zero =>
      exact ⟨m, rfl⟩
  | succ n ih =>
      have hAgain :
          ∀ env m,
            m.pc = beginPc + 1 + ls.length →
            R.AtRest m env →
            R.Realises (n + 1) m (jumpPc + 2)
              ((round env).andThen fun env =>
                iterate predicate round n env) := by
        intro env₁ m₁ hPc₁ hAtRest₁
        apply ((hRound env₁ m₁ hPc₁ hAtRest₁).mono
          hRounds).andThen
        intro env₂ m₂ hPc₂ hAtRest₂
        let m₃ : Machine := { m₂ with pc := beginPc }
        have hStep :
            m₂.step R.code = .running m₃ := by
          rw [Machine.step_instr (by rwa [hPc₂])]
          exact Machine.jump_eq R.nodup_labels hBegin
        exact (ih (by omega) (m := m₃) rfl
          (hAtRest₂.of_eq rfl rfl rfl rfl)).step hStep
          (.of_memory_eq rfl rfl)
      apply Routine.Realises.label (by rwa [hPc])
      have hNextPc : m.next.pc = beginPc + 1 := by
        show m.pc + 1 = _
        rw [hPc]
      rw [iterate]
      cases predicate with
      | none =>
          obtain ⟨rfl, rfl⟩ :=
            Emitter.emits_nothing.mp hEmits
          simp only [Option.isSome_none, Bool.false_eq_true,
            false_and, if_false]
          exact hAgain env m.next hNextPc hAtRest.next
      | some e =>
          simp only [Option.isSome_some, true_and]
          apply Expr.codeUnless_realises (n + 1) hEmits
            (by rwa [hNextPc]) hFinish hAtRest.next hWords
          · intro env₁ m₁ hPc₁ hAtRest₁
            exact (hAtRest₁.realises hPc₁).pastLabel hFinish
          · intro env₁ m₁ hPc₁ hAtRest₁
            apply hAgain env₁ m₁ ?_ hAtRest₁
            rw [hPc₁, hNextPc]

/- The code of a `return` leads to the exit. -/
theorem ret_realises
    (bound : Nat)
    {e : Expr}
    {span : Span}
    {k k' : Nat}
    {ls : List Line}
    {m : Machine}
    {env : Env}
    (hEmits : ((ret e span).code R.locals).Emits k ls k')
    (hCode : CodeAt R.code m.pc ls)
    (hAtRest : R.AtRest m env)
    (hWords : e.words ≤ R.words) :
    R.Realises bound m (m.pc + ls.length)
      ((ret e span).eval bound env) := by
  simp only [code, Emitter.emits_append,
    Emitter.emits_instrs] at hEmits
  obtain ⟨valueLines, _, _, hValue, ⟨rfl, rfl⟩, rfl⟩ :=
    hEmits
  rw [CodeAt.append_iff] at hCode
  obtain ⟨hValueCode, hJump, _⟩ := hCode
  rw [eval]
  apply (Expr.perform_realises bound hValue hValueCode
    hAtRest hWords).andThen
  intro env₁ m₁ hPc₁ hAtRest₁
  rw [← hPc₁] at hJump
  refine ⟨{ m₁ with pc := R.exit }, .instr hJump
    (Machine.jump_eq R.nodup_labels R.label_exit)
    (.refl _ _), rfl, hAtRest₁.rax, hAtRest₁.holds.base,
    .of_memory_eq rfl rfl⟩

mutual

/-
  The code of a statement, wherever it stands in a routine,
  does what evaluating the statement does.
-/
theorem code_realises
    (bound : Nat)
    {s : Stmt}
    {k k' : Nat}
    {ls : List Line}
    {m : Machine}
    {env : Env}
    (hEmits : (s.code R.locals).Emits k ls k')
    (hCode : CodeAt R.code m.pc ls)
    (hAtRest : R.AtRest m env)
    (hWords : s.words ≤ R.words) :
    R.Realises bound m (m.pc + ls.length)
      (s.eval bound env) := by
  match s with
  | expr e _ =>
      rw [code] at hEmits
      rw [eval]
      exact Expr.perform_realises bound hEmits hCode hAtRest
        hWords
  | ret e _ =>
      exact ret_realises bound hEmits hCode hAtRest hWords
  | ifThen predicate thenArm _ =>
      rcases emits_ifThen hEmits with
        ⟨testLines, _, thenLines, hTest, hThen, rfl⟩
      simp only [CodeAt.append_iff, CodeAt,
        and_true] at hCode
      obtain ⟨hTestCode, hThenCode, hFinish⟩ := hCode
      simp only [List.length_append, List.length_cons,
        List.length_nil, Nat.zero_add, ← Nat.add_assoc]
      rw [words] at hWords
      rw [eval]
      apply Expr.codeUnless_realises bound hTest hTestCode
        hFinish hAtRest (by omega)
      · intro env₁ m₁ hPc₁ hAtRest₁
        exact (hAtRest₁.realises hPc₁).pastLabel hFinish
      · intro env₁ m₁ hPc₁ hAtRest₁
        rw [← hPc₁] at hThenCode hFinish ⊢
        exact (code_realises bound hThen hThenCode hAtRest₁
          (by omega)).pastLabel hFinish
  | ifElse predicate thenArm elseArm _ =>
      rcases emits_ifElse hEmits with
        ⟨testLines, _, thenLines, _, elseLines, hTest,
          hThen, hElse, rfl⟩
      simp only [CodeAt.append_iff, CodeAt, and_true,
        List.length_cons, List.length_nil, Nat.zero_add,
        ← Nat.add_assoc] at hCode
      obtain ⟨hTestCode, hThenCode, ⟨hJump, hOrElse⟩,
        hElseCode, hFinish⟩ := hCode
      simp only [List.length_append, List.length_cons,
        List.length_nil, Nat.zero_add, ← Nat.add_assoc]
      rw [words] at hWords
      rw [eval]
      apply Expr.codeUnless_realises bound hTest hTestCode
        hOrElse hAtRest (by omega)
      · intro env₁ m₁ hPc₁ hAtRest₁
        apply Routine.Realises.label (by rwa [hPc₁])
        have hPc₂ :
            m₁.next.pc =
              m.pc + testLines.length + thenLines.length +
                1 + 1 :=
          congrArg (· + 1) hPc₁
        rw [← hPc₂] at hElseCode hFinish ⊢
        exact (code_realises bound hElse hElseCode
          hAtRest₁.next (by omega)).pastLabel hFinish
      · intro env₁ m₁ hPc₁ hAtRest₁
        rw [← hPc₁] at hThenCode hJump
        exact ((code_realises bound hThen hThenCode hAtRest₁
          (by omega)).jump hJump hFinish).pastLabel hFinish
  | whileLoop predicate body _ =>
      rcases emits_whileLoop hEmits with
        ⟨testLines, _, bodyLines, hTest, hBody, rfl⟩
      simp only [CodeAt.append_iff, CodeAt, and_true,
        List.length_cons, List.length_nil,
        Nat.zero_add] at hCode
      obtain ⟨hBegin, hTestCode, hBodyCode, hJump,
        hFinish⟩ := hCode
      simp only [List.length_append, List.length_cons,
        List.length_nil, Nat.zero_add, ← Nat.add_assoc]
      rw [words] at hWords
      rw [eval]
      apply loop_realises (some predicate) hTest
        (by rw [Expr.wordsOption]; omega) hBegin
        hTestCode hJump hFinish ?_ (Nat.le_refl bound) rfl
        hAtRest
      intro env₁ m₁ hPc₁ hAtRest₁
      rw [← hPc₁] at hBodyCode ⊢
      exact code_realises bound hBody hBodyCode hAtRest₁
        (by omega)
  | forLoop init predicate step body _ =>
      rcases emits_forLoop hEmits with
        ⟨initLines, _, testLines, _, bodyLines, _,
          stepLines, hInit, hTest, hBody, hStep, rfl⟩
      simp only [CodeAt.append_iff, CodeAt, and_true,
        List.length_cons, List.length_nil,
        Nat.zero_add] at hCode
      obtain ⟨hInitCode, hBegin, hTestCode, hBodyCode,
        hStepCode, hJump, hFinish⟩ := hCode
      simp only [List.length_append, List.length_cons,
        List.length_nil, Nat.zero_add, ← Nat.add_assoc]
      rw [words] at hWords
      rw [eval]
      apply (Expr.performOption_realises bound hInit
        hInitCode hAtRest (by omega)).andThen
      intro env₁ m₁ hPc₁ hAtRest₁
      apply loop_realises predicate hTest (by omega) hBegin
        hTestCode hJump hFinish ?_ (Nat.le_refl bound) hPc₁
        hAtRest₁
      intro env₂ m₂ hPc₂ hAtRest₂
      rw [← hPc₂] at hBodyCode hStepCode ⊢
      apply (code_realises bound hBody hBodyCode hAtRest₂
        (by omega)).andThen
      intro env₃ m₃ hPc₃ hAtRest₃
      rw [← hPc₃] at hStepCode ⊢
      exact Expr.performOption_realises bound hStep
        hStepCode hAtRest₃ (by omega)
  | block body _ =>
      rw [code] at hEmits
      rw [eval]
      exact codeAll_realises bound hEmits hCode hAtRest
        hWords

/- The same, for statements one after another. -/
theorem codeAll_realises
    (bound : Nat)
    {ss : List Stmt}
    {k k' : Nat}
    {ls : List Line}
    {m : Machine}
    {env : Env}
    (hEmits : (codeAll R.locals ss).Emits k ls k')
    (hCode : CodeAt R.code m.pc ls)
    (hAtRest : R.AtRest m env)
    (hWords : wordsAll ss ≤ R.words) :
    R.Realises bound m (m.pc + ls.length)
      (evalAll bound ss env) := by
  match ss with
  | [] =>
      rw [codeAll, Emitter.emits_nothing] at hEmits
      obtain ⟨rfl, rfl⟩ := hEmits
      rw [evalAll]
      exact hAtRest.realises rfl
  | s :: ss =>
      rw [codeAll, Emitter.emits_append] at hEmits
      obtain ⟨ls₁, _, ls₂, hFirst, hRest, rfl⟩ := hEmits
      rw [CodeAt.append_iff] at hCode
      rw [wordsAll] at hWords
      rw [evalAll]
      apply (code_realises bound hFirst hCode.1 hAtRest
        (by omega)).andThen
      intro env₁ m₁ hPc₁ hAtRest₁
      have hAll :=
        codeAll_realises bound hRest
          (by rw [hPc₁]; exact hCode.2) hAtRest₁
          (by omega)
      rwa [hPc₁, Nat.add_assoc, ← List.length_append]
        at hAll

end

end Stmt

end WordLang
